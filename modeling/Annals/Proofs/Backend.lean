import Annals.Backend
import Annals.Proofs.Store.Rows
import Mathlib.Data.Finset.Card
import Mathlib.Data.Finset.Range

/-!
# What backends answer

Open stores answer every query, so a backend over open stores refuses only scopes of two modes. The
terms and versions of all answers together stay within the bounds that are known beforehand.
-/

namespace Annals

namespace Metered

variable {α β : Type}

@[simp] theorem run_pure (a : α) (asked : Nat) :
    (pure a : Metered α).run asked = .ok (a, asked) := rfl

theorem run_bind_ok {x : Metered α} {f : α → Metered β} {a : α} {asked after : Nat}
    (h : x.run asked = .ok (a, after)) : (x >>= f).run asked = (f a).run after := by
  rw [StateT.run_bind, h]
  rfl

theorem run_bind_error {x : Metered α} {f : α → Metered β} {e : EngineError} {asked : Nat}
    (h : x.run asked = .error e) : (x >>= f).run asked = .error e := by
  rw [StateT.run_bind, h]
  rfl

/-- If the whole succeeds, then so do both parts. -/
theorem exists_run_of_bind {x : Metered α} {f : α → Metered β} {asked : Nat} {r : β × Nat}
    (h : (x >>= f).run asked = .ok r) :
    ∃ a after, x.run asked = .ok (a, after) ∧ (f a).run after = .ok r := by
  cases hx : x.run asked with
  | error e =>
    rw [run_bind_error hx] at h
    cases h
  | ok found =>
    obtain ⟨a, after⟩ := found
    rw [run_bind_ok hx] at h
    exact ⟨a, after, rfl, h⟩

/-- Where every step succeeds at a known cost, so does the whole list. -/
theorem run_mapM {g : α → Metered β} {h : α → β} {cost : α → Nat} {l : List α}
    (hg : ∀ a ∈ l, ∀ asked, (g a).run asked = .ok (h a, asked + cost a)) (asked : Nat) :
    (l.mapM g).run asked = .ok (l.map h, asked + l.foldr (fun a n => cost a + n) 0) := by
  induction l generalizing asked with
  | nil => rfl
  | cons a rest ih =>
    rw [List.mapM_cons, run_bind_ok (hg a List.mem_cons_self asked),
      run_bind_ok (ih (fun b hb => hg b (List.mem_cons_of_mem a hb)) _), run_pure]
    simp [Nat.add_assoc]

/-- Steps of one cost cost it as often as there are steps. -/
theorem run_mapM_const {g : α → Metered β} {h : α → β} {cost : Nat} {l : List α}
    (hg : ∀ a ∈ l, ∀ asked, (g a).run asked = .ok (h a, asked + cost)) (asked : Nat) :
    (l.mapM g).run asked = .ok (l.map h, asked + l.length * cost) := by
  have total : l.foldr (fun _ n => cost + n) 0 = l.length * cost := by
    clear hg
    induction l with
    | nil => rw [List.foldr_nil, List.length_nil, Nat.zero_mul]
    | cons a rest ih => rw [List.foldr_cons, ih, List.length_cons, Nat.succ_mul, Nat.add_comm]
  rw [run_mapM hg, total]

end Metered

theorem ScopePair.mode_eq_ok_iff {s : ScopePair} {mode : Mode} :
    s.mode = .ok mode ↔ s.dataset.mode = mode ∧ s.languageScope.mode = mode := by
  unfold ScopePair.mode
  split
  · next same => simp [same]
  · next differ =>
    simp only [reduceCtorEq, false_iff, not_and]
    rintro rfl h
    exact differ h.symm

/-- The mode of the scopes in which premises are looked up. -/
def Mode.premises : Mode → Mode
  | snapshot => snapshot
  | delta => snapshot
  | history => history

theorem Scope.mode_premises (s : Scope) : s.premises.mode = s.mode.premises := by
  cases s <;> rfl

theorem ScopePair.mode_premises {s : ScopePair} {mode : Mode} (h : s.mode = .ok mode) :
    s.premises.mode = .ok mode.premises := by
  obtain ⟨hd, hl⟩ := mode_eq_ok_iff.mp h
  refine mode_eq_ok_iff.mpr ⟨?_, ?_⟩
  · rw [ScopePair.premises, Scope.mode_premises, hd]
  · obtain ⟨dataset, language⟩ := s
    cases language with
    | none => exact (Scope.mode_premises dataset).trans (congrArg Mode.premises hd)
    | some scope => exact (Scope.mode_premises scope).trans (congrArg Mode.premises hl)

namespace Store

/-- The terms that were ever written to the store. -/
def terms (s : Store) : Finset Term :=
  (s.changesets.flatMap fun cs => cs.changes.flatMap fun c => c.fact.terms).toFinset

theorem card_terms_le (s : Store) : s.terms.card ≤ 3 * s.changeCount := by
  refine (List.toFinset_card_le _).trans (Nat.le_of_eq ?_)
  rw [changeCount]
  induction s.changesets with
  | nil => rfl
  | cons cs older ih =>
    have newest : (cs.changes.flatMap fun c => c.fact.terms).length = 3 * cs.changes.length := by
      simp [List.length_flatMap, Pattern.terms, Nat.mul_comm]
    rw [List.flatMap_cons, List.length_append, newest, ih, List.foldr_cons, Nat.mul_add]

variable {s : Store} {q : Query} {scope : Scope} {row : Triple}

/-- Every fact of an answer holds at some version. -/
theorem exists_version_of_mem_rows (h : row ∈ s.rows q scope) : ∃ v, row.fact ∈ s.stateAt v := by
  cases scope with
  | snapshot moment => exact ⟨moment.version, (mem_snapshotRows h).2.1⟩
  | delta stretch =>
    rcases (mem_deltaRows.mp h).2 with ⟨-, hf, -⟩ | ⟨-, hf, -⟩
    · exact ⟨stretch.stop, hf⟩
    · exact ⟨stretch.start, hf⟩
  | history =>
    obtain ⟨versions, -, ⟨v, hv⟩, members⟩ := mem_historyRows h
    exact ⟨v, ((members v).mp hv).2.1⟩

theorem isGround_of_mem_rows (h : row ∈ s.rows q scope) : row.fact.isGround = true := by
  obtain ⟨v, held⟩ := exists_version_of_mem_rows h
  exact isGround_of_mem_stateAt held

theorem get_mem_terms (h : row ∈ s.rows q scope) (i : Position) : row.fact.get i ∈ s.terms := by
  obtain ⟨v, hf⟩ := exists_version_of_mem_rows h
  obtain ⟨cs, hcs, -, c, hc, he⟩ := exists_change_of_mem_stateAt hf
  rw [← he]
  exact List.mem_toFinset.mpr (List.mem_flatMap.mpr
    ⟨cs, hcs, List.mem_flatMap.mpr ⟨c, hc, Pattern.get_mem_terms _ i⟩⟩)

/-- The versions up to the newest one. -/
def versions (s : Store) : Finset Version :=
  (Finset.range (s.maxVersion + 1).toNat).image Int.ofNat

theorem mem_versions {v : Version} (nonneg : 0 ≤ v) (le : v ≤ s.maxVersion) : v ∈ s.versions := by
  have below : v < s.maxVersion + 1 := Int.lt_add_one_of_le le
  exact Finset.mem_image.mpr ⟨v.toNat,
    Finset.mem_range.mpr ((Int.toNat_lt_toNat (Int.lt_of_le_of_lt nonneg below)).mpr below),
    Int.toNat_of_nonneg nonneg⟩

/-- An answer names versions from 0 to the newest one. -/
theorem version_mem_versions {versions : VersionSet} (h : row ∈ s.rows q scope)
    (hm : row.mark = .holding versions) {v : Version} (hv : v ∈ versions) :
    v ∈ s.versions := by
  cases scope with
  | snapshot moment =>
    rw [(mem_snapshotRows h).1] at hm
    cases hm
  | delta stretch => rcases (mem_deltaRows.mp h).2 with ⟨hc, -⟩ | ⟨hc, -⟩ <;> simp [hc] at hm
  | history =>
    obtain ⟨named, hnamed, -, members⟩ := mem_historyRows h
    obtain rfl : named = versions := Mark.holding.inj (hnamed.symm.trans hm)
    obtain ⟨le, hf, -⟩ := (members v).mp hv
    exact mem_versions (nonneg_of_mem_stateAt hf) le

end Store

namespace Source

/-- The terms that the answers of a source are made of. -/
def terms : Source → Finset Term
  | store s => s.terms
  | table rows _ => (rows.flatMap fun row => row.fact.terms).toFinset
  | guarded inner .. => inner.terms

/-- The versions that the answers of a source name. -/
def versions : Source → Finset Version
  | store s => s.versions
  | table rows _ => (rows.flatMap fun row => (row.mark.versions?.getD ∅).toList).toFinset
  | guarded inner .. => inner.versions

theorem card_terms_le (s : Source) : s.terms.card ≤ s.termBound := by
  induction s with
  | store s => exact s.card_terms_le
  | table rows latest =>
    refine (List.toFinset_card_le _).trans (Nat.le_of_eq ?_)
    simp [List.length_flatMap, Pattern.terms, termBound, Nat.mul_comm]
  | guarded inner place term failure ih => exact ih

theorem card_versions_le (s : Source) : s.versions.card ≤ s.versionBound := by
  induction s with
  | store s =>
    calc s.versions.card
      _ ≤ (Finset.range (s.maxVersion + 1).toNat).card := Finset.card_image_le
      _ = (s.maxVersion + 1).toNat := Finset.card_range _
  | table rows latest =>
    refine (List.toFinset_card_le _).trans (Nat.le_of_eq ?_)
    rw [versionBound]
    induction rows with
    | nil => rfl
    | cons row rest ih =>
      rw [List.flatMap_cons, List.length_append, ih, List.foldr_cons, OrderedSet.size]
  | guarded inner place term failure ih => exact ih

/-- The bounds cover all rows of all searches. -/
theorem covers {s : Source} {q : Query} {scope : Scope} {rows : List Triple} {row : Triple}
    (h : s.search q scope = .ok rows) (hrow : row ∈ rows) :
    (∀ i, row.fact.get i ∈ s.terms) ∧
      ∀ versions, row.mark = .holding versions → ∀ v ∈ versions.toList, v ∈ s.versions := by
  induction s with
  | store s =>
    obtain ⟨-, rfl⟩ := Store.search_eq_ok_iff.mp h
    refine ⟨Store.get_mem_terms hrow, fun versions hm v hv => ?_⟩
    exact Store.version_mem_versions hrow hm hv
  | table all latest =>
    obtain rfl := Except.ok.inj h
    obtain ⟨mem, -⟩ := List.mem_filter.mp hrow
    refine ⟨fun i => ?_, fun versions hm v hv => ?_⟩
    · exact List.mem_toFinset.mpr (List.mem_flatMap.mpr ⟨row, mem, Pattern.get_mem_terms _ i⟩)
    · exact List.mem_toFinset.mpr (List.mem_flatMap.mpr ⟨row, mem, by rw [hm]; exact hv⟩)
  | guarded inner place term failure ih =>
    simp only [search] at h
    split at h
    · cases h
    · exact ih h

end Source

namespace Backend

theorem width_eq (b : Backend) : b.width = if b.isDual then 2 else 1 := by
  cases b <;> rfl

/-- The terms that the answers of a backend are made of. -/
def terms (b : Backend) : Finset Term := b.sources.foldr (fun s all => s.terms ∪ all) ∅

/-- The versions that the answers of a backend name. -/
def versions (b : Backend) : Finset Version := b.sources.foldr (fun s all => s.versions ∪ all) ∅

end Backend

/-- The union of sets is no larger than the sum of their bounds. -/
theorem card_foldr_union_le {α σ : Type} [DecidableEq α] (sources : List σ) (members : σ → Finset α)
    (bound : σ → Nat) (h : ∀ s, (members s).card ≤ bound s) :
    (sources.foldr (fun s all => members s ∪ all) ∅).card ≤
      sources.foldr (fun s n => bound s + n) 0 := by
  induction sources with
  | nil => simp
  | cons s rest ih => exact (Finset.card_union_le _ _).trans (Nat.add_le_add (h s) ih)

theorem mem_foldr_union {α σ : Type} [DecidableEq α] {sources : List σ} {members : σ → Finset α}
    {s : σ} {a : α} (hs : s ∈ sources) (ha : a ∈ members s) :
    a ∈ sources.foldr (fun s all => members s ∪ all) ∅ := by
  induction sources with
  | nil => cases hs
  | cons t rest ih =>
    rcases List.mem_cons.mp hs with rfl | hs
    · exact Finset.mem_union_left _ ha
    · exact Finset.mem_union_right _ (ih hs)

namespace Backend

/-- Behind the backend there are stores that were not closed. -/
def OverOpenStores (b : Backend) : Prop :=
  ∀ source ∈ b.sources, ∃ s : Store, source = .store s ∧ s.closed = false

theorem overOpenStores_single {s : Store} (isOpen : s.closed = false) :
    (single (.store s)).OverOpenStores := by
  intro source hs
  obtain rfl := List.mem_singleton.mp hs
  exact ⟨s, rfl, isOpen⟩

variable {b : Backend} {q : Query} {scopes : ScopePair} {mode : Mode} {rows : List Triple}
  {row : Triple}

theorem rows_single_iff {source : Source} (h : scopes.mode = .ok mode) :
    (single source).rows q scopes = .ok rows ↔ source.search q scopes.dataset = .ok rows := by
  simp only [Backend.rows, search, h]
  cases source.search q scopes.dataset with
  | error e => exact ⟨nofun, nofun⟩
  | ok found => exact ⟨fun e => congrArg _ (Except.ok.inj e), fun e => congrArg _ (Except.ok.inj e)⟩

theorem rows_dual_iff {dataset language : Source} (h : scopes.mode = .ok mode) :
    (dual dataset language).rows q scopes = .ok rows ↔
      ∃ found schema, dataset.search q scopes.dataset = .ok found ∧
        language.search q scopes.languageScope = .ok schema ∧ found ++ schema = rows := by
  simp only [Backend.rows, search, h]
  cases dataset.search q scopes.dataset with
  | error e => exact ⟨nofun, nofun⟩
  | ok found =>
    cases language.search q scopes.languageScope with
    | error e => exact ⟨nofun, nofun⟩
    | ok schema =>
      constructor
      · intro e
        exact ⟨found, schema, rfl, rfl, Except.ok.inj e⟩
      · rintro ⟨_, _, ⟨⟩, ⟨⟩, rfl⟩
        rfl

theorem rows_store {s : Store} (h : scopes.mode = .ok mode) (isOpen : s.closed = false) :
    (single (.store s)).rows q scopes = .ok (s.rows q scopes.dataset) :=
  (rows_single_iff h).mpr (Store.search_eq_ok_iff.mpr ⟨isOpen, rfl⟩)

/-- A backend over open stores answers every query in scopes of one mode. -/
theorem exists_rows (ho : b.OverOpenStores) (h : scopes.mode = .ok mode) (q : Query) :
    ∃ rows, b.rows q scopes = .ok rows := by
  have answered : ∀ source ∈ b.sources, ∀ scope, ∃ rows, source.search q scope = .ok rows := by
    intro source hs scope
    obtain ⟨s, rfl, isOpen⟩ := ho source hs
    exact ⟨s.rows q scope, Store.search_eq_ok_iff.mpr ⟨isOpen, rfl⟩⟩
  cases b with
  | single source =>
    obtain ⟨rows, found⟩ := answered source (by simp [sources]) scopes.dataset
    exact ⟨rows, (rows_single_iff h).mpr found⟩
  | dual dataset language =>
    obtain ⟨rows, found⟩ := answered dataset (by simp [sources]) scopes.dataset
    obtain ⟨schema, also⟩ := answered language (by simp [sources]) scopes.languageScope
    exact ⟨rows ++ schema, (rows_dual_iff h).mpr ⟨rows, schema, found, also, rfl⟩⟩

/-- Every row of an answer is one that a source gave in a scope of the mode. -/
theorem exists_source_of_mem_rows (hm : scopes.mode = .ok mode) (h : b.rows q scopes = .ok rows)
    (hrow : row ∈ rows) :
    ∃ source ∈ b.sources, ∃ scope found, scope.mode = mode ∧
      source.search q scope = .ok found ∧ row ∈ found := by
  obtain ⟨hd, hl⟩ := ScopePair.mode_eq_ok_iff.mp hm
  cases b with
  | single source =>
    exact ⟨source, by simp [sources], _, rows, hd, (rows_single_iff hm).mp h, hrow⟩
  | dual dataset language =>
    obtain ⟨answer, schema, found, also, rfl⟩ := (rows_dual_iff hm).mp h
    rcases List.mem_append.mp hrow with hrow | hrow
    · exact ⟨dataset, by simp [sources], _, answer, hd, found, hrow⟩
    · exact ⟨language, by simp [sources], _, schema, hl, also, hrow⟩

theorem covers (hm : scopes.mode = .ok mode) (h : b.rows q scopes = .ok rows) (hrow : row ∈ rows) :
    (∀ i, row.fact.get i ∈ b.terms) ∧
      ∀ versions, row.mark = .holding versions → ∀ v ∈ versions.toList, v ∈ b.versions := by
  obtain ⟨source, hs, scope, found, -, hfound, hrow⟩ := exists_source_of_mem_rows hm h hrow
  obtain ⟨hterms, hversions⟩ := Source.covers hfound hrow
  exact ⟨fun i => mem_foldr_union hs (hterms i),
    fun versions he v hv => mem_foldr_union hs (hversions versions he v hv)⟩

/-- Over stores all facts of an answer are ground, and all marks are of the mode. -/
theorem stored_of_mem_rows (ho : b.OverOpenStores) (hm : scopes.mode = .ok mode)
    (h : b.rows q scopes = .ok rows) (hrow : row ∈ rows) :
    row.fact.isGround = true ∧ row.mark.Answers mode := by
  obtain ⟨source, hs, scope, found, rfl, hfound, hrow⟩ := exists_source_of_mem_rows hm h hrow
  obtain ⟨s, rfl, -⟩ := ho source hs
  obtain rfl : s.rows q scope = found := (Store.search_eq_ok_iff.mp hfound).2
  exact ⟨Store.isGround_of_mem_rows hrow, Store.mark_answers hrow⟩

/-- The rows that answer a query, none if it is refused. -/
def answers (b : Backend) (scopes : ScopePair) (q : Query) : List Triple :=
  (b.rows q scopes).toOption.getD []

theorem rows_eq_answers (ho : b.OverOpenStores) (hm : scopes.mode = .ok mode) (q : Query) :
    b.rows q scopes = .ok (b.answers scopes q) := by
  obtain ⟨rows, h⟩ := exists_rows ho hm q
  rw [answers, h]
  rfl

/-- Rows of open stores are only of facts that the query admits. -/
theorem admits_of_mem_answers (ho : b.OverOpenStores) (hm : scopes.mode = .ok mode)
    (h : row ∈ b.answers scopes q) : q.admits row.fact = true := by
  obtain ⟨source, hs, scope, found, -, hfound, hrow⟩ :=
    exists_source_of_mem_rows hm (rows_eq_answers ho hm q) h
  obtain ⟨s, rfl, -⟩ := ho source hs
  obtain rfl : s.rows q scope = found := (Store.search_eq_ok_iff.mp hfound).2
  exact Store.admits_of_mem_rows hrow

/-- A search of open stores costs one query a store. -/
theorem run_search_of_open (ho : b.OverOpenStores) (hm : scopes.mode = .ok mode) (q : Query)
    (asked : Nat) :
    (b.search q scopes).run asked = .ok (b.answers scopes q, asked + b.width) := by
  rw [run_search, rows_eq_answers ho hm]
  rfl

theorem answers_store {s : Store} (isOpen : s.closed = false) (hm : scopes.mode = .ok mode)
    (q : Query) : (single (.store s)).answers scopes q = s.rows q scopes.dataset := by
  rw [answers, rows_store hm isOpen]
  rfl

theorem answers_dual {dataset language : Store} (datasetOpen : dataset.closed = false)
    (languageOpen : language.closed = false) (hm : scopes.mode = .ok mode) (q : Query) :
    (dual (.store dataset) (.store language)).answers scopes q =
      dataset.rows q scopes.dataset ++ language.rows q scopes.languageScope := by
  have rows : (dual (.store dataset) (.store language)).rows q scopes =
      .ok (dataset.rows q scopes.dataset ++ language.rows q scopes.languageScope) :=
    (rows_dual_iff hm).mpr ⟨_, _, Store.search_eq_ok_iff.mpr ⟨datasetOpen, rfl⟩,
      Store.search_eq_ok_iff.mpr ⟨languageOpen, rfl⟩, rfl⟩
  rw [answers, rows]
  rfl

theorem overOpenStores_dual {dataset language : Store} (datasetOpen : dataset.closed = false)
    (languageOpen : language.closed = false) :
    (dual (.store dataset) (.store language)).OverOpenStores := by
  intro source hs
  rcases List.mem_cons.mp hs with rfl | hs
  · exact ⟨dataset, rfl, datasetOpen⟩
  · obtain rfl := List.mem_singleton.mp hs
    exact ⟨language, rfl, languageOpen⟩

/-- Except in a difference, a row says of some version that its fact holds there. -/
theorem exists_attests_iff (ho : b.OverOpenStores) (hm : scopes.mode = .ok mode)
    (hmode : mode ≠ .delta) {f : Fact} :
    (∃ row ∈ b.answers scopes q, row.fact = f) ↔ ∃ v, Attests (b.answers scopes q) v f := by
  constructor
  · rintro ⟨row, hrow, rfl⟩
    have marked := (stored_of_mem_rows ho hm (rows_eq_answers ho hm q) hrow).2
    have some_version : ∃ v, row.mark.HoldsAt v := by
      cases mode with
      | snapshot => exact ⟨0, marked ▸ trivial⟩
      | delta => exact absurd rfl hmode
      | history =>
        obtain ⟨versions, named, v, hv⟩ := marked
        exact ⟨v, named ▸ hv⟩
    obtain ⟨v, hv⟩ := some_version
    exact ⟨v, row, hrow, rfl, hv⟩
  · rintro ⟨v, row, hrow, rfl, -⟩
    exact ⟨row, hrow, rfl⟩

/-- In the given scopes a backend shows certain facts at each version: what a query finds is what it
admits of them. -/
def Shows (b : Backend) (scopes : ScopePair) (held : Version → Fact → Prop) : Prop :=
  ∀ q v f, Attests (b.answers scopes q) v f ↔ held v f ∧ q.admits f = true

theorem Shows.congr {held held' : Version → Fact → Prop} (h : b.Shows scopes held)
    (same : ∀ v f, held v f ↔ held' v f) : b.Shows scopes held' := by
  intro q v f
  rw [h q v f, same v f]

theorem shows_version {s : Store} (isOpen : s.closed = false) (v : Version) :
    (single (.store s)).Shows ⟨.version v, none⟩ fun _ f => f ∈ s.stateAt v := by
  intro q w f
  rw [answers_store isOpen rfl]
  exact Store.attests_snapshotRows

theorem shows_history {s : Store} (isOpen : s.closed = false) :
    (single (.store s)).Shows ⟨.history, none⟩ fun v f =>
      v ≤ s.maxVersion ∧ f ∈ s.stateAt v := by
  intro q v f
  rw [answers_store isOpen rfl, and_assoc]
  exact Store.attests_historyRows

/-- Two stores show at one version of each what either of them holds there. -/
theorem shows_dual {dataset language : Store} (datasetOpen : dataset.closed = false)
    (languageOpen : language.closed = false) {d l : Version} (hd : scopes.dataset = .version d)
    (hl : scopes.languageScope = .version l) :
    (dual (.store dataset) (.store language)).Shows scopes fun _ f =>
      f ∈ dataset.stateAt d ∨ f ∈ language.stateAt l := by
  have hm : scopes.mode = .ok .snapshot :=
    ScopePair.mode_eq_ok_iff.mpr ⟨by rw [hd]; rfl, by rw [hl]; rfl⟩
  intro q v f
  rw [answers_dual datasetOpen languageOpen hm, hd, hl, attests_append, or_and_right]
  exact or_congr Store.attests_snapshotRows Store.attests_snapshotRows

end Backend

end Annals
