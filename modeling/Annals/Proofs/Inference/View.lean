import Annals.Proofs.Inference.Run

/-!
# What is in play in a run

A run over stores can see the rows in the scopes of its query and those in the scopes in which
premises are looked up. All terms that it comes upon occur in these rows, in the rules or in the
query, and all versions in the rows, however large the history behind them is.
-/

namespace Annals

theorem ScopePair.premises_premises (s : ScopePair) : s.premises.premises = s.premises := by
  have whole : ∀ scope : Scope, scope.premises.premises = scope.premises := by
    rintro (_ | _ | _) <;> rfl
  obtain ⟨dataset, _ | language⟩ := s <;> simp [premises, whole]

/-- Whatever row answers a query, the query for everything has a row with its fact, and rows with
all versions that it names. -/
theorem Store.exists_row_of_mem_rows {s : Store} {q : Query} {scope : Scope} {row : Triple}
    (h : row ∈ s.rows q scope) :
    (∃ other ∈ s.rows .any scope ++ s.rows .any scope.premises, other.fact = row.fact) ∧
      ∀ vs, row.mark = .holding vs → ∀ v, v ∈ vs →
        ∃ other ∈ s.rows .any scope, ∃ ws, other.mark = .holding ws ∧ v ∈ ws := by
  cases scope with
  | snapshot moment =>
    obtain ⟨plain, held, -⟩ := mem_snapshotRows h
    obtain ⟨other, hother, he, -⟩ :=
      (attests_snapshotRows (w := 0)).mpr ⟨held, Query.admits_any row.fact⟩
    refine ⟨⟨other, List.mem_append_right _ hother, he⟩, fun vs hv => ?_⟩
    cases plain.symm.trans hv
  | delta stretch =>
    have again : row ∈ s.rows .any (.delta stretch) :=
      mem_deltaRows.mpr ⟨Query.admits_any row.fact, (mem_deltaRows.mp h).2⟩
    refine ⟨⟨row, List.mem_append_left _ again, rfl⟩, fun vs hv => ?_⟩
    obtain ⟨asserted, changed⟩ : ∃ asserted, row.mark = .change asserted := mark_answers h
    cases changed.symm.trans hv
  | history =>
    obtain ⟨vs, hm, ⟨v, hv⟩, members⟩ := mem_historyRows h
    have attested : ∀ w, w ∈ vs → Attests (s.historyRows .any) w row.fact := fun w hw =>
      attests_historyRows.mpr
        ⟨((members w).mp hw).1, ((members w).mp hw).2.1, Query.admits_any row.fact⟩
    constructor
    · obtain ⟨other, hother, he, -⟩ := attested v hv
      exact ⟨other, List.mem_append_left _ hother, he⟩
    · intro us hu w hw
      obtain rfl := Mark.holding.inj (hm.symm.trans hu)
      obtain ⟨other, hother, -, holds⟩ := attested w hw
      obtain ⟨ws, hws, -⟩ := mem_historyRows hother
      rw [hws] at holds
      exact ⟨other, hother, ws, hws, holds⟩

theorem Mark.Answers.versions?_eq_none {mode : Mode} {m : Mark} (h : m.Answers mode)
    (single : mode ≠ .history) : m.versions? = none := by
  cases mode with
  | snapshot =>
    subst h
    rfl
  | delta =>
    obtain ⟨asserted, rfl⟩ := h
    rfl
  | history => exact absurd rfl single

namespace Backend

/-- Behind the backend there are stores. -/
def OverStores (b : Backend) : Prop := ∀ source ∈ b.sources, ∃ s : Store, source = .store s

/-- The sources, each with the scope in which it is asked. -/
def placed (b : Backend) (scopes : ScopePair) : List (Source × Scope) :=
  match b with
  | single store => [(store, scopes.dataset)]
  | dual dataset language => [(dataset, scopes.dataset), (language, scopes.languageScope)]

/-- The rows that a run can see: those in the scopes of the query and those in the scopes in which
premises are looked up. -/
def view (b : Backend) (scopes : ScopePair) : List Triple :=
  b.answers scopes .any ++ b.answers scopes.premises .any

variable {b : Backend} {q : Query} {scopes : ScopePair} {mode : Mode} {row : Triple}

theorem placed_premises {source : Source} {scope : Scope} (h : (source, scope) ∈ b.placed scopes) :
    (source, scope.premises) ∈ b.placed scopes.premises := by
  have language : scopes.premises.languageScope = scopes.languageScope.premises := by
    obtain ⟨dataset, _ | language⟩ := scopes <;> rfl
  cases b with
  | single store =>
    obtain ⟨rfl, rfl⟩ := Prod.mk.inj (List.mem_singleton.mp h)
    exact List.mem_singleton.mpr rfl
  | dual dataset schema =>
    rw [placed, List.mem_pair] at h ⊢
    refine h.imp (fun he => ?_) fun he => ?_
    · obtain ⟨rfl, rfl⟩ := Prod.mk.inj he
      rfl
    · obtain ⟨rfl, rfl⟩ := Prod.mk.inj he
      rw [language]

/-- The rows of an answer are those of the stores in their scopes. -/
theorem mem_answers_iff (ho : b.OverOpenStores) (hm : scopes.mode = .ok mode) :
    row ∈ b.answers scopes q ↔
      ∃ s scope, (.store s, scope) ∈ b.placed scopes ∧ row ∈ s.rows q scope := by
  cases b with
  | single source =>
    obtain ⟨s, rfl, isOpen⟩ := ho source (by simp [sources])
    simp [answers_store isOpen hm, placed]
  | dual dataset language =>
    obtain ⟨s, rfl, isOpen⟩ := ho dataset (by simp [sources])
    obtain ⟨t, rfl, isOpen'⟩ := ho language (by simp [sources])
    simp [answers_dual isOpen isOpen' hm, placed, or_and_right, exists_or]

/-- A backend over stores that answers has open ones only. -/
theorem overOpenStores_of_rows {rows : List Triple} (stores : b.OverStores)
    (hm : scopes.mode = .ok mode) (h : b.rows q scopes = .ok rows) : b.OverOpenStores := by
  intro source hs
  obtain ⟨s, rfl⟩ := stores source hs
  refine ⟨s, rfl, ?_⟩
  cases b with
  | single store =>
    obtain rfl := List.mem_singleton.mp hs
    exact (Store.search_eq_ok_iff.mp ((rows_single_iff hm).mp h)).1
  | dual dataset language =>
    obtain ⟨found, schema, first, second, -⟩ := (rows_dual_iff hm).mp h
    rcases List.mem_pair.mp hs with rfl | rfl
    · exact (Store.search_eq_ok_iff.mp first).1
    · exact (Store.search_eq_ok_iff.mp second).1

/-- Whatever row answers a query in the scopes of a run, the run can see its fact and the versions
that it names. -/
theorem exists_view {asked : ScopePair} (ho : b.OverOpenStores)
    (place : asked = scopes ∨ asked = scopes.premises) (hm : asked.mode = .ok mode)
    (h : row ∈ b.answers asked q) :
    (∃ other ∈ b.view scopes, other.fact = row.fact) ∧
      ∀ vs, row.mark = .holding vs → ∀ v, v ∈ vs →
        ∃ other ∈ b.view scopes, ∃ ws, other.mark = .holding ws ∧ v ∈ ws := by
  obtain ⟨s, scope, hplaced, hrow⟩ := (mem_answers_iff ho hm).mp h
  have same : asked.premises = scopes.premises := by
    rcases place with rfl | rfl
    · rfl
    · exact scopes.premises_premises
  have lookedUp := placed_premises hplaced
  have premises := ScopePair.mode_premises hm
  rw [same] at lookedUp premises
  have inScope : ∀ other ∈ s.rows .any scope, other ∈ b.view scopes := by
    intro other hother
    have answered := (mem_answers_iff ho hm).mpr ⟨s, scope, hplaced, hother⟩
    rcases place with rfl | rfl
    · exact List.mem_append_left _ answered
    · exact List.mem_append_right _ answered
  obtain ⟨⟨other, hother, fact⟩, versions⟩ := Store.exists_row_of_mem_rows hrow
  refine ⟨⟨other, ?_, fact⟩, fun vs hv v hmem => ?_⟩
  · rcases List.mem_append.mp hother with hother | hother
    · exact inScope other hother
    · exact List.mem_append_right _
        ((mem_answers_iff ho premises).mpr ⟨s, _, lookedUp, hother⟩)
  · obtain ⟨other, hother, named⟩ := versions vs hv v hmem
    exact ⟨other, inScope other hother, named⟩

/-- The terms that occur in the rows that a run can see, in the rules or in the query. -/
def termsInPlay (b : Backend) (rules : RuleSet) (q : Query) (scopes : ScopePair) : Finset Term :=
  ((b.view scopes).flatMap (fun row => row.fact.terms) ++
    rules.rules.flatMap (fun r => (r.body ++ r.head).flatMap Pattern.terms) ++
    Position.all.filterMap q.get).toFinset

/-- The versions that occur in the rows that a run can see. -/
def versionsInPlay (b : Backend) (scopes : ScopePair) : Finset Version :=
  ((b.view scopes).flatMap fun row => (row.mark.versions?.getD ∅).toList).toFinset

variable {rules : RuleSet} {versions : Finset Version}

theorem get_mem_termsInPlay_of_mem_view (h : row ∈ b.view scopes) (i : Position) :
    row.fact.get i ∈ b.termsInPlay rules q scopes := by
  have listed : row.fact.get i ∈ (b.view scopes).flatMap fun row => row.fact.terms :=
    List.mem_flatMap.mpr ⟨row, h, Pattern.get_mem_terms _ i⟩
  exact List.mem_toFinset.mpr (List.mem_append_left _ (List.mem_append_left _ listed))

/-- The constants in the conclusions of narrowed rules come from the rules or from the query. -/
theorem get_mem_termsInPlay_of_mem_head {n : Rule} {c : Pattern} {i : Position}
    (hn : n ∈ rules.applicable q) (hc : c ∈ n.head) (constant : (c.get i).isVariable = false) :
    c.get i ∈ b.termsInPlay rules q scopes := by
  obtain ⟨r, hr, narrowed⟩ := List.mem_filterMap.mp hn
  obtain ⟨d, rfl, values⟩ := Rule.exists_binding_of_narrow? narrowed
  obtain ⟨origin, horigin, rfl⟩ := List.mem_map.mp hc
  rw [Pattern.get_bind] at constant ⊢
  rcases Binding.resolve_eq_constant constant rfl with same | ⟨-, value⟩
  · have listed : origin.get i ∈ rules.rules.flatMap
        (fun r => (r.body ++ r.head).flatMap Pattern.terms) :=
      List.mem_flatMap.mpr ⟨r, hr, List.mem_flatMap.mpr
        ⟨origin, List.mem_append_right _ horigin, Pattern.get_mem_terms origin i⟩⟩
    rw [← same]
    exact List.mem_toFinset.mpr (List.mem_append_left _ (List.mem_append_right _ listed))
  · obtain ⟨-, -, j, -, named, -⟩ := (values _ _).mp value
    exact List.mem_toFinset.mpr
      (List.mem_append_right _ (List.mem_filterMap.mpr ⟨j, Position.mem_all j, named⟩))

theorem mem_versionsInPlay {vs : VersionSet} {v : Version} (h : row ∈ b.view scopes)
    (hm : row.mark = .holding vs) (hv : v ∈ vs) : v ∈ b.versionsInPlay scopes := by
  refine List.mem_toFinset.mpr (List.mem_flatMap.mpr ⟨row, h, ?_⟩)
  rw [hm]
  exact hv

/-- At one version, or between two, a run sees no row that names versions. -/
theorem versionsInPlay_eq_empty (ho : b.OverOpenStores) (hm : scopes.mode = .ok mode)
    (single : mode ≠ .history) : b.versionsInPlay scopes = ∅ := by
  have premises : mode.premises ≠ .history := by cases mode <;> simp_all [Mode.premises]
  have unnamed : ∀ {m : Mode} {asked : ScopePair}, asked.mode = .ok m → m ≠ .history →
      ∀ row ∈ b.answers asked .any, row.mark.versions? = none := by
    intro m asked hasked other row hrow
    have answered := rows_eq_answers ho hasked .any
    exact (stored_of_mem_rows ho hasked answered hrow).2.versions?_eq_none other
  have none : ∀ row ∈ b.view scopes, (row.mark.versions?.getD ∅).toList = [] := by
    intro row hrow
    rcases List.mem_append.mp hrow with hrow | hrow
    · rw [unnamed hm single row hrow]
      rfl
    · rw [unnamed (ScopePair.mode_premises hm) premises row hrow]
      rfl
  rw [versionsInPlay, List.flatMap_eq_nil_iff.mpr none]
  rfl

/-- The constants in play, at versions among which there are those in play. -/
def stage (b : Backend) (rules : RuleSet) (q : Query) (scopes : ScopePair)
    (versions : Finset Version) (inhabited : versions.Nonempty) : Universe where
  terms := (b.termsInPlay rules q scopes).filter fun t => t.isVariable = false
  versions := versions
  constants _ ht := (Finset.mem_filter.mp ht).2
  inhabited := inhabited

/-- The stage covers the rows that a run gets to see. -/
theorem covers_stage (ho : b.OverOpenStores) (inhabited : versions.Nonempty)
    (within : b.versionsInPlay scopes ⊆ versions) {asked : ScopePair} {other : Query}
    (place : asked = scopes ∨ asked = scopes.premises) (hm : asked.mode = .ok mode)
    (h : row ∈ b.answers asked other) :
    (b.stage rules q scopes versions inhabited).Covers mode row := by
  obtain ⟨ground, marked⟩ := stored_of_mem_rows ho hm (rows_eq_answers ho hm other) h
  obtain ⟨⟨seen, hseen, same⟩, named⟩ := exists_view ho place hm h
  refine ⟨Universe.mem_facts.mpr fun i => Finset.mem_filter.mpr ⟨?_, ?_⟩, marked,
    fun vs hv v hmem => ?_⟩
  · rw [← same]
    exact get_mem_termsInPlay_of_mem_view hseen i
  · exact Pattern.isGround_iff.mp ground i
  · obtain ⟨witness, hwitness, ws, hws, hvs⟩ := named vs hv v hmem
    exact within (mem_versionsInPlay hwitness hws hvs)

/-- What a run reads, within the terms and versions in play. -/
def stageSetting (b : Backend) (ho : b.OverOpenStores) (hm : scopes.mode = .ok mode)
    (rules : RuleSet) (q : Query) (inhabited : versions.Nonempty)
    (within : b.versionsInPlay scopes ⊆ versions) : Setting mode (rules.applicable q) where
  toUniverse := b.stage rules q scopes versions inhabited
  answers := b.answers scopes.premises
  fitting _ _ hrow :=
    (covers_stage ho inhabited within (Or.inr rfl) (ScopePair.mode_premises hm)
      hrow).admits_premise
  heads _ hn _ hc _ constant :=
    Finset.mem_filter.mpr ⟨get_mem_termsInPlay_of_mem_head hn hc constant, constant⟩

theorem card_points_stage_le {inhabited : versions.Nonempty} :
    (b.stage rules q scopes versions inhabited).points.card ≤
      (b.termsInPlay rules q scopes).card ^ 3 * versions.card := by
  have fewer : (b.stage rules q scopes versions inhabited).terms.card ≤
      (b.termsInPlay rules q scopes).card := Finset.card_filter_le _ _
  calc (b.stage rules q scopes versions inhabited).points.card
    _ ≤ (b.stage rules q scopes versions inhabited).terms.card *
          (b.stage rules q scopes versions inhabited).terms.card *
          (b.stage rules q scopes versions inhabited).terms.card * versions.card :=
      Universe.card_points_le
    _ ≤ (b.termsInPlay rules q scopes).card ^ 3 * versions.card := by
      rw [← sq, ← pow_succ]
      exact Nat.mul_le_mul_right _ (Nat.pow_le_pow_left fewer 3)

end Backend

end Annals
