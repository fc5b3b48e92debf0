import Annals.Proofs.Alias.Search
import Annals.Proofs.Store.Listing

/-!
# What one store answers under aliases

A search of one store for a version, or for all of them, answers with what the facts held there are
shown as, where the names of a term are those that an identity predicate links to it. The canonical
answer is part of the one that shows all names.

A query built for given terms fixes constants only. One that has a variable for a term shows more
than its names: the variable is looked up as an open place, and so all linked terms are taken for
names of it.
-/

namespace Annals

/-- A variable is no name of a constant, as it is at no end of a link. -/
theorem not_aliased_of_isVariable {identity : List Term} {facts : Fact → Prop} {x y : Term}
    (ground : ∀ f, facts f → f.isGround = true) (hx : x.isVariable = true)
    (hy : y.isVariable = false) : ¬ Aliased identity facts x y := by
  have apart : ∀ t : Term, t.isVariable = false → t ≠ x := by
    rintro t constant rfl
    cases hx.symm.trans constant
  rintro (same | ⟨f, hf, -, ⟨atStart, -⟩ | ⟨-, atEnd⟩⟩)
  · exact apart y hy same.symm
  · exact apart _ (Pattern.isGround_iff.mp (ground f hf) .subject) atStart
  · exact apart _ (Pattern.isGround_iff.mp (ground f hf) .object) atEnd

namespace Store

variable {s : Store} (isOpen : s.closed = false) {identity : List Term}
  (constants : ∀ p ∈ identity, p.isVariable = false) (q : Query) (reconcile : Reconcile)

include isOpen constants

/-- A search for a version shows what holds there, under the names that are found there. -/
theorem snapshot_under_aliases (v : Version) :
    ∃ answer, (Backend.single (.store s)).searchUnderAliases identity q ⟨.version v, none⟩
        reconcile = .ok answer ∧
      (answer.rows.map Triple.fact).Nodup ∧
      ∀ row, row ∈ answer.rows ↔ row.mark = .plain ∧ ∃ g ∈ s.stateAt v,
        q.Renders reconcile (Called identity (· ∈ s.stateAt v)) g row.fact := by
  have ho := Backend.overOpenStores_single isOpen
  have shows := Backend.shows_version isOpen v
  obtain ⟨answer, ok, nodup, rows⟩ := Backend.exists_snapshot_answer ho identity q rfl shows shows
    reconcile
  refine ⟨answer, ok, nodup, fun row => ?_⟩
  rw [rows, named_eq_called constants]
  simp only [exists_const]

/-- A search over all versions shows what holds at each of them up to the newest one, under the names
that are found at any version. -/
theorem history_under_aliases :
    ∃ answer, (Backend.single (.store s)).searchUnderAliases identity q ⟨.history, none⟩
        reconcile = .ok answer ∧
      (answer.rows.map Triple.fact).Nodup ∧
      (∀ row ∈ answer.rows, ∃ versions, row.mark = .holding versions ∧ ∃ w, w ∈ versions) ∧
      ∀ w t, (∃ versions, ⟨t, .holding versions⟩ ∈ answer.rows ∧ w ∈ versions) ↔
        w ≤ s.maxVersion ∧ ∃ g ∈ s.stateAt w,
          q.Renders reconcile (Called identity fun f => ∃ u, f ∈ s.stateAt u) g t := by
  have ho := Backend.overOpenStores_single isOpen
  have shows := Backend.shows_history isOpen
  obtain ⟨answer, ok, nodup, marked, rows⟩ := Backend.exists_history_answer ho identity q rfl shows
    shows reconcile
  refine ⟨answer, ok, nodup, marked, fun w t => ?_⟩
  rw [rows, ← exists_and_left, named_eq_called constants]
  refine exists_congr fun g => ?_
  rw [and_assoc]
  simp only [s.exists_le_maxVersion_iff]

end Store

/-- Under aliases a canonical search of a store shows the facts that the query asks for, each once:
a fact with the query's terms where it fixes them, if some fact that is held differs from it only
there and only in what these terms are called. Names are those of the version that is searched, or of
any version if all are searched, and then each fact comes with the versions at which it is shown. -/
theorem canonical_search_shows_held_facts (s : Store) (isOpen : s.closed = false)
    (identity : List Term) (constants : ∀ p ∈ identity, p.isVariable = false) (q : Query) :
    (∀ v, ∃ answer, (Backend.single (.store s)).searchUnderAliases identity q ⟨.version v, none⟩
        .canonicalize = .ok answer ∧
      (answer.rows.map Triple.fact).Nodup ∧
      ∀ row, row ∈ answer.rows ↔ row.mark = .plain ∧ ∃ g ∈ s.stateAt v,
        q.Canonicalizes (Called identity (· ∈ s.stateAt v)) g row.fact) ∧
    ∃ answer, (Backend.single (.store s)).searchUnderAliases identity q ⟨.history, none⟩
        .canonicalize = .ok answer ∧
      (answer.rows.map Triple.fact).Nodup ∧
      (∀ row ∈ answer.rows, ∃ versions, row.mark = .holding versions ∧ ∃ w, w ∈ versions) ∧
      ∀ w t, (∃ versions, ⟨t, .holding versions⟩ ∈ answer.rows ∧ w ∈ versions) ↔
        w ≤ s.maxVersion ∧ ∃ g ∈ s.stateAt w,
          q.Canonicalizes (Called identity fun f => ∃ u, f ∈ s.stateAt u) g t :=
  ⟨Store.snapshot_under_aliases isOpen constants q .canonicalize,
    Store.history_under_aliases isOpen constants q .canonicalize⟩

namespace Sample

def tullyIsCicero : Fact := ⟨⟨"tully"⟩, ⟨"same"⟩, ⟨"cicero"⟩⟩

def ciceroSpeaksLatin : Fact := ⟨⟨"cicero"⟩, ⟨"speaks"⟩, ⟨"latin"⟩⟩

def tullySpeaksLatin : Fact := ⟨⟨"tully"⟩, ⟨"speaks"⟩, ⟨"latin"⟩⟩

/-- What is known of Cicero is not said of Tully. -/
def romans : Store where
  changesets := [⟨0, [⟨tullyIsCicero, true, by decide⟩, ⟨ciceroSpeaksLatin, true, by decide⟩]⟩]
  closed := false
  descending := by decide
  nonneg := by decide

/-- What does Tully speak? -/
theorem fixing_tully : Query.fixing (some ⟨"tully"⟩) (some ⟨"speaks"⟩) none =
    ⟨some ⟨"tully"⟩, some ⟨"speaks"⟩, none⟩ := by decide

theorem ciceroSpeaksLatin_as_tully {facts : Fact → Prop} (h : facts tullyIsCicero) :
    (Query.fixing (some ⟨"tully"⟩) (some ⟨"speaks"⟩) none).Canonicalizes
      (Called [⟨"same"⟩] facts) ciceroSpeaksLatin tullySpeaksLatin := by
  rw [fixing_tully]
  constructor
  · rintro (_ | _ | _) x ⟨⟩
    · exact ⟨Or.inr ⟨tullyIsCicero, h, List.mem_cons_self, Or.inl ⟨Or.inr rfl, rfl⟩⟩, rfl⟩
    · exact ⟨Or.inl rfl, rfl⟩
  · rintro (_ | _ | _) ⟨⟩
    rfl

end Sample

theorem canonical_search_of_romans :
    Sample.romans.closed = false ∧ (∀ p ∈ [(⟨"same"⟩ : Term)], p.isVariable = false) ∧
      (∃ answer, (Backend.single (.store Sample.romans)).searchUnderAliases [⟨"same"⟩]
          (.fixing (some ⟨"tully"⟩) (some ⟨"speaks"⟩) none) ⟨.version 0, none⟩ .canonicalize =
          .ok answer ∧ ⟨Sample.tullySpeaksLatin, .plain⟩ ∈ answer.rows) ∧
      ∃ answer, (Backend.single (.store Sample.romans)).searchUnderAliases [⟨"same"⟩]
          (.fixing (some ⟨"tully"⟩) (some ⟨"speaks"⟩) none) ⟨.history, none⟩ .canonicalize =
          .ok answer ∧
        ∃ versions, ⟨Sample.tullySpeaksLatin, .holding versions⟩ ∈ answer.rows ∧ 0 ∈ versions := by
  have constants : ∀ p ∈ [(⟨"same"⟩ : Term)], p.isVariable = false := by decide
  obtain ⟨alone, answer, ok, -, -, shown⟩ := canonical_search_shows_held_facts Sample.romans rfl
    [⟨"same"⟩] constants (.fixing (some ⟨"tully"⟩) (some ⟨"speaks"⟩) none)
  obtain ⟨first, found, -, rows⟩ := alone 0
  have linked : Sample.tullyIsCicero ∈ Sample.romans.stateAt 0 := by decide +kernel
  have held : Sample.ciceroSpeaksLatin ∈ Sample.romans.stateAt 0 := by decide +kernel
  refine ⟨rfl, constants, ⟨first, found, (rows _).mpr ⟨rfl, _, held, ?_⟩⟩, answer, ok,
    (shown 0 _).mpr ⟨by decide, _, held, ?_⟩⟩
  · exact Sample.ciceroSpeaksLatin_as_tully linked
  · exact Sample.ciceroSpeaksLatin_as_tully ⟨0, linked⟩

namespace Sample

/-- What does someone speak? The variable is a term that the query asks for. -/
def whoSpeaks : Query := ⟨some ⟨"?x"⟩, some ⟨"speaks"⟩, none⟩

def someoneSpeaksLatin : Fact := ⟨⟨"?x"⟩, ⟨"speaks"⟩, ⟨"latin"⟩⟩

/-- No link is one of a variable. -/
theorem not_aliased_variable {g : Fact} (h : g ∈ romans.stateAt 0) :
    ¬ Aliased [⟨"same"⟩] (· ∈ romans.stateAt 0) ⟨"?x"⟩ (g.get .subject) :=
  not_aliased_of_isVariable (fun _ => Store.isGround_of_mem_stateAt) (by decide)
    (Pattern.isGround_iff.mp (Store.isGround_of_mem_stateAt h) .subject)

/-- Looked up as an open place, the variable is found to be linked to Cicero. -/
theorem ciceroSpeaksLatin_as_someone {facts : Fact → Prop} (h : facts tullyIsCicero) :
    whoSpeaks.Canonicalizes (Called [⟨"same"⟩] facts) ciceroSpeaksLatin someoneSpeaksLatin := by
  constructor
  · rintro (_ | _ | _) x ⟨⟩
    · exact ⟨Or.inr ⟨tullyIsCicero, h, List.mem_cons_self, Or.inl ⟨Or.inl (by decide), rfl⟩⟩, rfl⟩
    · exact ⟨Or.inl rfl, rfl⟩
  · rintro (_ | _ | _) ⟨⟩
    rfl

end Sample

/-- A query with a variable for a term is answered in terms of the variable, although no stored fact
has a name of it. -/
theorem canonical_search_shows_variable :
    Sample.romans.closed = false ∧ (∀ p ∈ [(⟨"same"⟩ : Term)], p.isVariable = false) ∧
      ∃ answer, (Backend.single (.store Sample.romans)).searchUnderAliases [⟨"same"⟩]
          Sample.whoSpeaks ⟨.version 0, none⟩ .canonicalize = .ok answer ∧
        ⟨Sample.someoneSpeaksLatin, .plain⟩ ∈ answer.rows ∧
        ¬ ∃ g ∈ Sample.romans.stateAt 0, Sample.whoSpeaks.Canonicalizes
          (Aliased [⟨"same"⟩] (· ∈ Sample.romans.stateAt 0)) g Sample.someoneSpeaksLatin := by
  have constants : ∀ p ∈ [(⟨"same"⟩ : Term)], p.isVariable = false := by decide
  obtain ⟨answer, ok, -, rows⟩ := Store.snapshot_under_aliases (s := Sample.romans) rfl constants
    Sample.whoSpeaks .canonicalize 0
  have linked : Sample.tullyIsCicero ∈ Sample.romans.stateAt 0 := by decide +kernel
  have held : Sample.ciceroSpeaksLatin ∈ Sample.romans.stateAt 0 := by decide +kernel
  refine ⟨rfl, constants, answer, ok,
    (rows _).mpr ⟨rfl, _, held, Sample.ciceroSpeaksLatin_as_someone linked⟩, ?_⟩
  rintro ⟨g, hg, shown⟩
  exact Sample.not_aliased_variable hg (shown.fixed .subject _ rfl).1

/-- A search for all names shows the facts that are held in every way: with any names of the terms
that the query fixes, for a fact that has names of them, and with any names of the fact's own terms
elsewhere. Each fact is shown once, and with it all that the canonical search shows. -/
theorem full_search_shows_all_names (s : Store) (isOpen : s.closed = false)
    (identity : List Term) (constants : ∀ p ∈ identity, p.isVariable = false) (q : Query) :
    (∀ v, ∃ answer, (Backend.single (.store s)).searchUnderAliases identity q ⟨.version v, none⟩
        .allCombinations = .ok answer ∧
      (answer.rows.map Triple.fact).Nodup ∧
      (∀ row, row ∈ answer.rows ↔ row.mark = .plain ∧ ∃ g ∈ s.stateAt v,
        q.Spreads (Called identity (· ∈ s.stateAt v)) g row.fact) ∧
      ∀ canonical, (Backend.single (.store s)).searchUnderAliases identity q
          ⟨.version v, none⟩ .canonicalize = .ok canonical →
        ∀ row ∈ canonical.rows, row ∈ answer.rows) ∧
    ∃ answer, (Backend.single (.store s)).searchUnderAliases identity q ⟨.history, none⟩
        .allCombinations = .ok answer ∧
      (answer.rows.map Triple.fact).Nodup ∧
      (∀ row ∈ answer.rows, ∃ versions, row.mark = .holding versions ∧ ∃ w, w ∈ versions) ∧
      (∀ w t, (∃ versions, ⟨t, .holding versions⟩ ∈ answer.rows ∧ w ∈ versions) ↔
        w ≤ s.maxVersion ∧ ∃ g ∈ s.stateAt w,
          q.Spreads (Called identity fun f => ∃ u, f ∈ s.stateAt u) g t) ∧
      ∀ canonical, (Backend.single (.store s)).searchUnderAliases identity q
          ⟨.history, none⟩ .canonicalize = .ok canonical →
        ∀ row ∈ canonical.rows, ∃ versions, row.mark = .holding versions ∧
          ∃ all, ⟨row.fact, .holding all⟩ ∈ answer.rows ∧ ∀ w ∈ versions, w ∈ all := by
  constructor
  · intro v
    obtain ⟨answer, ok, nodup, rows⟩ := Store.snapshot_under_aliases isOpen constants q
      .allCombinations v
    obtain ⟨_, found, -, shown⟩ := Store.snapshot_under_aliases isOpen constants q .canonicalize v
    refine ⟨answer, ok, nodup, rows, fun canonical also row hrow => ?_⟩
    obtain rfl := Except.ok.inj (found.symm.trans also)
    obtain ⟨plain, g, hg, canonicalizes⟩ := (shown row).mp hrow
    exact (rows row).mpr ⟨plain, g, hg,
      Query.Canonicalizes.spreads canonicalizes fun _ => Or.inl rfl⟩
  · obtain ⟨answer, ok, nodup, marked, rows⟩ := Store.history_under_aliases isOpen constants q
      .allCombinations
    obtain ⟨_, found, -, named, shown⟩ := Store.history_under_aliases isOpen constants q .canonicalize
    refine ⟨answer, ok, nodup, marked, rows, fun canonical also row hrow => ?_⟩
    obtain rfl := Except.ok.inj (found.symm.trans also)
    obtain ⟨t, mark⟩ := row
    obtain ⟨versions, rfl, first, hfirst⟩ := named _ hrow
    have listed : ∀ w ∈ versions, ∃ all, ⟨t, .holding all⟩ ∈ answer.rows ∧ w ∈ all := by
      intro w hw
      obtain ⟨le, g, hg, canonicalizes⟩ := (shown w t).mp ⟨versions, hrow, hw⟩
      exact (rows w t).mpr ⟨le, g, hg,
        Query.Canonicalizes.spreads canonicalizes fun _ => Or.inl rfl⟩
    obtain ⟨all, hall, -⟩ := listed first hfirst
    refine ⟨versions, rfl, all, hall, fun w hw => ?_⟩
    obtain ⟨others, hothers, member⟩ := listed w hw
    have same : (⟨t, .holding others⟩ : Triple) = ⟨t, .holding all⟩ :=
      List.inj_on_of_nodup_map nodup hothers hall rfl
    obtain rfl : others = all := by simpa using same
    exact member

theorem full_search_of_romans :
    Sample.romans.closed = false ∧ (∀ p ∈ [(⟨"same"⟩ : Term)], p.isVariable = false) ∧
      ∃ answer, (Backend.single (.store Sample.romans)).searchUnderAliases [⟨"same"⟩]
          (.fixing (some ⟨"tully"⟩) (some ⟨"speaks"⟩) none) ⟨.version 0, none⟩ .allCombinations =
          .ok answer ∧
        ⟨Sample.tullySpeaksLatin, .plain⟩ ∈ answer.rows ∧
        ⟨Sample.ciceroSpeaksLatin, .plain⟩ ∈ answer.rows := by
  have constants : ∀ p ∈ [(⟨"same"⟩ : Term)], p.isVariable = false := by decide
  obtain ⟨alone, -⟩ := full_search_shows_all_names Sample.romans rfl [⟨"same"⟩] constants
    (.fixing (some ⟨"tully"⟩) (some ⟨"speaks"⟩) none)
  obtain ⟨answer, ok, -, rows, -⟩ := alone 0
  have linked : Sample.tullyIsCicero ∈ Sample.romans.stateAt 0 := by decide +kernel
  have held : Sample.ciceroSpeaksLatin ∈ Sample.romans.stateAt 0 := by decide +kernel
  have spreads := Query.Canonicalizes.spreads (Sample.ciceroSpeaksLatin_as_tully linked)
    fun _ => Or.inl rfl
  refine ⟨rfl, constants, answer, ok, (rows _).mpr ⟨rfl, _, held, spreads⟩,
    (rows _).mpr ⟨rfl, _, held, fun i x hx => ?_, fun i free => Or.inl rfl⟩⟩
  exact ⟨(spreads.fixed i x hx).1, (spreads.fixed i x hx).1⟩

/-- A search for all names takes linked terms for names of a variable, and shows what is known of
them. -/
theorem full_search_shows_linked_terms :
    Sample.romans.closed = false ∧ (∀ p ∈ [(⟨"same"⟩ : Term)], p.isVariable = false) ∧
      ∃ answer, (Backend.single (.store Sample.romans)).searchUnderAliases [⟨"same"⟩]
          Sample.whoSpeaks ⟨.version 0, none⟩ .allCombinations = .ok answer ∧
        ⟨Sample.tullySpeaksLatin, .plain⟩ ∈ answer.rows ∧
        ¬ ∃ g ∈ Sample.romans.stateAt 0, Sample.whoSpeaks.Spreads
          (Aliased [⟨"same"⟩] (· ∈ Sample.romans.stateAt 0)) g Sample.tullySpeaksLatin := by
  have constants : ∀ p ∈ [(⟨"same"⟩ : Term)], p.isVariable = false := by decide
  obtain ⟨answer, ok, -, rows⟩ := Store.snapshot_under_aliases (s := Sample.romans) rfl constants
    Sample.whoSpeaks .allCombinations 0
  have linked : Sample.tullyIsCicero ∈ Sample.romans.stateAt 0 := by decide +kernel
  have held : Sample.ciceroSpeaksLatin ∈ Sample.romans.stateAt 0 := by decide +kernel
  have toCicero := ((Sample.ciceroSpeaksLatin_as_someone linked).fixed .subject _ rfl).1
  have toTully : Called [⟨"same"⟩] (· ∈ Sample.romans.stateAt 0) ⟨"?x"⟩ ⟨"tully"⟩ :=
    Or.inr ⟨_, linked, List.mem_cons_self, Or.inr ⟨rfl, Or.inl (by decide)⟩⟩
  refine ⟨rfl, constants, answer, ok, (rows _).mpr ⟨rfl, _, held, ?_, ?_⟩, ?_⟩
  · rintro (_ | _ | _) x ⟨⟩
    · exact ⟨toCicero, toTully⟩
    · exact ⟨Or.inl rfl, Or.inl rfl⟩
  · rintro (_ | _ | _) ⟨⟩
    exact Or.inl rfl
  · rintro ⟨g, hg, shown⟩
    exact Sample.not_aliased_variable hg (shown.fixed .subject _ rfl).1

end Annals
