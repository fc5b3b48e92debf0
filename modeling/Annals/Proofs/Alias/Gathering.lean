import Annals.Proofs.Alias.Neighbours
import Annals.Proofs.Lists
import Annals.Proofs.Lookup
import Mathlib.Data.List.ProdSigma
import Mathlib.Tactic.Ring

/-!
# Every row once

No two forms of a query ask for the same rows: where a form fixes a place, the term that a row has
there tells which form it is. So the rows that are gathered are the stored ones that have members of
the classes where the query fixes its places, each of them once. What a search costs follows from
the number of its forms and the number of terms of which classes are looked up.
-/

namespace Annals

namespace Expansion

variable {subjects predicates objects : AliasClass}

theorem combinations_eq : (ofClasses subjects predicates objects).combinations =
    (subjects ×ˢ predicates ×ˢ objects).map fun x => ⟨x.1, x.2.1, x.2.2⟩ := by
  simp [ofClasses, SProd.sprod, List.product, List.map_flatMap, Function.comp_def]

/-- There are as many combinations as the sizes of the classes multiply to. -/
theorem length_combinations : (ofClasses subjects predicates objects).combinations.length =
    subjects.length * predicates.length * objects.length := by
  rw [combinations_eq, List.length_map, List.length_product, List.length_product, Nat.mul_assoc]

/-- Classes without repetitions are combined without repetitions. -/
theorem nodup_combinations (hs : subjects.Nodup) (hp : predicates.Nodup) (ho : objects.Nodup) :
    (ofClasses subjects predicates objects).combinations.Nodup := by
  rw [combinations_eq]
  refine (hs.product (hp.product ho)).map ?_
  rintro ⟨s, p, o⟩ ⟨s', p', o'⟩ same
  simpa using same

/-- The fact has members of the classes at the places that the query fixes. -/
def covers (e : Expansion) (q : Query) (f : Fact) : Bool :=
  Position.all.all fun i => (q.get i).all fun _ => decide (some (f.get i) ∈ e.classAt i)

theorem covers_iff {e : Expansion} {q : Query} {f : Fact} :
    e.covers q f = true ↔ ∀ i x, q.get i = some x → some (f.get i) ∈ e.classAt i := by
  simp only [covers, List.all_eq_true, Position.mem_all, true_implies]
  refine forall_congr' fun i => ?_
  cases q.get i <;> simp

end Expansion

/-- The terms that rows have where a query leaves its places open. -/
def Query.openTerms (q : Query) (rows : List Triple) : Finset Term :=
  (rows.flatMap fun row =>
    (Position.all.filter fun i => (q.get i).isNone).map row.fact.get).toFinset

theorem Query.mem_openTerms {q : Query} {rows : List Triple} {term : Term} :
    term ∈ q.openTerms rows ↔ ∃ i, q.get i = none ∧ ∃ row ∈ rows, row.fact.get i = term := by
  simp only [openTerms, List.mem_toFinset, List.mem_flatMap, List.mem_map, List.mem_filter,
    Position.mem_all, true_and, Option.isNone_iff_eq_none]
  constructor
  · rintro ⟨row, hrow, i, free, same⟩
    exact ⟨i, free, row, hrow, same⟩
  · rintro ⟨i, free, row, hrow, same⟩
    exact ⟨row, hrow, i, free, same⟩

theorem length_openValues (q : Query) (rows : List Triple) :
    (openValues q rows).length = (q.openTerms rows).card := by
  have same : (openValues q rows).toFinset = q.openTerms rows := by
    ext term
    rw [List.mem_toFinset, mem_openValues, Query.mem_openTerms]
  have nodup : (openValues q rows).Nodup := nodup_distinct _
  rw [← same, List.toFinset_card_of_nodup nodup]

namespace Store

variable {s : Store} {q : Query} {scope : Scope}

/-- Without a limit a query finds those of all rows that it admits. -/
theorem rows_perm_filter (unlimited : scope.limit? = none) :
    (s.rows q scope).Perm ((s.rows .any scope).filter fun row => q.admits row.fact) := by
  rw [← Scope.unlimited_of_limit? unlimited]
  have nodup : ∀ q, (s.rows q scope.unlimited).Nodup := fun q =>
    (s.nodup_facts_rows_unlimited q scope).of_map
  rw [List.perm_ext_iff_of_nodup (nodup q) ((nodup .any).filter _)]
  intro row
  simp only [List.mem_filter, mem_rows_unlimited_iff, Query.admits_any, and_true]

end Store

namespace Backend

variable {b : Backend} {identity : List Term} {version : Option Version} {q : Query}
  {scopes : ScopePair} {mode : Mode}

theorem nodup_classOf (x : Option Term) : (b.classOf identity version x).Nodup := by
  cases x with
  | none => exact List.nodup_singleton none
  | some x => exact (nodup_distinct _).map (Option.some_injective Term)

theorem nodup_forms (b : Backend) (identity : List Term) (version : Option Version) (q : Query) :
    (b.forms identity version q).combinations.Nodup :=
  Expansion.nodup_combinations (nodup_classOf _) (nodup_classOf _) (nodup_classOf _)

/-- A fact tells which form of the query admits it. -/
theorem eq_of_admits {c d : Query} (hc : c ∈ (b.forms identity version q).combinations)
    (hd : d ∈ (b.forms identity version q).combinations) {f : Fact} (first : c.admits f = true)
    (second : d.admits f = true) : c = d := by
  have places : ∀ i, c.get i = d.get i := by
    intro i
    have inClass := mem_forms.mp hc i
    have also := mem_forms.mp hd i
    cases hx : q.get i with
    | none =>
      rw [hx, classOf, List.mem_singleton] at inClass also
      rw [inClass, also]
    | some x =>
      rw [hx, classOf, List.mem_map] at inClass also
      obtain ⟨y, -, hy⟩ := inClass
      obtain ⟨z, -, hz⟩ := also
      rw [← hy, ← hz, ← Query.admits_iff.mp first i y hy.symm,
        ← Query.admits_iff.mp second i z hz.symm]
  obtain ⟨s, p, o⟩ := c
  obtain ⟨s', p', o'⟩ := d
  rw [Query.mk.injEq]
  exact ⟨places .subject, places .predicate, places .object⟩

theorem any_admits_eq_covers (f : Fact) :
    ((b.forms identity version q).combinations.any fun c => c.admits f) =
      (b.forms identity version q).covers q f := by
  rw [Bool.eq_iff_iff, List.any_eq_true, exists_form_admits_iff, Expansion.covers_iff]
  refine forall_congr' fun i => forall_congr' fun x => forall_congr' fun hx => ?_
  rw [classAt_forms, hx, classOf]
  simp

/-- Every store is asked for all of its rows. -/
def Unlimited (b : Backend) (scopes : ScopePair) : Prop :=
  ∀ place ∈ b.placed scopes, place.2.limit? = none

section Rows

variable (ho : b.OverOpenStores) (hm : scopes.mode = .ok mode) (unlimited : b.Unlimited scopes)

include ho hm unlimited

/-- Without a limit an answer lists those of all rows that the query admits. -/
theorem answers_perm_filter (q : Query) :
    (b.answers scopes q).Perm
      ((b.answers scopes .any).filter fun row => q.admits row.fact) := by
  cases b with
  | single source =>
    obtain ⟨s, rfl, isOpen⟩ := ho source (by simp [sources])
    have single := unlimited (.store s, scopes.dataset) (by simp [placed])
    rw [answers_store isOpen hm, answers_store isOpen hm]
    exact Store.rows_perm_filter single
  | dual dataset language =>
    obtain ⟨s, rfl, isOpen⟩ := ho dataset (by simp [sources])
    obtain ⟨t, rfl, isOpen'⟩ := ho language (by simp [sources])
    have first := unlimited (.store s, scopes.dataset) (by simp [placed])
    have second := unlimited (.store t, scopes.languageScope) (by simp [placed])
    rw [answers_dual isOpen isOpen' hm, answers_dual isOpen isOpen' hm, List.filter_append]
    exact (Store.rows_perm_filter first).append (Store.rows_perm_filter second)

/-- What the forms find are the rows of facts with members of the classes, each row once. -/
theorem found_perm_filter :
    (b.found identity q scopes).Perm ((b.answers scopes .any).filter fun row =>
      (b.forms identity scopes.linkVersion q).covers q row.fact) := by
  have each := List.Perm.flatMap_left (b.forms identity scopes.linkVersion q).combinations
    fun c _ => answers_perm_filter ho hm unlimited c
  have apart : ∀ row ∈ b.answers scopes .any,
      ∀ c ∈ (b.forms identity scopes.linkVersion q).combinations,
      ∀ d ∈ (b.forms identity scopes.linkVersion q).combinations,
        c.admits row.fact = true → d.admits row.fact = true → c = d :=
    fun row _ c hc d hd => eq_of_admits hc hd
  have once := flatMap_filter_perm (nodup_forms b identity scopes.linkVersion q) apart
  simp only [any_admits_eq_covers] at once
  exact each.trans once

/-- One store has one row of a fact. -/
theorem nodup_answers_of_single (alone : b.isDual = false) :
    ((b.answers scopes .any).map Triple.fact).Nodup := by
  cases b with
  | dual dataset language => cases alone
  | single source =>
    obtain ⟨s, rfl, isOpen⟩ := ho source (by simp [sources])
    have single := unlimited (.store s, scopes.dataset) (by simp [placed])
    have nodup := s.nodup_facts_rows_unlimited .any scopes.dataset
    rwa [Scope.unlimited_of_limit? single, ← answers_store isOpen hm] at nodup

end Rows

section Success

/-- A class has a member, whatever the lookups found. -/
theorem ne_nil_of_run_aliasClass {x : Option Term} {asked : Nat} {found : AliasClass × Nat}
    (ok : (b.aliasClass identity version x).run asked = .ok found) : found.1 ≠ [] := by
  cases x with
  | none =>
    obtain rfl := Except.ok.inj ok
    exact List.cons_ne_nil _ _
  | some x =>
    obtain ⟨names, _, named, listed⟩ := Metered.exists_run_of_bind ok
    rw [aliases_eq] at named
    obtain ⟨ends, _, -, distinct⟩ := Metered.exists_run_of_bind named
    obtain rfl := Except.ok.inj listed
    cases distinct
    exact List.cons_ne_nil _ _

/-- A query has a form, whatever the lookups found. -/
theorem ne_nil_of_run_expand {asked : Nat} {found : Expansion × Nat}
    (ok : (b.expand identity version q).run asked = .ok found) : found.1.combinations ≠ [] := by
  obtain ⟨subjects, _, hs, ok⟩ := Metered.exists_run_of_bind ok
  obtain ⟨predicates, _, hp, ok⟩ := Metered.exists_run_of_bind ok
  obtain ⟨objects, _, ho, ok⟩ := Metered.exists_run_of_bind ok
  obtain rfl := Except.ok.inj ok
  apply List.length_pos_iff.mp
  rw [Expansion.length_combinations]
  exact Nat.mul_pos (Nat.mul_pos (List.length_pos_iff.mpr (ne_nil_of_run_aliasClass hs))
    (List.length_pos_iff.mpr (ne_nil_of_run_aliasClass hp)))
    (List.length_pos_iff.mpr (ne_nil_of_run_aliasClass ho))

/-- A search that answers has expanded the query and gathered the rows of its forms. -/
theorem exists_gathered (hm : scopes.mode = .ok mode) {reconcile : Reconcile} {answer : AliasAnswer}
    (ok : b.searchUnderAliases identity q scopes reconcile = .ok answer) :
    ∃ e asked found, (b.expand identity scopes.linkVersion q).run 0 = .ok (e, asked) ∧
      (b.gather e.combinations scopes).run asked = .ok found := by
  simp only [searchUnderAliases, hm] at ok
  change Except.bind (StateT.run _ 0) _ = _ at ok
  generalize whole : StateT.run _ 0 = outcome at ok
  cases outcome with
  | error e => cases ok
  | ok result =>
    obtain ⟨e, asked, expanded, later⟩ := Metered.exists_run_of_bind whole
    obtain ⟨found, after, gathered, -⟩ := Metered.exists_run_of_bind later
    exact ⟨e, asked, (found, after), expanded, gathered⟩

/-- Over stores a search under aliases answers if and only if the stores are open and the scopes are
of one mode. -/
theorem exists_searchUnderAliases_iff (stores : b.OverStores) {reconcile : Reconcile} :
    (∃ answer, b.searchUnderAliases identity q scopes reconcile = .ok answer) ↔
      b.OverOpenStores ∧ ∃ mode, scopes.mode = .ok mode := by
  constructor
  · rintro ⟨answer, ok⟩
    cases hm : scopes.mode with
    | error e =>
      simp only [searchUnderAliases, hm] at ok
      cases ok
    | ok mode =>
      refine ⟨?_, mode, rfl⟩
      obtain ⟨e, asked, found, expanded, gathered⟩ := exists_gathered hm ok
      -- there is a form to ask the stores for
      obtain ⟨c, rest, forms⟩ := List.exists_cons_of_ne_nil (ne_nil_of_run_expand expanded)
      obtain ⟨_, _, listed, -⟩ := Metered.exists_run_of_bind gathered
      rw [forms, List.mapM_cons] at listed
      obtain ⟨_, _, searched, -⟩ := Metered.exists_run_of_bind listed
      exact overOpenStores_of_run_search stores hm searched
  · rintro ⟨ho, mode, hm⟩
    exact ⟨_, searchUnderAliases_eq ho identity q hm reconcile⟩

end Success

end Backend

/-- Over stores a search without limits under aliases answers if and only if the stores are open and
the scopes are of one mode. The forms that it asks for are then all different, and as many as the
sizes of the three classes multiply to. What they find are the rows that the stores have in the
scopes for a fact with members of the classes where the query fixes its places, each of them once;
one store has no two rows of a fact. Every store is asked two queries for each identity predicate
and each fixed place, one for each form, and, if all names are shown, two for each identity
predicate and each term that is found at an open place. -/
theorem alias_search_finds_each_row_once (b : Backend) (stores : b.OverStores)
    (identity : List Term) (q : Query) (scopes : ScopePair)
    (unlimited : b.Unlimited scopes) (reconcile : Reconcile) :
    ((∃ answer, b.searchUnderAliases identity q scopes reconcile = .ok answer) ↔
      b.OverOpenStores ∧ ∃ mode, scopes.mode = .ok mode) ∧
    ∀ answer, b.searchUnderAliases identity q scopes reconcile = .ok answer →
      ∃ e expanded found gathered all,
        (b.expand identity scopes.linkVersion q).run 0 = .ok (e, expanded) ∧
        (b.gather e.combinations scopes).run 0 = .ok (found, gathered) ∧
        b.rows .any scopes = .ok all ∧
        e.combinations.Nodup ∧
        e.combinations.length = e.subjects.length * e.predicates.length * e.objects.length ∧
        answer.combinations = e.combinations.length ∧
        found.Perm (all.filter fun row => e.covers q row.fact) ∧
        (b.isDual = false → (all.map Triple.fact).Nodup) ∧
        answer.found = found.length ∧
        answer.asked = (if b.isDual then 2 else 1) *
          (2 * identity.length * q.fixedCount + e.combinations.length + 2 * identity.length *
            if scopes.dataset.mode ≠ .delta ∧ reconcile = .allCombinations then
              (q.openTerms found).card
            else 0) := by
  refine ⟨Backend.exists_searchUnderAliases_iff stores, fun answer ok => ?_⟩
  obtain ⟨ho, mode, hm⟩ := (Backend.exists_searchUnderAliases_iff stores).mp ⟨answer, ok⟩
  obtain ⟨sameMode, -⟩ := ScopePair.mode_eq_ok_iff.mp hm
  rw [Backend.searchUnderAliases_eq ho identity q hm] at ok
  obtain rfl := Except.ok.inj ok
  refine ⟨b.forms identity scopes.linkVersion q, _, b.found identity q scopes, _,
    b.answers scopes .any, Backend.run_expand ho identity _ q 0, Backend.run_gather ho 0 hm _,
    Backend.rows_eq_answers ho hm .any, Backend.nodup_forms b identity _ q,
    Expansion.length_combinations, rfl, Backend.found_perm_filter ho hm unlimited,
    Backend.nodup_answers_of_single ho hm unlimited, rfl, ?_⟩
  rw [← Backend.width_eq, sameMode, ← length_openValues]
  have openCount : b.openCount identity mode q scopes reconcile =
      if mode ≠ .delta ∧ reconcile = .allCombinations then
        (openValues q (b.found identity q scopes)).length
      else 0 := rfl
  rw [← openCount]
  ring

namespace Sample

/-- The store of the Romans alone. -/
def rome : Backend := .single (.store romans)

/-- What is said of Tully in the first version? -/
def aboutTully : Query := ⟨some ⟨"tully"⟩, none, none⟩

def firstVersion : ScopePair := ⟨.version 0, none⟩

/-- Cicero is another name of his, so he is asked for too. -/
def formsOfTully : Expansion :=
  .ofClasses [some ⟨"tully"⟩, some ⟨"cicero"⟩] [none] [none]

end Sample

open Sample in
/-- The two forms find one row each. With the four terms at open places, five terms have their
classes looked up, each by two queries. -/
theorem alias_search_of_romans_finds_each_row_once :
    rome.OverStores ∧ rome.Unlimited firstVersion ∧
      ∃ answer, ∃ found all : List Triple,
        rome.searchUnderAliases [⟨"same"⟩] aboutTully firstVersion .allCombinations = .ok answer ∧
        found.Perm (all.filter fun row => formsOfTully.covers aboutTully row.fact) ∧
        (all.map Triple.fact).Nodup ∧ ⟨ciceroSpeaksLatin, .plain⟩ ∈ found ∧
        answer.combinations = 2 ∧ answer.found = 2 ∧ answer.asked = 12 := by
  have stores : rome.OverStores := fun source hs => ⟨_, List.mem_singleton.mp hs⟩
  have unlimited : rome.Unlimited firstVersion := by
    intro place hp
    obtain rfl := List.mem_singleton.mp hp
    rfl
  obtain ⟨succeeds, counts⟩ := alias_search_finds_each_row_once rome stores [⟨"same"⟩] aboutTully
    firstVersion unlimited .allCombinations
  obtain ⟨answer, ok⟩ := succeeds.mpr ⟨Backend.overOpenStores_single rfl, .snapshot, rfl⟩
  obtain ⟨e, _, found, _, all, expanded, gathered, -, -, -, combinations, perm, once, number,
    asked⟩ := counts answer ok
  have forms : ((rome.expand [⟨"same"⟩] firstVersion.linkVersion aboutTully).run 0).toOption.map
      Prod.fst = some formsOfTully := by decide +kernel
  rw [expanded] at forms
  obtain rfl : e = formsOfTully := Option.some.inj forms
  have rows : ((rome.gather formsOfTully.combinations firstVersion).run 0).toOption.map Prod.fst =
      some [⟨tullyIsCicero, .plain⟩, ⟨ciceroSpeaksLatin, .plain⟩] := by decide +kernel
  rw [gathered] at rows
  obtain rfl : found = [⟨tullyIsCicero, .plain⟩, ⟨ciceroSpeaksLatin, .plain⟩] :=
    Option.some.inj rows
  exact ⟨stores, unlimited, answer, _, all, ok, perm, once rfl, by decide, combinations, number,
    asked.trans (by decide +kernel)⟩

end Annals
