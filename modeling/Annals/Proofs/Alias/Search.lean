import Annals.Proofs.Alias.Classes
import Annals.Proofs.Alias.Reconcile
import Annals.Proofs.Inference.Absorbing

/-!
# Searches under aliases

Over open stores a search under aliases always answers, and what it puts to the stores can be read
off its classes. The forms of a query find just the stored facts that have names of its terms where
it fixes them. So except in a difference the answer says what these facts are shown as.
-/

namespace Annals

/-- At how many places a query has a term. -/
def Query.fixedCount (q : Query) : Nat := Position.all.countP fun i => (q.get i).isSome

theorem Expansion.mem_combinations {subjects predicates objects : AliasClass} {c : Query} :
    c ∈ (ofClasses subjects predicates objects).combinations ↔
      ∀ i, c.get i ∈ (ofClasses subjects predicates objects).classAt i := by
  obtain ⟨s, p, o⟩ := c
  simp only [ofClasses, List.mem_flatMap, List.mem_map, Query.mk.injEq]
  constructor
  · rintro ⟨_, hs, _, hp, _, ho, rfl, rfl, rfl⟩ (_ | _ | _)
    · exact hs
    · exact hp
    · exact ho
  · intro h
    exact ⟨s, h .subject, p, h .predicate, o, h .object, rfl, rfl, rfl⟩

theorem mem_openValues {q : Query} {rows : List Triple} {term : Term} :
    term ∈ openValues q rows ↔ ∃ i, q.get i = none ∧ ∃ row ∈ rows, row.fact.get i = term := by
  rw [openValues, mem_distinct, List.mem_flatMap]
  constructor
  · rintro ⟨i, -, h⟩
    split at h
    · cases h
    · next free => exact ⟨i, Option.not_isSome_iff_eq_none.mp free, List.mem_map.mp h⟩
  · rintro ⟨i, free, found⟩
    exact ⟨i, Position.mem_all i, by simpa [free] using found⟩

namespace Backend

/-- What a query is expanded to. -/
def forms (b : Backend) (identity : List Term) (version : Option Version) (q : Query) : Expansion :=
  .ofClasses (b.classOf identity version q.subject) (b.classOf identity version q.predicate)
    (b.classOf identity version q.object)

/-- The classes of the terms at the open places of rows. -/
def termClasses (b : Backend) (identity : List Term) (version : Option Version) (q : Query)
    (rows : List Triple) : TermClasses :=
  (openValues q rows).map fun term => (term, b.classOf identity version (some term))

/-- The rows that the forms of a query find. -/
def found (b : Backend) (identity : List Term) (q : Query) (scopes : ScopePair) : List Triple :=
  (b.forms identity scopes.linkVersion q).combinations.flatMap (b.answers scopes)

/-- The rows as which those found are shown. -/
def rendered (b : Backend) (identity : List Term) (q : Query) (scopes : ScopePair)
    (reconcile : Reconcile) : List Triple :=
  (b.forms identity scopes.linkVersion q).reconcile
    (b.termClasses identity scopes.linkVersion q (b.found identity q scopes)) q
    (b.found identity q scopes) reconcile

/-- The rows that a search answers with, by mode. -/
def settled (b : Backend) (identity : List Term) (mode : Mode) (q : Query) (scopes : ScopePair)
    (reconcile : Reconcile) : List Triple :=
  match mode with
  | .snapshot => b.rendered identity q scopes reconcile
  | .delta => dropAliased identity (distinct (b.found identity q scopes))
  | .history => mergeByFact (b.rendered identity q scopes reconcile)

/-- The number of terms at open places of which the classes are looked up. -/
def openCount (b : Backend) (identity : List Term) (mode : Mode) (q : Query) (scopes : ScopePair)
    (reconcile : Reconcile) : Nat :=
  if mode ≠ .delta ∧ reconcile = .allCombinations then
    (openValues q (b.found identity q scopes)).length
  else 0

section OpenCount

variable {b : Backend} {identity : List Term} {mode : Mode} {q : Query} {scopes : ScopePair}
  {reconcile : Reconcile}

@[simp] theorem openCount_delta : b.openCount identity .delta q scopes reconcile = 0 := by
  simp [openCount]

@[simp] theorem openCount_canonicalize :
    b.openCount identity mode q scopes .canonicalize = 0 := by
  simp [openCount]

end OpenCount

section Run

variable {b : Backend} (ho : b.OverOpenStores) (identity : List Term) (version : Option Version)
  (q : Query) (asked : Nat)

include ho

theorem run_expand :
    (b.expand identity version q).run asked = .ok (b.forms identity version q,
      asked + q.fixedCount * (2 * identity.length * b.width)) := by
  rw [expand, Metered.run_bind_ok (run_aliasClass ho identity version _ asked),
    Metered.run_bind_ok (run_aliasClass ho identity version _ _),
    Metered.run_bind_ok (run_aliasClass ho identity version _ _), Metered.run_pure]
  have total : q.fixedCount = (if q.subject.isSome then 1 else 0) +
      (if q.predicate.isSome then 1 else 0) + if q.object.isSome then 1 else 0 := by
    obtain ⟨_ | s, _ | p, _ | o⟩ := q <;> rfl
  simp only [total, Nat.add_mul, ite_mul, Nat.one_mul, Nat.zero_mul, ← Nat.add_assoc]
  rfl

/-- Every term at an open place costs as much as a fixed one. -/
theorem run_openClasses (rows : List Triple) :
    (b.openClasses identity version q rows).run asked =
      .ok (b.termClasses identity version q rows,
        asked + (openValues q rows).length * (2 * identity.length * b.width)) :=
  Metered.run_mapM_const (fun term _ asked =>
    Metered.run_bind_ok (run_aliasClass ho identity version (some term) asked)) asked

variable {scopes : ScopePair} {mode : Mode} (hm : scopes.mode = .ok mode)

include hm

theorem run_gather (queries : List Query) :
    (b.gather queries scopes).run asked =
      .ok (queries.flatMap (b.answers scopes), asked + queries.length * b.width) := by
  rw [gather, Metered.run_bind_ok (Metered.run_mapM_const (fun query _ asked =>
    run_search_of_open ho hm query asked) asked), Metered.run_pure, List.flatMap_def]

theorem run_settle (reconcile : Reconcile) :
    (b.settle identity mode scopes.linkVersion q reconcile
        (b.forms identity scopes.linkVersion q) (b.found identity q scopes)).run asked =
      .ok (b.settled identity mode q scopes reconcile,
        asked + b.openCount identity mode q scopes reconcile *
          (2 * identity.length * b.width)) := by
  have classes := run_openClasses ho identity scopes.linkVersion q asked
    (b.found identity q scopes)
  cases mode with
  | delta =>
    rw [openCount_delta, Nat.zero_mul]
    rfl
  | snapshot =>
    cases reconcile with
    | canonicalize =>
      rw [openCount_canonicalize, Nat.zero_mul]
      rfl
    | allCombinations => exact Metered.run_bind_ok classes
  | history =>
    cases reconcile with
    | canonicalize =>
      rw [openCount_canonicalize, Nat.zero_mul]
      rfl
    | allCombinations => exact Metered.run_bind_ok classes

/-- An answer with all its numbers: the classes of the query's terms and of those at open places are
looked up, and every form of the query is asked for once. -/
theorem searchUnderAliases_eq (reconcile : Reconcile) :
    b.searchUnderAliases identity q scopes reconcile = .ok
      { rows := b.settled identity mode q scopes reconcile
        combinations := (b.forms identity scopes.linkVersion q).combinations.length
        found := (b.found identity q scopes).length
        dropped :=
          if mode = .delta then (distinct (b.found identity q scopes)).length -
            (b.settled identity mode q scopes reconcile).length
          else 0
        asked := q.fixedCount * (2 * identity.length * b.width) +
          (b.forms identity scopes.linkVersion q).combinations.length * b.width +
          b.openCount identity mode q scopes reconcile * (2 * identity.length * b.width) } := by
  have expanded := run_expand ho identity scopes.linkVersion q 0
  rw [Nat.zero_add] at expanded
  have gathered : (b.gather (b.forms identity scopes.linkVersion q).combinations scopes).run
      (q.fixedCount * (2 * identity.length * b.width)) = .ok (b.found identity q scopes, _) :=
    run_gather ho _ hm _
  have whole := Metered.run_bind_ok (f := fun e => do
    let found ← b.gather e.combinations scopes
    return (e, found, ← b.settle identity mode scopes.linkVersion q reconcile e found)) expanded
  rw [Metered.run_bind_ok gathered, Metered.run_bind_ok (run_settle ho identity q _ hm reconcile),
    Metered.run_pure] at whole
  simp only [searchUnderAliases, hm]
  change (Except.bind (StateT.run _ 0) _) = _
  rw [whole]
  rfl

theorem exists_answer (reconcile : Reconcile) :
    ∃ answer, b.searchUnderAliases identity q scopes reconcile = .ok answer ∧
      answer.rows = b.settled identity mode q scopes reconcile :=
  ⟨_, searchUnderAliases_eq ho identity q hm reconcile, rfl⟩

end Run

section Meaning

variable {b : Backend} (ho : b.OverOpenStores) {identity : List Term} {q : Query}
  {scopes : ScopePair} {held linked : Version → Fact → Prop}

theorem classAt_forms (b : Backend) (identity : List Term) (version : Option Version) (q : Query)
    (i : Position) :
    (b.forms identity version q).classAt i = b.classOf identity version (q.get i) := by
  cases i <;> rfl

theorem terms_classOf (b : Backend) (identity : List Term) (version : Option Version) (x : Term) :
    (b.classOf identity version (some x)).terms = b.names identity version x := by
  simp [classOf, AliasClass.terms]

theorem mem_forms {version : Option Version} {c : Query} :
    c ∈ (b.forms identity version q).combinations ↔
      ∀ i, c.get i ∈ b.classOf identity version (q.get i) := by
  rw [forms, Expansion.mem_combinations]
  refine forall_congr' fun i => ?_
  rw [← forms, classAt_forms]

/-- Some form of a query admits a fact if and only if it has names of the query's terms at the places
that the query fixes. -/
theorem exists_form_admits_iff {version : Option Version} {f : Fact} :
    (∃ c ∈ (b.forms identity version q).combinations, c.admits f = true) ↔
      ∀ i x, q.get i = some x → f.get i ∈ b.names identity version x := by
  simp only [mem_forms, Query.admits_iff]
  constructor
  · rintro ⟨c, members, admitted⟩ i x hx
    have member := members i
    rw [hx, classOf, List.mem_map] at member
    obtain ⟨y, hy, hc⟩ := member
    rwa [admitted i y hc.symm]
  · intro named
    let c : Query := ⟨q.subject.map fun _ => f.subject, q.predicate.map fun _ => f.predicate,
      q.object.map fun _ => f.object⟩
    have get : ∀ i, c.get i = (q.get i).map fun _ => f.get i := by
      rintro (_ | _ | _) <;> rfl
    refine ⟨c, fun i => ?_, fun i t ht => ?_⟩
    · rw [get]
      cases hx : q.get i with
      | none => simp [classOf]
      | some x => exact List.mem_map.mpr ⟨_, named i x hx, rfl⟩
    · rw [get, Option.map_eq_some_iff] at ht
      obtain ⟨-, -, rfl⟩ := ht
      rfl

theorem lookup_termClasses {version : Option Version} {rows : List Triple} {row : Triple}
    {i : Position} (hrow : row ∈ rows) (free : q.get i = none) :
    (b.termClasses identity version q rows).lookup (row.fact.get i) =
      some (b.classOf identity version (some (row.fact.get i))) :=
  List.lookup_graph _ (mem_openValues.mpr ⟨i, free, row, hrow, rfl⟩)

theorem attests_found (shows : b.Shows scopes held) {v : Version} {f : Fact} :
    Attests (b.found identity q scopes) v f ↔ held v f ∧
      ∀ i x, q.get i = some x → f.get i ∈ b.names identity scopes.linkVersion x := by
  have each : Attests (b.found identity q scopes) v f ↔
      ∃ c ∈ (b.forms identity scopes.linkVersion q).combinations,
        Attests (b.answers scopes c) v f := by
    simp only [found, Attests, List.mem_flatMap]
    constructor
    · rintro ⟨row, ⟨c, hc, hrow⟩, attested⟩
      exact ⟨c, hc, row, hrow, attested⟩
    · rintro ⟨c, hc, row, hrow, attested⟩
      exact ⟨row, ⟨c, hc, hrow⟩, attested⟩
  simp only [each, shows _ v f, ← exists_form_admits_iff]
  constructor
  · rintro ⟨c, hc, hf, admitted⟩
    exact ⟨hf, c, hc, admitted⟩
  · rintro ⟨hf, c, hc, admitted⟩
    exact ⟨c, hc, hf, admitted⟩

variable {mode : Mode} (hm : scopes.mode = .ok mode)
  (links : b.Shows (linkScope scopes.linkVersion) linked)

include ho hm links

/-- The classes that are looked up hold what is found as names. -/
theorem knows_found :
    (b.forms identity scopes.linkVersion q).Knows
      (b.termClasses identity scopes.linkVersion q (b.found identity q scopes)) q
      (b.found identity q scopes) (Named identity linked) where
  own x := Or.inl rfl
  fixed i x hx y := by rw [classAt_forms, hx, terms_classOf, mem_names ho links]
  free row hrow i free y := by
    rw [lookup_termClasses hrow free, Option.getD_some, terms_classOf, mem_names ho links]
  found row hrow i x hx := by
    obtain ⟨c, hc, hrow⟩ := List.mem_flatMap.mp hrow
    have admitted : c.admits row.fact = true := admits_of_mem_answers ho hm hrow
    exact (mem_names ho links).mp (exists_form_admits_iff.mp ⟨c, hc, admitted⟩ i x hx)

theorem mark_of_mem_rendered {reconcile : Reconcile} {row : Triple}
    (h : row ∈ b.rendered identity q scopes reconcile) : row.mark.Answers mode := by
  obtain ⟨origin, horigin, mark⟩ := (knows_found ho hm links).exists_mark h
  obtain ⟨c, -, answered⟩ := List.mem_flatMap.mp horigin
  rw [mark]
  exact (stored_of_mem_rows ho hm (rows_eq_answers ho hm c) answered).2

/-- A search shows what holds under the names that are found for the terms of the query. -/
theorem attests_rendered (shows : b.Shows scopes held) {reconcile : Reconcile} {v : Version}
    {f : Fact} :
    Attests (b.rendered identity q scopes reconcile) v f ↔
      ∃ g, held v g ∧ q.Renders reconcile (Named identity linked) g f := by
  rw [rendered, (knows_found ho hm links).attests_reconcile]
  refine exists_congr fun g => ?_
  rw [attests_found shows, and_assoc]
  refine and_congr_right fun _ => and_iff_right_of_imp fun renders i x hx => ?_
  rw [mem_names ho links]
  cases reconcile with
  | canonicalize => exact (renders.fixed i x hx).1
  | allCombinations => exact (renders.fixed i x hx).1

end Meaning

section Modes

variable {b : Backend} (ho : b.OverOpenStores) (identity : List Term) (q : Query)
  {scopes : ScopePair} {linked : Version → Fact → Prop}

include ho

/-- At one version an answer lists what the facts that hold there are shown as, each fact once. -/
theorem exists_snapshot_answer {held : Fact → Prop} (hm : scopes.mode = .ok .snapshot)
    (shows : b.Shows scopes fun _ => held)
    (links : b.Shows (linkScope scopes.linkVersion) linked) (reconcile : Reconcile) :
    ∃ answer, b.searchUnderAliases identity q scopes reconcile = .ok answer ∧
      (answer.rows.map Triple.fact).Nodup ∧
      ∀ row, row ∈ answer.rows ↔ row.mark = .plain ∧
        ∃ g, held g ∧ q.Renders reconcile (Named identity linked) g row.fact := by
  obtain ⟨answer, ok, rows⟩ := exists_answer ho identity q hm reconcile
  have plain : ∀ row ∈ answer.rows, row.mark = .plain := by
    intro row hrow
    rw [rows] at hrow
    exact mark_of_mem_rendered ho hm links hrow
  have nodup : answer.rows.Nodup := by
    rw [rows]
    exact Expansion.nodup_reconcile reconcile
  refine ⟨answer, ok, nodup_facts_of_plain plain nodup, fun row => ?_⟩
  calc row ∈ answer.rows
    _ ↔ row.mark = .plain ∧ Attests answer.rows 0 row.fact := by
      rw [mem_iff_of_plain plain, attests_iff_of_plain plain]
    _ ↔ row.mark = .plain ∧ ∃ g, held g ∧ q.Renders reconcile (Named identity linked) g row.fact := by
      rw [rows]
      exact and_congr_right fun _ => attests_rendered ho hm links shows

/-- Over all versions an answer lists what the facts that held once are shown as, each fact once and
with the versions of all that it stands for. -/
theorem exists_history_answer {held : Version → Fact → Prop} (hm : scopes.mode = .ok .history)
    (shows : b.Shows scopes held) (links : b.Shows (linkScope scopes.linkVersion) linked)
    (reconcile : Reconcile) :
    ∃ answer, b.searchUnderAliases identity q scopes reconcile = .ok answer ∧
      (answer.rows.map Triple.fact).Nodup ∧
      (∀ row ∈ answer.rows, ∃ versions, row.mark = .holding versions ∧ ∃ v, v ∈ versions) ∧
      ∀ v f, (∃ versions, ⟨f, .holding versions⟩ ∈ answer.rows ∧ v ∈ versions) ↔
        ∃ g, held v g ∧ q.Renders reconcile (Named identity linked) g f := by
  obtain ⟨answer, ok, rows⟩ := exists_answer ho identity q hm reconcile
  have merged : answer.rows = mergeByFact (b.rendered identity q scopes reconcile) := rows
  have named : ∀ row ∈ b.rendered identity q scopes reconcile,
      ∃ versions, row.mark = .holding versions := fun row h =>
    (mark_of_mem_rendered ho hm links h).imp fun _ marked => marked.1
  have marked : ∀ row ∈ answer.rows, row.mark.Answers .history := fun row h =>
    answers_of_mem_mergeByFact (merged ▸ h)
  refine ⟨answer, ok, merged ▸ nodup_mergeByFact _, marked, fun v f => ?_⟩
  calc (∃ versions, ⟨f, .holding versions⟩ ∈ answer.rows ∧ v ∈ versions)
    _ ↔ Attests answer.rows v f :=
      (attests_iff_of_holding fun row h => (marked row h).imp fun _ held => held.1).symm
    _ ↔ Attests (b.rendered identity q scopes reconcile) v f := by
      rw [merged, attests_mergeByFact named]
    _ ↔ ∃ g, held v g ∧ q.Renders reconcile (Named identity linked) g f :=
      attests_rendered ho hm links shows

end Modes

end Backend

end Annals
