import Annals.Inference.Report
import Annals.Proofs.Inference.Derivation
import Mathlib.Data.List.Basic

/-!
# Candidates

The candidates for a rule are a filter of the frontier. The rows that are left out have a predicate
that no premise has, so they set off nothing, and a scan of the whole frontier would find the same
firings in the same order.
-/

namespace Annals

namespace Rule

variable {r : Rule}

/-- A premise names the predicate, or one of them leaves its predicate open. -/
def allows (r : Rule) (predicate : Term) : Bool :=
  r.bodyPredicates?.all fun predicates => decide (predicate ∈ predicates)

theorem allows_iff {p : Term} :
    r.allows p = true ↔ ∀ ps, r.bodyPredicates? = some ps → p ∈ ps := by
  rw [allows]
  cases r.bodyPredicates? <;> simp

/-- A fact that sets off a rule has a predicate that a premise allows. -/
theorem allows_of_trigger? {row : Triple} {b : Binding}
    (constant : row.fact.predicate.isVariable = false) (h : r.trigger? row = some b) :
    r.allows row.fact.predicate = true := by
  obtain ⟨premise, hp, c, hc⟩ := exists_premise_of_trigger? h
  refine allows_iff.mpr fun ps hps => ?_
  unfold bodyPredicates? at hps
  split at hps
  · cases hps
  · next named =>
    obtain rfl := Option.some.inj hps
    have named : premise.predicate.isVariable = false := by
      simpa using List.any_eq_false.mp (Bool.eq_false_iff.mpr named) premise hp
    have same : premise.predicate = row.fact.predicate :=
      Pattern.get_eq_of_match? (i := .predicate) hc named constant
    exact List.mem_map.mpr ⟨premise, hp, same⟩

end Rule

namespace Frontier

variable {f : Frontier} {r : Rule} {row : Triple}

theorem getElem?_rows (i : Nat) : f.rows[i]? = f.toList[i]? := Array.getElem?_toList.symm

section Places

variable {keep : Triple → Bool}

/-- The places of the rows that pass a test. -/
def placesOf (f : Frontier) (keep : Triple → Bool) : OrderedSet Nat where
  toList := (List.range f.size).filter fun i => f.rows[i]?.any keep
  ascending := (List.pairwise_lt_range.imp Nat.compare_eq_lt.mpr).filter _

theorem mem_placesOf {i : Nat} :
    i ∈ f.placesOf keep ↔ ∃ row, f.rows[i]? = some row ∧ keep row = true := by
  rw [OrderedSet.mem_def, placesOf, List.mem_filter, List.mem_range, Option.any_eq_true,
    and_iff_right_of_imp]
  rintro ⟨row, found, -⟩
  exact (Array.getElem?_eq_some_iff.mp found).1

/-- The rows at these places are those that pass the test, in their order. -/
theorem map_placesOf (f : Frontier) (keep : Triple → Bool) :
    (f.placesOf keep).toList.map (fun i => f.rows[i]?) = (f.toList.filter keep).map some := by
  have listed : (List.range f.size).map (fun i => f.rows[i]?) = f.toList.map some := by
    apply List.ext_getElem?
    intro i
    simp only [List.getElem?_map, getElem?_rows]
    rcases Nat.lt_or_ge i f.size with h | h
    · rw [List.getElem?_range h, Option.map_some, List.getElem?_eq_getElem (by rwa [length_toList]),
        Option.map_some]
    · rw [List.getElem?_eq_none (by rwa [List.length_range]),
        List.getElem?_eq_none (by rwa [length_toList]), Option.map_none, Option.map_none]
  have filtered := congrArg (List.filter (Option.any keep)) listed
  rw [List.filter_map, List.filter_map] at filtered
  exact filtered

end Places

theorem mem_places {ps : List Term} {start : OrderedSet Nat} {i : Nat} :
    i ∈ ps.foldl (fun places p => places ∪ f.table.get p) start ↔
      i ∈ start ∨ ∃ p ∈ ps, i ∈ f.table.get p := by
  induction ps generalizing start with
  | nil => simp
  | cons p rest ih => simp [ih, or_assoc]

/-- The candidates for a rule are the rows with one of the predicates that its premises name, if all
of them name one. -/
theorem candidates_eq_filter (f : Frontier) (r : Rule) :
    f.candidates r = f.toList.filter fun row => r.allows row.fact.predicate := by
  rw [candidates]
  cases h : r.bodyPredicates? with
  | none => exact (List.filter_eq_self.mpr fun row _ => by rw [Rule.allows, h]; rfl).symm
  | some ps =>
    have places : ps.foldl (fun places p => places ∪ f.table.get p) ∅ =
        f.placesOf fun row => r.allows row.fact.predicate := by
      ext i
      simp only [mem_places, OrderedSet.not_mem_empty, false_or, f.indexed, mem_placesOf,
        Rule.allows, h, Option.all_some, decide_eq_true_eq]
      constructor
      · rintro ⟨p, hp, row, found, rfl⟩
        exact ⟨row, found, hp⟩
      · rintro ⟨row, found, hp⟩
        exact ⟨row.fact.predicate, hp, row, found, rfl⟩
    have rows := congrArg (List.filterMap id)
      (f.map_placesOf fun row => r.allows row.fact.predicate)
    rw [List.filterMap_map, List.filterMap_map] at rows
    simpa only [places, Function.id_comp, List.filterMap_some] using rows

theorem mem_candidates :
    row ∈ f.candidates r ↔ row ∈ f.toList ∧ r.allows row.fact.predicate = true := by
  rw [candidates_eq_filter, List.mem_filter]

/-- No row that sets off a rule is left out. -/
theorem filterMap_candidates
    (constant : ∀ row ∈ f.toList, row.fact.predicate.isVariable = false) :
    (f.candidates r).filterMap r.fire? = f.toList.filterMap r.fire? := by
  rw [candidates_eq_filter, List.filterMap_filter]
  refine List.filterMap_congr fun row hrow => ?_
  split
  · rfl
  · next hidden =>
    refine (Option.map_eq_none_iff.mpr (Option.eq_none_iff_forall_ne_some.mpr ?_)).symm
    exact fun b hb => hidden (Rule.allows_of_trigger? (constant row hrow) hb)

end Frontier

/-- Firings that come down to the same narrowed rule and mark are one. -/
def Firing.key (firing : Firing) : Rule × Mark := (firing.rule, firing.mark)

/-- Rules being held against rows: the firings found so far, and the report that counts them. -/
structure Scan where
  firings : List Firing
  report : Report

namespace Scan

/-- Keeps a firing and counts it, if none of those found so far is the same. -/
def add (s : Scan) (firing : Firing) : Scan :=
  if firing.key ∈ s.firings.map Firing.key then s
  else ⟨s.firings ++ [firing], s.report.countFiring firing.origin.label⟩

/-- Holds a row against a rule. -/
def meet (r : Rule) (s : Scan) (row : Triple) : Scan :=
  match r.fire? row with
  | none => s
  | some firing => s.add firing

/-- Holds rules, one after the other, against the rows that each is given. -/
def ofRules (rules : List Rule) (rows : Rule → List Triple) (report : Report) : Scan :=
  rules.foldl (fun s r => (rows r).foldl (meet r) s) ⟨[], report⟩

/-- The scan that has found the distinct ones of a list of firings, and counted each once. -/
def ofAttempts (report : Report) (attempts : List Firing) : Scan :=
  let firings := distinctBy Firing.key attempts
  ⟨firings, firings.foldl (fun report firing => report.countFiring firing.origin.label) report⟩

theorem add_ofAttempts (report : Report) (attempts : List Firing) (firing : Firing) :
    (ofAttempts report attempts).add firing = ofAttempts report (attempts ++ [firing]) := by
  have concat := distinctBy_concat (nodup_map_distinctBy Firing.key attempts) firing
  rw [distinctBy_distinctBy_append] at concat
  rw [add, ofAttempts, ofAttempts, concat]
  split
  · rfl
  · rw [List.foldl_append, List.foldl_cons, List.foldl_nil]

theorem foldl_meet_ofAttempts (report : Report) (attempts : List Firing) (r : Rule)
    (rows : List Triple) :
    rows.foldl (meet r) (ofAttempts report attempts) =
      ofAttempts report (attempts ++ rows.filterMap r.fire?) := by
  induction rows generalizing attempts with
  | nil => rw [List.foldl_nil, List.filterMap_nil, List.append_nil]
  | cons row rest ih =>
    rw [List.foldl_cons, meet, List.filterMap_cons]
    cases r.fire? row with
    | none => exact ih attempts
    | some firing =>
      dsimp only
      rw [add_ofAttempts, ih, List.append_assoc, List.singleton_append]

theorem foldl_ofAttempts (report : Report) (attempts : List Firing) (rules : List Rule)
    (rows : Rule → List Triple) :
    rules.foldl (fun s r => (rows r).foldl (meet r) s) (ofAttempts report attempts) =
      ofAttempts report (attempts ++ rules.flatMap fun r => (rows r).filterMap r.fire?) := by
  induction rules generalizing attempts with
  | nil => rw [List.foldl_nil, List.flatMap_nil, List.append_nil]
  | cons r rest ih =>
    rw [List.foldl_cons, foldl_meet_ofAttempts, ih, List.append_assoc, List.flatMap_cons]

/-- A scan finds each firing once, where it comes up first. -/
theorem ofRules_eq (rules : List Rule) (rows : Rule → List Triple) (report : Report) :
    ofRules rules rows report =
      ofAttempts report (rules.flatMap fun r => (rows r).filterMap r.fire?) :=
  foldl_ofAttempts report [] rules rows

end Scan

/-- The table of predicates hides nothing. The candidates for a rule are rows of the frontier in
their order, at places none of which occurs twice, and every row that sets off the rule is at one of
them. So a scan of the candidates finds the same firings in the same order, and counts them alike,
as a scan of all rows. -/
theorem candidates_hide_nothing (rows : List Triple)
    (constant : ∀ row ∈ rows, row.fact.predicate.isVariable = false) :
    (∀ r : Rule, ∃ places : List Nat, places.Pairwise (· < ·) ∧
        ((Frontier.ofList rows).candidates r).map some = places.map (fun i => rows[i]?) ∧
        ∀ i row b, rows[i]? = some row → r.trigger? row = some b → i ∈ places) ∧
      ∀ rules report,
        Scan.ofRules rules (Frontier.ofList rows).candidates report =
            ⟨(Frontier.ofList rows).firings rules,
              ((Frontier.ofList rows).firings rules).foldl
                (fun report firing => report.countFiring firing.origin.label) report⟩ ∧
          Scan.ofRules rules (fun _ => rows) report =
            Scan.ofRules rules (Frontier.ofList rows).candidates report := by
  have listed : (Frontier.ofList rows).toList = rows := Frontier.toList_ofList rows
  have found : ∀ i : Nat, (Frontier.ofList rows).rows[i]? = rows[i]? := fun i => by
    rw [Frontier.getElem?_rows, listed]
  constructor
  · intro r
    let places := (Frontier.ofList rows).placesOf fun row => r.allows row.fact.predicate
    refine ⟨places.toList, places.ascending.imp Nat.compare_eq_lt.mp, ?_, ?_⟩
    · simp only [← found]
      rw [Frontier.candidates_eq_filter, Frontier.map_placesOf]
    · intro i row b hi hb
      exact Frontier.mem_placesOf.mpr ⟨row, (found i).trans hi,
        Rule.allows_of_trigger? (constant row (List.mem_of_getElem? hi)) hb⟩
  · intro rules report
    refine ⟨Scan.ofRules_eq rules _ report, ?_⟩
    have all : ∀ r : Rule, ((Frontier.ofList rows).candidates r).filterMap r.fire? =
        rows.filterMap r.fire? := by
      intro r
      rw [Frontier.filterMap_candidates (by rwa [listed]), listed]
    simp only [Scan.ofRules_eq, all]

namespace Sample

/-- Tom is a cat, cats are animals, and Tom has seen Jerry. -/
def sightings : List Triple :=
  [⟨⟨⟨"tom"⟩, Vocabulary.type, ⟨"Cat"⟩⟩, .plain⟩,
    ⟨⟨⟨"tom"⟩, ⟨"sees"⟩, ⟨"jerry"⟩⟩, .plain⟩,
    ⟨⟨⟨"Cat"⟩, Vocabulary.subClassOf, ⟨"Animal"⟩⟩, .plain⟩]

end Sample

/-- The row about Jerry is no candidate for the rule on instances of classes, which the rows around
it set off. A scan of all rows sets off this rule twice, the rule with an open predicate three times,
and the rule on chains of classes not at all, as one row cannot meet both of its premises. -/
theorem candidates_of_sightings :
    ∃ places : List Nat, places.Pairwise (· < ·) ∧ places.length = 2 ∧ 0 ∈ places ∧ 2 ∈ places ∧
      ((Frontier.ofList Sample.sightings).candidates Rule.subClass).map some =
        places.map (fun i => Sample.sightings[i]?) ∧
      (Scan.ofRules [Rule.subClass, Rule.subClassTransitive, Rule.subProperty]
        (fun _ => Sample.sightings) {}).report.triggered = 5 := by
  obtain ⟨listing, scan⟩ := candidates_hide_nothing Sample.sightings (by decide +kernel)
  obtain ⟨places, ascending, listed, complete⟩ := listing Rule.subClass
  have two : ((Frontier.ofList Sample.sightings).candidates Rule.subClass).length = 2 := by
    decide +kernel
  refine ⟨places, ascending, ?_, ?_, ?_, listed, ?_⟩
  · have lengths := congrArg List.length listed
    rw [List.length_map, List.length_map, two] at lengths
    exact lengths.symm
  · have met : (Rule.subClass.trigger? Sample.sightings[0]).isSome := by decide +kernel
    obtain ⟨b, hb⟩ := Option.isSome_iff_exists.mp met
    exact complete 0 _ b rfl hb
  · have met : (Rule.subClass.trigger? Sample.sightings[2]).isSome := by decide +kernel
    obtain ⟨b, hb⟩ := Option.isSome_iff_exists.mp met
    exact complete 2 _ b rfl hb
  · obtain ⟨model, same⟩ := scan [Rule.subClass, Rule.subClassTransitive, Rule.subProperty] {}
    rw [same, model]
    decide +kernel

end Annals
