import Annals.Rule

/-!
# Frontiers

The rows that a round was the first to find. A table of the places of every predicate lets a rule
whose premises name their predicates go past the rows that cannot match.
-/

namespace Annals

/-- The places, by predicate, of rows in a list. -/
abbrev PlaceTable := List (Term × OrderedSet Nat)

namespace PlaceTable

/-- The places of a predicate. -/
def get (table : PlaceTable) (predicate : Term) : OrderedSet Nat :=
  (table.lookup predicate).getD ∅

/-- Adds a place of a predicate. -/
def add (predicate : Term) (place : Nat) : PlaceTable → PlaceTable
  | [] => [(predicate, .ofList [place])]
  | (p, places) :: rest =>
    if p = predicate then (p, places.insert place) :: rest
    else (p, places) :: add predicate place rest

@[simp] theorem get_nil (r : Term) : get [] r = ∅ := rfl

theorem get_cons {p r : Term} {places : OrderedSet Nat} {rest : PlaceTable} :
    get ((p, places) :: rest) r = if r = p then places else get rest r := by
  by_cases h : r = p
  · simp [get, h]
  · have hb : (r == p) = false := by simpa using h
    simp [get, List.lookup_cons, h, hb]

theorem mem_get_add {table : PlaceTable} {p r : Term} {i j : Nat} :
    j ∈ (table.add p i).get r ↔ (r = p ∧ j = i) ∨ j ∈ table.get r := by
  induction table with
  | nil => by_cases h : r = p <;> simp [add, get_cons, h]
  | cons entry rest ih =>
    obtain ⟨q, places⟩ := entry
    rw [add]
    split
    · next hq =>
      subst hq
      by_cases hr : r = q <;> simp [get_cons, hr]
    · next hq =>
      by_cases hr : r = q
      · simp [get_cons, hr, hq]
      · simp [get_cons, hr, ih]

end PlaceTable

/-- Rows in the order in which they were found, with the places of their predicates. -/
structure Frontier where
  rows : Array Triple
  table : PlaceTable
  indexed : ∀ p i, i ∈ table.get p ↔ ∃ row, rows[i]? = some row ∧ row.fact.predicate = p

namespace Frontier

/-- No rows. -/
def empty : Frontier := ⟨#[], [], by simp⟩

instance : Inhabited Frontier := ⟨empty⟩

/-- Adds a row at the end. -/
def push (f : Frontier) (row : Triple) : Frontier where
  rows := f.rows.push row
  table := f.table.add row.fact.predicate f.rows.size
  indexed p i := by
    rw [PlaceTable.mem_get_add, f.indexed, Array.getElem?_push]
    by_cases h : i = f.rows.size
    · subst h
      simp [eq_comm]
    · simp [h]

/-- The frontier of a list of rows. -/
def ofList (rows : List Triple) : Frontier := rows.foldl push empty

/-- The rows in their order. -/
def toList (f : Frontier) : List Triple := f.rows.toList

@[simp] theorem toList_empty : empty.toList = [] := rfl

@[simp] theorem toList_push (f : Frontier) (row : Triple) :
    (f.push row).toList = f.toList ++ [row] := by
  simp [toList, push]

@[simp] theorem toList_ofList (rows : List Triple) : (ofList rows).toList = rows := by
  have general : ∀ f : Frontier, (rows.foldl push f).toList = f.toList ++ rows := by
    induction rows with
    | nil => simp
    | cons row rest ih =>
      intro f
      rw [List.foldl_cons, ih, toList_push, List.append_assoc, List.singleton_append]
  exact general empty

/-- The number of rows. -/
def size (f : Frontier) : Nat := f.rows.size

theorem length_toList (f : Frontier) : f.toList.length = f.size := Array.length_toList

@[simp] theorem size_ofList (rows : List Triple) : (ofList rows).size = rows.length := by
  rw [← length_toList, toList_ofList]

/-- There are no rows. -/
def isEmpty (f : Frontier) : Bool := f.rows.isEmpty

/-- The rows that may set off a rule: those with one of the predicates that the rule's premises
name, or all rows if a premise leaves its predicate open. -/
def candidates (f : Frontier) (r : Rule) : List Triple :=
  match r.bodyPredicates? with
  | none => f.toList
  | some predicates =>
    let places := predicates.foldl (fun places p => places ∪ f.table.get p) ∅
    places.toList.filterMap fun i => f.rows[i]?

end Frontier

end Annals
