import Annals.Inference.Frontier
import Annals.Scope

/-!
# Answers in the making

Each mode has its own way of taking in what a round concluded, and of telling which of it is new. A
snapshot collects distinct rows. A difference keeps its rows and only loses retractions, of facts
that were concluded after all. Over all versions there is one entry a fact, whose versions grow.
-/

namespace Annals

/-- The distinct rows found so far, in the order in which they were found. -/
structure SnapshotAnswer where
  rows : List Triple

namespace SnapshotAnswer

/-- Takes in rows; those that are new are handed on. -/
def absorb (a : SnapshotAnswer) (rows : List Triple) : SnapshotAnswer × List Triple :=
  let fresh := (distinct rows).filter fun row => decide (row ∉ a.rows)
  (⟨a.rows ++ fresh⟩, fresh)

end SnapshotAnswer

/-- The changes that remain, and the facts that are known to hold afterwards. -/
structure DeltaAnswer where
  rows : List Triple
  known : List Fact

namespace DeltaAnswer

/-- The answer that holds the distinct changes of a list; the assertions among them are handed
on. -/
def ofRows (rows : List Triple) : DeltaAnswer × List Triple :=
  let rows := distinct rows
  let asserted := rows.filter Triple.isAssertion
  (⟨rows, asserted.map Triple.fact⟩, asserted)

/-- Drops the retractions of facts that a round concluded. -/
def retained (a : DeltaAnswer) (concluded : List Triple) : List Triple :=
  a.rows.filter fun row => !(row.isRetraction && decide (row.fact ∈ concluded.map Triple.fact))

/-- Takes in conclusions; the first one of each fact not known before is handed on. -/
def absorb (a : DeltaAnswer) (concluded : List Triple) : DeltaAnswer × List Triple :=
  let fresh := (distinctBy Triple.fact concluded).filter fun row => decide (row.fact ∉ a.known)
  (⟨a.retained concluded, a.known ++ fresh.map Triple.fact⟩, fresh)

end DeltaAnswer

/-- The facts found so far with their versions, in the order in which they were found. -/
structure HistoryAnswer where
  entries : List (Fact × VersionSet)

namespace HistoryAnswer

/-- The versions that an answer has for a fact. -/
def versionsOf (a : HistoryAnswer) (f : Fact) : VersionSet := (a.entries.lookup f).getD ∅

/-- Adds versions to the entry of a fact, at the end if it has none. -/
def extend (f : Fact) (versions : VersionSet) :
    List (Fact × VersionSet) → List (Fact × VersionSet)
  | [] => [(f, versions)]
  | (g, known) :: rest =>
    if g = f then (g, known ∪ versions) :: rest else (g, known) :: extend f versions rest

/-- Takes in a row; it is handed on with the versions that are new, where there are any. -/
def add (a : HistoryAnswer) (row : Triple) : HistoryAnswer × Option Triple :=
  match row.mark.versions? with
  | none => (a, none)
  | some versions =>
    let gained := versions \ a.versionsOf row.fact
    if gained.isEmpty then (a, none)
    else (⟨extend row.fact versions a.entries⟩, some { row with mark := .holding gained })

/-- Takes in rows one after the other. -/
def absorb (a : HistoryAnswer) : List Triple → HistoryAnswer × List Triple
  | [] => (a, [])
  | row :: rest =>
    let (a, gained?) := a.add row
    let (a, gained) := absorb a rest
    (a, gained?.toList ++ gained)

/-- The entries as rows. -/
def rows (a : HistoryAnswer) : List Triple :=
  a.entries.map fun (f, versions) => ⟨f, .holding versions⟩

end HistoryAnswer

/-- One row for each fact of a list, with all versions that the list gives it. -/
def mergeByFact (rows : List Triple) : List Triple := ((⟨[]⟩ : HistoryAnswer).absorb rows).1.rows

/-- The answer in the making, by mode. -/
inductive Answer where
  | snapshot (a : SnapshotAnswer)
  | delta (a : DeltaAnswer)
  | history (a : HistoryAnswer)

/-- An answer that has taken in the conclusions of a round. -/
structure Absorbed where
  answer : Answer
  /-- What was new, and sets off the next round. -/
  frontier : Frontier
  /-- How many retractions were dropped. -/
  suppressed : Nat

namespace Answer

/-- The answer that holds the rows found in the stores, and the first frontier. -/
def ofRows (mode : Mode) (rows : List Triple) : Answer × Frontier :=
  match mode with
  | .snapshot =>
    let (a, fresh) := (⟨[]⟩ : SnapshotAnswer).absorb rows
    (snapshot a, .ofList fresh)
  | .delta =>
    let (a, fresh) := DeltaAnswer.ofRows rows
    (delta a, .ofList fresh)
  | .history =>
    let (a, fresh) := (⟨[]⟩ : HistoryAnswer).absorb rows
    (history a, .ofList fresh)

/-- Takes in the conclusions of a round. -/
def absorb (concluded : List Triple) : Answer → Absorbed
  | snapshot a =>
    let (a, fresh) := a.absorb concluded
    ⟨snapshot a, .ofList fresh, 0⟩
  | delta a =>
    let (b, fresh) := a.absorb concluded
    ⟨delta b, .ofList fresh, a.rows.length - b.rows.length⟩
  | history a =>
    let (a, fresh) := a.absorb concluded
    ⟨history a, .ofList fresh, 0⟩

/-- The rows of the answer. -/
def rows : Answer → List Triple
  | snapshot a => a.rows
  | delta a => a.rows
  | history a => a.rows

/-- The number of rows. -/
def size (a : Answer) : Nat := a.rows.length

end Answer

end Annals
