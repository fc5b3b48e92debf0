import Annals.Alias.Collapse
import Annals.Alias.Reconcile
import Annals.Inference.Answer

/-!
# Searching with aliases

A query is expanded, the rows of all its forms are gathered, and aliases are reconciled. In a
difference nothing is reconciled: the rows that only tell of aliases are dropped.
-/

namespace Annals

/-- The rows of an alias search, and what it took to find them. -/
structure AliasAnswer where
  rows : List Triple
  /-- The forms of the query. -/
  combinations : Nat
  /-- The rows that the stores gave. -/
  found : Nat
  /-- The rows dropped from a difference. -/
  dropped : Nat
  /-- Queries put to stores. -/
  asked : Nat

/-- The version at which links are looked up: that of the dataset's snapshot. -/
def ScopePair.linkVersion (s : ScopePair) : Option Version :=
  match s.dataset with
  | .snapshot moment => some moment.version
  | _ => none

namespace Backend

/-- The rows that answer a query in a mode, from those that the stores gave to its expansion. -/
def settle (b : Backend) (identity : List Term) (mode : Mode) (version : Option Version) (q : Query)
    (reconcile : Reconcile) (e : Expansion) (found : List Triple) : Metered (List Triple) := do
  match mode with
  | .delta => return dropAliased identity (distinct found)
  | _ =>
    let values ← match reconcile with
      | .allCombinations => b.openClasses identity version q found
      | .canonicalize => pure []
    let rows := e.reconcile values q found reconcile
    return if mode = .history then mergeByFact rows else rows

/-- Answers a query under all aliases of its terms. -/
def searchUnderAliases (b : Backend) (identity : List Term) (q : Query) (scopes : ScopePair)
    (reconcile : Reconcile) : Except EngineError AliasAnswer := do
  let mode ← scopes.mode
  let version := scopes.linkVersion
  let run : Metered (Expansion × List Triple × List Triple) := do
    let e ← b.expand identity version q
    let found ← b.gather e.combinations scopes
    return (e, found, ← b.settle identity mode version q reconcile e found)
  let ((e, found, rows), asked) ← run.run 0
  let dropped := if mode = .delta then (distinct found).length - rows.length else 0
  return ⟨rows, e.combinations.length, found.length, dropped, asked⟩

end Backend

end Annals
