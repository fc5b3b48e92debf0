import Annals.Alias.Expansion

/-!
# Back to the terms of the query

The rows of an expanded query name things by their aliases. They are either rewritten to the terms
that the query named, or spread out to all aliases of every term in them.
-/

namespace Annals

/-- What becomes of aliases in the rows of an expanded query. -/
inductive Reconcile where
  /-- Rows name things as the query did. -/
  | canonicalize
  /-- Rows are repeated with all names of the things in them. -/
  | allCombinations
  deriving DecidableEq, Repr

/-- The row with the query's terms at the places that it fixes. -/
def Query.canonical (q : Query) (row : Triple) : Triple :=
  { row with fact := .ofFn fun i => (q.get i).getD (row.fact.get i) }

/-- The terms that may replace a row's term at a place: the class of the place if the query fixes it
and the term belongs to it, and the class of the term if the place is open. -/
def Expansion.alternatives (e : Expansion) (values : TermClasses) (q : Query) (i : Position)
    (term : Term) : List Term :=
  if (q.get i).isSome then
    let members := (e.classAt i).terms
    if term ∈ members then members else []
  else ((values.lookup term).getD []).terms

/-- A row with each of the terms that may stand at a place, or the row itself if that is less than
two. -/
def Expansion.spread (e : Expansion) (values : TermClasses) (q : Query) (i : Position)
    (row : Triple) : List Triple :=
  let terms := e.alternatives values q i (row.fact.get i)
  if terms.length < 2 then [row] else terms.map fun term => row.set term i

/-- Brings rows back to the terms of the query, each row once. -/
def Expansion.reconcile (e : Expansion) (values : TermClasses) (q : Query) (rows : List Triple) :
    Reconcile → List Triple
  | .canonicalize => distinct (rows.map q.canonical)
  | .allCombinations =>
    distinct (Position.all.foldl (fun rows i => rows.flatMap (e.spread values q i)) rows)

end Annals
