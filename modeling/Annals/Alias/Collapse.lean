import Annals.Distinct
import Annals.Triple

/-!
# Changes that only tell of aliases

A row with an identity predicate links the terms at its ends. Where a difference has such rows, all
rows go that share a term, or a name for it, with a row that has a linked term in it.
-/

namespace Annals

/-- The pairs of terms that rows link, in either direction. -/
def linkPairs (identity : List Term) (rows : List Triple) : List (Term × Term) :=
  (rows.filter fun row => decide (row.fact.predicate ∈ identity)).flatMap fun row =>
    [(row.fact.subject, row.fact.object), (row.fact.object, row.fact.subject)]

/-- The fact has a term that some pair links. -/
def hasLinked (links : List (Term × Term)) (f : Fact) : Bool :=
  Position.all.any fun i => links.any fun pair => decide (pair.1 = f.get i)

/-- At some place the facts have the same term, or two that a pair links. -/
def overlap (links : List (Term × Term)) (f g : Fact) : Bool :=
  Position.all.any fun i => decide (f.get i = g.get i ∨ (f.get i, g.get i) ∈ links)

/-- Goes through the rows, and for each one with a linked term drops all that it overlaps with. -/
def dropAliased (identity : List Term) (rows : List Triple) : List Triple :=
  let links := linkPairs identity rows
  (rows.filter fun row => hasLinked links row.fact).foldl
    (fun kept row => kept.filter fun other => !overlap links row.fact other.fact) rows

end Annals
