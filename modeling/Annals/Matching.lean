import Annals.Binding

/-!
# Matching

Variables on the left take the constants on the right as values. A variable on the right agrees with
every term and gives no value, which is how a conclusion is held against a query with open places.
-/

namespace Annals

/-- Holds a term against another one. -/
def Term.match? (t u : Term) : Option Binding :=
  if t.isVariable then some (if u.isVariable then .empty else .single t u)
  else if u.isVariable ∨ t = u then some .empty
  else none

namespace Pattern

/-- Holds a pattern against another one, place by place. A variable that occurs twice has to take
one value. -/
def match? (p q : Pattern) : Option Binding := do
  let s ← p.subject.match? q.subject
  let r ← p.predicate.match? q.predicate
  let o ← p.object.match? q.object
  Binding.merge? [s, r, o]

/-- The binding that a row found for the pattern gives, with the row's mark. -/
def matchRow? (p : Pattern) (row : Triple) : Option Binding :=
  (p.match? row.fact).map fun b => b.withMark row.mark

end Pattern

end Annals
