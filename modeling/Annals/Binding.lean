import Annals.Distinct
import Annals.Triple

/-!
# Bindings

A binding gives values to finitely many variables. It carries the mark of the row that it was read
off, which everything built from the binding then bears. Two bindings that give a variable different
values have no common extension.
-/

namespace Annals

/-- Values for variables, and the mark of the row they come from. -/
structure Binding where
  /-- Each variable with its value, in the order in which they were bound. -/
  values : List (Term × Term)
  mark : Mark
  functional : (values.map Prod.fst).Nodup
  deriving DecidableEq

namespace Binding

/-- No variable has a value. -/
def empty : Binding := ⟨[], .plain, .nil⟩

instance : Inhabited Binding := ⟨empty⟩

/-- One variable has a value. -/
def single (var value : Term) : Binding := ⟨[(var, value)], .plain, by simp⟩

/-- The value of a variable. -/
def get? (b : Binding) (var : Term) : Option Term := b.values.lookup var

/-- The number of variables with a value. -/
def size (b : Binding) : Nat := b.values.length

/-- The binding with another mark. -/
def withMark (b : Binding) (mark : Mark) : Binding := { b with mark }

theorem not_mem_of_get?_eq_none {b : Binding} {var : Term} (h : b.get? var = none) :
    var ∉ b.values.map Prod.fst := by
  intro hmem
  obtain ⟨p, hp, rfl⟩ := List.mem_map.1 hmem
  simpa using List.lookup_eq_none_iff.1 h p hp

/-- Gives a value to a variable, which keeps the value that it has; none if that is another one. -/
def bind? (b : Binding) (var value : Term) : Option Binding :=
  match h : b.get? var with
  | some known => if known = value then some b else none
  | none =>
    some {
      values := b.values ++ [(var, value)]
      mark := b.mark
      functional := by
        rw [List.map_append, List.nodup_append]
        refine ⟨b.functional, by simp, fun x hx y hy e => ?_⟩
        have hy : y = var := by simpa using hy
        exact not_mem_of_get?_eq_none h (hy ▸ e ▸ hx) }

/-- Adds values for variables one after the other. -/
def bindAll? (b : Binding) (pairs : List (Term × Term)) : Option Binding :=
  pairs.foldlM (fun b (var, value) => bind? b var value) b

/-- Adds the values of a second binding. The mark is the first of the two that says something. -/
def absorb? (b c : Binding) : Option Binding :=
  (b.bindAll? c.values).map fun d => d.withMark (b.mark.orElse c.mark)

/-- The common extension of bindings, where they have one. -/
def merge? (bs : List Binding) : Option Binding := bs.foldlM absorb? empty

/-- The binding of a list of variables with values; of several values for one variable the last one
stands. -/
def ofPairs (pairs : List (Term × Term)) (mark : Mark) : Binding :=
  ⟨distinctBy Prod.fst pairs.reverse, mark, nodup_map_distinctBy _ _⟩

/-- A variable with a value stands for it, and every other term for itself. -/
def resolve (b : Binding) (t : Term) : Term :=
  if t.isVariable then (b.get? t).getD t else t

end Binding

namespace Pattern

/-- The pattern with the variables of a binding replaced by their values. -/
def bind (p : Pattern) (b : Binding) : Pattern := p.map b.resolve

/-- The fact that the pattern becomes under a binding, with the binding's mark; none if a variable
is left. -/
def instantiate? (p : Pattern) (b : Binding) : Option Triple :=
  let fact := p.bind b
  if fact.isGround then some ⟨fact, b.mark⟩ else none

end Pattern

end Annals
