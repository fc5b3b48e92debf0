/-!
# Terms

A term is an opaque text: an identifier, a literal or the name of a variable. Terms are ordered by
the code points of their text.
-/

namespace Annals

open Std

/-- An identifier, a literal or a variable. -/
structure Term where
  text : String
  deriving DecidableEq, Inhabited, Repr

namespace Term

instance : Ord Term := ⟨compareOn text⟩

instance : TransOrd Term := inferInstanceAs (TransCmp (compareOn text))

instance : LawfulEqOrd Term where
  compare_self := ReflOrd.compare_self
  eq_of_compare {a b} h := by
    have texts : compare a.text b.text = .eq := h
    cases a
    cases b
    exact congrArg _ (LawfulEqCmp.eq_of_compare texts)

/-- A variable's name begins with a question mark or an underscore. -/
def isVariable (t : Term) : Bool :=
  t.text.toList.head?.any fun c => c = '?' || c = '_'

/-- Every term that is not a variable, the empty one included. -/
def isConstant (t : Term) : Bool := !t.isVariable

instance : ToString Term := ⟨text⟩

end Term

end Annals
