import Annals.Pattern
import Annals.Version

/-!
# Annotated facts

A row of an answer is a fact with what the mode of the query says about it: nothing at one version,
whether it was asserted or retracted between two, or the versions it holds in.
-/

namespace Annals

/-- What a row says about its fact. -/
inductive Mark where
  /-- Nothing is said. -/
  | plain
  /-- The fact was asserted (`true`) or retracted (`false`). -/
  | change (asserted : Bool)
  /-- The fact holds in these versions. -/
  | holding (versions : VersionSet)
  deriving DecidableEq, Inhabited

namespace Mark

/-- The direction of a change. -/
def asserted? : Mark → Option Bool
  | change asserted => some asserted
  | _ => none

/-- The versions that are named. -/
def versions? : Mark → Option VersionSet
  | holding versions => some versions
  | _ => none

/-- The first of two marks that says something. -/
def orElse : Mark → Mark → Mark
  | plain, b => b
  | a, _ => a

end Mark

/-- A fact with its mark. -/
structure Triple where
  fact : Fact
  mark : Mark
  deriving DecidableEq, Inhabited

namespace Triple

/-- The row asserts its fact. -/
def isAssertion (t : Triple) : Bool := t.mark.asserted? = some true

/-- The row retracts its fact. -/
def isRetraction (t : Triple) : Bool := t.mark.asserted? = some false

/-- The row with another term at one place. -/
def set (t : Triple) (term : Term) (i : Position) : Triple := { t with fact := t.fact.set term i }

/-- The versions that the row names fit into 64 bits. -/
def Fits (t : Triple) : Prop := ∀ vs, t.mark = .holding vs → ∀ v, v ∈ vs → Version.Fits v

/-- A change is shown with a sign in front, a set of versions after an at sign behind. -/
def display (t : Triple) : String :=
  match t.mark with
  | .plain => t.fact.display
  | .change true => "+ " ++ t.fact.display
  | .change false => "- " ++ t.fact.display
  | .holding versions => s!"{t.fact.display} @{versions.display}"

end Triple

end Annals
