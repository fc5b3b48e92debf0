import Annals.Backend
import Annals.Inference.Frontier

/-!
# Setting off rules

A row of the frontier that matches a rule's premises narrows the rule. Premises that are ground
thereby are taken to hold; of the others there may be one, which is looked up in the stores. A
conclusion over all versions holds where both the row and the premise do.
-/

namespace Annals

/-- A rule that a row has set off. -/
structure Firing where
  /-- The rule as it was narrowed to the query. -/
  origin : Rule
  /-- The rule as the row narrows it further. -/
  rule : Rule
  /-- The mark of the row. -/
  mark : Mark
  deriving DecidableEq

/-- The mark of a conclusion from a row and, where there is one, a premise that was looked up; none
if no version has both. -/
def Mode.commonMark? (mode : Mode) (row : Mark) (premise : Option Mark) : Option Mark :=
  match mode with
  | .snapshot => some .plain
  | .delta => some .plain
  | .history =>
    let versions? :=
      match row.versions?, premise.bind Mark.versions? with
      | some v, some w => some (v ∩ w)
      | some v, none => some v
      | none, w => w
    match versions? with
    | some versions => if versions.isEmpty then none else some (.holding versions)
    | none => none

namespace Firing

/-- The premises that are not ground yet. -/
def residual (f : Firing) : List Pattern := f.rule.body.filter fun premise => !premise.isGround

/-- What follows where the premise left over, if there is one, is met by the given rows. -/
def conclusions (mode : Mode) (f : Firing) (rows : List Triple) : List Triple :=
  match f.residual with
  | [] =>
    (mode.commonMark? f.mark none).toList.flatMap fun mark =>
      f.rule.instances (Binding.empty.withMark mark)
  | premise :: _ =>
    rows.flatMap fun row =>
      match premise.matchRow? row, mode.commonMark? f.mark (some row.mark) with
      | some binding, some mark => f.rule.instances (binding.withMark mark)
      | _, _ => []

/-- Looks up the premise left over, if there is one, and concludes. -/
def run (backend : Backend) (mode : Mode) (premises : ScopePair) (f : Firing) :
    Metered (List Triple) :=
  match f.residual with
  | [] => return f.conclusions mode []
  | premise :: _ => do
    let rows ← backend.search (.ofPattern premise) premises
    return f.conclusions mode rows

end Firing

namespace Rule

/-- The firing of the rule by a row. -/
def fire? (r : Rule) (row : Triple) : Option Firing :=
  (r.trigger? row).map fun binding => ⟨r, r.bind binding, binding.mark⟩

end Rule

namespace Frontier

/-- The firings of rules by the rows of a frontier. Firings that come down to the same rule with the
same mark are one. -/
def firings (f : Frontier) (rules : List Rule) : List Firing :=
  distinctBy (fun firing => (firing.rule, firing.mark))
    (rules.flatMap fun r => (f.candidates r).filterMap r.fire?)

/-- One round: all firings of a frontier with what follows from them. No store is asked if a firing
leaves more than one premise to look up. -/
def round (f : Frontier) (backend : Backend) (mode : Mode) (rules : List Rule)
    (premises : ScopePair) : Metered (List Firing × List Triple) := do
  let firings := f.firings rules
  match firings.find? fun firing => firing.residual.length > 1 with
  | some firing => throw (.unsupportedBody firing.rule.label firing.residual.length)
  | none => return (firings, (← firings.mapM (·.run backend mode premises)).flatten)

end Frontier

end Annals
