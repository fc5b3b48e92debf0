import Annals.Interchange.Triple
import Annals.Rule

/-!
# Rules as documents

A rule is a record of its name, its premises under `from` and its conclusions under `to`.
-/

namespace Annals

namespace Rule

/-- A rule as a record. -/
def toJson (r : Rule) : Json :=
  .ofFields [("name", .ofString r.name), ("from", .ofList Pattern.toJson r.body),
    ("to", .ofList Pattern.toJson r.head)]

/-- Reads a rule; one without a name has the empty name. -/
def ofJson (v : Json) : Json.Decoded Rule := do
  let r ← v.asRecord ["name", "from", "to"]
  let name ← r.withDefault "name" "" Json.asString
  let body ← r.required "from" (Json.asList Pattern.ofJson)
  let head ← r.required "to" (Json.asList Pattern.ofJson)
  return ⟨name, body, head⟩

/-- A rule as text. -/
def text (r : Rule) : String := r.toJson.write

end Rule

namespace RuleSet

/-- A rule set is the list of its rules. -/
def toJson (s : RuleSet) : Json := .ofList Rule.toJson s.rules

/-- A rule set as text. -/
def text (s : RuleSet) : String := s.toJson.write

/-- The rule set of rules that were decoded. -/
def ofDecoded : Json.Decoded (List Rule) → Except EngineError RuleSet
  | .ok rules => ofList rules
  | .error cause => .error (.unreadable cause)

/-- Reads a rule set. -/
def ofJson (v : Json) : Except EngineError RuleSet := ofDecoded (v.asList Rule.ofJson)

/-- Reads a rule set from text. -/
def ofText (text : String) : Except EngineError RuleSet :=
  ofDecoded (Json.decodeText (Json.asList Rule.ofJson) text)

/-- Reads a rule set from the text of a file, which may be missing. -/
def ofFile : Option String → Except EngineError RuleSet
  | some text => ofText text
  | none => .error .missingFile

end RuleSet

end Annals
