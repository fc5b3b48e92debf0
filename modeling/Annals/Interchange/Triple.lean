import Annals.Json.Decoder
import Annals.Json.Writer
import Annals.Triple

/-!
# Facts as documents

A fact is a record of its three terms. A row adds `addition` for the direction of a change or
`versions` for the versions it holds in; it cannot have both.
-/

namespace Annals

/-- A term is written as its text. -/
def Term.toJson (t : Term) : Json := .ofString t.text

/-- Reads a term. -/
def Term.ofJson (v : Json) : Json.Decoded Term := Term.mk <$> v.asString

/-- Reads a version, which has to fit into 64 bits. -/
def Version.ofJson (v : Json) : Json.Decoded Version :=
  v.asInteger (-0x8000000000000000) 0x7FFFFFFFFFFFFFFF

/-- A set of versions is written in ascending order. -/
def VersionSet.toJson (s : VersionSet) : Json := .ofList Json.ofInt s.toList

/-- Reads a set of versions, listed in any order and with repetitions. -/
def VersionSet.ofJson (v : Json) : Json.Decoded VersionSet :=
  .ofList <$> v.asList Version.ofJson

namespace Pattern

/-- The names of a statement's fields, in their order. -/
def fieldNames : List String := ["subject", "predicate", "object"]

/-- The fields of a statement. -/
def jsonFields (p : Pattern) : List (String × Json) :=
  [("subject", p.subject.toJson), ("predicate", p.predicate.toJson), ("object", p.object.toJson)]

/-- A statement as a record. -/
def toJson (p : Pattern) : Json := .ofFields p.jsonFields

/-- The statement of a record that may have further fields. -/
def ofRecord (r : Json.Record) : Json.Decoded Pattern := do
  let subject ← r.required "subject" Term.ofJson
  let predicate ← r.required "predicate" Term.ofJson
  let object ← r.required "object" Term.ofJson
  return ⟨subject, predicate, object⟩

/-- Reads a statement. -/
def ofJson (v : Json) : Json.Decoded Pattern := v.asRecord fieldNames >>= ofRecord

end Pattern

namespace Mark

/-- The fields that a mark adds to its row. -/
def jsonFields : Mark → List (String × Json)
  | plain => []
  | change asserted => [("addition", .bool asserted)]
  | holding versions => [("versions", versions.toJson)]

/-- The mark that the two optional fields of a row give. -/
def ofFields : Option Bool → Option VersionSet → Json.Decoded Mark
  | none, none => pure .plain
  | some asserted, none => pure (.change asserted)
  | none, some versions => pure (.holding versions)
  | some _, some _ => throw (.refused "a triple cannot carry both `addition` and `versions`")

end Mark

namespace Triple

/-- A row as a record. -/
def toJson (t : Triple) : Json := .ofFields (t.fact.jsonFields ++ t.mark.jsonFields)

/-- Reads a row. All its fields are read before a contradiction between them is looked for. -/
def ofJson (v : Json) : Json.Decoded Triple := do
  let r ← v.asRecord (Pattern.fieldNames ++ ["addition", "versions"])
  let fact ← Pattern.ofRecord r
  let addition ← r.optional "addition" Json.asBool
  let versions ← r.optional "versions" VersionSet.ofJson
  return ⟨fact, ← Mark.ofFields addition versions⟩

/-- A row as text. -/
def text (t : Triple) : String := t.toJson.write

/-- Reads a row from text. -/
def ofText (text : String) : Json.Decoded Triple := Json.decodeText ofJson text

end Triple

end Annals
