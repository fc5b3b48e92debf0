import Annals.Interchange.Triple
import Annals.Scope

/-!
# Scopes as documents

A scope is an object with the name of its mode and the fields that the mode needs.
-/

namespace Annals

namespace Mode

/-- The name of a mode in documents. -/
def name : Mode → String
  | snapshot => "versionMaterialized"
  | delta => "deltaMaterialized"
  | history => "version"

/-- Reads a mode. -/
def ofJson (v : Json) : Json.Decoded Mode := do
  match ← v.asName with
  | "versionMaterialized" => pure .snapshot
  | "deltaMaterialized" => pure .delta
  | "version" => pure .history
  | _ => throw .malformed

end Mode

namespace Snapshot

/-- The fields of a snapshot; the limit is left out where there is none. -/
def jsonFields (s : Snapshot) : List (String × Json) :=
  ("version", Json.ofInt s.version) ::
    (s.limit.map fun (n : Nat) => ("limit", Json.ofInt n)).toList

/-- A snapshot as a record. -/
def toJson (s : Snapshot) : Json := .ofFields s.jsonFields

/-- Reads a snapshot, whose limit has to fit into 64 bits. -/
def ofJson (v : Json) : Json.Decoded Snapshot := do
  let r ← v.asRecord ["version", "limit"]
  let version ← r.required "version" Version.ofJson
  let limit ← r.optional "limit" (Json.asInteger 0 0xFFFFFFFFFFFFFFFF)
  return ⟨version, limit.map Int.toNat⟩

/-- A snapshot as text. -/
def text (s : Snapshot) : String := s.toJson.write

/-- Reads a snapshot from text. -/
def ofText (text : String) : Json.Decoded Snapshot := Json.decodeText ofJson text

end Snapshot

namespace Interval

/-- The fields of a pair of versions. -/
def jsonFields (d : Interval) : List (String × Json) :=
  [("versionStart", Json.ofInt d.start), ("versionEnd", Json.ofInt d.stop)]

/-- A pair of versions as a record. -/
def toJson (d : Interval) : Json := .ofFields d.jsonFields

/-- Reads a pair of versions. -/
def ofJson (v : Json) : Json.Decoded Interval := do
  let r ← v.asRecord ["versionStart", "versionEnd"]
  let start ← r.required "versionStart" Version.ofJson
  let stop ← r.required "versionEnd" Version.ofJson
  return ⟨start, stop⟩

/-- A pair of versions as text. -/
def text (d : Interval) : String := d.toJson.write

/-- Reads a pair of versions from text. -/
def ofText (text : String) : Json.Decoded Interval := Json.decodeText ofJson text

end Interval

namespace Scope

/-- A scope as a document. -/
def toJson (s : Scope) : Json :=
  .ofFields <| ("mode", .ofString s.mode.name) ::
    match s with
    | snapshot moment => moment.jsonFields
    | delta stretch => stretch.jsonFields
    | history => []

/-- Reads a scope. The mode is read first, and the same object then has to hold its fields. -/
def ofJson (v : Json) : Json.Decoded Scope := do
  match ← Mode.ofJson ((v.member? "mode").getD .null) with
  | .snapshot => .snapshot <$> Snapshot.ofJson v
  | .delta => .delta <$> Interval.ofJson v
  | .history => pure .history

end Scope

end Annals
