import Annals.Json.Integer
import Annals.Json.Reader

/-!
# Values from documents

A decoder goes through a document in order and stops at the first thing that is not as it should be.
A record is written as an object, where members of other names are passed over, or as the list of
its fields in their order, where fields at the end may be missing.
-/

namespace Annals.Json

/-- Why a document gives no value. -/
inductive DecodeError where
  /-- The document does not have the form of the value. -/
  | malformed
  /-- The document has the form of the value but contradicts itself. -/
  | refused (reason : String)
  deriving DecidableEq, Repr

/-- The contradiction, where that is the reason. -/
def DecodeError.message? : DecodeError → Option String
  | malformed => none
  | refused reason => some reason

/-- The outcome of decoding. -/
abbrev Decoded := Except DecodeError

/-- Decodes a whole text, which may hold nothing besides its document. -/
def decodeText {α : Type} (decode : Json → Decoded α) (text : String) : Decoded α := do
  let reading := read text
  let a ← decode reading.value
  if reading.complete then return a else throw .malformed

/-- The text between a string's quotes, its escapes resolved. -/
def unquote (raw : String) : Decoded String :=
  match Quoted.unescape? raw.toList with
  | some s => pure (.ofList s)
  | none => throw .malformed

/-- A string. -/
def asString : Json → Decoded String
  | string raw => unquote raw
  | _ => throw .malformed

/-- A truth value. -/
def asBool : Json → Decoded Bool
  | bool b => pure b
  | _ => throw .malformed

/-- An integer between two bounds, both included. -/
def asInteger (lo hi : Int) : Json → Decoded Int
  | number lexeme =>
    match Integer.parse? lexeme.toList with
    | some n => if lo ≤ n ∧ n ≤ hi then pure n else throw .malformed
    | none => throw .malformed
  | _ => throw .malformed

/-- A list of values. -/
def asList {α : Type} (item : Json → Decoded α) : Json → Decoded (List α)
  | array items => items.mapM item
  | _ => throw .malformed

/-- A value that null stands in for when it is absent. -/
def asOption {α : Type} (value : Json → Decoded α) : Json → Decoded (Option α)
  | null => pure none
  | v => some <$> value v

/-- The name of one of several cases: a string, or an object that gives null to that name. -/
def asName : Json → Decoded String
  | string raw => unquote raw
  | object [(raw, null)] => unquote raw
  | _ => throw .malformed

/-- The value of an object's last member of a name. -/
def member? (name : String) : Json → Option Json
  | object members =>
    members.reverse.findSome? fun (raw, v) =>
      if Quoted.unescape? raw.toList = some name.toList then some v else none
  | _ => none

/-- The fields of a record that are given, by name. -/
structure Record where
  fields : List (String × Json)

/-- Reads a record with the given field names. No field may be given twice, and a member of another
name need only be whole. -/
def asRecord (names : List String) : Json → Decoded Record
  | array items =>
    if items.length ≤ names.length then return ⟨names.zip items⟩ else throw .malformed
  | object members => do
    let named ← members.mapM fun (raw, v) => return (← unquote raw, v)
    let (known, others) := named.partition fun (name, _) => names.contains name
    if (known.map Prod.fst).Nodup ∧ others.all fun (_, v) => v.isWhole then return ⟨known⟩
    else throw .malformed
  | _ => throw .malformed

namespace Record

/-- The document given for a field. -/
def get? (r : Record) (name : String) : Option Json := r.fields.lookup name

/-- A field that must be given. -/
def required {α : Type} (r : Record) (name : String) (value : Json → Decoded α) : Decoded α :=
  match r.get? name with
  | some v => value v
  | none => throw .malformed

/-- A field with a default. -/
def withDefault {α : Type} (r : Record) (name : String) (default : α) (value : Json → Decoded α) :
    Decoded α :=
  match r.get? name with
  | some v => value v
  | none => pure default

/-- A field that may be missing or null. -/
def optional {α : Type} (r : Record) (name : String) (value : Json → Decoded α) :
    Decoded (Option α) :=
  r.withDefault name none (asOption value)

end Record

end Annals.Json
