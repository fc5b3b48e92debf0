import Annals.Alias.Reconcile
import Annals.Interchange.Triple
import Annals.Vocabulary

/-!
# Settings

Which predicates link aliases, and what becomes of aliases in answers. Settings come from a
document, where what is missing has its default, and a variable of the environment may override the
second.
-/

namespace Annals

namespace Text

/-- The character has the Unicode property White_Space. -/
def isBlank (c : Char) : Bool :=
  let n := c.toNat
  (0x09 ≤ n && n ≤ 0x0D) || n = 0x20 || n = 0x85 || n = 0xA0 || n = 0x1680
    || (0x2000 ≤ n && n ≤ 0x200A) || n = 0x2028 || n = 0x2029 || n = 0x202F || n = 0x205F
    || n = 0x3000

/-- The text without the blanks at its two ends. -/
def trim (cs : List Char) : List Char :=
  ((cs.dropWhile isBlank).reverse.dropWhile isBlank).reverse

end Text

namespace Reconcile

/-- The name of a way of reconciling rows. -/
def name : Reconcile → String
  | canonicalize => "canonicalize"
  | allCombinations => "allCombinations"

/-- Reads a way of reconciling rows, written exactly as its name. -/
def ofJson (v : Json) : Json.Decoded Reconcile := do
  match ← v.asName with
  | "canonicalize" => pure .canonicalize
  | "allCombinations" => pure .allCombinations
  | _ => throw .malformed

/-- A text with the blanks at its ends, its hyphens and its underscores removed, and its ASCII
letters in lower case. -/
def plainText (text : String) : String :=
  .ofList (((Text.trim text.toList).map Char.toLower).filter fun c => c ≠ '-' && c ≠ '_')

/-- Reads a way of reconciling rows as a person may write it. -/
def ofText (text : String) : Except EngineError Reconcile :=
  match plainText text with
  | "canonicalize" => .ok .canonicalize
  | "allcombinations" => .ok .allCombinations
  | plain => .error (.unknownReconcile plain)

end Reconcile

/-- What an engine is set to. -/
structure Settings where
  identityPredicates : List Term := Vocabulary.identityPredicates
  reconcile : Reconcile := .canonicalize
  deriving DecidableEq

namespace Settings

/-- Settings as a record. -/
def toJson (s : Settings) : Json :=
  .ofFields [("identityPredicates", .ofList Term.toJson s.identityPredicates),
    ("reconcile", .ofString s.reconcile.name)]

/-- Settings as text. -/
def text (s : Settings) : String := s.toJson.write

/-- Reads settings. -/
def ofJson (v : Json) : Json.Decoded Settings := do
  let r ← v.asRecord ["identityPredicates", "reconcile"]
  let defaults : Settings := {}
  let identity ←
    r.withDefault "identityPredicates" defaults.identityPredicates (Json.asList Term.ofJson)
  let reconcile ← r.withDefault "reconcile" defaults.reconcile Reconcile.ofJson
  return ⟨identity, reconcile⟩

/-- Settings that name no variable as an identity predicate; the first one named is reported. -/
def validate (s : Settings) : Except EngineError Settings :=
  match s.identityPredicates.find? Term.isVariable with
  | some predicate => .error (.variableIdentity predicate)
  | none => .ok s

/-- Reads settings from text. -/
def ofText (text : String) : Except EngineError Settings :=
  match Json.decodeText ofJson text with
  | .ok s => s.validate
  | .error cause => .error (.unreadable cause)

/-- Reads settings from the text of a file, which may be missing. -/
def ofFile : Option String → Except EngineError Settings
  | some text => ofText text
  | none => .error .missingFile

/-- Settings with the way of reconciling rows that a variable of the environment asks for; one that
is unset or empty asks for nothing. -/
def override (s : Settings) : Option String → Except EngineError Settings
  | none => .ok s
  | some text => do
    if text.isEmpty then return s
    return { s with reconcile := ← Reconcile.ofText text }

/-- Settings from the environment: from the file that one variable names, or the defaults if it is
unset, with what another one overrides. -/
def ofEnvironment (file : Option (Option String)) (reconcile : Option String) :
    Except EngineError Settings := do
  let s ← match file with
    | some file => ofFile file
    | none => pure {}
  s.override reconcile

end Settings

end Annals
