import Annals.Json
import Annals.Json.Quoted

/-!
# Reading documents

The reader goes through the text once and never refuses it: where the grammar does not allow the
next character the tree gets a `broken` value and nothing further is read. An array that breaks off
ends in a `broken` item, an object in a member with a `broken` value.
-/

namespace Annals.Json

/-- The four characters that may stand between the parts of a document. -/
def isBlank (c : Char) : Bool := c = ' ' || c = '\t' || c = '\n' || c = '\r'

/-- What follows the blanks at the front. -/
def skipBlanks (cs : List Char) : List Char := cs.dropWhile isBlank

namespace Number

/-- Splits a text behind its leading digits, of which there must be one. -/
def digits? (cs : List Char) : Option (List Char × List Char) :=
  match cs.span Char.isDigit with
  | ([], _) => none
  | parts => some parts

/-- The part before a point: a zero, or digits that do not begin with one. -/
def whole? : List Char → Option (List Char × List Char)
  | '0' :: rest => some (['0'], rest)
  | cs => digits? cs

/-- A point with its digits, where there is one. -/
def fraction? : List Char → Option (List Char × List Char)
  | '.' :: rest => (digits? rest).map fun (ds, rest) => ('.' :: ds, rest)
  | cs => some ([], cs)

/-- The sign of an exponent, where there is one. -/
def sign : List Char → List Char × List Char
  | '+' :: rest => (['+'], rest)
  | '-' :: rest => (['-'], rest)
  | cs => ([], cs)

/-- An exponent mark with sign and digits, where there is one. -/
def exponent? : List Char → Option (List Char × List Char)
  | c :: rest =>
    if c = 'e' || c = 'E' then
      let (s, rest) := sign rest
      (digits? rest).map fun (ds, rest) => (c :: s ++ ds, rest)
    else some ([], c :: rest)
  | [] => some ([], [])

/-- Splits a text behind the number at its front. -/
def scan (cs : List Char) : Option (List Char × List Char) := do
  let (minus, cs) := match cs with
    | '-' :: rest => (['-'], rest)
    | cs => ([], cs)
  let (n, cs) ← whole? cs
  let (f, cs) ← fraction? cs
  let (e, cs) ← exponent? cs
  return (minus ++ n ++ f ++ e, cs)

end Number

/-- What follows a word at the front of a text. -/
def afterWord? (word : String) (cs : List Char) : Option (List Char) :=
  if word.toList.isPrefixOf cs then some (cs.drop word.length) else none

/-- A value without parts at the front of a text that begins with none of the brackets. -/
def scanScalar (cs : List Char) : Json × Option (List Char) :=
  match cs with
  | '"' :: rest =>
    match Quoted.scan rest with
    | some (raw, rest) => (.string (.ofList raw), some rest)
    | none => (.broken, none)
  | 'n' :: _ => keyword "null" .null
  | 't' :: _ => keyword "true" (.bool true)
  | 'f' :: _ => keyword "false" (.bool false)
  | _ =>
    match Number.scan cs with
    | some (lexeme, rest) => (.number (.ofList lexeme), some rest)
    | none => (.broken, none)
where
  keyword (word : String) (v : Json) : Json × Option (List Char) :=
    match afterWord? word cs with
    | some rest => (v, some rest)
    | none => (.broken, none)

mutual

/-- Reads a value at the front of a text. The second part is what follows it, and is absent if the
text broke off. -/
def scanValue : Nat → List Char → Json × Option (List Char)
  | 0, _ => (.broken, none)
  | fuel + 1, cs =>
    match skipBlanks cs with
    | '[' :: rest =>
      match skipBlanks rest with
      | ']' :: rest => (.array [], some rest)
      | rest =>
        let (items, rest?) := scanItems fuel rest
        (.array items, rest?)
    | '{' :: rest =>
      match skipBlanks rest with
      | '}' :: rest => (.object [], some rest)
      | rest =>
        let (members, rest?) := scanMembers fuel rest
        (.object members, rest?)
    | cs => scanScalar cs

/-- Reads the items of an array up to its closing bracket. -/
def scanItems : Nat → List Char → List Json × Option (List Char)
  | 0, _ => ([.broken], none)
  | fuel + 1, cs =>
    match scanValue fuel cs with
    | (v, none) => ([v], none)
    | (v, some rest) =>
      match skipBlanks rest with
      | ',' :: rest =>
        let (items, rest?) := scanItems fuel rest
        (v :: items, rest?)
      | ']' :: rest => ([v], some rest)
      | _ => ([v, .broken], none)

/-- Reads the members of an object up to its closing brace. -/
def scanMembers : Nat → List Char → List (String × Json) × Option (List Char)
  | 0, _ => ([("", .broken)], none)
  | fuel + 1, cs =>
    match (match skipBlanks cs with | '"' :: rest => Quoted.scan rest | _ => none) with
    | none => ([("", .broken)], none)
    | some (raw, rest) =>
      let name := String.ofList raw
      match skipBlanks rest with
      | ':' :: rest =>
        match scanValue fuel rest with
        | (v, none) => ([(name, v)], none)
        | (v, some rest) =>
          match skipBlanks rest with
          | ',' :: rest =>
            let (members, rest?) := scanMembers fuel rest
            ((name, v) :: members, rest?)
          | '}' :: rest => ([(name, v)], some rest)
          | _ => ([(name, v), ("", .broken)], none)
      | _ => ([(name, .broken)], none)

end

/-- A text as read: its value, and whether nothing but blanks follows it. -/
structure Reading where
  value : Json
  complete : Bool

/-- Reads a document. Every two steps of the reader take a character, which bounds their number. -/
def read (text : String) : Reading :=
  let (value, rest?) := scanValue (2 * text.toList.length + 2) text.toList
  ⟨value, rest?.any fun rest => (skipBlanks rest).isEmpty⟩

end Annals.Json
