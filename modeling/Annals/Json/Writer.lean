import Annals.Json
import Annals.Json.Integer
import Annals.Json.Quoted

/-!
# Compact documents

A document is written without blanks, its members in their order.
-/

namespace Annals.Json

/-- The string value of a text. -/
def ofString (s : String) : Json := .string (.ofList (Quoted.escape s.toList))

/-- The number value of an integer. -/
def ofInt (n : Int) : Json := .number (.ofList (Integer.print n))

/-- The list of the values of a function. -/
def ofList {α : Type} (item : α → Json) (l : List α) : Json := .array (l.map item)

/-- An object with the given members. -/
def ofFields (fields : List (String × Json)) : Json :=
  .object (fields.map fun (name, v) => (.ofList (Quoted.escape name.toList), v))

/-- A text between its quotes. -/
def quoted (raw : String) : List Char := '"' :: raw.toList ++ ['"']

mutual

/-- The characters of a document; a value that could not be read has none. -/
def toChars : Json → List Char
  | null => "null".toList
  | bool true => "true".toList
  | bool false => "false".toList
  | number lexeme => lexeme.toList
  | string raw => quoted raw
  | array items => '[' :: itemChars items ++ [']']
  | object members => '{' :: memberChars members ++ ['}']
  | broken => []

/-- The characters between an array's brackets. -/
def itemChars : List Json → List Char
  | [] => []
  | [v] => v.toChars
  | v :: rest => v.toChars ++ ',' :: itemChars rest

/-- The characters between an object's braces. -/
def memberChars : List (String × Json) → List Char
  | [] => []
  | [(name, v)] => quoted name ++ ':' :: v.toChars
  | (name, v) :: rest => quoted name ++ ':' :: v.toChars ++ ',' :: memberChars rest

end

/-- The text of a document. -/
def write (v : Json) : String := .ofList v.toChars

end Annals.Json
