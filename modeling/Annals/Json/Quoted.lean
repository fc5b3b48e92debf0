/-!
# Quoted text

Between its quotes a string may hold every character from the blank on, a quote and a backslash only
behind a backslash. Writing escapes those two and the control characters, the latter by their short
form if they have one. Reading accepts the escapes of any character by its UTF-16 units.
-/

namespace Annals.Json.Quoted

/-- The digit of a value below sixteen. -/
def hexDigit (n : Nat) : Char := "0123456789abcdef".toList.getD n '0'

/-- The value of a hexadecimal digit in either case. -/
def hexValue? (c : Char) : Option Nat :=
  if '0' ≤ c ∧ c ≤ '9' then some (c.toNat - '0'.toNat)
  else if 'a' ≤ c ∧ c ≤ 'f' then some (c.toNat - 'a'.toNat + 10)
  else if 'A' ≤ c ∧ c ≤ 'F' then some (c.toNat - 'A'.toNat + 10)
  else none

/-- A character that may not stand in a string as it is. -/
def isControl (c : Char) : Bool := c.toNat < 0x20

/-- The characters written for one character of a text. -/
def escapeChar (c : Char) : List Char :=
  match c with
  | '"' => ['\\', '"']
  | '\\' => ['\\', '\\']
  | '\x08' => ['\\', 'b']
  | '\t' => ['\\', 't']
  | '\n' => ['\\', 'n']
  | '\x0c' => ['\\', 'f']
  | '\r' => ['\\', 'r']
  | c =>
    if isControl c then ['\\', 'u', '0', '0', hexDigit (c.toNat / 16), hexDigit (c.toNat % 16)]
    else [c]

/-- A text as it is written between quotes. -/
def escape (s : List Char) : List Char := s.flatMap escapeChar

/-- What a short escape stands for. -/
def shortEscape? : Char → Option Char
  | '"' => some '"'
  | '\\' => some '\\'
  | '/' => some '/'
  | 'b' => some '\x08'
  | 'f' => some '\x0c'
  | 'n' => some '\n'
  | 'r' => some '\r'
  | 't' => some '\t'
  | _ => none

/-- The value of four hexadecimal digits. -/
def unit? (a b c d : Char) : Option Nat := do
  return (((← hexValue? a) * 16 + (← hexValue? b)) * 16 + (← hexValue? c)) * 16 + (← hexValue? d)

/-- Splits what follows an opening quote into the string's text and what follows its closing quote;
none if there is no such quote, or an escape or control character that no string may hold. -/
def scan : List Char → Option (List Char × List Char)
  | [] => none
  | '"' :: rest => some ([], rest)
  | '\\' :: 'u' :: a :: b :: c :: d :: rest => do
    let _ ← unit? a b c d
    let (raw, rest) ← scan rest
    return ('\\' :: 'u' :: a :: b :: c :: d :: raw, rest)
  | '\\' :: e :: rest => do
    let _ ← shortEscape? e
    let (raw, rest) ← scan rest
    return ('\\' :: e :: raw, rest)
  | c :: rest => do
    guard (c ≠ '\\' && !isControl c)
    let (raw, rest) ← scan rest
    return (c :: raw, rest)

/-- A character, or a UTF-16 unit that was given by its number. -/
inductive Piece where
  | char (c : Char)
  | unit (n : Nat)

/-- Reads the escapes of a string's text. -/
def pieces : List Char → Option (List Piece)
  | [] => some []
  | '\\' :: 'u' :: a :: b :: c :: d :: rest => return .unit (← unit? a b c d) :: (← pieces rest)
  | '\\' :: e :: rest => return .char (← shortEscape? e) :: (← pieces rest)
  | c :: rest => if c = '\\' then none else return .char c :: (← pieces rest)

/-- The first half of a pair of units. -/
def isHighUnit (n : Nat) : Bool := 0xD800 ≤ n && n < 0xDC00

/-- The second half of a pair of units. -/
def isLowUnit (n : Nat) : Bool := 0xDC00 ≤ n && n < 0xE000

/-- Joins pairs of units into characters; a half without its partner is refused. -/
def join : List Piece → Option (List Char)
  | [] => some []
  | .char c :: rest => return c :: (← join rest)
  | .unit n :: rest =>
    if isLowUnit n then none
    else if isHighUnit n then
      match rest with
      | .unit m :: rest =>
        if isLowUnit m then
          return Char.ofNat (0x10000 + (n - 0xD800) * 0x400 + (m - 0xDC00)) :: (← join rest)
        else none
      | _ => none
    else return Char.ofNat n :: (← join rest)

/-- The text that stands between quotes, its escapes resolved. -/
def unescape? (raw : List Char) : Option (List Char) := pieces raw >>= join

end Annals.Json.Quoted
