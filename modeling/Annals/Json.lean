/-!
# JSON documents

A tree keeps what a document says and what a reader may still have to ask of its text: numbers by
their spelling, strings as they stand between their quotes, members in order with repetitions. A
text that breaks off gives a tree as well, with `broken` at the first place that cannot be read, so
that a reader which goes through the document in order meets the breaks in order too.
-/

namespace Annals

/-- A JSON document as written. -/
inductive Json where
  | null
  | bool (value : Bool)
  | number (lexeme : String)
  | string (raw : String)
  | array (items : List Json)
  | object (members : List (String × Json))
  /-- The text cannot be read from here on. -/
  | broken
  deriving Inhabited

namespace Json

mutual

/-- The text of the value could be read to its end. -/
def isWhole : Json → Bool
  | array items => areWhole items
  | object members => membersAreWhole members
  | broken => false
  | _ => true

/-- Every value of a list is whole. -/
def areWhole : List Json → Bool
  | [] => true
  | v :: rest => v.isWhole && areWhole rest

/-- Every member's value is whole. -/
def membersAreWhole : List (String × Json) → Bool
  | [] => true
  | (_, v) :: rest => v.isWhole && membersAreWhole rest

end

end Json

end Annals
