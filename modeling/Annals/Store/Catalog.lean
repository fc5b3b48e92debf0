import Annals.Interchange.Triple
import Annals.Store.Source

/-!
# Named stores

Several names may stand for one store, and guards may stand before it, so names lead to cells that
hold the stores. A name that was not used before stands for an empty store of its own.

A store may be read from a document, an object that gives the rows appended at each version. Its
members may come in any order; a version that is given twice has the rows of its last member.
-/

namespace Annals

/-- Reads the rows to append, by version. -/
def Changeset.rowsOfJson : Json → Json.Decoded (List (Version × List Triple))
  | .object members =>
    members.mapM fun (raw, v) => do
      let version ← Version.ofJson (.number raw)
      return (version, ← v.asList Triple.ofJson)
  | _ => throw .malformed

namespace Store

/-- Appends the rows of each version, in ascending order of versions. -/
def ofRows (entries : List (Version × List Triple)) : Except StoreError Store :=
  (OrderedSet.ofList (entries.map Prod.fst)).toList.foldlM
    (fun s v => Prod.fst <$> s.append v ((entries.reverse.lookup v).getD [])) empty

/-- Reads a store from text. -/
def ofText (text : String) : Except StoreError Store :=
  match Json.decodeText Changeset.rowsOfJson text with
  | .ok entries => ofRows entries
  | .error cause => .error (.unreadable cause)

end Store

/-- What a name stands for. -/
inductive Handle where
  /-- The versioned store in a cell. -/
  | cell (index : Nat)
  /-- A fixed table. -/
  | table (rows : List Triple) (latest : Version)
  /-- A guard before something else. -/
  | guarded (inner : Handle) (place : Position) (term : Term) (failure : StoreError)

/-- Stores, and the names for them. -/
structure Catalog where
  cells : Array Store := #[]
  names : List (String × Handle) := []

namespace Catalog

/-- Makes a name stand for something else from now on. -/
def define (c : Catalog) (name : String) (h : Handle) : Catalog :=
  { c with names := (name, h) :: c.names }

/-- Puts a store into a cell of its own under a name. -/
def place (c : Catalog) (name : String) (s : Store) : Catalog :=
  { c with cells := c.cells.push s }.define name (.cell c.cells.size)

/-- What a name stands for. -/
def resolve (c : Catalog) (name : String) : Handle × Catalog :=
  match c.names.lookup name with
  | some h => (h, c)
  | none => (.cell c.cells.size, c.place name .empty)

/-- What a handle leads to, as it is now. -/
def source (c : Catalog) : Handle → Source
  | .cell i => .store (c.cells.getD i .empty)
  | .table rows latest => .table rows latest
  | .guarded inner place term failure => .guarded (c.source inner) place term failure

/-- Writes rows to a store. A table cannot be written to, and a guard does not keep rows off. -/
def append (c : Catalog) (v : Version) (rows : List Triple) :
    Handle → Except StoreError (Catalog × Nat)
  | .cell i => do
    let (s, stored) ← (c.cells.getD i .empty).append v rows
    return ({ c with cells := c.cells.setIfInBounds i s }, stored)
  | .table .. => .error (.other "read-only store")
  | .guarded inner .. => c.append v rows inner

/-- Ends the use of a store. A table has no end. -/
def close (c : Catalog) : Handle → Catalog
  | .cell i => { c with cells := c.cells.modify i Store.close }
  | .table .. => c
  | .guarded inner .. => c.close inner

/-- Reads a store from text and puts it under a name. -/
def load (c : Catalog) (name text : String) : Except StoreError (Store × Catalog) := do
  let s ← Store.ofText text
  return (s, c.place name s)

end Catalog

end Annals
