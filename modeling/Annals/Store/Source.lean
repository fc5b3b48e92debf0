import Annals.Store.Search

/-!
# What can be queried like a store

Besides a versioned store a query may be put to a fixed table of rows, and to either behind a guard
that fails on the queries for one term.
-/

namespace Annals

/-- Something that answers queries. -/
inductive Source where
  /-- A versioned store. -/
  | store (s : Store)
  /-- Rows that are the same in every scope. -/
  | table (rows : List Triple) (latest : Version)
  /-- Passes everything on, but fails where a query fixes the place to the term. -/
  | guarded (inner : Source) (place : Position) (term : Term) (failure : StoreError)

namespace Source

/-- The rows that a query asks for in a scope. -/
def search (q : Query) (scope : Scope) : Source → Except StoreError (List Triple)
  | store s => s.search q scope
  | table rows _ => .ok (rows.filter fun row => q.admits row.fact)
  | guarded inner place term failure =>
    if q.get place = some term then .error failure else inner.search q scope

/-- The number of rows that a query asks for. -/
def count (q : Query) (scope : Scope) (s : Source) : Except StoreError Nat :=
  List.length <$> s.search q scope

/-- The newest version. -/
def maxVersion : Source → Version
  | store s => s.maxVersion
  | table _ latest => latest
  | guarded inner .. => inner.maxVersion

/-- A bound on the number of terms in all rows of all searches. -/
def termBound : Source → Nat
  | store s => 3 * s.changeCount
  | table rows _ => 3 * rows.length
  | guarded inner .. => inner.termBound

/-- A bound on the number of versions in all rows of all searches. -/
def versionBound : Source → Nat
  | store s => (s.maxVersion + 1).toNat
  | table rows _ => rows.foldr (fun row n => (row.mark.versions?.getD ∅).size + n) 0
  | guarded inner .. => inner.versionBound

end Source

end Annals
