import Annals.Error
import Annals.Store.Source

/-!
# The stores behind an engine

An engine asks one store, or a dataset and a schema kept beside it, whose rows then follow the
dataset's. Every store that is asked counts, so that an answer can report what it cost.
-/

namespace Annals

/-- A computation that puts queries to stores and counts them. -/
abbrev Metered := StateT Nat (Except EngineError)

/-- Counts one query and hands on its rows. -/
def Metered.ask {α : Type} (answer : Except StoreError α) : Metered α := fun asked =>
  match answer with
  | .ok a => .ok (a, asked + 1)
  | .error e => .error (.store e)

/-- The store or stores that an engine asks. -/
inductive Backend where
  | single (store : Source)
  | dual (dataset language : Source)

namespace Backend

/-- The stores, the dataset first. -/
def sources : Backend → List Source
  | single store => [store]
  | dual dataset language => [dataset, language]

/-- The number of stores. -/
def width (b : Backend) : Nat := b.sources.length

/-- There is a store for the schema. -/
def isDual : Backend → Bool
  | single _ => false
  | dual .. => true

/-- The newest version of the dataset. -/
def maxVersion : Backend → Version
  | single store => store.maxVersion
  | dual dataset _ => dataset.maxVersion

end Backend

/-- The mode of both scopes. -/
def ScopePair.mode (s : ScopePair) : Except EngineError Mode :=
  if s.dataset.mode = s.languageScope.mode then .ok s.dataset.mode
  else .error (.scopeMismatch s.dataset.mode s.languageScope.mode)

namespace Backend

/-- The rows that a query asks for, the dataset's first. The scopes have to agree even where only
one store is asked. -/
def search (b : Backend) (q : Query) (scopes : ScopePair) : Metered (List Triple) := do
  let _ ← scopes.mode
  match b with
  | single store => .ask (store.search q scopes.dataset)
  | dual dataset language =>
    let rows ← .ask (dataset.search q scopes.dataset)
    let schema ← .ask (language.search q scopes.languageScope)
    return rows ++ schema

/-- The rows that a query asks for, whatever they cost. -/
def rows (b : Backend) (q : Query) (scopes : ScopePair) : Except EngineError (List Triple) :=
  Prod.fst <$> (b.search q scopes).run 0

/-- Every store of the backend counts once, from whatever count the search starts. -/
theorem run_search (b : Backend) (q : Query) (scopes : ScopePair) (asked : Nat) :
    (b.search q scopes).run asked = (b.rows q scopes).map fun rows => (rows, asked + b.width) := by
  unfold rows search
  cases scopes.mode with
  | error e => rfl
  | ok mode =>
    cases b with
    | single store =>
      cases h : store.search q scopes.dataset with
      | error e => simp only [h]; rfl
      | ok found => simp only [h]; rfl
    | dual dataset language =>
      cases h : dataset.search q scopes.dataset with
      | error e => simp only [h]; rfl
      | ok found =>
        cases k : language.search q scopes.languageScope with
        | error e => simp only [h, k]; rfl
        | ok schema => simp only [h, k]; rfl

/-- The number of rows that a query asks for. -/
def count (b : Backend) (q : Query) (scopes : ScopePair) : Metered Nat := do
  let _ ← scopes.mode
  match b with
  | single store => .ask (store.count q scopes.dataset)
  | dual dataset language =>
    let rows ← .ask (dataset.count q scopes.dataset)
    let schema ← .ask (language.count q scopes.languageScope)
    return rows + schema

end Backend

end Annals
