import Annals.Backend
import Annals.Distinct

/-!
# Alias classes

A row whose predicate is an identity predicate links two terms as names of one thing. The class of a
term is the term with all terms linked to it directly; the class of an open place is the open place.
A query is expanded to all ways of fixing its places to members of their classes.
-/

namespace Annals

/-- What may stand at a place of a query. -/
abbrev AliasClass := List (Option Term)

/-- The terms of a class. -/
def AliasClass.terms (c : AliasClass) : List Term := c.filterMap id

/-- The classes of terms; of two for one term the first counts. -/
abbrev TermClasses := List (Term × AliasClass)

/-- The classes of a query's places, and the queries that they give rise to. -/
structure Expansion where
  subjects : AliasClass
  predicates : AliasClass
  objects : AliasClass
  combinations : List Query
  deriving DecidableEq

namespace Expansion

/-- The expansion to all combinations of members, the objects changing first. -/
def ofClasses (subjects predicates objects : AliasClass) : Expansion where
  subjects := subjects
  predicates := predicates
  objects := objects
  combinations :=
    subjects.flatMap fun s => predicates.flatMap fun p => objects.map fun o => ⟨s, p, o⟩

/-- The class of a place. -/
def classAt (e : Expansion) : Position → AliasClass
  | .subject => e.subjects
  | .predicate => e.predicates
  | .object => e.objects

end Expansion

/-- Where links are looked up: at one version, or at all versions. -/
def linkScope : Option Version → ScopePair
  | some v => { dataset := .version v }
  | none => { dataset := .history }

/-- The queries for the links of a term by a predicate, each with the place of the other end. -/
def linkQueries (term predicate : Term) : List (Query × Position) :=
  [(.fixing (some term) (some predicate) none, .object),
    (.fixing none (some predicate) (some term), .subject)]

namespace Backend

/-- The term and then the terms linked to it, each once: predicate by predicate, those it is linked
to before those linked to it. -/
def aliases (b : Backend) (identity : List Term) (version : Option Version) (term : Term) :
    Metered (List Term) := do
  let ends ← (identity.flatMap (linkQueries term)).mapM fun (q, place) => do
    let rows ← b.search q (linkScope version)
    return rows.map fun row => row.fact.get place
  return distinct (term :: ends.flatten)

/-- The class of a term, or of an open place. -/
def aliasClass (b : Backend) (identity : List Term) (version : Option Version) :
    Option Term → Metered AliasClass
  | none => return [none]
  | some term => return (← b.aliases identity version term).map some

/-- The expansion of a query. -/
def expand (b : Backend) (identity : List Term) (version : Option Version) (q : Query) :
    Metered Expansion := do
  let subjects ← b.aliasClass identity version q.subject
  let predicates ← b.aliasClass identity version q.predicate
  let objects ← b.aliasClass identity version q.object
  return .ofClasses subjects predicates objects

/-- The rows of several queries, one query after the other. -/
def gather (b : Backend) (queries : List Query) (scopes : ScopePair) : Metered (List Triple) := do
  return (← queries.mapM fun q => b.search q scopes).flatten

end Backend

/-- The distinct terms that rows have where a query leaves its places open, place by place. -/
def openValues (q : Query) (rows : List Triple) : List Term :=
  distinct (Position.all.flatMap fun i =>
    if (q.get i).isSome then [] else rows.map fun row => row.fact.get i)

/-- The classes of the terms that rows have where a query leaves its places open. -/
def Backend.openClasses (b : Backend) (identity : List Term) (version : Option Version) (q : Query)
    (rows : List Triple) : Metered TermClasses :=
  (openValues q rows).mapM fun term => do
    return (term, ← b.aliasClass identity version (some term))

end Annals
