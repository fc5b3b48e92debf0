import Annals.Scope
import Annals.Store.Basic

/-!
# Searching a history

Answers are listed by subject, predicate and object. Each fact appears once: plain at one version,
with the direction of its change between two, and with the versions it holds in over all of them.
-/

namespace Annals

/-- Facts that hold unchanged over some versions. -/
structure Span where
  facts : FactSet
  versions : VersionSet

namespace Span

/-- The stretch with the facts that a query admits. -/
def restrict (q : Query) (s : Span) : Span := { s with facts := s.facts.filter q.admits }

/-- The facts that hold in one of the stretches. -/
def everHeld (spans : List Span) : FactSet :=
  spans.foldr (fun span facts => span.facts ∪ facts) ∅

/-- The versions of the stretches in which a fact holds. -/
def versionsOf (spans : List Span) (f : Fact) : VersionSet :=
  spans.foldr
    (fun span versions => if f ∈ span.facts then span.versions ∪ versions else versions) ∅

end Span

/-- The stretches of unchanged facts in a history, the newest first. A changeset's facts hold from
its version up to that of the next one; `stop` is where the newest stretch ends. -/
def Changeset.spans (stop : Version) : List Changeset → List Span
  | [] => []
  | c :: older => ⟨state (c :: older), .span c.version stop⟩ :: spans c.version older

namespace Store

/-- The stretches of unchanged facts. The newest changeset is known to hold at its own version only,
so its stretch ends before the next one. Versions of 64 bits leave room for that unless the newest
one is the greatest there is. -/
def spans (s : Store) : List Span := Changeset.spans (s.maxVersion + 1) s.changesets

/-- How the facts at one version differ from those at another. -/
def changeBetween (before after : FactSet) (f : Fact) : Option Bool :=
  if f ∈ after then (if f ∈ before then none else some true)
  else if f ∈ before then some false
  else none

/-- The facts wanted at a version. -/
def snapshotRows (s : Store) (q : Query) (moment : Snapshot) : List Triple :=
  let facts := (s.stateAt moment.version).toList.filter q.admits
  (match moment.limit with
    | none => facts
    | some n => facts.take n).map fun f => ⟨f, .plain⟩

/-- The facts that differ between two versions. -/
def deltaRows (s : Store) (q : Query) (stretch : Interval) : List Triple :=
  let before := s.stateAt stretch.start
  let after := s.stateAt stretch.stop
  ((before ∪ after).toList.filter q.admits).filterMap fun f =>
    (changeBetween before after f).map fun asserted => ⟨f, .change asserted⟩

/-- The facts of all versions, with the versions they hold in. -/
def historyRows (s : Store) (q : Query) : List Triple :=
  let spans := s.spans.map (Span.restrict q)
  (Span.everHeld spans).toList.map fun f => ⟨f, .holding (Span.versionsOf spans f)⟩

/-- The rows that a query asks for in a scope. -/
def rows (s : Store) (q : Query) : Scope → List Triple
  | .snapshot moment => s.snapshotRows q moment
  | .delta stretch => s.deltaRows q stretch
  | .history => s.historyRows q

/-- Searches an open store. -/
def search (s : Store) (q : Query) (scope : Scope) : Except StoreError (List Triple) :=
  if s.closed then .error .closed else .ok (s.rows q scope)

end Store

end Annals
