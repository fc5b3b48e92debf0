import Annals.Version

/-!
# What part of a history a query looks at

A query looks at one version, at the difference between two, or at all versions. Two stores that are
queried together each have a scope of their own, but of one mode.
-/

namespace Annals

/-- The three ways of looking at a history. -/
inductive Mode where
  | snapshot
  | delta
  | history
  deriving DecidableEq, Repr

/-- How a mode is called in messages. -/
def Mode.display : Mode → String
  | snapshot => "version-materialized"
  | delta => "delta-materialized"
  | history => "version"

/-- One version, and how many rows are wanted of it. -/
structure Snapshot where
  version : Version
  limit : Option Nat
  deriving DecidableEq, Repr

/-- The versions that a difference is taken between. -/
structure Interval where
  start : Version
  stop : Version
  deriving DecidableEq, Repr

/-- A mode with what it needs to know. -/
inductive Scope where
  | snapshot (moment : Snapshot)
  | delta (stretch : Interval)
  | history
  deriving DecidableEq, Repr

namespace Scope

/-- The whole state at one version. -/
def version (v : Version) : Scope := snapshot ⟨v, none⟩

/-- The mode of a scope. -/
def mode : Scope → Mode
  | snapshot _ => .snapshot
  | delta _ => .delta
  | history => .history

/-- Where the premises of a rule are looked up: in the whole state at the version of a snapshot or
at the end of a difference, and at all versions in a query over all versions. -/
def premises : Scope → Scope
  | snapshot s => version s.version
  | delta d => version d.stop
  | history => history

end Scope

/-- The scopes of a dataset and of the schema kept beside it. -/
structure ScopePair where
  dataset : Scope
  language : Option Scope := none
  deriving DecidableEq, Repr

namespace ScopePair

/-- The schema's scope, which is the dataset's unless another is named. -/
def languageScope (s : ScopePair) : Scope := s.language.getD s.dataset

/-- Where the premises of a rule are looked up in either store. -/
def premises (s : ScopePair) : ScopePair := ⟨s.dataset.premises, s.language.map Scope.premises⟩

end ScopePair

end Annals
