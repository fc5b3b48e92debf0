import Annals.Inference.Answer
import Annals.Inference.Firing
import Annals.Inference.Report

/-!
# Inference

A query is answered by the rows of the stores and by what rules conclude from them. Each round sets
off the rules with the rows that the round before was the first to find, and inference ends when a
round finds nothing new. All terms of an answer occur in the stores, the rules or the query, so the
number of rounds has a bound that is known beforehand.
-/

namespace Annals

/-- The rows that answer a query, and what it took to find them. -/
structure Inference where
  rows : List Triple
  report : Report

/-- A run of inference between two rounds. -/
structure Progress where
  answer : Answer
  frontier : Frontier
  report : Report

namespace Progress

/-- The run after a round with the given firings and conclusions. -/
def advance (p : Progress) (firings : List Firing) (concluded : List Triple) : Progress :=
  let absorbed := p.answer.absorb concluded
  let report := firings.foldl (fun report firing => report.countFiring firing.origin.label) p.report
  { answer := absorbed.answer
    frontier := absorbed.frontier
    report :=
      { report with
        rounds := report.rounds + 1
        inferred := report.inferred + absorbed.frontier.size
        suppressed := report.suppressed + absorbed.suppressed } }

/-- Makes rounds until one finds nothing new, but no more than a given number. -/
def saturate (backend : Backend) (mode : Mode) (rules : List Rule) (premises : ScopePair) :
    Nat → Progress → Metered Progress
  | 0, p => return p
  | bound + 1, p =>
    if p.frontier.isEmpty || rules.isEmpty then return p
    else do
      let (firings, concluded) ← p.frontier.round backend mode rules premises
      saturate backend mode rules premises bound (p.advance firings concluded)

end Progress

/-- A bound on the number of terms that rules can work with on the way to an answer. -/
def termBound (backend : Backend) (rules : List Rule) : Nat :=
  backend.sources.foldr (fun s n => s.termBound + n) 0
    + rules.foldr (fun r n => 3 * (r.body.length + r.head.length) + n) 0

/-- A bound on the number of versions that rows can have. -/
def versionBound (backend : Backend) : Nat :=
  backend.sources.foldr (fun s n => s.versionBound + n) 0

/-- A bound on the number of rounds: all but the last one find a fact, or a fact in a version, that
was not there before. -/
def roundBound (backend : Backend) (rules : List Rule) : Nat :=
  let terms := termBound backend rules
  terms * terms * terms * (versionBound backend + 1) + 1

/-- Answers a query with the help of rules. -/
def infer (backend : Backend) (rules : RuleSet) (q : Query) (scopes : ScopePair) :
    Except EngineError Inference := do
  let mode ← scopes.mode
  let applicable := rules.applicable q
  let run : Metered Progress := do
    let found ← backend.search q scopes
    let (answer, frontier) := Answer.ofRows mode found
    Progress.saturate backend mode applicable scopes.premises (roundBound backend applicable)
      ⟨answer, frontier, {}⟩
  let (p, asked) ← run.run 0
  return ⟨p.answer.rows, { p.report with asked := asked }⟩

end Annals
