import Annals.Proofs.Inference.Run

/-!
# The loop behind inference

Inference goes on for as long as there is something left to set off rules. The loop is given here
without a bound on its rounds, as a relation between where it starts and what comes of it. A bound
that is not used up makes no difference to it, and its counters tell how far it went.

## Implementation notes

Rounds that a run may make (`Setting.Reaches`) leave out when it stops. The relation here also says
that it does not go on with an empty frontier, which the counts of rounds and gains depend on.
-/

namespace Annals

namespace Progress

/-- Nothing is left that could set off a rule. -/
def idle (p : Progress) (rules : List Rule) : Bool := p.frontier.isEmpty || rules.isEmpty

/-- The loop leads from a state of a run, with so many queries asked, through a number of rounds to
an outcome: it stops when nothing is left to do, fails when a round does, and goes on after every
other round. -/
inductive Loops (b : Backend) (mode : Mode) (rules : List Rule) (premises : ScopePair) :
    Progress → Nat → Nat → Except EngineError (Progress × Nat) → Prop
  | stop {p : Progress} {asked : Nat} (ends : p.idle rules = true) :
      Loops b mode rules premises p asked 0 (.ok (p, asked))
  | fail {p : Progress} {asked : Nat} {e : EngineError} (goesOn : p.idle rules = false)
      (failed : (p.frontier.round b mode rules premises).run asked = .error e) :
      Loops b mode rules premises p asked 1 (.error e)
  | round {p : Progress} {asked after n : Nat} {firings : List Firing} {concluded : List Triple}
      {outcome : Except EngineError (Progress × Nat)} (goesOn : p.idle rules = false)
      (made : (p.frontier.round b mode rules premises).run asked =
        .ok ((firings, concluded), after))
      (rest : Loops b mode rules premises (p.advance firings concluded) after n outcome) :
      Loops b mode rules premises p asked (n + 1) outcome

variable {b : Backend} {mode : Mode} {rules : List Rule} {premises : ScopePair} {p : Progress}
  {asked n : Nat} {outcome : Except EngineError (Progress × Nat)}

/-- The loop has one outcome, after one number of rounds. -/
theorem Loops.deterministic (h : Loops b mode rules premises p asked n outcome) :
    ∀ {n' outcome'}, Loops b mode rules premises p asked n' outcome' →
      n = n' ∧ outcome = outcome' := by
  induction h with
  | stop ends =>
    intro n' outcome' h'
    cases h' with
    | stop => exact ⟨rfl, rfl⟩
    | fail goesOn => cases ends.symm.trans goesOn
    | round goesOn => cases ends.symm.trans goesOn
  | fail goesOn failed =>
    intro n' outcome' h'
    cases h' with
    | stop ends => cases ends.symm.trans goesOn
    | fail _ failed' =>
      obtain rfl := Except.error.inj (failed.symm.trans failed')
      exact ⟨rfl, rfl⟩
    | round _ made => cases failed.symm.trans made
  | round goesOn made rest ih =>
    intro n' outcome' h'
    cases h' with
    | stop ends => cases ends.symm.trans goesOn
    | fail _ failed => cases failed.symm.trans made
    | round _ made' rest' =>
      cases made.symm.trans made'
      obtain ⟨rfl, rfl⟩ := ih rest'
      exact ⟨rfl, rfl⟩

theorem saturate_of_idle {bound : Nat} (ends : p.idle rules = true) :
    saturate b mode rules premises bound p = pure p := by
  cases bound with
  | zero => rfl
  | succ bound => exact if_pos ends

theorem saturate_succ_of_busy {bound : Nat} (goesOn : p.idle rules = false) :
    saturate b mode rules premises (bound + 1) p =
      (p.frontier.round b mode rules premises >>= fun (firings, concluded) =>
        saturate b mode rules premises bound (p.advance firings concluded)) :=
  if_neg (Bool.eq_false_iff.mp goesOn)

/-- A bound on the rounds that is not used up makes no difference. -/
theorem Loops.run_saturate (h : Loops b mode rules premises p asked n outcome) {bound : Nat}
    (enough : n ≤ bound) : (saturate b mode rules premises bound p).run asked = outcome := by
  induction h generalizing bound with
  | stop ends => rw [saturate_of_idle ends, Metered.run_pure]
  | fail goesOn failed =>
    obtain ⟨bound, rfl⟩ := Nat.exists_eq_add_of_le' enough
    rw [saturate_succ_of_busy goesOn]
    exact Metered.run_bind_error failed
  | round goesOn made rest ih =>
    obtain ⟨bound, rfl⟩ := Nat.exists_eq_add_of_le' (Nat.le_of_add_left_le enough)
    rw [saturate_succ_of_busy goesOn, Metered.run_bind_ok made]
    exact ih (Nat.le_of_succ_le_succ enough)

/-- What comes of a bounded number of rounds is what comes of the loop, unless the bound cuts the
run short. -/
theorem exists_loops {bound : Nat}
    (h : (saturate b mode rules premises bound p).run asked = outcome)
    (ends : ∀ q after, outcome = .ok (q, after) → q.idle rules = true) :
    ∃ n, Loops b mode rules premises p asked n outcome := by
  induction bound generalizing p asked with
  | zero =>
    subst h
    exact ⟨0, .stop (ends p asked rfl)⟩
  | succ bound ih =>
    cases busy : p.idle rules with
    | true =>
      rw [saturate_of_idle busy] at h
      subst h
      exact ⟨0, .stop busy⟩
    | false =>
      rw [saturate_succ_of_busy busy] at h
      cases made : (p.frontier.round b mode rules premises).run asked with
      | error e =>
        rw [Metered.run_bind_error made] at h
        subst h
        exact ⟨1, .fail busy made⟩
      | ok result =>
        rw [Metered.run_bind_ok made] at h
        obtain ⟨n, rest⟩ := ih h
        exact ⟨n + 1, .round busy made rest⟩

theorem idle_iff : p.idle rules = true ↔ p.frontier.toList = [] ∨ rules = [] := by
  rw [idle, Bool.or_eq_true, Frontier.isEmpty_iff, List.isEmpty_iff]

/-- A round adds one to the rounds and its new rows to the gains. -/
theorem report_next (S : Setting mode rules) (p : Progress) :
    (S.next p).report.rounds = p.report.rounds + 1 ∧
      (S.next p).report.inferred = p.report.inferred + (S.next p).frontier.toList.length := by
  simp only [Setting.next, advance, Report.foldl_countFiring, Frontier.length_toList, and_self]

/-- What the counters tell of rounds that led from one state of a run to another. -/
structure Counted (S : Setting mode rules) (p q : Progress) (n : Nat) : Prop where
  rounds : q.report.rounds = p.report.rounds + n
  /-- Every round but the last one gained something. -/
  gains : p.report.inferred + n ≤ q.report.inferred + 1
  /-- Every gain is a point less to see. -/
  seen : q.report.inferred + (S.unseen q).card ≤ p.report.inferred + (S.unseen p).card

/-- A round that was made did not stall, and its conclusions are those of the frontier. -/
theorem advance_eq_next {S : Setting mode rules}
    (answered : ∀ q, b.rows q premises = .ok (S.answers q)) {after : Nat} {firings : List Firing}
    {concluded : List Triple}
    (made : (p.frontier.round b mode rules premises).run asked =
      .ok ((firings, concluded), after)) :
    ¬ p.frontier.Stalls rules ∧ p.advance firings concluded = S.next p := by
  have easy : ¬ p.frontier.Stalls rules := by
    intro stalls
    obtain ⟨label, remaining, failed⟩ := Setting.run_round_of_stalls stalls asked
    cases made.symm.trans failed
  cases made.symm.trans (Setting.run_round answered easy asked)
  exact ⟨easy, rfl⟩

/-- The counters of a loop that ends are right. -/
theorem Loops.counted {S : Setting mode rules} {seed : Version → Fact → Prop}
    (answered : ∀ q, b.rows q premises = .ok (S.answers q))
    (h : Loops b mode rules premises p asked n outcome) (inv : S.Invariant seed p) {q : Progress}
    {after : Nat} (ok : outcome = .ok (q, after)) : Counted S p q n := by
  induction h with
  | stop ends =>
    cases ok
    exact ⟨rfl, Nat.le_succ _, Nat.le_refl _⟩
  | fail => cases ok
  | @round p asked middle n firings concluded outcome goesOn made rest ih =>
    obtain ⟨easy, advanced⟩ := advance_eq_next answered made
    rw [advanced] at rest ih
    obtain ⟨rounds, inferred⟩ := report_next S p
    have fewer := Setting.card_unseen_next_add_le inv
    have tail : Counted S (S.next p) q n := ih (inv.next easy) ok
    obtain ⟨laterRounds, laterGains, laterSeen⟩ := tail
    refine ⟨by omega, ?_, by omega⟩
    by_cases nothing : (S.next p).frontier.toList = []
    -- a round that gains nothing is the last one
    · obtain ⟨rfl, he⟩ := rest.deterministic (.stop (idle_iff.mpr (Or.inl nothing)))
      cases he.symm.trans ok
      exact Nat.succ_le_succ (inferred ▸ Nat.le_add_right _ _)
    · have gained : 0 < (S.next p).frontier.toList.length := List.length_pos_iff.mpr nothing
      omega

end Progress

end Annals
