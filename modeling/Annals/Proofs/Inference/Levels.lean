import Annals.Proofs.Inference.Termination
import Mathlib.Order.Bounds.Basic

/-!
# The levels of what is derived

A round sets off the rules with what the round before was the first to find, so it finds the facts
that are derived in one step more, and those of them are new that cannot be derived in fewer steps.
A run goes through the levels one after the other and leaves none out: it makes a round for each
level that has a fact of its own, the last of which finds nothing new.
-/

namespace Annals

/-- The facts that rules derive from a seed in so many steps. -/
inductive DerivableIn (rules : List Rule) (found : Query → Fact → Prop) (seed : Fact → Prop) :
    Nat → Fact → Prop
  | seed {f : Fact} (h : seed f) : DerivableIn rules found seed 0 f
  | step {n : Nat} {r : Rule} {f g : Fact} (hf : DerivableIn rules found seed n f) (hr : r ∈ rules)
      (h : r.Yields found f g) : DerivableIn rules found seed (n + 1) g

namespace DerivableIn

variable {rules : List Rule} {found found' : Query → Fact → Prop} {seed seed' : Fact → Prop}
  {n : Nat} {f : Fact}

theorem zero_iff : DerivableIn rules found seed 0 f ↔ seed f := by
  constructor
  · rintro ⟨h⟩
    exact h
  · exact .seed

theorem succ_iff : DerivableIn rules found seed (n + 1) f ↔
    ∃ g, DerivableIn rules found seed n g ∧ ∃ r ∈ rules, r.Yields found g f := by
  constructor
  · intro h
    cases h with
    | step hg hr yields => exact ⟨_, hg, _, hr, yields⟩
  · rintro ⟨g, hg, r, hr, yields⟩
    exact .step hg hr yields

/-- What is derivable at all is derivable in some number of steps. -/
theorem exists_iff : (∃ n, DerivableIn rules found seed n f) ↔ Derivable rules found seed f := by
  constructor
  · rintro ⟨n, h⟩
    induction h with
    | seed h => exact .seed h
    | step _ hr yields ih => exact .step ih hr yields
  · intro h
    induction h with
    | seed h => exact ⟨0, .seed h⟩
    | step _ hr yields ih =>
      obtain ⟨n, hn⟩ := ih
      exact ⟨n + 1, .step hn hr yields⟩

/-- A step more adds what follows from facts that take all the steps before. What follows from other
facts is derived with a step less. -/
theorem exists_le_succ_iff : (∃ k ≤ n + 1, DerivableIn rules found seed k f) ↔
    (∃ k ≤ n, DerivableIn rules found seed k f) ∨
      ∃ g, IsLeast {k | DerivableIn rules found seed k g} n ∧
        ∃ r ∈ rules, r.Yields found g f := by
  constructor
  · rintro ⟨k, le, derived⟩
    rcases Nat.le_succ_iff.mp le with le | rfl
    · exact Or.inl ⟨k, le, derived⟩
    · obtain ⟨g, hg, r, hr, yields⟩ := succ_iff.mp derived
      by_cases shorter : ∃ j < n, DerivableIn rules found seed j g
      · obtain ⟨j, lt, hj⟩ := shorter
        exact Or.inl ⟨j + 1, lt, .step hj hr yields⟩
      · have least : IsLeast {k | DerivableIn rules found seed k g} n :=
          ⟨hg, fun j hj => Nat.le_of_not_lt fun lt => shorter ⟨j, lt, hj⟩⟩
        exact Or.inr ⟨g, least, r, hr, yields⟩
  · rintro (⟨k, le, derived⟩ | ⟨g, ⟨hg, -⟩, r, hr, yields⟩)
    · exact ⟨k, Nat.le_succ_of_le le, derived⟩
    · exact ⟨n + 1, Nat.le_refl _, .step hg hr yields⟩

/-- The number of steps depends only on what is in the seed and what is found. -/
theorem congr (hseed : ∀ f, seed f ↔ seed' f) (hfound : ∀ q f, found q f ↔ found' q f) :
    DerivableIn rules found seed n f ↔ DerivableIn rules found' seed' n f := by
  induction n generalizing f with
  | zero => rw [zero_iff, zero_iff, hseed]
  | succ n ih => simp only [succ_iff, ih, Rule.yields_congr hfound]

end DerivableIn

/-- The least number with a property is above another one if that one and all before it lack the
property. -/
theorem isLeast_succ_iff {P : Nat → Prop} {n : Nat} :
    IsLeast {k | P k} (n + 1) ↔ (∃ k ≤ n + 1, P k) ∧ ¬ ∃ k ≤ n, P k := by
  constructor
  · rintro ⟨mem, least⟩
    refine ⟨⟨n + 1, Nat.le_refl _, mem⟩, ?_⟩
    rintro ⟨k, le, hk⟩
    exact absurd (least hk) (by omega)
  · rintro ⟨⟨k, le, hk⟩, never⟩
    have beyond : ∀ j, P j → n < j := fun j hj => Nat.lt_of_not_le fun le => never ⟨j, le, hj⟩
    obtain rfl : k = n + 1 := Nat.le_antisymm le (beyond k hk)
    exact ⟨hk, fun j hj => beyond j hj⟩

namespace Setting

variable {mode : Mode} {rules : List Rule} {S : Setting mode rules} {seed : Version → Fact → Prop}
  {p q : Progress} {n : Nat}

/-- The state of a run after a number of rounds: it knows what can be derived in so many steps, and
what takes all of them is still to set off rules. -/
structure After (S : Setting mode rules) (seed : Version → Fact → Prop) (n : Nat) (p : Progress) :
    Prop where
  knows : ∀ v f, p.answer.Knows v f ↔ ∃ k ≤ n, DerivableIn rules (S.foundAt v) (seed v) k f
  fresh : ∀ v f, Attests p.frontier.toList v f ↔
    IsLeast {k | DerivableIn rules (S.foundAt v) (seed v) k f} n

/-- A round goes on to the next level. -/
theorem After.next (h : S.After seed n p) (inv : S.Invariant seed p)
    (easy : ¬ p.frontier.Stalls rules) : S.After seed (n + 1) (S.next p) := by
  have taken := inv.takesIn
  have concluded := fun v g => attests_concluded (v := v) (g := g) inv.fits easy
  have knows : ∀ v f, (S.next p).answer.Knows v f ↔
      ∃ k ≤ n + 1, DerivableIn rules (S.foundAt v) (seed v) k f := by
    intro v f
    rw [taken.knows, h.knows, concluded, DerivableIn.exists_le_succ_iff]
    simp only [h.fresh]
  refine ⟨knows, fun v f => ?_⟩
  have news : Attests (S.next p).frontier.toList v f ↔
      (S.next p).answer.Knows v f ∧ ¬ p.answer.Knows v f := by
    rw [taken.news, taken.knows]
    tauto
  rw [news, knows, h.knows, isLeast_succ_iff]

/-- A run starts at the level of the seed. -/
theorem after_start {found : List Triple} (covered : ∀ row ∈ found, S.Covers mode row) :
    S.After (Attests found) 0 (.start mode found) where
  knows v f := by
    rw [S.knows_start covered]
    simp [DerivableIn.zero_iff]
  fresh v f := by
    rw [S.attests_start covered]
    constructor
    · intro h
      exact ⟨.seed h, fun k _ => Nat.zero_le k⟩
    · rintro ⟨h, -⟩
      exact DerivableIn.zero_iff.mp h

/-- A run that goes on has come to a level with facts of its own. -/
theorem After.exists_isLeast (h : S.After seed n p) (inv : S.Invariant seed p)
    (goesOn : p.idle rules = false) :
    ∃ v f, IsLeast {k | DerivableIn rules (S.foundAt v) (seed v) k f} n := by
  have busy : p.frontier.toList ≠ [] := fun nothing =>
    Bool.false_ne_true (goesOn.symm.trans (Progress.idle_iff.mpr (Or.inl nothing)))
  obtain ⟨row, hrow⟩ := List.exists_mem_of_ne_nil _ busy
  obtain ⟨v, -, holds⟩ := (inv.fits row hrow).exists_point
  exact ⟨v, row.fact, (h.fresh v row.fact).mp ⟨row, hrow, rfl, holds⟩⟩

end Setting

namespace Progress

variable {b : Backend} {mode : Mode} {rules : List Rule} {premises : ScopePair} {p q : Progress}
  {asked after m n : Nat} {outcome : Except EngineError (Progress × Nat)}
  {S : Setting mode rules} {seed : Version → Fact → Prop}

/-- A loop that ends goes up a level with every round, and leaves none out. -/
theorem Loops.levels (answered : ∀ q, b.rows q premises = .ok (S.answers q))
    (loop : Loops b mode rules premises p asked n outcome) (inv : S.Invariant seed p)
    (level : S.After seed m p) (ok : outcome = .ok (q, after)) :
    (S.Invariant seed q ∧ S.After seed (m + n) q ∧ q.idle rules = true) ∧
      ∀ k, m ≤ k → k < m + n →
        ∃ v f, IsLeast {k | DerivableIn rules (S.foundAt v) (seed v) k f} k := by
  induction loop generalizing m with
  | stop ends =>
    cases ok
    exact ⟨⟨inv, level, ends⟩, fun k ge lt => absurd ge (Nat.not_le_of_lt lt)⟩
  | fail => cases ok
  | round goesOn made rest ih =>
    obtain ⟨easy, advanced⟩ := advance_eq_next answered made
    rw [advanced] at ih
    obtain ⟨⟨inv', level', ends⟩, passed⟩ := ih (inv.next easy) (level.next inv easy) ok
    refine ⟨⟨inv', by rwa [Nat.add_right_comm] at level', ends⟩, fun k ge lt => ?_⟩
    rcases Nat.eq_or_lt_of_le ge with rfl | gt
    · exact level.exists_isLeast inv goesOn
    · exact passed k gt (by omega)

/-- The rounds of a loop that ends, if it has rules, are the levels with facts of their own. -/
theorem Loops.lt_iff (answered : ∀ q, b.rows q premises = .ok (S.answers q))
    (loop : Loops b mode rules premises p asked n (.ok (q, after))) (inv : S.Invariant seed p)
    (level : S.After seed 0 p) (some_rule : rules ≠ []) {k : Nat} :
    k < n ↔ ∃ v f, IsLeast {k | DerivableIn rules (S.foundAt v) (seed v) k f} k := by
  obtain ⟨⟨inv', level', ends⟩, passed⟩ := loop.levels answered inv level rfl
  rw [Nat.zero_add] at level' passed
  constructor
  · exact passed k (Nat.zero_le k)
  · rintro ⟨v, f, least⟩
    have nothing : q.frontier.toList = [] := (idle_iff.mp ends).resolve_right some_rule
    have known : q.answer.Knows v f :=
      (inv'.knows_iff (Or.inl nothing)).mpr (DerivableIn.exists_iff.mp ⟨k, least.1⟩)
    obtain ⟨j, le, derived⟩ := (level'.knows v f).mp known
    -- the last state of the run has no fact of its own level
    have other : k ≠ n := by
      rintro rfl
      exact attests_nil v f (nothing ▸ (level'.fresh v f).mpr least)
    exact Nat.lt_of_le_of_ne (Nat.le_trans (least.2 derived) le) other

end Progress

namespace Infer

/-- The facts that rules derive at a version in so many steps from the rows of it that answer a
query. -/
def DerivableInAt (b : Backend) (rules : RuleSet) (q : Query) (scopes : ScopePair) (v : Version) :
    Nat → Fact → Prop :=
  DerivableIn (rules.applicable q) (fun premise => Attests (b.answers scopes.premises premise) v)
    (Attests (b.answers scopes q) v)

/-- If there are rules for the query, a run over open stores makes a round for every level of what
is derivable, that is for every number of steps in which some fact is derived at some version that
cannot be derived there in fewer. -/
theorem lt_rounds_iff {b : Backend} (ho : b.OverOpenStores) {scopes : ScopePair} {mode : Mode}
    (hm : scopes.mode = .ok mode) {rules : RuleSet} {q : Query}
    (some_rule : rules.applicable q ≠ []) {inf : Inference}
    (ok : infer b rules q scopes = .ok inf) {k : Nat} :
    k < inf.report.rounds ↔
      ∃ v f, IsLeast {n | DerivableInAt b rules q scopes v n f} k := by
  have stores : b.OverStores := fun source hs => (ho source hs).imp fun _ h => h.1
  obtain ⟨n, ends⟩ := Infers.exists_rounds stores rules q scopes
  obtain ⟨mode', asked, last, after, hm', -, loop, rfl⟩ := ends.exists_loop stores ok
  obtain rfl := Except.ok.inj (hm.symm.trans hm')
  let S := b.setting ho hm (rules.applicable q)
  have answered : ∀ premise, b.rows premise scopes.premises = .ok (S.answers premise) :=
    Backend.rows_eq_answers ho (ScopePair.mode_premises hm)
  have invariant : S.Invariant (Attests (b.answers scopes q)) (.start mode (b.answers scopes q)) :=
    invariant_start
  have level : S.After (Attests (b.answers scopes q)) 0 (.start mode (b.answers scopes q)) :=
    Setting.after_start (Backend.covers_scene ho hm (Backend.rows_eq_answers ho hm q))
  have rounds : last.report.rounds = n := by
    have counted := (loop.counted answered invariant rfl).rounds
    rwa [show (Progress.start mode (b.answers scopes q)).report.rounds = 0 from rfl,
      Nat.zero_add] at counted
  simp only [rounds]
  exact loop.lt_iff answered invariant level some_rule

end Infer

end Annals
