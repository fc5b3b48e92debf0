import Annals.Inference
import Annals.Proofs.Inference.Counting
import Annals.Proofs.Inference.Rounds

/-!
# Rounds until nothing is new

Between two rounds an answer holds only what is derivable, and every fact it holds at a version is
either still to set off rules or has had all its consequences taken in. Each round but the last
makes a point of the universe known, so a run ends before its bound is used up: with an empty
frontier, and then the answer is all that is derivable, or with a frontier that stalls.
-/

namespace Annals

theorem Frontier.isEmpty_iff {f : Frontier} : f.isEmpty = true ↔ f.toList = [] := by
  rw [isEmpty, toList, Array.isEmpty_iff, Array.toList_eq_nil_iff]

namespace Setting

variable {mode : Mode} {rules : List Rule} (S : Setting mode rules)

/-- The run after a round on its frontier. -/
def next (p : Progress) : Progress :=
  p.advance (p.frontier.firings rules) (S.concluded p.frontier)

/-- Rounds that do not stall lead from one state of a run to the other. -/
inductive Reaches : Progress → Progress → Prop
  | refl (p : Progress) : Reaches p p
  | round {p q : Progress} (easy : ¬ p.frontier.Stalls rules) (rest : Reaches (S.next p) q) :
      Reaches p q

/-- No further round is made. -/
def Done (_S : Setting mode rules) (p : Progress) : Prop := p.frontier.toList = [] ∨ rules = []

/-- What holds between two rounds of a run from a seed. -/
structure Invariant (seed : Version → Fact → Prop) (p : Progress) : Prop where
  inMode : p.answer.mode = mode
  fits : ∀ row ∈ p.frontier.toList, S.Admits mode row
  pending : ∀ v f, Attests p.frontier.toList v f → p.answer.Knows v f
  sound : ∀ v f, p.answer.Knows v f → Derivable rules (S.foundAt v) (seed v) f
  seeded : ∀ v f, seed v f → p.answer.Knows v f
  closed : ∀ v f, p.answer.Knows v f → Attests p.frontier.toList v f ∨
    ∀ r ∈ rules, ¬ r.StalledBy f ∧ ∀ g, r.Yields (S.foundAt v) f g → p.answer.Knows v g

namespace Invariant

variable {S} {seed : Version → Fact → Prop} {p q : Progress}

theorem concluded_fits (h : S.Invariant seed p) :
    ∀ row ∈ S.concluded p.frontier, S.Admits p.answer.mode row := by
  rw [h.inMode]
  exact admits_concluded h.fits

theorem takesIn (h : S.Invariant seed p) :
    TakesIn S.toUniverse mode p.answer.Knows (S.concluded p.frontier) (S.next p).answer.Knows
      (S.next p).frontier.toList := by
  have taken := Answer.takesIn h.concluded_fits
  rwa [h.inMode] at taken

/-- A round that does not stall keeps the invariant. -/
theorem next (h : S.Invariant seed p) (easy : ¬ p.frontier.Stalls rules) :
    S.Invariant seed (S.next p) := by
  have taken := h.takesIn
  have concluded := fun v g => attests_concluded (v := v) (g := g) h.fits easy
  refine ⟨Answer.mode_absorb.trans h.inMode, taken.fits, fun v f hf => ?_, fun v f hf => ?_,
    fun v f hf => ?_, fun v f hf => ?_⟩
  · have news := (taken.news v f).mp hf
    exact (taken.knows v f).mpr (Or.inr news.1)
  · rcases (taken.knows v f).mp hf with before | new
    · exact h.sound v f before
    · obtain ⟨g, hg, r, hr, yields⟩ := (concluded v f).mp new
      exact .step (h.sound v g (h.pending v g hg)) hr yields
  · exact (taken.knows v f).mpr (Or.inl (h.seeded v f hf))
  -- what was known before has set off its rules by now, what is new will in the next round
  · by_cases before : p.answer.Knows v f
    · right
      intro r hr
      rcases h.closed v f before with waiting | consequences
      · refine ⟨fun stalled => ?_, fun g yields => ?_⟩
        · obtain ⟨row, hrow, rfl, -⟩ := waiting
          exact easy ((stalls_iff h.fits).mpr ⟨row, hrow, r, hr, stalled⟩)
        · have new := (concluded v g).mpr ⟨f, waiting, r, hr, yields⟩
          exact (taken.knows v g).mpr (Or.inr new)
      · obtain ⟨not_stalled, known⟩ := consequences r hr
        exact ⟨not_stalled, fun g yields => (taken.knows v g).mpr (Or.inl (known g yields))⟩
    · left
      have new := ((taken.knows v f).mp hf).resolve_left before
      exact (taken.news v f).mpr ⟨new, before⟩

theorem of_reaches (h : S.Invariant seed p) (run : S.Reaches p q) : S.Invariant seed q := by
  induction run with
  | refl p => exact h
  | round easy rest ih => exact ih (h.next easy)

/-- What every round keeps holds wherever a run gets to. -/
theorem preserves (h : S.Invariant seed p) (run : S.Reaches p q) {J : Progress → Prop}
    (kept : ∀ p, S.Invariant seed p → ¬ p.frontier.Stalls rules → J p → J (S.next p))
    (start : J p) : J q := by
  induction run with
  | refl p => exact start
  | @round p q easy rest ih => exact ih (h.next easy) (kept p h easy start)

/-- A row that stalls a round is of a derivable fact. -/
theorem exists_stalled (h : S.Invariant seed p) (stalls : p.frontier.Stalls rules) :
    ∃ v ∈ S.versions, ∃ f, Derivable rules (S.foundAt v) (seed v) f ∧
      ∃ r ∈ rules, r.StalledBy f := by
  obtain ⟨row, hrow, r, hr, stalled⟩ := (stalls_iff h.fits).mp stalls
  obtain ⟨v, point, holds⟩ := (h.fits row hrow).exists_point
  have known := h.pending v row.fact ⟨row, hrow, rfl, holds⟩
  exact ⟨v, (Finset.mem_product.mp point).2, row.fact, h.sound v row.fact known, r, hr, stalled⟩

/-- In the end every fact has had all its consequences taken in. -/
theorem consequences (h : S.Invariant seed p) (done : S.Done p) {v : Version} {f : Fact}
    (hf : p.answer.Knows v f) {r : Rule} (hr : r ∈ rules) :
    ¬ r.StalledBy f ∧ ∀ g, r.Yields (S.foundAt v) f g → p.answer.Knows v g := by
  rcases h.closed v f hf with waiting | consequences
  · rcases done with nothing | none
    · exact absurd (nothing ▸ waiting) (attests_nil v f)
    · exact absurd (none ▸ hr) List.not_mem_nil
  · exact consequences r hr

/-- In the end the answer knows what is derivable. -/
theorem knows_iff (h : S.Invariant seed p) (done : S.Done p) {v : Version} {f : Fact} :
    p.answer.Knows v f ↔ Derivable rules (S.foundAt v) (seed v) f := by
  constructor
  · exact h.sound v f
  · intro derived
    induction derived with
    | seed hf => exact h.seeded v _ hf
    | step _ hr yields ih => exact (h.consequences done ih hr).2 _ yields

theorem not_stalled (h : S.Invariant seed p) (done : S.Done p) {v : Version} {f : Fact}
    (derived : Derivable rules (S.foundAt v) (seed v) f) {r : Rule} (hr : r ∈ rules) :
    ¬ r.StalledBy f :=
  (h.consequences done ((h.knows_iff done).mpr derived) hr).1

end Invariant

open Classical in
/-- The points of the universe that an answer does not know of. -/
noncomputable def unseen (p : Progress) : Finset (Fact × Version) :=
  S.points.filter fun x => ¬ p.answer.Knows x.2 x.1

variable {S} {seed : Version → Fact → Prop} {p q : Progress}

theorem mem_unseen {x : Fact × Version} :
    x ∈ S.unseen p ↔ x ∈ S.points ∧ ¬ p.answer.Knows x.2 x.1 := by
  classical
  exact Finset.mem_filter

theorem card_unseen_le : (S.unseen p).card ≤ S.points.card :=
  Finset.card_le_card fun _ hx => (mem_unseen.mp hx).1

/-- For each row that a round finds there is a point less to see. -/
theorem card_unseen_next_add_le (h : S.Invariant seed p) :
    (S.unseen (S.next p)).card + (S.next p).frontier.toList.length ≤ (S.unseen p).card := by
  have taken := h.takesIn
  obtain ⟨gained, size, points, news⟩ :=
    taken.exists_gained (Answer.apart_absorb h.concluded_fits)
  have disjoint : Disjoint (S.unseen (S.next p)) gained :=
    Finset.disjoint_left.mpr fun x unseen hx => (mem_unseen.mp unseen).2 (news x hx).1
  rw [← size, ← Finset.card_union_of_disjoint disjoint]
  refine Finset.card_le_card (Finset.union_subset (fun x hx => ?_) fun x hx => ?_)
  · obtain ⟨point, unknown⟩ := mem_unseen.mp hx
    exact mem_unseen.mpr
      ⟨point, fun known => unknown ((taken.knows x.2 x.1).mpr (Or.inl known))⟩
  · exact mem_unseen.mpr ⟨points hx, (news x hx).2⟩

/-- A round that finds something new leaves fewer points to see. -/
theorem card_unseen_next_lt (h : S.Invariant seed p) (more : (S.next p).frontier.toList ≠ []) :
    (S.unseen (S.next p)).card < (S.unseen p).card :=
  Nat.lt_of_lt_of_le (Nat.lt_add_of_pos_right (List.length_pos_iff.mpr more))
    (card_unseen_next_add_le h)

/-- A run with a bound above the number of points to see ends with nothing left to do, or stalls. -/
theorem run_saturate {b : Backend} {premises : ScopePair}
    (answered : ∀ q, b.rows q premises = .ok (S.answers q)) (bound asked : Nat)
    (h : S.Invariant seed p) (enough : p.frontier.toList ≠ [] → (S.unseen p).card < bound) :
    (∃ q after, (Progress.saturate b mode rules premises bound p).run asked = .ok (q, after) ∧
        S.Reaches p q ∧ S.Done q) ∨
      ∃ label remaining, (Progress.saturate b mode rules premises bound p).run asked =
          .error (.unsupportedBody label remaining) ∧
        ∃ q, S.Reaches p q ∧ q.frontier.Stalls rules := by
  -- every round that finds something leaves fewer points to see, and the bound is above their number
  induction bound generalizing p asked with
  | zero =>
    have nothing : p.frontier.toList = [] := by
      by_contra more
      exact Nat.not_lt_zero _ (enough more)
    exact Or.inl ⟨p, asked, rfl, .refl p, Or.inl nothing⟩
  | succ bound ih =>
    rw [Progress.saturate]
    split
    · next ends =>
      have done : S.Done p := by
        simpa only [Done, Bool.or_eq_true, Frontier.isEmpty_iff, List.isEmpty_iff] using ends
      exact Or.inl ⟨p, asked, rfl, .refl p, done⟩
    · next goesOn =>
      have more : p.frontier.toList ≠ [] := fun nothing => goesOn (by
        rw [Frontier.isEmpty_iff.mpr nothing, Bool.true_or])
      by_cases stalls : p.frontier.Stalls rules
      · have failure : ∃ label remaining, (p.frontier.round b mode rules premises).run asked =
            .error (.unsupportedBody label remaining) := run_round_of_stalls stalls asked
        obtain ⟨label, remaining, failed⟩ := failure
        right
        exact ⟨label, remaining, Metered.run_bind_error failed, p, .refl p, stalls⟩
      · have small : (S.next p).frontier.toList ≠ [] → (S.unseen (S.next p)).card < bound :=
          fun found => Nat.lt_of_lt_of_le (card_unseen_next_lt h found)
            (Nat.le_of_lt_succ (enough more))
        rw [Metered.run_bind_ok (run_round answered stalls asked)]
        rcases ih _ (h.next stalls) small with
          ⟨q, after, ok, run, done⟩ | ⟨label, n, failed, q, run, stuck⟩
        · exact Or.inl ⟨q, after, ok, .round stalls run, done⟩
        · exact Or.inr ⟨label, n, failed, q, .round stalls run, stuck⟩

end Setting

end Annals
