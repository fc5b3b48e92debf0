import Annals.Proofs.Backend
import Annals.Proofs.Inference.Derivation
import Mathlib.Data.Finset.Card
import Mathlib.Data.Finset.Prod

/-!
# The universe of a run

Everything that a run of inference comes upon is built from finitely many constants and holds at
finitely many versions. A universe names them, and the rows that a mode works with fit into it: they
are plain in a snapshot, plain or assertions in a difference, and hold in some versions otherwise.
-/

namespace Annals

/-- The marks that the rows of a mode bear while they set off rules. -/
def Mark.Suits (mode : Mode) (versions : Finset Version) (m : Mark) : Prop :=
  match mode with
  | .snapshot => m = .plain
  | .delta => m = .plain ∨ m = .change true
  | .history => ∃ vs, m = .holding vs ∧ (∃ v, v ∈ vs) ∧ ∀ v ∈ vs.toList, v ∈ versions

namespace Mark

variable {mode : Mode} {versions : Finset Version} {m n w : Mark}

theorem Suits.exists_holdsAt (h : m.Suits mode versions) (inhabited : versions.Nonempty) :
    ∃ v ∈ versions, m.HoldsAt v := by
  cases mode with
  | snapshot =>
    obtain ⟨v, hv⟩ := inhabited
    subst h
    exact ⟨v, hv, trivial⟩
  | delta =>
    obtain ⟨v, hv⟩ := inhabited
    rcases h with rfl | rfl
    · exact ⟨v, hv, trivial⟩
    · exact ⟨v, hv, rfl⟩
  | history =>
    obtain ⟨vs, rfl, ⟨v, hv⟩, within⟩ := h
    exact ⟨v, within v hv, hv⟩

/-- The versions of a conclusion are those that the row shares with the premise. -/
theorem commonMark?_some (hm : m.Suits mode versions) (hw : w.Suits mode versions)
    (h : mode.commonMark? m (some w) = some n) :
    n.Suits mode versions ∧ ∀ v, n.HoldsAt v ↔ m.HoldsAt v ∧ w.HoldsAt v := by
  cases mode with
  | snapshot =>
    obtain rfl := Option.some.inj h
    subst hm hw
    exact ⟨rfl, fun v => by simp [HoldsAt]⟩
  | delta =>
    obtain rfl := Option.some.inj h
    refine ⟨Or.inl rfl, fun v => ?_⟩
    rcases hm with rfl | rfl <;> rcases hw with rfl | rfl <;> simp [HoldsAt]
  | history =>
    obtain ⟨vs, rfl, -, within⟩ := hm
    obtain ⟨ws, rfl, -, -⟩ := hw
    simp only [Mode.commonMark?, versions?, Option.bind_some] at h
    split at h
    · cases h
    · next nonempty =>
      obtain rfl := Option.some.inj h
      refine ⟨⟨_, rfl, OrderedSet.isEmpty_eq_false_iff.mp (Bool.eq_false_iff.mpr nonempty),
        fun v hv => within v (OrderedSet.mem_inter.mp hv).1⟩, fun v => ?_⟩
      exact OrderedSet.mem_inter

/-- There is no conclusion only where the row and the premise share no version. -/
theorem commonMark?_none (hm : m.Suits mode versions) (hw : w.Suits mode versions)
    (h : mode.commonMark? m (some w) = none) (v : Version) : ¬ (m.HoldsAt v ∧ w.HoldsAt v) := by
  cases mode with
  | snapshot => cases h
  | delta => cases h
  | history =>
    obtain ⟨vs, rfl, -, -⟩ := hm
    obtain ⟨ws, rfl, -, -⟩ := hw
    simp only [Mode.commonMark?, versions?, Option.bind_some] at h
    split at h
    · next empty =>
      rintro ⟨hv, hw⟩
      exact OrderedSet.isEmpty_iff.mp empty v (OrderedSet.mem_inter.mpr ⟨hv, hw⟩)
    · cases h

/-- Without a premise to look up the conclusion holds where the row does. -/
theorem commonMark?_of_settled (hm : m.Suits mode versions) :
    ∃ n, mode.commonMark? m none = some n ∧ n.Suits mode versions ∧
      ∀ v, n.HoldsAt v ↔ m.HoldsAt v := by
  cases mode with
  | snapshot =>
    subst hm
    exact ⟨.plain, rfl, rfl, fun v => Iff.rfl⟩
  | delta =>
    refine ⟨.plain, rfl, Or.inl rfl, fun v => ?_⟩
    rcases hm with rfl | rfl <;> simp [HoldsAt]
  | history =>
    obtain ⟨vs, rfl, ⟨v, hv⟩, within⟩ := hm
    refine ⟨.holding vs, ?_, ⟨vs, rfl, ⟨v, hv⟩, within⟩, fun v => Iff.rfl⟩
    have nonempty : vs.isEmpty = false := OrderedSet.isEmpty_eq_false_iff.mpr ⟨v, hv⟩
    simp [Mode.commonMark?, versions?, nonempty]

end Mark

/-- The constants and the versions that a run can come upon. -/
structure Universe where
  terms : Finset Term
  versions : Finset Version
  constants : ∀ t ∈ terms, t.isVariable = false
  inhabited : versions.Nonempty

namespace Universe

variable (u : Universe)

/-- The facts about terms of the universe. -/
def facts : Finset Fact :=
  (u.terms ×ˢ u.terms ×ˢ u.terms).image fun t => ⟨t.1, t.2.1, t.2.2⟩

/-- The facts, each at every version. -/
def points : Finset (Fact × Version) := u.facts ×ˢ u.versions

/-- The row fits what a mode works with. -/
def Admits (mode : Mode) (row : Triple) : Prop :=
  row.fact ∈ u.facts ∧ row.mark.Suits mode u.versions

/-- The row is one that stores can answer with in a mode, about what the universe has. -/
def Covers (mode : Mode) (row : Triple) : Prop :=
  row.fact ∈ u.facts ∧ row.mark.Answers mode ∧
    ∀ versions, row.mark = .holding versions → ∀ v ∈ versions.toList, v ∈ u.versions

variable {u}

theorem mem_facts {f : Fact} : f ∈ u.facts ↔ ∀ i, f.get i ∈ u.terms := by
  simp only [facts, Finset.mem_image, Finset.mem_product, Prod.exists]
  constructor
  · rintro ⟨s, p, o, ⟨hs, hp, ho⟩, rfl⟩ (_ | _ | _)
    · exact hs
    · exact hp
    · exact ho
  · intro h
    exact ⟨_, _, _, ⟨h .subject, h .predicate, h .object⟩, rfl⟩

theorem isGround_of_mem_facts {f : Fact} (h : f ∈ u.facts) : f.isGround = true :=
  Pattern.isGround_iff.mpr fun i => u.constants _ (mem_facts.mp h i)

theorem card_facts_le : u.facts.card ≤ u.terms.card * u.terms.card * u.terms.card := by
  refine Finset.card_image_le.trans ?_
  rw [Finset.card_product, Finset.card_product, Nat.mul_assoc]

theorem card_points_le :
    u.points.card ≤ u.terms.card * u.terms.card * u.terms.card * u.versions.card := by
  rw [points, Finset.card_product]
  exact Nat.mul_le_mul_right _ card_facts_le

/-- A row that fits holds at some point of the universe. -/
theorem Admits.exists_point {mode : Mode} {row : Triple} (h : u.Admits mode row) :
    ∃ v, (row.fact, v) ∈ u.points ∧ row.mark.HoldsAt v := by
  obtain ⟨v, hv, holds⟩ := h.2.exists_holdsAt u.inhabited
  exact ⟨v, Finset.mem_product.mpr ⟨h.1, hv⟩, holds⟩

theorem Covers.admits {mode : Mode} {row : Triple} (h : u.Covers mode row) (hm : mode ≠ .delta) :
    u.Admits mode row := by
  obtain ⟨hf, marked, within⟩ := h
  cases mode with
  | snapshot => exact ⟨hf, marked⟩
  | delta => exact absurd rfl hm
  | history =>
    obtain ⟨vs, hv, nonempty⟩ := marked
    exact ⟨hf, vs, hv, nonempty, within vs hv⟩

/-- Where premises are looked up, all rows fit what the mode works with. -/
theorem Covers.admits_premise {mode : Mode} {row : Triple} (h : u.Covers mode.premises row) :
    u.Admits mode row := by
  cases mode with
  | snapshot => exact h.admits nofun
  | delta => exact ⟨h.1, Or.inl h.2.1⟩
  | history => exact h.admits nofun

end Universe

end Annals
