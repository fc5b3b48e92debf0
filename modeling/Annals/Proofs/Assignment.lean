import Annals.Proofs.Matching
import Mathlib.Tactic.Choose

/-!
# Assignments

An assignment gives a constant to every variable, and so turns every pattern into a ground fact, its
instance. A binding that is applied first can be taken into the assignment.
-/

namespace Annals

/-- A constant for every variable. -/
structure Assignment where
  value : Term → Term
  constant : ∀ x, (value x).isVariable = false

namespace Assignment

variable (σ : Assignment)

/-- What a term stands for. -/
def apply (t : Term) : Term := if t.isVariable then σ.value t else t

theorem isVariable_apply (t : Term) : (σ.apply t).isVariable = false := by
  unfold apply
  split
  · exact σ.constant t
  · next h => exact Bool.eq_false_iff.mpr h

theorem apply_constant {t : Term} (h : t.isVariable = false) : σ.apply t = t := by
  simp [apply, h]

/-- Every variable stands for the empty text. -/
def blank : Assignment := ⟨fun _ => ⟨""⟩, fun _ => by decide⟩

/-- One variable stands for another constant. -/
def set (x : Term) (v : Term) (h : v.isVariable = false) : Assignment where
  value y := if y = x then v else σ.value y
  constant y := by
    split
    · exact h
    · exact σ.constant y

/-- Variables stand for what a binding makes of them. -/
def after (b : Binding) : Assignment where
  value x := σ.apply (b.resolve x)
  constant _ := σ.isVariable_apply _

theorem apply_after (b : Binding) (t : Term) : (σ.after b).apply t = σ.apply (b.resolve t) := by
  cases h : t.isVariable with
  | true => simp [apply, after, h]
  | false => rw [apply_constant _ h, Binding.resolve_constant h, apply_constant _ h]

end Assignment

namespace Pattern

/-- The instance of a pattern under an assignment. -/
def under (p : Pattern) (σ : Assignment) : Fact := p.map σ.apply

variable {σ : Assignment} {p : Pattern}

theorem under_mk (subject predicate object : Term) :
    (⟨subject, predicate, object⟩ : Pattern).under σ =
      ⟨σ.apply subject, σ.apply predicate, σ.apply object⟩ :=
  rfl

theorem isGround_under : (p.under σ).isGround = true := by
  refine isGround_iff.mpr fun i => ?_
  rw [under, get_map]
  exact σ.isVariable_apply _

theorem under_of_isGround (h : p.isGround = true) : p.under σ = p := by
  refine ext_get fun i => ?_
  rw [under, get_map]
  exact σ.apply_constant (isGround_iff.mp h i)

/-- A term matches every variable and the constant that it stands for. -/
theorem exists_match?_term {t u : Term} (h : u.isVariable = true ∨ σ.apply t = u) :
    ∃ b, t.match? u = some b ∧ b.Within σ.apply := by
  cases ht : t.isVariable with
  | true =>
    cases hu : u.isVariable with
    | true => exact ⟨.empty, by simp [Term.match?, ht, hu], nofun⟩
    | false =>
      refine ⟨.single t u, by simp [Term.match?, ht, hu], fun x v hx => ?_⟩
      obtain ⟨rfl, rfl⟩ := Binding.get?_single.mp hx
      rw [hu] at h
      exact (h.resolve_left Bool.false_ne_true).symm
  | false =>
    rw [σ.apply_constant ht] at h
    exact ⟨.empty, by simp [Term.match?, ht, h], nofun⟩

/-- A pattern matches another one if at every place that has a constant there its instance has that
constant. -/
theorem exists_match? {r : Pattern}
    (h : ∀ i, (r.get i).isVariable = true ∨ σ.apply (p.get i) = r.get i) :
    ∃ b, p.match? r = some b ∧ b.Within σ.apply := by
  choose c found within using fun i => exists_match?_term (h i)
  have all : ∀ d ∈ Position.all.map c, d.Within σ.apply := by
    intro d hd
    obtain ⟨i, -, rfl⟩ := List.mem_map.mp hd
    exact within i
  obtain ⟨b, merged⟩ := Binding.exists_merge? all
  exact ⟨b, match?_eq_some_iff.mpr ⟨c, found, merged⟩, Binding.within_merge? all merged⟩

/-- A pattern matches its instances. -/
theorem exists_match?_under (p : Pattern) (σ : Assignment) :
    ∃ b, p.match? (p.under σ) = some b := by
  have same : ∀ i, σ.apply (p.get i) = (p.under σ).get i := fun i => (get_map σ.apply p i).symm
  obtain ⟨b, matched, -⟩ := exists_match? fun i => Or.inr (same i)
  exact ⟨b, matched⟩

/-- The query for the instances of a pattern admits them. -/
theorem admits_under : (Query.ofPattern p).admits (p.under σ) = true := by
  apply Query.admits_iff.mpr
  intro i t fixed
  rw [Query.get_ofPattern] at fixed
  split at fixed
  · cases fixed
  · next h =>
    obtain rfl := Option.some.inj fixed
    rw [under, get_map, σ.apply_constant (Bool.eq_false_iff.mpr h)]

theorem under_after (b : Binding) : p.under (σ.after b) = (p.bind b).under σ := by
  refine ext_get fun i => ?_
  rw [under, get_map, Assignment.apply_after, under, get_map, get_bind]

/-- A pattern matches a ground fact if and only if that is one of its instances. -/
theorem exists_match?_iff {f : Fact} (ground : f.isGround = true) :
    (∃ b, p.match? f = some b) ↔ ∃ σ : Assignment, p.under σ = f := by
  constructor
  · rintro ⟨b, matched⟩
    have same : p.bind b = f := bind_eq_of_match? matched ground
    refine ⟨Assignment.blank.after b, ?_⟩
    rw [under_after, same, under_of_isGround ground]
  · rintro ⟨σ, rfl⟩
    exact exists_match?_under p σ

/-- A binding within an assignment makes no difference to an instance. -/
theorem under_bind {b : Binding} (within : b.Within σ.apply) : (p.bind b).under σ = p.under σ := by
  apply ext_get
  intro i
  rw [under, get_map, get_bind, under, get_map]
  cases h : (p.get i).isVariable with
  | false => rw [Binding.resolve_constant h]
  | true =>
    cases value : b.get? (p.get i) with
    | none => simp [Binding.resolve, h, value]
    | some v =>
      obtain rfl := within _ _ value
      rw [Binding.resolve_bound h value, σ.apply_constant (σ.isVariable_apply _)]

/-- A pattern that a binding within an assignment makes ground is the instance. -/
theorem bind_eq_under {b : Binding} (within : b.Within σ.apply)
    (ground : (p.bind b).isGround = true) : p.bind b = p.under σ := by
  rw [← under_bind within, under_of_isGround ground]

end Pattern

namespace Binding

/-- The binding gives values to the variables of a pattern, those of the assignment, and to no other
variables. -/
def Gives (b : Binding) (p : Pattern) (σ : Assignment) : Prop :=
  ∀ x v, b.get? x = some v ↔ (∃ i, p.get i = x) ∧ x.isVariable = true ∧ v = σ.apply x

variable {b : Binding} {p : Pattern} {σ : Assignment} {x : Term}

theorem gives_of_match? (h : p.match? (p.under σ) = some b) : b.Gives p σ := by
  intro x v
  rw [Pattern.get?_match? h]
  constructor
  · rintro ⟨i, rfl, rfl, var, -⟩
    exact ⟨⟨i, rfl⟩, var, by rw [Pattern.under, Pattern.get_map]⟩
  · rintro ⟨⟨i, rfl⟩, var, rfl⟩
    exact ⟨i, rfl, by rw [Pattern.under, Pattern.get_map], var, σ.isVariable_apply _⟩

namespace Gives

theorem within (h : b.Gives p σ) : b.Within σ.apply := by
  intro x v hx
  exact ((h x v).mp hx).2.2

theorem resolve_mem (h : b.Gives p σ) (var : x.isVariable = true) (mem : ∃ i, p.get i = x) :
    b.resolve x = σ.apply x :=
  resolve_bound var ((h x _).mpr ⟨mem, var, rfl⟩)

theorem resolve_not_mem (h : b.Gives p σ) (absent : ¬ ∃ i, p.get i = x) : b.resolve x = x := by
  apply resolve_of_not_binds
  rintro ⟨v, value⟩
  exact absent ((h x v).mp value).1

theorem isGround_bind (h : b.Gives p σ) : (p.bind b).isGround = true := by
  apply Pattern.isGround_iff.mpr
  intro i
  rw [Pattern.get_bind]
  cases var : (p.get i).isVariable with
  | true => rw [h.resolve_mem var ⟨i, rfl⟩, σ.isVariable_apply]
  | false => rw [resolve_constant var, var]

end Gives

end Binding

end Annals
