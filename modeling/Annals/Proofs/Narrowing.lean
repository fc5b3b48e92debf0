import Annals.Proofs.Assignment
import Annals.Proofs.Inference.Derivation

/-!
# Narrowing rules to queries

A rule stands for its instances, in which every variable has a constant for its value. Narrowed to a
query it stands for those of them whose conclusions all answer the query, and there is nothing to
narrow it to if it has no such instance. The values that a query forces on the variables are the
same in all of these instances, so the binding that narrows the rule takes none of them away.
-/

namespace Annals

namespace Rule

/-- The instance of a rule under an assignment. -/
def under (r : Rule) (σ : Assignment) : Rule :=
  ⟨r.name, r.body.map (·.under σ), r.head.map (·.under σ)⟩

/-- All conclusions of the rule answer the query. -/
def Answers (r : Rule) (q : Query) : Prop := ∀ c ∈ r.head, q.admits c = true

variable {r n : Rule} {q : Query} {σ : Assignment} {b : Binding}

theorem answers_under_iff : (r.under σ).Answers q ↔ ∀ c ∈ r.head, q.admits (c.under σ) = true :=
  List.forall_mem_map

theorem under_after (r : Rule) (b : Binding) (σ : Assignment) :
    r.under (σ.after b) = (r.bind b).under σ := by
  simp only [under, bind, List.map_map, Function.comp_def, Pattern.under_after]

/-- A binding within an assignment makes no difference to an instance. -/
theorem under_bind (within : b.Within σ.apply) : (r.bind b).under σ = r.under σ := by
  simp only [under, bind, List.map_map, Function.comp_def, Pattern.under_bind within]

/-- A conclusion with an instance that answers a query can be held against the query, and takes on
values of that instance only. -/
theorem exists_match?_toPattern {c : Pattern} (answers : q.admits (c.under σ) = true) :
    ∃ b, c.match? q.toPattern = some b ∧ b.Within σ.apply := by
  apply Pattern.exists_match?
  intro i
  rw [Query.get_toPattern]
  cases fixed : q.get i with
  | none => exact Or.inl (by cases i <;> decide)
  | some v =>
    have same : (c.under σ).get i = v := Query.admits_iff.mp answers i v fixed
    rw [Pattern.under, Pattern.get_map] at same
    exact Or.inr same

/-- A rule with an instance that answers a query is narrowed to it by values of that instance. -/
theorem exists_narrow? (conclusive : r.head ≠ []) (answers : (r.under σ).Answers q) :
    ∃ b, r.narrow? q = some (r.bind b) ∧ b.Within σ.apply := by
  have each : ∀ c ∈ r.head, ∃ b, c.match? q.toPattern = some b ∧ b.Within σ.apply :=
    fun c hc => exists_match?_toPattern (answers_under_iff.mp answers c hc)
  obtain ⟨bindings, matched, within⟩ := exists_mapM_eq_some each
  obtain ⟨b, merged⟩ := Binding.exists_merge? within
  refine ⟨b, ?_, Binding.within_merge? within merged⟩
  simp [narrow?, conclusive, matched, merged]

/-- Narrowed to a query for constants, a rule has only instances that answer it. -/
theorem answers_of_narrow? (narrowed : r.narrow? q = some n)
    (constants : ∀ i v, q.get i = some v → v.isVariable = false) : (n.under σ).Answers q := by
  apply answers_under_iff.mpr
  intro c hc
  apply Query.admits_iff.mpr
  intro i v fixed
  have constant := constants i v fixed
  rw [Pattern.under, Pattern.get_map, get_of_narrow? narrowed hc fixed constant,
    σ.apply_constant constant]

/-- The instances of a narrowed rule are instances of the rule. -/
theorem exists_under_of_narrow? (narrowed : r.narrow? q = some n) (σ : Assignment) :
    ∃ τ : Assignment, r.under τ = n.under σ := by
  obtain ⟨b, rfl, -⟩ := exists_binding_of_narrow? narrowed
  exact ⟨σ.after b, r.under_after b σ⟩

/-- The query gives variables the values that they have in all instances that answer it. -/
theorem NarrowedBy.within (h : r.NarrowedBy q b) (answers : (r.under σ).Answers q) :
    b.Within σ.apply := by
  intro x v value
  obtain ⟨c, hc, i, rfl, fixed, -⟩ := (h x v).mp value
  have same := Query.admits_iff.mp (answers_under_iff.mp answers c hc) i v fixed
  rw [Pattern.under, Pattern.get_map] at same
  exact same.symm

/-- An instance that answers the query is not lost. -/
theorem under_of_narrow? (narrowed : r.narrow? q = some n) (answers : (r.under σ).Answers q) :
    n.under σ = r.under σ := by
  obtain ⟨b, rfl, values⟩ := exists_binding_of_narrow? narrowed
  exact under_bind (values.within answers)

end Rule

/-- Narrowing a rule to a query is exact: it succeeds if and only if some instance of the rule has
conclusions that all answer the query, and the instances of the narrowed rule are these instances
and no others. -/
theorem narrowing_is_exact (r : Rule) (conclusive : r.head ≠ [])
    (subject predicate object : Option Term) :
    ((∃ n, r.narrow? (.fixing subject predicate object) = some n) ↔
      ∃ σ : Assignment, (r.under σ).Answers (.fixing subject predicate object)) ∧
    ∀ n, r.narrow? (.fixing subject predicate object) = some n → ∀ g : Rule,
      (∃ σ : Assignment, n.under σ = g) ↔
        (∃ σ : Assignment, r.under σ = g) ∧
          g.Answers (.fixing subject predicate object) := by
  have constants : ∀ i v, (Query.fixing subject predicate object).get i = some v →
      v.isVariable = false := fun _ _ => Query.constant_of_get_fixing
  constructor
  · constructor
    · rintro ⟨n, narrowed⟩
      obtain ⟨σ, same⟩ := Rule.exists_under_of_narrow? narrowed .blank
      exact ⟨σ, same ▸ Rule.answers_of_narrow? narrowed constants⟩
    · rintro ⟨σ, answers⟩
      obtain ⟨b, narrowed, -⟩ := Rule.exists_narrow? conclusive answers
      exact ⟨r.bind b, narrowed⟩
  · intro n narrowed g
    constructor
    · rintro ⟨σ, rfl⟩
      exact ⟨Rule.exists_under_of_narrow? narrowed σ, Rule.answers_of_narrow? narrowed constants⟩
    · rintro ⟨⟨σ, rfl⟩, answers⟩
      exact ⟨σ, Rule.under_of_narrow? narrowed answers⟩

namespace Sample

/-- Whoever greets someone knows them, and is known by them. -/
def acquaintance : Rule :=
  ⟨"greetings", [⟨⟨"?x"⟩, ⟨"greets"⟩, ⟨"?y"⟩⟩],
    [⟨⟨"?x"⟩, ⟨"knows"⟩, ⟨"?y"⟩⟩, ⟨⟨"?y"⟩, ⟨"knows"⟩, ⟨"?x"⟩⟩]⟩

/-- A case of it that is about one person only. -/
def annGreetsHerself : Rule :=
  ⟨"greetings", [⟨⟨"ann"⟩, ⟨"greets"⟩, ⟨"ann"⟩⟩],
    [⟨⟨"ann"⟩, ⟨"knows"⟩, ⟨"ann"⟩⟩, ⟨⟨"ann"⟩, ⟨"knows"⟩, ⟨"ann"⟩⟩]⟩

end Sample

/-- Both conclusions say whom Ann knows only where she greets herself. -/
theorem narrowing_of_acquaintance :
    Sample.acquaintance.head ≠ [] ∧
      Sample.acquaintance.narrow? (.fixing (some ⟨"ann"⟩) (some ⟨"knows"⟩) none) =
        some Sample.annGreetsHerself ∧
      ∀ g : Rule, (∃ σ : Assignment, Sample.annGreetsHerself.under σ = g) ↔
        (∃ σ : Assignment, Sample.acquaintance.under σ = g) ∧
          g.Answers (.fixing (some ⟨"ann"⟩) (some ⟨"knows"⟩) none) := by
  have conclusive : Sample.acquaintance.head ≠ [] := by decide
  have narrowed : Sample.acquaintance.narrow? (.fixing (some ⟨"ann"⟩) (some ⟨"knows"⟩) none) =
      some Sample.annGreetsHerself := by decide +kernel
  exact ⟨conclusive, narrowed, (narrowing_is_exact Sample.acquaintance conclusive
    (some ⟨"ann"⟩) (some ⟨"knows"⟩) none).2 _ narrowed⟩

end Annals
