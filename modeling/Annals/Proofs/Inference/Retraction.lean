import Annals.Proofs.Inference.Delta

/-!
# Retractions that stay

Between two versions only what is asserted sets off rules, and a seed of two parts derives what
either part derives. So the retraction of a fact stays, although the fact is derivable afterwards,
if and only if it takes a fact that holds at both versions to derive it.
-/

namespace Annals

/-- The facts that rules derive at a version of a store from the chosen ones among those that answer
a query there. -/
def DerivesFrom (s : Store) (rules : RuleSet) (q : Query) (v : Version) (chosen : Fact → Prop) :
    Fact → Prop :=
  Derivable (rules.applicable q) ((Backend.single (.store s)).Finds ⟨.version v, none⟩)
    fun g => chosen g ∧ (Backend.single (.store s)).Finds ⟨.version v, none⟩ q g

namespace Infer

variable {s : Store} {rules : RuleSet} {q : Query}

/-- What is derivable at a version is derived from the facts chosen or from the others. -/
theorem derives_iff_derivesFrom {v : Version} {f : Fact} (chosen : Fact → Prop) :
    Derives (.single (.store s)) rules q ⟨.version v, none⟩ f ↔
      DerivesFrom s rules q v chosen f ∨ DerivesFrom s rules q v (fun g => ¬ chosen g) f := by
  refine Iff.trans ?_ derivable_or_iff
  refine derivable_congr (fun g => ?_) (fun _ _ => Iff.rfl) f
  rw [← or_and_right, and_iff_right (Classical.em (chosen g))]

variable {start stop : Version}

/-- The assertions of a difference are the facts at its end that do not hold at its start. -/
theorem asserted_iff (isOpen : s.closed = false) {g : Fact} :
    ⟨g, .change true⟩ ∈ (Backend.single (.store s)).answers ⟨.delta ⟨start, stop⟩, none⟩ q ↔
      g ∉ s.stateAt start ∧ (Backend.single (.store s)).Finds ⟨.version stop, none⟩ q g := by
  rw [Backend.answers_store isOpen rfl, finds_version_iff isOpen]
  refine Store.mem_deltaRows.trans ?_
  simp only [Mark.change.injEq, reduceCtorEq, true_and, false_and, or_false]
  tauto

/-- A fact is retracted in the answer if it holds at the start only and is not derived from what is
asserted. -/
theorem retracted_iff {inf : Inference}
    (ok : infer (.single (.store s)) rules q ⟨.delta ⟨start, stop⟩, none⟩ = .ok inf) {f : Fact} :
    ⟨f, .change false⟩ ∈ inf.rows ↔
      (f ∈ s.stateAt start ∧ f ∉ s.stateAt stop ∧ q.admits f = true) ∧
        ¬ DerivesFrom s rules q stop (fun g => g ∉ s.stateAt start) f := by
  have isOpen := open_of_ok rfl ok
  obtain ⟨concluded, rows, -, members⟩ :=
    rows_of_delta (Backend.overOpenStores_single isOpen) rfl ok
  have raw : ⟨f, .change false⟩ ∈
      (Backend.single (.store s)).answers ⟨.delta ⟨start, stop⟩, none⟩ q ↔
        f ∈ s.stateAt start ∧ f ∉ s.stateAt stop ∧ q.admits f = true := by
    rw [Backend.answers_store isOpen rfl]
    refine Store.mem_deltaRows.trans ?_
    simp only [Mark.change.injEq, Bool.false_eq_true, true_and, false_and, false_or]
    tauto
  have stays : f ∉ s.stateAt stop →
      (f ∈ concluded ↔ DerivesFrom s rules q stop (fun g => g ∉ s.stateAt start) f) := by
    intro gone
    have seeds : ∀ t, Derivable (rules.applicable q) _ _ t ↔
        DerivesFrom s rules q stop (fun g => g ∉ s.stateAt start) t :=
      derivable_congr (fun g => asserted_iff isOpen) fun _ _ => Iff.rfl
    rw [members]
    constructor
    · rintro ⟨t, ht, r, hr, yields⟩
      exact .step ((seeds t).mp ht) hr yields
    · intro derived
      -- a fact that does not hold at the end is no seed, so a rule concludes it
      cases derived with
      | seed h => exact absurd ((finds_version_iff isOpen).mp h.2).1 gone
      | @step r t _ ht hr yields => exact ⟨t, (seeds t).mpr ht, r, hr, yields⟩
  rw [rows, List.mem_filter, mem_distinct, raw, survives_iff]
  refine and_congr_right fun ⟨_, gone, _⟩ => ?_
  rw [stays gone]
  exact not_congr (and_iff_right rfl)

end Infer

/-- A retraction is left between two versions of a store although its fact is in the answer at the
later one if and only if the fact is derived there from what holds at both, and not from what is
asserted between them. -/
theorem retraction_stays_iff_derived_from_unchanged (s : Store) (rules : RuleSet) (q : Query)
    (start stop : Version) (inf after : Inference)
    (ok : infer (.single (.store s)) rules q ⟨.delta ⟨start, stop⟩, none⟩ = .ok inf)
    (found : infer (.single (.store s)) rules q ⟨.version stop, none⟩ = .ok after) (f : Fact) :
    (⟨f, .change false⟩ ∈ inf.rows ∧ ⟨f, .plain⟩ ∈ after.rows) ↔
      (f ∈ s.stateAt start ∧ f ∉ s.stateAt stop ∧ q.admits f = true) ∧
        DerivesFrom s rules q stop (fun g => g ∈ s.stateAt start) f ∧
        ¬ DerivesFrom s rules q stop (fun g => g ∉ s.stateAt start) f := by
  have isOpen := Infer.open_of_ok rfl ok
  obtain ⟨-, listed, -⟩ := Infer.rows_of_ok (Backend.overOpenStores_single isOpen) rfl found
  rw [Infer.retracted_iff ok, listed, and_iff_right rfl,
    Infer.derives_iff_derivesFrom fun g => g ∈ s.stateAt start]
  tauto

namespace Sample

/-- Tom is stated to be an animal as well as a cat, and the former is withdrawn. -/
def restated : Store where
  changesets :=
    [⟨1, [⟨tomIsAnimal, false, isGround_tomIsAnimal⟩]⟩,
      ⟨0, [⟨catsAreAnimals, true, isGround_catsAreAnimals⟩, ⟨tomIsCat, true, isGround_tomIsCat⟩,
        ⟨tomIsAnimal, true, isGround_tomIsAnimal⟩]⟩]
  closed := false
  descending := by decide
  nonneg := by decide

/-- The difference still retracts that Tom is an animal. -/
theorem infer_restated_delta :
    ∃ inf, infer (.single (.store restated)) taxonomy .any ⟨.delta ⟨0, 1⟩, none⟩ = .ok inf ∧
      inf.rows = [⟨tomIsAnimal, .change false⟩] :=
  Infer.exists_ok _ _ (by decide +kernel)

/-- In the second version it is inferred from his being a cat. -/
theorem infer_restated :
    ∃ inf, infer (.single (.store restated)) taxonomy .any ⟨.version 1, none⟩ = .ok inf ∧
      inf.rows = [⟨catsAreAnimals, .plain⟩, ⟨tomIsCat, .plain⟩, ⟨tomIsAnimal, .plain⟩] :=
  Infer.exists_ok _ _ (by decide +kernel)

end Sample

/-- Nothing that was asserted makes Tom an animal, so the retraction stays. -/
theorem retraction_of_restated :
    ∃ inf after,
      infer (.single (.store Sample.restated)) Sample.taxonomy .any ⟨.delta ⟨0, 1⟩, none⟩ = .ok inf ∧
      infer (.single (.store Sample.restated)) Sample.taxonomy .any ⟨.version 1, none⟩ = .ok after ∧
      ⟨Sample.tomIsAnimal, .change false⟩ ∈ inf.rows ∧ ⟨Sample.tomIsAnimal, .plain⟩ ∈ after.rows ∧
      DerivesFrom Sample.restated Sample.taxonomy .any 1 (fun g => g ∈ Sample.restated.stateAt 0)
        Sample.tomIsAnimal := by
  obtain ⟨inf, ok, rows⟩ := Sample.infer_restated_delta
  obtain ⟨after, found, listed⟩ := Sample.infer_restated
  have stays : ⟨Sample.tomIsAnimal, .change false⟩ ∈ inf.rows := by
    rw [rows]
    decide
  have derived : ⟨Sample.tomIsAnimal, .plain⟩ ∈ after.rows := by
    rw [listed]
    decide
  have unchanged := retraction_stays_iff_derived_from_unchanged Sample.restated Sample.taxonomy .any
    0 1 inf after ok found Sample.tomIsAnimal
  exact ⟨inf, after, ok, found, stays, derived, (unchanged.mp ⟨stays, derived⟩).2.1⟩

/-- Inference between two versions does not drop every retraction of a fact that is in the answer at
the later one. -/
theorem delta_inference_keeps_derivable_retraction :
    ¬ ∀ (s : Store) (rules : RuleSet) (q : Query) (start stop : Version) (inf after : Inference),
      infer (.single (.store s)) rules q ⟨.delta ⟨start, stop⟩, none⟩ = .ok inf →
      infer (.single (.store s)) rules q ⟨.version stop, none⟩ = .ok after →
      ∀ f, ⟨f, .plain⟩ ∈ after.rows → ⟨f, .change false⟩ ∉ inf.rows := by
  intro dropped
  obtain ⟨inf, ok, rows⟩ := Sample.infer_restated_delta
  obtain ⟨after, found, listed⟩ := Sample.infer_restated
  refine dropped _ _ _ _ _ _ _ ok found Sample.tomIsAnimal ?_ ?_
  · rw [listed]
    decide
  · rw [rows]
    decide

end Annals
