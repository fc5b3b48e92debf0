import Annals.Proofs.Inference.Snapshot
import Annals.Proofs.Store.Append

/-!
# Writing an answer back

Premises are looked up among the facts that a store holds, and not among those that were inferred
before. If an answer is written back to the store, what was inferred can be looked up as well. So
inference comes to the same answer again if and only if no rule joins a fact of the answer with an
inferred one to conclude something else.
-/

namespace Annals

/-- The row as an assertion. -/
def Triple.asserted (row : Triple) : Triple := { row with mark := .change true }

/-- Assertions add their facts. -/
theorem FactSet.mem_revised_asserted {facts : FactSet} {rows : List Triple} {f : Fact} :
    f ∈ facts.revised (rows.map Triple.asserted) ↔ f ∈ facts ∨ ∃ row ∈ rows, row.fact = f := by
  induction rows generalizing facts with
  | nil => simp [revised]
  | cons row rest ih =>
    have first : Triple.revise facts row.asserted = facts.insert row.fact := rfl
    change f ∈ (Triple.revise facts row.asserted).revised (rest.map Triple.asserted) ↔ _
    rw [ih, first, OrderedSet.mem_insert]
    simp only [List.mem_cons, exists_eq_or_imp, eq_comm (a := f)]
    exact or_assoc.trans or_left_comm

/-- Facts that hold at the newest version of an open store can be added to there. -/
theorem Store.exists_append_asserted {s : Store} (isOpen : s.closed = false)
    (nonneg : 0 ≤ s.maxVersion) {rows : List Triple}
    (ground : ∀ row ∈ rows, row.fact.isGround = true) :
    ∃ grown stored, s.append s.maxVersion (rows.map Triple.asserted) = .ok (grown, stored) ∧
      grown.closed = false ∧ ∀ f, f ∈ grown.stateAt s.maxVersion ↔
        f ∈ s.stateAt s.maxVersion ∨ ∃ row ∈ rows, row.fact = f := by
  have writable : ∀ row ∈ rows.map Triple.asserted, row.Writable := by
    intro row hrow
    obtain ⟨origin, horigin, rfl⟩ := List.mem_map.mp hrow
    exact ⟨ground origin horigin, true, rfl⟩
  have newest : s.maxVersion ≤ s.maxVersion := Int.le_refl _
  obtain ⟨changes, asked⟩ := Triple.exists_changes writable
  have appended := Store.append_row nonneg newest isOpen changes
  rw [← asked] at appended
  refine ⟨_, _, appended, isOpen, fun f => ?_⟩
  rw [Store.stateAt_write_of_le nonneg newest newest, ← FactSet.revised_map_row, ← asked,
    FactSet.mem_revised_asserted]

namespace Infer

section Answer

variable {s : Store} (isOpen : s.closed = false) {rules : RuleSet} {q : Query} {v : Version}
  {f : Fact}

include isOpen

/-- An answer has nothing in it that was not asked for. -/
theorem admits_of_derives (derived : Derives (.single (.store s)) rules q ⟨.version v, none⟩ f) :
    q.admits f = true := by
  have ho := Backend.overOpenStores_single isOpen
  exact admits_of_derivableAt ho rfl ((derivableAt_iff ho rfl (v := v)).mpr derived)

theorem isGround_of_derives
    (derived : Derives (.single (.store s)) rules q ⟨.version v, none⟩ f) : f.isGround = true := by
  have ho := Backend.overOpenStores_single isOpen
  exact isGround_of_derivableAt ho rfl ((derivableAt_iff ho rfl (v := v)).mpr derived)

theorem exists_ok_version_iff :
    (∃ inf, infer (.single (.store s)) rules q ⟨.version v, none⟩ = .ok inf) ↔
      ¬ ∃ f, Derives (.single (.store s)) rules q ⟨.version v, none⟩ f ∧
        ∃ r ∈ rules.applicable q, r.StalledBy f := by
  have ho := Backend.overOpenStores_single isOpen
  rw [answers_iff ho rfl, stalled_iff ho rfl]

end Answer

/-- What a query would find among the facts of an answer that the store does not hold. -/
def Unstored (s : Store) (v : Version) (answer : Fact → Prop) (query : Query) (f : Fact) : Prop :=
  query.admits f = true ∧ answer f ∧ f ∉ s.stateAt v

/-- What rules conclude from a fact of an answer, with an inferred one looked up if need be, is in
the answer. -/
def Joined (s : Store) (v : Version) (rules : List Rule) (answer : Fact → Prop) : Prop :=
  ∀ r ∈ rules, ∀ t g, answer t → r.Yields (Unstored s v answer) t g → answer g

section Grown

variable {s grown : Store} (isOpen : s.closed = false) (still : grown.closed = false)
  {rules : RuleSet} {q : Query} {v : Version} {answer : Fact → Prop}
  (listed : ∀ f, answer f ↔ Derives (.single (.store s)) rules q ⟨.version v, none⟩ f)
  (holds : ∀ f, f ∈ grown.stateAt v ↔ f ∈ s.stateAt v ∨ answer f) {f : Fact}

include isOpen still listed holds

/-- What was in the answer is derived again. -/
theorem derives_grown_of_answer (h : answer f) :
    Derives (.single (.store grown)) rules q ⟨.version v, none⟩ f := by
  refine .seed ((finds_version_iff still).mpr ⟨(holds f).mpr (Or.inr h), ?_⟩)
  exact admits_of_derives isOpen ((listed f).mp h)

/-- If the answer is joined, nothing else is derived. -/
theorem answer_of_derives_grown (joined : Joined s v (rules.applicable q) answer)
    (derived : Derives (.single (.store grown)) rules q ⟨.version v, none⟩ f) : answer f := by
  induction derived with
  | seed h =>
    obtain ⟨held, admitted⟩ := (finds_version_iff still).mp h
    rcases (holds _).mp held with held | known
    · exact (listed _).mpr (.seed ((finds_version_iff isOpen).mpr ⟨held, admitted⟩))
    · exact known
  | @step r t g _ hr yields ih =>
    -- a fact that is looked up was stored before, or is one of those written back
    have either : r.Yields (fun query h =>
        (Backend.single (.store s)).Finds ⟨.version v, none⟩ query h ∨ Unstored s v answer query h)
        t g := by
      apply yields.mono
      intro query h hit
      obtain ⟨held, admitted⟩ := (finds_version_iff still).mp hit
      by_cases old : h ∈ s.stateAt v
      · exact Or.inl ((finds_version_iff isOpen).mpr ⟨old, admitted⟩)
      · exact Or.inr ⟨admitted, ((holds h).mp held).resolve_left old, old⟩
    rcases Rule.yields_or_iff.mp either with stored | inferred
    · exact (listed g).mpr (.step ((listed t).mp ih) hr stored)
    · exact joined r hr t g ih inferred

/-- The answer is joined if nothing else is derived. -/
theorem joined_of_derives_grown
    (same : ∀ f, Derives (.single (.store grown)) rules q ⟨.version v, none⟩ f → answer f) :
    Joined s v (rules.applicable q) answer := by
  intro r hr t g ht yields
  refine same g (.step (derives_grown_of_answer isOpen still listed holds ht) hr ?_)
  apply yields.mono
  rintro query h ⟨admitted, known, -⟩
  exact (finds_version_iff still).mpr ⟨(holds h).mpr (Or.inr known), admitted⟩

end Grown

end Infer

/-- If an answer at the newest version of a store is written back there, it is in the answer to the
same query again. That query succeeds and has the same answer if and only if rules conclude nothing
else from a fact of the answer and another that was inferred. -/
theorem written_back_answer_recurs_iff_joined (s : Store) (nonneg : 0 ≤ s.maxVersion)
    (rules : RuleSet) (q : Query) (inf : Inference)
    (ok : infer (.single (.store s)) rules q ⟨.version s.maxVersion, none⟩ = .ok inf) :
    ∃ grown stored, s.append s.maxVersion (inf.rows.map Triple.asserted) = .ok (grown, stored) ∧
      (∀ again, infer (.single (.store grown)) rules q ⟨.version s.maxVersion, none⟩ = .ok again →
        ∀ row ∈ inf.rows, row ∈ again.rows) ∧
      ((∃ again, infer (.single (.store grown)) rules q ⟨.version s.maxVersion, none⟩ = .ok again ∧
          ∀ row, row ∈ again.rows ↔ row ∈ inf.rows) ↔
        Infer.Joined s s.maxVersion (rules.applicable q) fun f => ⟨f, .plain⟩ ∈ inf.rows) := by
  have isOpen := Infer.open_of_ok rfl ok
  obtain ⟨-, rows, -⟩ := Infer.rows_of_ok (Backend.overOpenStores_single isOpen) rfl ok
  have listed : ∀ f, ⟨f, .plain⟩ ∈ inf.rows ↔
      Derives (.single (.store s)) rules q ⟨.version s.maxVersion, none⟩ f := by
    intro f
    rw [rows, and_iff_right rfl]
  obtain ⟨grown, stored, appended, still, facts⟩ := Store.exists_append_asserted isOpen nonneg
    fun row hrow => Infer.isGround_of_derives isOpen ((rows row).mp hrow).2
  have holds : ∀ f, f ∈ grown.stateAt s.maxVersion ↔
      f ∈ s.stateAt s.maxVersion ∨ ⟨f, .plain⟩ ∈ inf.rows := by
    intro f
    rw [facts]
    refine or_congr_right ⟨?_, fun h => ⟨_, h, rfl⟩⟩
    rintro ⟨row, hrow, rfl⟩
    exact (listed row.fact).mpr ((rows row).mp hrow).2
  have recurs : ∀ f, ⟨f, .plain⟩ ∈ inf.rows →
      Derives (.single (.store grown)) rules q ⟨.version s.maxVersion, none⟩ f :=
    fun f => Infer.derives_grown_of_answer isOpen still listed holds
  have again_rows : ∀ again,
      infer (.single (.store grown)) rules q ⟨.version s.maxVersion, none⟩ = .ok again →
      ∀ row, row ∈ again.rows ↔ row.mark = .plain ∧
        Derives (.single (.store grown)) rules q ⟨.version s.maxVersion, none⟩ row.fact :=
    fun again found => (Infer.rows_of_ok (Backend.overOpenStores_single still) rfl found).2.1
  refine ⟨grown, stored, appended, fun again found row hrow => ?_, ?_, fun joined => ?_⟩
  · obtain ⟨plain, derived⟩ := (rows row).mp hrow
    exact (again_rows again found row).mpr ⟨plain, recurs _ ((listed _).mpr derived)⟩
  · rintro ⟨again, found, same⟩
    apply Infer.joined_of_derives_grown isOpen still listed holds
    intro f derived
    exact (same _).mp ((again_rows again found _).mpr ⟨rfl, derived⟩)
  · have same : ∀ f, Derives (.single (.store grown)) rules q ⟨.version s.maxVersion, none⟩ f ↔
        Derives (.single (.store s)) rules q ⟨.version s.maxVersion, none⟩ f := by
      intro f
      rw [← listed]
      exact ⟨Infer.answer_of_derives_grown isOpen still listed holds joined, recurs f⟩
    have succeeds := (Infer.exists_ok_version_iff isOpen).mp ⟨inf, ok⟩
    simp only [← same] at succeeds
    obtain ⟨again, found⟩ := (Infer.exists_ok_version_iff still).mpr succeeds
    exact ⟨again, found, fun row => by rw [again_rows again found, rows, same]⟩

namespace Sample

/-- Tom is inferred to be an animal, and stated to be one at the same version. -/
def settledPets : Store where
  changesets :=
    [⟨1, [⟨tomIsAnimal, false, isGround_tomIsAnimal⟩, ⟨tomIsCat, true, isGround_tomIsCat⟩,
        ⟨tomIsAnimal, true, isGround_tomIsAnimal⟩]⟩,
      ⟨0, [⟨catsAreAnimals, true, isGround_catsAreAnimals⟩,
        ⟨tomIsAnimal, true, isGround_tomIsAnimal⟩]⟩]
  closed := false
  descending := by decide
  nonneg := by decide

theorem append_settledPets :
    petStore.append 1 ([⟨catsAreAnimals, .plain⟩, ⟨tomIsCat, .plain⟩, ⟨tomIsAnimal, .plain⟩].map
      Triple.asserted) = .ok (settledPets, 1) := by
  decide +kernel

theorem infer_settledPets :
    ∃ inf, infer (.single (.store settledPets)) taxonomy .any ⟨.version 1, none⟩ = .ok inf ∧
      inf.rows = [⟨catsAreAnimals, .plain⟩, ⟨tomIsAnimal, .plain⟩, ⟨tomIsCat, .plain⟩] :=
  Infer.exists_ok _ _ (by decide +kernel)

end Sample

/-- That Tom is an animal is not joined with anything, so the answer in the second version stays as
it is. -/
theorem written_back_answer_of_pets :
    0 ≤ Sample.petStore.maxVersion ∧ ∃ inf,
      infer Sample.pets Sample.taxonomy .any ⟨.version Sample.petStore.maxVersion, none⟩ = .ok inf ∧
      ∃ grown stored, Sample.petStore.append Sample.petStore.maxVersion
          (inf.rows.map Triple.asserted) = .ok (grown, stored) ∧
        (∃ again, infer (.single (.store grown)) Sample.taxonomy .any
            ⟨.version Sample.petStore.maxVersion, none⟩ = .ok again ∧
          ∀ row, row ∈ again.rows ↔ row ∈ inf.rows) ∧
        Infer.Joined Sample.petStore Sample.petStore.maxVersion (Sample.taxonomy.applicable .any)
          fun f => ⟨f, .plain⟩ ∈ inf.rows := by
  have nonneg : 0 ≤ Sample.petStore.maxVersion := by decide
  obtain ⟨inf, ok, rows⟩ := Sample.infer_pets
  obtain ⟨grown, stored, appended, -, joined⟩ :=
    written_back_answer_recurs_iff_joined Sample.petStore nonneg Sample.taxonomy .any inf ok
  have settled : grown = Sample.settledPets := by
    have computed := Sample.append_settledPets
    rw [← rows] at computed
    exact congrArg Prod.fst (Except.ok.inj (appended.symm.trans computed))
  obtain ⟨again, found, listed⟩ := Sample.infer_settledPets
  have same : ∀ row, row ∈ again.rows ↔ row ∈ inf.rows := by
    intro row
    simp only [listed, rows, List.mem_cons, List.not_mem_nil, or_false]
    exact or_congr_right or_comm
  subst settled
  exact ⟨nonneg, inf, ok, _, stored, appended, ⟨again, found, same⟩,
    joined.mp ⟨again, found, same⟩⟩

namespace Sample

def tomCalledCat : Fact := ⟨⟨"tom"⟩, ⟨"called"⟩, ⟨"cat"⟩⟩

def catsSortAnimals : Fact := ⟨⟨"cat"⟩, ⟨"sort"⟩, ⟨"animal"⟩⟩

theorem isGround_tomCalledCat : tomCalledCat.isGround = true := by decide

theorem isGround_catsSortAnimals : catsSortAnimals.isGround = true := by decide

/-- What is called a kind is of it, and a sort of some kind is under it. -/
def naming : RuleSet where
  rules :=
    [⟨"names", [⟨⟨"?x"⟩, ⟨"called"⟩, ⟨"?c"⟩⟩], [⟨⟨"?x"⟩, ⟨"is"⟩, ⟨"?c"⟩⟩]⟩,
      ⟨"sorts", [⟨⟨"?c"⟩, ⟨"sort"⟩, ⟨"?d"⟩⟩], [⟨⟨"?c"⟩, ⟨"under"⟩, ⟨"?d"⟩⟩]⟩] ++ taxonomy.rules
  sound := by decide

/-- Tom is called a cat, and cats are a sort of animals. -/
def hearsay : Store where
  changesets :=
    [⟨0, [⟨tomCalledCat, true, isGround_tomCalledCat⟩,
      ⟨catsSortAnimals, true, isGround_catsSortAnimals⟩]⟩]
  closed := false
  descending := by decide
  nonneg := by decide

/-- That Tom is a cat and cats are animals is inferred, but not that Tom is an animal. -/
theorem infer_hearsay :
    ∃ inf, infer (.single (.store hearsay)) naming .any ⟨.version 0, none⟩ = .ok inf ∧
      inf.rows = [⟨catsSortAnimals, .plain⟩, ⟨tomCalledCat, .plain⟩, ⟨tomIsCat, .plain⟩,
        ⟨catsAreAnimals, .plain⟩] :=
  Infer.exists_ok _ _ (by decide +kernel)

/-- What was inferred is stated as well. -/
def recorded : Store where
  changesets :=
    [⟨0, [⟨tomCalledCat, true, isGround_tomCalledCat⟩,
      ⟨catsSortAnimals, true, isGround_catsSortAnimals⟩, ⟨tomIsCat, true, isGround_tomIsCat⟩,
      ⟨catsAreAnimals, true, isGround_catsAreAnimals⟩]⟩]
  closed := false
  descending := by decide
  nonneg := by decide

theorem append_recorded :
    hearsay.append 0 ([⟨catsSortAnimals, .plain⟩, ⟨tomCalledCat, .plain⟩, ⟨tomIsCat, .plain⟩,
      ⟨catsAreAnimals, .plain⟩].map Triple.asserted) = .ok (recorded, 2) := by
  decide +kernel

theorem infer_recorded :
    ∃ inf, infer (.single (.store recorded)) naming .any ⟨.version 0, none⟩ = .ok inf ∧
      inf.rows = [⟨catsSortAnimals, .plain⟩, ⟨catsAreAnimals, .plain⟩, ⟨tomCalledCat, .plain⟩,
        ⟨tomIsCat, .plain⟩, ⟨tomIsAnimal, .plain⟩] :=
  Infer.exists_ok _ _ (by decide +kernel)

end Sample

/-- Inference does not come to the same answer again in general: only when both are stated are two
inferred facts joined. -/
theorem written_back_answer_grows :
    ¬ ∀ (s : Store) (rules : RuleSet) (q : Query) (inf : Inference) (grown : Store) (stored : Nat),
      0 ≤ s.maxVersion →
      infer (.single (.store s)) rules q ⟨.version s.maxVersion, none⟩ = .ok inf →
      s.append s.maxVersion (inf.rows.map Triple.asserted) = .ok (grown, stored) →
      ∃ again, infer (.single (.store grown)) rules q ⟨.version s.maxVersion, none⟩ = .ok again ∧
        ∀ row, row ∈ again.rows ↔ row ∈ inf.rows := by
  intro idempotent
  obtain ⟨inf, ok, rows⟩ := Sample.infer_hearsay
  have appended := Sample.append_recorded
  rw [← rows] at appended
  obtain ⟨again, found, same⟩ := idempotent Sample.hearsay Sample.naming .any inf Sample.recorded 2
    (by decide) ok appended
  obtain ⟨after, ran, listed⟩ := Sample.infer_recorded
  obtain rfl : again = after := Except.ok.inj (found.symm.trans ran)
  have gained : ⟨Sample.tomIsAnimal, .plain⟩ ∈ again.rows := by
    rw [listed]
    decide
  have missing : ⟨Sample.tomIsAnimal, .plain⟩ ∉ inf.rows := by
    rw [rows]
    decide
  exact missing ((same _).mp gained)

end Annals
