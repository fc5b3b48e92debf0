import Annals.Proofs.Inference.Run

/-!
# Inference at one version

At one version all rows are plain, so an answer is a list of facts: those that are derivable from
the rows that answer the query, each of them once, and the rows themselves first.
-/

namespace Annals

/-- The fact is one of those that answer the query. -/
def Backend.Finds (b : Backend) (scopes : ScopePair) (q : Query) (f : Fact) : Prop :=
  ∃ rows, b.rows q scopes = .ok rows ∧ ∃ row ∈ rows, row.fact = f

/-- The facts that the rules for a query derive from those that answer it. -/
def Derives (b : Backend) (rules : RuleSet) (q : Query) (scopes : ScopePair) : Fact → Prop :=
  Derivable (rules.applicable q) (b.Finds scopes.premises) (b.Finds scopes q)

namespace Infer

/-- What the answer at one version looks like between two rounds. -/
def Listing (found : List Triple) (p : Progress) : Prop :=
  ∃ a, p.answer = .snapshot a ∧ a.rows.Nodup ∧ (∀ row ∈ a.rows, row.mark = .plain) ∧
    distinct found <+: a.rows

theorem listing_start {found : List Triple} (plain : ∀ row ∈ found, row.mark = .plain) :
    Listing found (.start .snapshot found) := by
  refine ⟨_, rfl, SnapshotAnswer.nodup_absorb List.nodup_nil, fun row hrow => ?_, ?_⟩
  · rcases SnapshotAnswer.mem_absorb.mp hrow with absent | hrow
    · exact absurd absent List.not_mem_nil
    · exact plain row hrow
  · simp

theorem listing_next {rules : List Rule} {S : Setting .snapshot rules} {found : List Triple}
    {seed : Version → Fact → Prop} (p : Progress) (inv : S.Invariant seed p) (h : Listing found p) :
    Listing found (S.next p) := by
  obtain ⟨a, ha, nodup, plain, ⟨rest, hrest⟩⟩ := h
  have answer : (S.next p).answer = .snapshot (a.absorb (S.concluded p.frontier)).1 := by
    rw [Setting.next, Progress.advance, ha]
    rfl
  refine ⟨_, answer, SnapshotAnswer.nodup_absorb nodup, fun row hrow => ?_, ?_⟩
  · rcases SnapshotAnswer.mem_absorb.mp hrow with hrow | hrow
    · exact plain row hrow
    · exact (Setting.admits_concluded inv.fits row hrow).2
  · rw [SnapshotAnswer.absorb, ← hrest, List.append_assoc]
    exact List.prefix_append _ _

section Plain

variable {b : Backend} {scopes : ScopePair} (ho : b.OverOpenStores)
  (hm : scopes.mode = .ok .snapshot)

include ho hm

theorem plain_of_mem_answers {q : Query} {row : Triple} (h : row ∈ b.answers scopes q) :
    row.mark = .plain :=
  (Backend.stored_of_mem_rows ho hm (Backend.rows_eq_answers ho hm q) h).2

theorem attests_answers_iff {q : Query} {v : Version} {f : Fact} :
    Attests (b.answers scopes q) v f ↔ b.Finds scopes q f := by
  have answered := Backend.rows_eq_answers ho hm q
  constructor
  · rintro ⟨row, hrow, he, -⟩
    exact ⟨_, answered, row, hrow, he⟩
  · rintro ⟨rows, found, row, hrow, rfl⟩
    obtain rfl := Except.ok.inj (answered.symm.trans found)
    exact ⟨row, hrow, rfl, by rw [plain_of_mem_answers ho hm hrow]; trivial⟩

/-- At one version it does not matter which one is meant. -/
theorem derivableAt_iff {rules : RuleSet} {q : Query} {v : Version} {f : Fact} :
    DerivableAt b rules q scopes v f ↔ Derives b rules q scopes f :=
  derivable_congr (fun _ => attests_answers_iff ho hm)
    (fun _ _ => attests_answers_iff ho (ScopePair.mode_premises hm)) f

theorem stalled_iff {rules : RuleSet} {q : Query} :
    (∃ v f, DerivableAt b rules q scopes v f ∧ ∃ r ∈ rules.applicable q, r.StalledBy f) ↔
      ∃ f, Derives b rules q scopes f ∧ ∃ r ∈ rules.applicable q, r.StalledBy f := by
  simp only [derivableAt_iff ho hm, exists_const]

/-- An answer lists what is derivable. -/
theorem rows_of_ok {rules : RuleSet} {q : Query} {inf : Inference}
    (ok : infer b rules q scopes = .ok inf) :
    inf.rows.Nodup ∧
      (∀ row, row ∈ inf.rows ↔ row.mark = .plain ∧ Derives b rules q scopes row.fact) ∧
      distinct (b.answers scopes q) <+: inf.rows := by
  obtain ⟨p, visits, done, rows, -⟩ := exists_visited ho hm ok
  have listing : Listing (b.answers scopes q) p :=
    invariant_start.preserves visits (fun p inv _ => listing_next p inv)
      (listing_start fun row h => plain_of_mem_answers ho hm h)
  obtain ⟨a, ha, nodup, plain, first⟩ := listing
  have derived : ∀ f, ⟨f, .plain⟩ ∈ a.rows ↔ Derives b rules q scopes f := by
    intro f
    have knows := visits.invariant.knows_iff done (v := 0) (f := f)
    rw [ha] at knows
    exact knows.trans (derivableAt_iff ho hm)
  rw [rows, ha]
  refine ⟨nodup, fun row => ?_, first⟩
  exact (mem_iff_of_plain plain).trans (and_congr_right fun _ => derived row.fact)

end Plain

/-- At a version of a store a query finds the facts of the state that it admits. -/
theorem finds_version_iff {s : Store} (isOpen : s.closed = false) {q : Query} {v : Version}
    {f : Fact} :
    (Backend.single (.store s)).Finds ⟨.version v, none⟩ q f ↔
      f ∈ s.stateAt v ∧ q.admits f = true := by
  rw [← attests_answers_iff (Backend.overOpenStores_single isOpen) rfl (v := v)]
  exact Backend.shows_version isOpen v q v f

end Infer

/-- Inference at one version computes the closure of the rows that answer the query under the rules
for it. It fails if and only if a fact of the closure leaves several premises of a rule to look up,
and otherwise lists every fact of the closure once, the distinct rows found in the stores first. -/
theorem snapshot_inference_computes_closure (b : Backend) (ho : b.OverOpenStores) (rules : RuleSet)
    (q : Query) (scopes : ScopePair) (hm : scopes.mode = .ok .snapshot) :
    ∃ found, b.rows q scopes = .ok found ∧
      ((∃ label remaining, infer b rules q scopes = .error (.unsupportedBody label remaining)) ↔
        ∃ f, Derives b rules q scopes f ∧ ∃ r ∈ rules.applicable q, r.StalledBy f) ∧
      ((¬ ∃ f, Derives b rules q scopes f ∧ ∃ r ∈ rules.applicable q, r.StalledBy f) →
        ∃ inf, infer b rules q scopes = .ok inf ∧ inf.rows.Nodup ∧
          (∀ row, row ∈ inf.rows ↔ row.mark = .plain ∧ Derives b rules q scopes row.fact) ∧
          distinct found <+: inf.rows) := by
  refine ⟨b.answers scopes q, Backend.rows_eq_answers ho hm q, ?_, fun never => ?_⟩
  · rw [Infer.fails_iff ho hm, Infer.stalled_iff ho hm]
  · rw [← Infer.stalled_iff ho hm, ← Infer.answers_iff ho hm] at never
    obtain ⟨inf, ok⟩ := never
    exact ⟨inf, ok, Infer.rows_of_ok ho hm ok⟩

namespace Sample

def tomIsAnimal : Fact := ⟨⟨"tom"⟩, ⟨"is"⟩, ⟨"animal"⟩⟩

def tomIsCat : Fact := ⟨⟨"tom"⟩, ⟨"is"⟩, ⟨"cat"⟩⟩

def catsAreAnimals : Fact := ⟨⟨"cat"⟩, ⟨"under"⟩, ⟨"animal"⟩⟩

theorem isGround_tomIsAnimal : tomIsAnimal.isGround = true := by decide

theorem isGround_tomIsCat : tomIsCat.isGround = true := by decide

theorem isGround_catsAreAnimals : catsAreAnimals.isGround = true := by decide

/-- Whatever is of a kind is of the kind above it. -/
def taxonomy : RuleSet where
  rules := [⟨"kinds", [⟨⟨"?x"⟩, ⟨"is"⟩, ⟨"?c"⟩⟩, ⟨⟨"?c"⟩, ⟨"under"⟩, ⟨"?d"⟩⟩],
    [⟨⟨"?x"⟩, ⟨"is"⟩, ⟨"?d"⟩⟩]⟩]
  sound := by decide

/-- Tom is an animal in the first version and a cat in the second one. -/
def petStore : Store where
  changesets :=
    [⟨1, [⟨tomIsAnimal, false, by decide⟩, ⟨tomIsCat, true, by decide⟩]⟩,
      ⟨0, [⟨catsAreAnimals, true, by decide⟩, ⟨tomIsAnimal, true, by decide⟩]⟩]
  closed := false
  descending := by decide
  nonneg := by decide

def pets : Backend := .single (.store petStore)

/-- In the second version Tom is inferred to be an animal. -/
theorem infer_pets : ∃ inf, infer pets taxonomy .any ⟨.version 1, none⟩ = .ok inf ∧
    inf.rows = [⟨catsAreAnimals, .plain⟩, ⟨tomIsCat, .plain⟩, ⟨tomIsAnimal, .plain⟩] :=
  Infer.exists_ok _ _ (by decide +kernel)

end Sample

theorem snapshot_inference_of_pets :
    Sample.pets.OverOpenStores ∧ ScopePair.mode ⟨.version 1, none⟩ = .ok .snapshot ∧
      ∃ inf, infer Sample.pets Sample.taxonomy .any ⟨.version 1, none⟩ = .ok inf ∧
        ⟨Sample.tomIsAnimal, .plain⟩ ∈ inf.rows ∧
        ∀ row, row ∈ inf.rows ↔ row.mark = .plain ∧
          Derives Sample.pets Sample.taxonomy .any ⟨.version 1, none⟩ row.fact := by
  have ho : Sample.pets.OverOpenStores := Backend.overOpenStores_single rfl
  obtain ⟨found, -, fails, answers⟩ :=
    snapshot_inference_computes_closure Sample.pets ho Sample.taxonomy .any ⟨.version 1, none⟩ rfl
  obtain ⟨inf, ok, rows⟩ := Sample.infer_pets
  obtain ⟨again, same, -, listed, -⟩ := answers fun stalled => by
    obtain ⟨label, remaining, failed⟩ := fails.mpr stalled
    cases ok.symm.trans failed
  obtain rfl := Except.ok.inj (ok.symm.trans same)
  refine ⟨ho, rfl, inf, ok, ?_, listed⟩
  rw [rows]
  decide

end Annals
