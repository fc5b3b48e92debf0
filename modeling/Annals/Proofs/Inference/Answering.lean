import Annals.Proofs.Inference.Delta
import Annals.Proofs.Inference.History
import Annals.Proofs.Inference.Termination

/-!
# What an answer may contain

Rules are narrowed to the query, then by the fact that sets them off, then by the fact that is
looked up. Whatever comes out in the end answers the query all the same: it has the terms that the
query fixes, no variable is left in it, and it is marked as the stores mark their rows.
-/

namespace Annals

namespace Infer

/-- Every fact of an answer over all versions has a version. -/
def Versioned (p : Progress) : Prop :=
  ∃ a, p.answer = .history a ∧ ∀ entry ∈ a.entries, ∃ v, v ∈ entry.2

theorem versioned_start (found : List Triple) : Versioned (.start .history found) :=
  ⟨_, rfl, HistoryAnswer.exists_mem_absorb fun _ none => absurd none List.not_mem_nil⟩

theorem versioned_next {rules : List Rule} {S : Setting .history rules} (p : Progress)
    (h : Versioned p) : Versioned (S.next p) := by
  obtain ⟨a, ha, inhabited⟩ := h
  refine ⟨(a.absorb (S.concluded p.frontier)).1, ?_, HistoryAnswer.exists_mem_absorb inhabited⟩
  rw [Setting.next, Progress.advance, ha]
  rfl

section Rows

variable {b : Backend} (ho : b.OverOpenStores) {scopes : ScopePair} {rules : RuleSet} {q : Query}
  {inf : Inference} (ok : infer b rules q scopes = .ok inf)

include ho ok

theorem exists_version_of_history (hm : scopes.mode = .ok .history) :
    ∀ row ∈ inf.rows, row.mark.Answers .history := by
  obtain ⟨p, visits, -, rows, -⟩ := exists_visited ho hm ok
  have versioned : Versioned p :=
    invariant_start.preserves visits (fun p _ _ => versioned_next p) (versioned_start _)
  obtain ⟨a, ha, inhabited⟩ := versioned
  rw [rows, ha]
  intro row hrow
  obtain ⟨entry, hentry, rfl⟩ := List.mem_map.mp hrow
  exact ⟨entry.2, rfl, inhabited entry hentry⟩

/-- The rows of an answer are marked as those of the stores are. -/
theorem answers_of_mem_rows {mode : Mode} (hm : scopes.mode = .ok mode) {row : Triple}
    (hrow : row ∈ inf.rows) : row.mark.Answers mode := by
  cases mode with
  | snapshot =>
    obtain ⟨-, listed, -⟩ := rows_of_ok ho hm ok
    exact ((listed row).mp hrow).1
  | delta =>
    obtain ⟨concluded, rows, -⟩ := rows_of_delta ho hm ok
    rw [rows] at hrow
    have found := mem_distinct.mp (List.mem_filter.mp hrow).1
    exact (Backend.stored_of_mem_rows ho hm (Backend.rows_eq_answers ho hm q) found).2
  | history => exact exists_version_of_history ho ok hm row hrow

/-- The facts of an answer are derivable from what the stores answer, or a store answers with
them. -/
theorem admits_of_mem_rows {mode : Mode} (hm : scopes.mode = .ok mode) {row : Triple}
    (hrow : row ∈ inf.rows) : q.admits row.fact = true ∧ row.fact.isGround = true := by
  cases mode with
  | snapshot =>
    obtain ⟨-, listed, -⟩ := rows_of_ok ho hm ok
    have derived : DerivableAt b rules q scopes 0 row.fact :=
      (derivableAt_iff ho hm).mpr ((listed row).mp hrow).2
    exact ⟨admits_of_derivableAt ho hm derived, isGround_of_derivableAt ho hm derived⟩
  | delta =>
    obtain ⟨concluded, rows, -⟩ := rows_of_delta ho hm ok
    rw [rows] at hrow
    have found := mem_distinct.mp (List.mem_filter.mp hrow).1
    exact ⟨Backend.admits_of_mem_answers ho hm found,
      (Backend.stored_of_mem_rows ho hm (Backend.rows_eq_answers ho hm q) found).1⟩
  | history =>
    obtain ⟨-, -, attests⟩ := rows_of_history ho hm ok
    obtain ⟨vs, marked, v, hv⟩ := answers_of_mem_rows ho ok hm hrow
    have attested : Attests inf.rows v row.fact := ⟨row, hrow, rfl, marked ▸ hv⟩
    have derived := (attests v row.fact).mp attested
    exact ⟨admits_of_derivableAt ho hm derived, isGround_of_derivableAt ho hm derived⟩

/-- Except in a difference, no fact is listed twice. -/
theorem nodup_facts {mode : Mode} (hm : scopes.mode = .ok mode) (whole : mode ≠ .delta) :
    (inf.rows.map Triple.fact).Nodup := by
  cases mode with
  | snapshot =>
    obtain ⟨nodup, listed, -⟩ := rows_of_ok ho hm ok
    exact nodup_facts_of_plain (fun row hrow => ((listed row).mp hrow).1) nodup
  | delta => exact absurd rfl whole
  | history => exact (rows_of_history ho hm ok).1

end Rows

/-- What is derived at a version over all versions is derived where a store has got to. -/
theorem reached_of_derivableAt {b : Backend} (ho : b.OverOpenStores) {scopes : ScopePair}
    (hm : scopes.mode = .ok .history) {rules : RuleSet} {q : Query} {v : Version} {f : Fact}
    (derived : DerivableAt b rules q scopes v f) :
    0 ≤ v ∧ ∃ source ∈ b.sources, v ≤ source.maxVersion := by
  obtain ⟨g, row, hrow, rfl, holds⟩ := derived.exists_seed
  obtain ⟨source, hs, scope, found, whole, searched, hrow⟩ :=
    Backend.exists_source_of_mem_rows hm (Backend.rows_eq_answers ho hm q) hrow
  obtain ⟨s, rfl, -⟩ := ho source hs
  obtain rfl : s.rows q scope = found := (Store.search_eq_ok_iff.mp searched).2
  cases scope with
  | snapshot moment => cases whole
  | delta stretch => cases whole
  | history =>
    obtain ⟨vs, marked, -, members⟩ := Store.mem_historyRows hrow
    rw [marked] at holds
    obtain ⟨le, held, -⟩ := (members v).mp holds
    exact ⟨Store.nonneg_of_mem_stateAt held, .store s, hs, le⟩

end Infer

/-- Every inferred answer answers the query. Over stores each row of it is of a fact that the query
admits, with no variable in it, and is marked as its mode asks for; the versions that a row names
lie between the first one and the newest one of the stores. No fact is listed twice, except in a
difference, where a store may list its assertion and another one its retraction. -/
theorem inferred_rows_answer_query (b : Backend) (stores : b.OverStores) (rules : RuleSet)
    (q : Query) (scopes : ScopePair) (inf : Inference) (ok : infer b rules q scopes = .ok inf) :
    (∀ row ∈ inf.rows, q.admits row.fact = true ∧ row.fact.isGround = true ∧
        row.mark.Answers scopes.dataset.mode ∧
        ∀ vs, row.mark = .holding vs →
          ∀ v, v ∈ vs → 0 ≤ v ∧ ∃ source ∈ b.sources, v ≤ source.maxVersion) ∧
      (scopes.dataset.mode ≠ .delta → (inf.rows.map Triple.fact).Nodup) := by
  obtain ⟨n, rounds⟩ := Infers.exists_rounds stores rules q scopes
  obtain ⟨mode, -, -, -, hm, ho, -, -⟩ := rounds.exists_loop stores ok
  obtain ⟨rfl, -⟩ := ScopePair.mode_eq_ok_iff.mp hm
  refine ⟨fun row hrow => ?_, Infer.nodup_facts ho ok hm⟩
  obtain ⟨admitted, ground⟩ := Infer.admits_of_mem_rows ho ok hm hrow
  have marked := Infer.answers_of_mem_rows ho ok hm hrow
  refine ⟨admitted, ground, marked, fun vs named v hv => ?_⟩
  have whole : scopes.mode = .ok .history := by
    cases h : scopes.dataset.mode with
    | history => rw [hm, h]
    | _ =>
      rw [h] at marked
      simp [Mark.Answers, named] at marked
  obtain ⟨-, -, attests⟩ := Infer.rows_of_history ho whole ok
  have attested : Attests inf.rows v row.fact := ⟨row, hrow, rfl, named ▸ hv⟩
  exact Infer.reached_of_derivableAt ho whole ((attests v row.fact).mp attested)

namespace Sample

/-- The query for what is known of Tom. -/
def ofTom : Query := ⟨some ⟨"tom"⟩, none, none⟩

/-- Tom is an animal in both versions and a cat in the second one. -/
theorem infer_ofTom : ∃ inf, infer pets taxonomy ofTom ⟨.history, none⟩ = .ok inf ∧
    inf.rows = [⟨tomIsAnimal, .holding (.ofList [0, 1])⟩, ⟨tomIsCat, .holding (.ofList [1])⟩] :=
  Infer.exists_ok _ _ (by decide +kernel)

end Sample

/-- That Tom is an animal in the second version is inferred, and answers the query for Tom. -/
theorem inferred_rows_of_tom :
    Sample.pets.OverStores ∧
      ∃ inf, infer Sample.pets Sample.taxonomy Sample.ofTom ⟨.history, none⟩ = .ok inf ∧
        ⟨Sample.tomIsAnimal, .holding (.ofList [0, 1])⟩ ∈ inf.rows ∧
        Sample.ofTom.admits Sample.tomIsAnimal = true ∧ Sample.tomIsAnimal.isGround = true ∧
        (∃ source ∈ Sample.pets.sources, 1 ≤ source.maxVersion) ∧
        (inf.rows.map Triple.fact).Nodup := by
  have stores : Sample.pets.OverStores := fun source hs =>
    ⟨Sample.petStore, List.mem_singleton.mp hs⟩
  obtain ⟨inf, ok, rows⟩ := Sample.infer_ofTom
  obtain ⟨each, nodup⟩ := inferred_rows_answer_query Sample.pets stores Sample.taxonomy
    Sample.ofTom ⟨.history, none⟩ inf ok
  have listed : ⟨Sample.tomIsAnimal, .holding (.ofList [0, 1])⟩ ∈ inf.rows := by
    rw [rows]
    exact List.mem_cons_self
  obtain ⟨admitted, ground, -, versions⟩ := each _ listed
  have reached := versions _ rfl 1 (by decide)
  exact ⟨stores, inf, ok, listed, admitted, ground, reached.2, nodup nofun⟩

end Annals
