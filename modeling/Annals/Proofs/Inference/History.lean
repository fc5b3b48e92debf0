import Annals.Proofs.Inference.Snapshot

/-!
# Inference over all versions

A row over all versions stands for one plain row at each of them, and what rules derive from a row
holds where all that was used for it does. So a fact has a version in the answer if and only if it
is derivable at that version alone.
-/

namespace Annals

namespace Infer

/-- No fact has two entries in the answer. -/
def Merged (p : Progress) : Prop :=
  ∃ a, p.answer = .history a ∧ (a.entries.map Prod.fst).Nodup

theorem merged_start (found : List Triple) : Merged (.start .history found) :=
  ⟨_, rfl, HistoryAnswer.nodup_keys_absorb List.nodup_nil⟩

theorem merged_next {rules : List Rule} {S : Setting .history rules} (p : Progress)
    (h : Merged p) : Merged (S.next p) := by
  obtain ⟨a, ha, nodup⟩ := h
  refine ⟨(a.absorb (S.concluded p.frontier)).1, ?_, HistoryAnswer.nodup_keys_absorb nodup⟩
  rw [Setting.next, Progress.advance, ha]
  rfl

/-- Every fact of an answer is in one row, with the versions at which it is derivable. -/
theorem rows_of_history {b : Backend} (ho : b.OverOpenStores) {scopes : ScopePair}
    (hm : scopes.mode = .ok .history) {rules : RuleSet} {q : Query} {inf : Inference}
    (ok : infer b rules q scopes = .ok inf) :
    (inf.rows.map Triple.fact).Nodup ∧ (∀ row ∈ inf.rows, ∃ vs, row.mark = .holding vs) ∧
      ∀ v f, Attests inf.rows v f ↔ DerivableAt b rules q scopes v f := by
  obtain ⟨p, visits, done, rows, -⟩ := exists_visited ho hm ok
  have merged : Merged p :=
    invariant_start.preserves visits (fun p _ _ => merged_next p) (merged_start _)
  obtain ⟨a, ha, nodup⟩ := merged
  rw [rows, ha]
  have facts : (Answer.history a).rows.map Triple.fact = a.entries.map Prod.fst :=
    HistoryAnswer.map_fact_rows
  refine ⟨facts ▸ nodup, fun row hrow => ?_, fun v f => ?_⟩
  · obtain ⟨entry, -, rfl⟩ := List.mem_map.mp hrow
    exact ⟨entry.2, rfl⟩
  · have knows := visits.invariant.knows_iff done (v := v) (f := f)
    rw [ha] at knows
    exact (HistoryAnswer.attests_rows nodup).trans knows

/-- Up to the newest version, what is derivable at a version is the same in a query over all
versions as in a query for the version alone. -/
theorem derivableAt_history_iff {s : Store} (isOpen : s.closed = false) {rules : RuleSet}
    {q : Query} {v : Version} {f : Fact} :
    DerivableAt (.single (.store s)) rules q ⟨.history, none⟩ v f ↔
      (0 ≤ v ∧ v ≤ s.maxVersion) ∧
        Derives (.single (.store s)) rules q ⟨.version v, none⟩ f := by
  have whole := Backend.shows_history isOpen
  have same : v ≤ s.maxVersion → ∀ query g,
      Attests ((Backend.single (.store s)).answers ⟨.history, none⟩ query) v g ↔
        (Backend.single (.store s)).Finds ⟨.version v, none⟩ query g := by
    intro le query g
    rw [whole query v g, finds_version_iff isOpen]
    exact and_congr_left' (and_iff_right le)
  constructor
  · intro derived
    obtain ⟨g, hg⟩ := derived.exists_seed
    obtain ⟨⟨le, held⟩, -⟩ := (whole q v g).mp hg
    exact ⟨⟨Store.nonneg_of_mem_stateAt held, le⟩,
      (derivable_congr (same le q) (same le) f).mp derived⟩
  · rintro ⟨⟨-, le⟩, derived⟩
    exact (derivable_congr (same le q) (same le) f).mpr derived

end Infer

/-- Inference over all versions of a store is inference at each of them. It succeeds if and only if
that does at every version, and then gives each fact, in one row, the versions at which it is in the
answer. -/
theorem history_inference_is_pointwise (s : Store) (isOpen : s.closed = false) (rules : RuleSet)
    (q : Query) :
    ((∃ inf, infer (.single (.store s)) rules q ⟨.history, none⟩ = .ok inf) ↔
        ∀ v, 0 ≤ v → v ≤ s.maxVersion →
          ∃ inf, infer (.single (.store s)) rules q ⟨.version v, none⟩ = .ok inf) ∧
      ∀ inf, infer (.single (.store s)) rules q ⟨.history, none⟩ = .ok inf →
        (inf.rows.map Triple.fact).Nodup ∧ (∀ row ∈ inf.rows, ∃ vs, row.mark = .holding vs) ∧
        ∀ v, 0 ≤ v → v ≤ s.maxVersion →
          ∀ alone, infer (.single (.store s)) rules q ⟨.version v, none⟩ = .ok alone →
            ∀ f, (∃ vs, ⟨f, .holding vs⟩ ∈ inf.rows ∧ v ∈ vs) ↔ ⟨f, .plain⟩ ∈ alone.rows := by
  have ho : (Backend.single (.store s)).OverOpenStores := Backend.overOpenStores_single isOpen
  constructor
  · have alone : ∀ v, (∃ inf, infer (.single (.store s)) rules q ⟨.version v, none⟩ = .ok inf) ↔
        ¬ ∃ f, Derives (.single (.store s)) rules q ⟨.version v, none⟩ f ∧
          ∃ r ∈ rules.applicable q, r.StalledBy f := by
      intro v
      rw [Infer.answers_iff ho rfl, Infer.stalled_iff ho rfl]
    have whole : (∃ inf, infer (.single (.store s)) rules q ⟨.history, none⟩ = .ok inf) ↔
        ¬ ∃ v f, Infer.DerivableAt (.single (.store s)) rules q ⟨.history, none⟩ v f ∧
          ∃ r ∈ rules.applicable q, r.StalledBy f := Infer.answers_iff ho rfl rules q
    simp only [whole, alone]
    constructor
    · rintro never v nonneg le ⟨f, derived, stalled⟩
      have whole := (Infer.derivableAt_history_iff isOpen).mpr ⟨⟨nonneg, le⟩, derived⟩
      exact never ⟨v, f, whole, stalled⟩
    · rintro never ⟨v, f, derived, stalled⟩
      obtain ⟨⟨nonneg, le⟩, derived⟩ := (Infer.derivableAt_history_iff isOpen).mp derived
      exact never v nonneg le ⟨f, derived, stalled⟩
  · intro inf ok
    obtain ⟨nodup, marked, attests⟩ := Infer.rows_of_history ho rfl ok
    refine ⟨nodup, marked, fun v nonneg le alone found f => ?_⟩
    obtain ⟨-, rows, -⟩ := Infer.rows_of_ok ho rfl found
    calc (∃ vs, ⟨f, .holding vs⟩ ∈ inf.rows ∧ v ∈ vs)
      _ ↔ Attests inf.rows v f := (attests_iff_of_holding marked).symm
      _ ↔ Infer.DerivableAt (.single (.store s)) rules q ⟨.history, none⟩ v f := attests v f
      _ ↔ Derives (.single (.store s)) rules q ⟨.version v, none⟩ f := by
        rw [Infer.derivableAt_history_iff isOpen, and_iff_right ⟨nonneg, le⟩]
      _ ↔ ⟨f, .plain⟩ ∈ alone.rows := by
        rw [rows, and_iff_right rfl]

/-- Tom is an animal in both versions, in the second one by inference. -/
theorem history_inference_of_pets :
    Sample.petStore.closed = false ∧
      ∃ inf alone, infer Sample.pets Sample.taxonomy .any ⟨.history, none⟩ = .ok inf ∧
        infer Sample.pets Sample.taxonomy .any ⟨.version 1, none⟩ = .ok alone ∧
        (inf.rows.map Triple.fact).Nodup ∧ ⟨Sample.tomIsAnimal, .plain⟩ ∈ alone.rows ∧
        ∃ vs, ⟨Sample.tomIsAnimal, .holding vs⟩ ∈ inf.rows ∧ 1 ∈ vs := by
  obtain ⟨succeeds, each⟩ :=
    history_inference_is_pointwise Sample.petStore rfl Sample.taxonomy .any
  obtain ⟨inf, ok, -⟩ := Infer.exists_ok (infer Sample.pets Sample.taxonomy .any ⟨.history, none⟩)
    [⟨Sample.catsAreAnimals, .holding (.ofList [0, 1])⟩,
      ⟨Sample.tomIsAnimal, .holding (.ofList [0, 1])⟩, ⟨Sample.tomIsCat, .holding (.ofList [1])⟩]
    (by decide +kernel)
  obtain ⟨alone, found, rows⟩ := Sample.infer_pets
  obtain ⟨nodup, -, same⟩ := each inf ok
  have listed : ⟨Sample.tomIsAnimal, .plain⟩ ∈ alone.rows := by
    rw [rows]
    decide
  exact ⟨rfl, inf, alone, ok, found, nodup, listed,
    (same 1 (by decide) (by decide) alone found Sample.tomIsAnimal).mpr listed⟩

end Annals
