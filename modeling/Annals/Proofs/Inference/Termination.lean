import Annals.Proofs.Inference.Loop
import Annals.Proofs.Inference.Snapshot
import Annals.Proofs.Inference.View

/-!
# Inference ends

There are finitely many facts about the terms in play in a run, and each round but the last one
gains one of them, at a version that it was not known at. So the loop ends without a bound on its
rounds, and the bound that the run has is never used up.
-/

namespace Annals

/-- Stores that answered are open, and the rows found are their answer. -/
theorem Backend.eq_answers_of_search {b : Backend} {q : Query} {scopes : ScopePair} {mode : Mode}
    {found : List Triple} {asked : Nat} (stores : b.OverStores) (hm : scopes.mode = .ok mode)
    (searched : (b.search q scopes).run 0 = .ok (found, asked)) :
    b.OverOpenStores ∧ found = b.answers scopes q := by
  have rows : b.rows q scopes = .ok found := by
    rw [Backend.rows, searched]
    rfl
  have ho := overOpenStores_of_rows stores hm rows
  exact ⟨ho, Except.ok.inj (rows.symm.trans (rows_eq_answers ho hm q))⟩

/-- Over open stores the bounded run is a loop that ends. -/
theorem Progress.exists_loops_start {b : Backend} (ho : b.OverOpenStores) {scopes : ScopePair}
    {mode : Mode} (hm : scopes.mode = .ok mode) (rules : RuleSet) (q : Query) (asked : Nat) :
    ∃ n, Loops b mode (rules.applicable q) scopes.premises (.start mode (b.answers scopes q)) asked
      n ((saturate b mode (rules.applicable q) scopes.premises (roundBound b (rules.applicable q))
        (.start mode (b.answers scopes q))).run asked) := by
  let S := b.setting ho hm (rules.applicable q)
  have answered : ∀ premise, b.rows premise scopes.premises = .ok (S.answers premise) :=
    Backend.rows_eq_answers ho (ScopePair.mode_premises hm)
  have invariant : S.Invariant (Attests (b.answers scopes q)) (.start mode (b.answers scopes q)) :=
    Infer.invariant_start
  have bounded : (S.unseen (.start mode (b.answers scopes q))).card <
      roundBound b (rules.applicable q) :=
    Nat.lt_of_le_of_lt Setting.card_unseen_le Backend.card_points_scene_lt
  have ends := Setting.run_saturate answered (roundBound b (rules.applicable q)) asked invariant
    fun _ => bounded
  apply exists_loops rfl
  intro p after ok
  rcases ends with ⟨last, later, stopped, -, done⟩ | ⟨label, remaining, failed, -⟩
  · cases stopped.symm.trans ok
    exact idle_iff.mpr done
  · cases failed.symm.trans ok

/-- Inference as it goes without a bound on its rounds: where it gets by so many of them. -/
inductive Infers (b : Backend) (rules : RuleSet) (q : Query) (scopes : ScopePair) :
    Nat → Except EngineError Inference → Prop
  | refused {e : EngineError} (mixed : scopes.mode = .error e) :
      Infers b rules q scopes 0 (.error e)
  | unanswered {mode : Mode} {e : EngineError} (hm : scopes.mode = .ok mode)
      (failed : (b.search q scopes).run 0 = .error e) : Infers b rules q scopes 0 (.error e)
  | ended {mode : Mode} {found : List Triple} {asked n : Nat}
      {outcome : Except EngineError (Progress × Nat)} (hm : scopes.mode = .ok mode)
      (searched : (b.search q scopes).run 0 = .ok (found, asked))
      (loop : Progress.Loops b mode (rules.applicable q) scopes.premises (.start mode found) asked n
        outcome) :
      Infers b rules q scopes n
        (outcome.map fun (p, asked) => ⟨p.answer.rows, { p.report with asked := asked }⟩)

namespace Infers

variable {b : Backend} {rules : RuleSet} {q : Query} {scopes : ScopePair} {n : Nat}
  {outcome : Except EngineError Inference}

/-- Inference gets to one place, by one number of rounds. -/
theorem deterministic (h : Infers b rules q scopes n outcome) {n' : Nat}
    {outcome' : Except EngineError Inference} (h' : Infers b rules q scopes n' outcome') :
    n = n' ∧ outcome = outcome' := by
  cases h with
  | refused mixed =>
    cases h' with
    | refused mixed' =>
      cases mixed.symm.trans mixed'
      exact ⟨rfl, rfl⟩
    | unanswered hm => cases mixed.symm.trans hm
    | ended hm => cases mixed.symm.trans hm
  | unanswered hm failed =>
    cases h' with
    | refused mixed => cases mixed.symm.trans hm
    | unanswered _ failed' =>
      cases failed.symm.trans failed'
      exact ⟨rfl, rfl⟩
    | ended _ searched => cases failed.symm.trans searched
  | ended hm searched loop =>
    cases h' with
    | refused mixed => cases mixed.symm.trans hm
    | unanswered _ failed => cases failed.symm.trans searched
    | ended hm' searched' loop' =>
      cases hm.symm.trans hm'
      cases searched.symm.trans searched'
      obtain ⟨rfl, rfl⟩ := loop.deterministic loop'
      exact ⟨rfl, rfl⟩

/-- Over stores inference ends, where the bounded run does. -/
theorem exists_rounds (stores : b.OverStores) (rules : RuleSet) (q : Query) (scopes : ScopePair) :
    ∃ n, Infers b rules q scopes n (infer b rules q scopes) := by
  cases hm : scopes.mode with
  | error e =>
    have failed : infer b rules q scopes = .error e := by
      rw [infer, hm]
      rfl
    exact ⟨0, failed ▸ .refused hm⟩
  | ok mode =>
    rw [Infer.infer_eq hm]
    cases searched : (b.search q scopes).run 0 with
    | error e =>
      rw [Metered.run_bind_error searched]
      exact ⟨0, .unanswered hm searched⟩
    | ok result =>
      obtain ⟨found, asked⟩ := result
      rw [Metered.run_bind_ok searched]
      obtain ⟨ho, rfl⟩ := Backend.eq_answers_of_search stores hm searched
      obtain ⟨n, loop⟩ := Progress.exists_loops_start ho hm rules q asked
      exact ⟨n, .ended hm searched loop⟩

/-- Inference that succeeds asked every store once and went through the loop, over open stores and
in one mode. -/
theorem exists_loop_of_width (h : Infers b rules q scopes n outcome) (stores : b.OverStores)
    {inf : Inference} (ok : outcome = .ok inf) :
    ∃ mode last after, scopes.mode = .ok mode ∧ b.OverOpenStores ∧
      Progress.Loops b mode (rules.applicable q) scopes.premises
        (.start mode (b.answers scopes q)) b.width n (.ok (last, after)) ∧
      inf = ⟨last.answer.rows, { last.report with asked := after }⟩ := by
  cases h with
  | refused => cases ok
  | unanswered => cases ok
  | @ended mode found asked n outcome hm searched loop =>
    cases outcome with
    | error e => cases ok
    | ok result =>
      obtain ⟨last, after⟩ := result
      obtain ⟨ho, rfl⟩ := Backend.eq_answers_of_search stores hm searched
      cases searched.symm.trans (Backend.run_search_of_open ho hm q 0)
      rw [Nat.zero_add] at loop
      exact ⟨mode, last, after, hm, ho, loop, (Except.ok.inj ok).symm⟩

theorem exists_loop (h : Infers b rules q scopes n outcome) (stores : b.OverStores)
    {inf : Inference} (ok : outcome = .ok inf) :
    ∃ mode asked last after, scopes.mode = .ok mode ∧ b.OverOpenStores ∧
      Progress.Loops b mode (rules.applicable q) scopes.premises
        (.start mode (b.answers scopes q)) asked n (.ok (last, after)) ∧
      inf = ⟨last.answer.rows, { last.report with asked := after }⟩ := by
  obtain ⟨mode, last, after, hm, ho, loop, rfl⟩ := h.exists_loop_of_width stores ok
  exact ⟨mode, b.width, last, after, hm, ho, loop, rfl⟩

end Infers

namespace Progress

variable {b : Backend} {rules : RuleSet} {q : Query} {scopes : ScopePair} {mode : Mode}
  {asked n after : Nat} {last : Progress}

/-- The gains of a loop are no more than the points in play. -/
theorem Loops.counters_of_start (ho : b.OverOpenStores) (hm : scopes.mode = .ok mode)
    (loop : Loops b mode (rules.applicable q) scopes.premises (.start mode (b.answers scopes q))
      asked n (.ok (last, after)))
    {versions : Finset Version} (inhabited : versions.Nonempty)
    (within : b.versionsInPlay scopes ⊆ versions) :
    last.report.rounds = n ∧ n ≤ last.report.inferred + 1 ∧
      last.report.inferred ≤ (b.termsInPlay rules q scopes).card ^ 3 * versions.card := by
  let S := b.stageSetting ho hm rules q inhabited within
  have answered : ∀ premise, b.rows premise scopes.premises = .ok (S.answers premise) :=
    Backend.rows_eq_answers ho (ScopePair.mode_premises hm)
  have invariant : S.Invariant (Attests (b.answers scopes q)) (.start mode (b.answers scopes q)) :=
    S.invariant_start fun row hrow =>
      Backend.covers_stage ho inhabited within (Or.inl rfl) hm hrow
  obtain ⟨rounds, gains, seen⟩ := loop.counted answered invariant rfl
  have points : (S.unseen (.start mode (b.answers scopes q))).card ≤
      (b.termsInPlay rules q scopes).card ^ 3 * versions.card :=
    Setting.card_unseen_le.trans Backend.card_points_stage_le
  have start : (Progress.start mode (b.answers scopes q)).report = {} := rfl
  rw [start] at rounds gains seen
  simp only [Nat.zero_add] at rounds gains seen
  exact ⟨rounds, gains, by omega⟩

/-- In a query over all versions that sees no version there is no row to begin with. -/
theorem Loops.gains_eq_zero (ho : b.OverOpenStores) (hm : scopes.mode = .ok .history)
    (nothing : b.versionsInPlay scopes = ∅)
    (loop : Loops b .history (rules.applicable q) scopes.premises
      (.start .history (b.answers scopes q)) asked n (.ok (last, after))) :
    last.report.inferred = 0 := by
  have empty : b.answers scopes q = [] := by
    refine List.eq_nil_iff_forall_not_mem.mpr fun row hrow => ?_
    obtain ⟨-, vs, hv, v, hmem⟩ :=
      Backend.stored_of_mem_rows ho hm (Backend.rows_eq_answers ho hm q) hrow
    obtain ⟨-, named⟩ := Backend.exists_view ho (Or.inl rfl) hm hrow
    obtain ⟨other, hother, ws, hws, hvs⟩ := named vs hv v hmem
    exact absurd (nothing ▸ Backend.mem_versionsInPlay hother hws hvs) (Finset.notMem_empty v)
  rw [empty] at loop
  have stops : Loops b .history (rules.applicable q) scopes.premises (.start .history []) asked 0
      (.ok (.start .history [], asked)) := .stop (idle_iff.mpr (Or.inl rfl))
  obtain ⟨-, he⟩ := loop.deterministic stops
  cases he
  rfl

end Progress

/-- Inference over stores always ends: the loop without a bound on its rounds comes to one outcome
after one number of rounds, and that is what the bounded run answers. Each round of a run that
succeeds gains something, the last one apart, and there are no more gains than facts about the terms
in play, each with every version in play in a query over all versions. -/
theorem inference_terminates (b : Backend) (stores : b.OverStores) (rules : RuleSet) (q : Query)
    (scopes : ScopePair) :
    ∃ rounds, (∀ n outcome, Infers b rules q scopes n outcome ↔
        n = rounds ∧ outcome = infer b rules q scopes) ∧
      ∀ inf, infer b rules q scopes = .ok inf →
        inf.report.rounds = rounds ∧ rounds ≤ inf.report.inferred + 1 ∧
        (scopes.dataset.mode ≠ .history →
          inf.report.inferred ≤ (b.termsInPlay rules q scopes).card ^ 3) ∧
        (scopes.dataset.mode = .history → inf.report.inferred ≤
          (b.termsInPlay rules q scopes).card ^ 3 * (b.versionsInPlay scopes).card) := by
  obtain ⟨rounds, ends⟩ := Infers.exists_rounds stores rules q scopes
  refine ⟨rounds, fun n outcome => ⟨fun h => h.deterministic ends, ?_⟩, fun inf ok => ?_⟩
  · rintro ⟨rfl, rfl⟩
    exact ends
  · obtain ⟨mode, asked, last, after, hm, ho, loop, rfl⟩ := ends.exists_loop stores ok
    obtain ⟨same, -⟩ := ScopePair.mode_eq_ok_iff.mp hm
    obtain ⟨counted, gains, -⟩ := loop.counters_of_start ho hm (Finset.insert_nonempty 0 _)
      (Finset.subset_insert 0 _)
    rw [same]
    refine ⟨counted, gains, fun single => ?_, fun all => ?_⟩
    · have none : b.versionsInPlay scopes ⊆ {0} := by
        rw [Backend.versionsInPlay_eq_empty ho hm single]
        exact Finset.empty_subset _
      simpa using (loop.counters_of_start ho hm (Finset.singleton_nonempty 0) none).2.2
    · subst all
      rcases (b.versionsInPlay scopes).eq_empty_or_nonempty with nothing | some
      · have zero : last.report.inferred = 0 := loop.gains_eq_zero ho hm nothing
        exact zero ▸ Nat.zero_le _
      · exact (loop.counters_of_start ho hm some Finset.Subset.rfl).2.2

/-- Inference over all versions of the pets ends after two rounds, the first of which gains that Tom
is an animal in the second version too. -/
theorem inference_of_pets_terminates :
    Sample.pets.OverStores ∧
      ∃ inf, infer Sample.pets Sample.taxonomy .any ⟨.history, none⟩ = .ok inf ∧
        inf.report.rounds = 2 ∧ inf.report.inferred = 1 ∧
        Infers Sample.pets Sample.taxonomy .any ⟨.history, none⟩ 2 (.ok inf) ∧
        inf.report.inferred ≤
          (Sample.pets.termsInPlay Sample.taxonomy .any ⟨.history, none⟩).card ^ 3 *
            (Sample.pets.versionsInPlay ⟨.history, none⟩).card := by
  have stores : Sample.pets.OverStores := fun source hs =>
    ⟨Sample.petStore, List.mem_singleton.mp hs⟩
  obtain ⟨rounds, ends, bounds⟩ :=
    inference_terminates Sample.pets stores Sample.taxonomy .any ⟨.history, none⟩
  have counters : (infer Sample.pets Sample.taxonomy .any ⟨.history, none⟩).toOption.map
      (fun inf => (inf.report.rounds, inf.report.inferred)) = some (2, 1) := by
    decide +kernel
  cases ok : infer Sample.pets Sample.taxonomy .any ⟨.history, none⟩ with
  | error e =>
    rw [ok] at counters
    cases counters
  | ok inf =>
    rw [ok] at counters
    obtain ⟨two, one⟩ := Prod.mk.inj (Option.some.inj counters)
    obtain ⟨same, -, -, all⟩ := bounds inf ok
    exact ⟨stores, inf, rfl, two, one, (ends 2 _).mpr ⟨two.symm.trans same, ok.symm⟩, all rfl⟩

end Annals
