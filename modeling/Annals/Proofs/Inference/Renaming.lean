import Annals.Proofs.Inference.Repetition
import Annals.Proofs.Inference.Snapshot
import Annals.Proofs.Renaming

/-!
# Inference does not depend on names

Two firings may be told apart that are one firing after a renaming, and the other way round, since
firings are compared with their names. So a run with other names may make other firings. In each
round it concludes the same rows all the same, some of them more often or less often, and it stalls
where the other one does.
-/

namespace Annals

/-- The second rule is the first one renamed. -/
def Rule.Renames (r s : Rule) : Prop := ∃ (π : Renaming) (name : String), s = r.rename π name

/-- Narrowed to a query, rules and renamed rules stay alike. -/
theorem Rule.renames_applicable {rules others : List Rule}
    (same : List.Forall₂ Rule.Renames rules others) (q : Query) :
    List.Forall₂ Rule.Renames (rules.filterMap (·.narrow? q)) (others.filterMap (·.narrow? q)) := by
  induction same with
  | nil => exact .nil
  | @cons r s rest more first _ ih =>
    obtain ⟨π, name, rfl⟩ := first
    rw [List.filterMap_cons, List.filterMap_cons, narrow?_rename]
    cases r.narrow? q with
    | none => exact ih
    | some n => exact .cons ⟨π, name, rfl⟩ ih

namespace Frontier

variable {f : Frontier} {rules others : List Rule}

/-- The firings of rules by the rows of a frontier, repeated ones as often as they occur. -/
def attempts (f : Frontier) (rules : List Rule) : List Firing :=
  rules.flatMap fun r => (f.candidates r).filterMap r.fire?

theorem attempts_cons {r : Rule} :
    f.attempts (r :: rules) = (f.candidates r).filterMap r.fire? ++ f.attempts rules := by
  rw [attempts, List.flatMap_cons]
  rfl

/-- The same rows set off a renamed rule. -/
theorem filterMap_fire?_rename {π : Renaming} {name : String} {r : Rule} :
    (f.candidates (r.rename π name)).filterMap (r.rename π name).fire? =
      ((f.candidates r).filterMap r.fire?).map (Firing.rename π name) := by
  have candidates : f.candidates (r.rename π name) = f.candidates r := by
    rw [Frontier.candidates, Frontier.candidates, Rule.bodyPredicates?_rename]
  rw [candidates, List.map_filterMap]
  exact List.filterMap_congr fun row _ => Rule.fire?_rename row

/-- More than one premise is left to look up. -/
def several (firing : Firing) : Bool := firing.residual.length > 1

/-- The first attempt that stalls leaves as many premises under other names. -/
theorem find?_attempts (same : List.Forall₂ Rule.Renames rules others) :
    ((f.attempts others).find? several).map (fun firing => firing.residual.length) =
      ((f.attempts rules).find? several).map fun firing => firing.residual.length := by
  induction same with
  | nil => rfl
  | @cons r s rest more first _ ih =>
    obtain ⟨π, name, rfl⟩ := first
    have alike : several ∘ Firing.rename π name = several := by
      funext firing
      simp [several]
    rw [attempts_cons, attempts_cons, filterMap_fire?_rename, List.find?_append,
      List.find?_append, List.find?_map, alike, Option.map_or, Option.map_or, ih, Option.map_map]
    congr 2
    funext firing
    simp

/-- Firings with the same rule and mark are one, so nothing is missed by dropping repetitions. -/
theorem find?_firings : (f.firings rules).find? several = (f.attempts rules).find? several :=
  find?_distinctBy (fun a b same => by
    have rule : a.rule = b.rule := congrArg Prod.fst same
    have residual : a.residual = b.residual := by rw [Firing.residual, Firing.residual, rule]
    rw [several, several, residual]) _

end Frontier

namespace Setting

variable {mode : Mode} {rules others : List Rule} {S : Setting mode rules}
  {T : Setting mode others}

/-- What follows from a firing, read off the same rows, is the same under other names. -/
theorem conclude_rename (alike : T.answers = S.answers) {π : Renaming} {name : String}
    (firing : Firing) : T.conclude (firing.rename π name) = S.conclude firing := by
  have met : T.met (firing.rename π name) = S.met firing := by
    unfold Setting.met
    rw [Firing.residual_rename, alike]
    cases firing.residual with
    | nil => rfl
    | cons premise rest => simp
  rw [conclude, conclude, met, Firing.conclusions_rename]

theorem flatMap_conclude_attempts (alike : T.answers = S.answers) {f : Frontier}
    {l m : List Rule} (same : List.Forall₂ Rule.Renames l m) :
    (f.attempts m).flatMap T.conclude = (f.attempts l).flatMap S.conclude := by
  induction same with
  | nil => rfl
  | @cons r s rest more first _ ih =>
    obtain ⟨π, name, rfl⟩ := first
    rw [Frontier.attempts_cons, Frontier.attempts_cons, Frontier.filterMap_fire?_rename,
      List.flatMap_append, List.flatMap_append, ih, List.flatMap_map]
    simp only [conclude_rename alike]

/-- An answer takes in the same from a round under other names. -/
theorem absorb_concluded (alike : T.answers = S.answers)
    (same : List.Forall₂ Rule.Renames rules others) (f : Frontier) (a : Answer) :
    a.absorb (T.concluded f) = a.absorb (S.concluded f) := by
  have byKey : ∀ {l : List Rule} (U : Setting mode l) (x y : Firing),
      (x.rule, x.mark) = (y.rule, y.mark) → U.conclude x = U.conclude y := by
    intro l U x y key
    obtain ⟨rule, mark⟩ := Prod.mk.inj key
    simp only [conclude, Setting.met, Firing.conclusions, Firing.residual, rule, mark]
  calc a.absorb (T.concluded f)
    _ = a.absorb ((f.attempts others).flatMap T.conclude) :=
      Answer.absorb_flatMap_distinctBy (byKey T) a _
    _ = a.absorb ((f.attempts rules).flatMap S.conclude) := by
      rw [flatMap_conclude_attempts alike same]
    _ = a.absorb (S.concluded f) := (Answer.absorb_flatMap_distinctBy (byKey S) a _).symm

end Setting

/-- Two runs come to the same answer, or fail for a firing that leaves as many premises. -/
inductive Progress.Agree : Except EngineError (Progress × Nat) →
    Except EngineError (Progress × Nat) → Prop
  | answered {p q : Progress} {asked also : Nat} (same : p.answer = q.answer) :
      Agree (.ok (p, asked)) (.ok (q, also))
  | failed (label other : String) (remaining : Nat) :
      Agree (.error (.unsupportedBody label remaining)) (.error (.unsupportedBody other remaining))

namespace Setting

variable {b : Backend} {mode : Mode} {premises : ScopePair} {rules others : List Rule}
  {S : Setting mode rules} {T : Setting mode others}

theorem run_round_of_find? {f : Frontier} {firing : Firing}
    (h : (f.firings rules).find? Frontier.several = some firing) (asked : Nat) :
    (f.round b mode rules premises).run asked =
      .error (.unsupportedBody firing.rule.label firing.residual.length) := by
  have h : (f.firings rules).find? (fun firing => firing.residual.length > 1) = some firing := h
  simp only [Frontier.round, h]
  rfl

theorem not_stalls_of_find? {f : Frontier}
    (h : (f.firings rules).find? Frontier.several = none) : ¬ f.Stalls rules := by
  rintro ⟨firing, hfiring, more⟩
  exact List.find?_eq_none.mp h firing hfiring (decide_eq_true more)

/-- From answers and frontiers that are the same, a run under other names goes on alike. -/
theorem agree_saturate (alike : T.answers = S.answers)
    (answered : ∀ q, b.rows q premises = .ok (S.answers q))
    (same : List.Forall₂ Rule.Renames rules others) {p q : Progress} (answer : p.answer = q.answer)
    (frontier : p.frontier = q.frontier) (bound asked also : Nat) :
    Progress.Agree ((Progress.saturate b mode rules premises bound p).run asked)
      ((Progress.saturate b mode others premises bound q).run also) := by
  induction bound generalizing p q asked also with
  | zero => exact .answered answer
  | succ bound ih =>
    have idle : (p.frontier.isEmpty || rules.isEmpty) = (q.frontier.isEmpty || others.isEmpty) := by
      rw [frontier]
      cases same <;> rfl
    rw [Progress.saturate, Progress.saturate, ← idle]
    split
    · exact .answered answer
    · have stalls := Frontier.find?_attempts (f := p.frontier) same
      rw [← Frontier.find?_firings, ← Frontier.find?_firings, frontier] at stalls
      cases here : (q.frontier.firings rules).find? Frontier.several with
      | some firing =>
        rw [here, Option.map_some, Option.map_eq_some_iff] at stalls
        obtain ⟨other, there, length⟩ := stalls
        rw [Metered.run_bind_error (run_round_of_find? (frontier ▸ here) asked),
          Metered.run_bind_error (run_round_of_find? there also), length]
        exact .failed _ _ _
      | none =>
        rw [here, Option.map_none, Option.map_eq_none_iff] at stalls
        have answered' : ∀ q, b.rows q premises = .ok (T.answers q) := alike ▸ answered
        have easy : ¬ p.frontier.Stalls rules := frontier ▸ not_stalls_of_find? here
        rw [Metered.run_bind_ok (run_round answered easy asked),
          Metered.run_bind_ok (run_round answered' (not_stalls_of_find? stalls) also)]
        have absorbed : p.answer.absorb (S.concluded p.frontier) =
            q.answer.absorb (T.concluded q.frontier) := by
          rw [absorb_concluded alike same, answer, frontier]
        refine ih ?_ ?_ _ _
        · exact congrArg Absorbed.answer absorbed
        · exact congrArg Absorbed.frontier absorbed

end Setting

section Names

variable {rules others : List Rule}

/-- A run under other names may make as many rounds. -/
theorem roundBound_eq (b : Backend) (same : List.Forall₂ Rule.Renames rules others) :
    roundBound b others = roundBound b rules := by
  have patterns : others.foldr (fun r n => 3 * (r.body.length + r.head.length) + n) 0 =
      rules.foldr (fun r n => 3 * (r.body.length + r.head.length) + n) 0 := by
    induction same with
    | nil => rfl
    | @cons r s rest more first _ ih =>
      obtain ⟨π, name, rfl⟩ := first
      rw [List.foldr_cons, List.foldr_cons, ih]
      simp [Rule.rename]
  simp only [roundBound, termBound, patterns]

theorem Rule.renames_of_sameButForNames (same : List.Forall₂ Rule.SameButForNames rules others) :
    List.Forall₂ Rule.Renames rules others :=
  same.imp fun _ _ h => h.exists_renaming

theorem Rule.defect?_eq_none_iff {r : Rule} : r.defect? = none ↔ r.body ≠ [] ∧ r.head ≠ [] := by
  unfold Rule.defect?
  by_cases body : r.body = []
  · simp [body]
  · by_cases head : r.head = [] <;> simp [body, head]

/-- Rules of use are of use under other names. -/
theorem RuleSet.exists_ofList_of_renames (same : List.Forall₂ Rule.Renames rules others)
    (sound : ∀ r ∈ rules, r.defect? = none) :
    ∃ renamed, RuleSet.ofList others = .ok renamed ∧ renamed.rules = others := by
  have still : ∀ r ∈ others, r.defect? = none := by
    induction same with
    | nil => exact fun r hr => absurd hr List.not_mem_nil
    | @cons r s rest more first _ ih =>
      obtain ⟨π, name, rfl⟩ := first
      obtain ⟨useful, others⟩ := List.forall_mem_cons.mp sound
      refine List.forall_mem_cons.mpr ⟨?_, ih others⟩
      rw [Rule.defect?_eq_none_iff] at useful ⊢
      simpa [Rule.rename] using useful
  exact ⟨⟨others, still⟩, ofList_of_sound still, rfl⟩

end Names

/-- Names do not matter. If each rule is given another name and its variables are replaced by other
variables, no two of them by the same one, then the rules are of use as before. Inference over open
stores answers with the same rows in the same order, or fails as it did before over a rule that
leaves as many premises to look up. -/
theorem inference_ignores_names (b : Backend) (ho : b.OverOpenStores) (rules : RuleSet)
    (others : List Rule) (same : List.Forall₂ Rule.SameButForNames rules.rules others) (q : Query)
    (scopes : ScopePair) (mode : Mode) (hm : scopes.mode = .ok mode) :
    ∃ renamed, RuleSet.ofList others = .ok renamed ∧ renamed.rules = others ∧
      ((∃ inf inf', infer b rules q scopes = .ok inf ∧ infer b renamed q scopes = .ok inf' ∧
          inf'.rows = inf.rows) ∨
        ∃ label label' remaining,
          infer b rules q scopes = .error (.unsupportedBody label remaining) ∧
          infer b renamed q scopes = .error (.unsupportedBody label' remaining)) := by
  have renames := Rule.renames_of_sameButForNames same
  obtain ⟨renamed, accepted, listed⟩ := RuleSet.exists_ofList_of_renames renames rules.sound
  refine ⟨renamed, accepted, listed, ?_⟩
  have narrowed : List.Forall₂ Rule.Renames (rules.applicable q) (renamed.applicable q) := by
    rw [RuleSet.applicable, RuleSet.applicable, listed]
    exact Rule.renames_applicable renames q
  have searched : (b.search q scopes).run 0 = .ok (b.answers scopes q, 0 + b.width) :=
    Backend.run_search_of_open ho hm q 0
  have answered : ∀ q, b.rows q scopes.premises =
      .ok ((b.setting ho hm (rules.applicable q)).answers q) :=
    Backend.rows_eq_answers ho (ScopePair.mode_premises hm)
  have alike : (b.setting ho hm (renamed.applicable q)).answers =
      (b.setting ho hm (rules.applicable q)).answers := rfl
  have agree : Progress.Agree
      ((Progress.saturate b mode (rules.applicable q) scopes.premises
        (roundBound b (rules.applicable q)) (.start mode (b.answers scopes q))).run (0 + b.width))
      ((Progress.saturate b mode (renamed.applicable q) scopes.premises
        (roundBound b (rules.applicable q)) (.start mode (b.answers scopes q))).run (0 + b.width)) :=
    Setting.agree_saturate alike answered narrowed rfl rfl _ _ _
  rw [Infer.infer_eq hm, Infer.infer_eq hm, Metered.run_bind_ok searched,
    Metered.run_bind_ok searched, roundBound_eq b narrowed]
  generalize (Progress.saturate b mode (rules.applicable q) scopes.premises _ _).run _ = x at agree ⊢
  generalize (Progress.saturate b mode (renamed.applicable q) scopes.premises _ _).run _ = y
    at agree ⊢
  cases agree with
  | answered same => exact Or.inl ⟨_, _, rfl, rfl, congrArg Answer.rows same.symm⟩
  | failed label other remaining => exact Or.inr ⟨label, other, remaining, rfl, rfl⟩

namespace Sample

/-- The rule of the taxonomy, with the variables that stand for the open places of a query. -/
def respelled : Rule :=
  ⟨"sorts", [⟨⟨"?s"⟩, ⟨"is"⟩, ⟨"?p"⟩⟩, ⟨⟨"?p"⟩, ⟨"under"⟩, ⟨"?o"⟩⟩], [⟨⟨"?s"⟩, ⟨"is"⟩, ⟨"?o"⟩⟩]⟩

theorem sameButForNames_respelled :
    List.Forall₂ Rule.SameButForNames taxonomy.rules [respelled] := by
  let ρ (x : Term) : Term := if x = ⟨"?x"⟩ then ⟨"?s"⟩ else if x = ⟨"?c"⟩ then ⟨"?p"⟩ else ⟨"?o"⟩
  refine .cons ⟨ρ, "sorts", ⟨?_, ?_⟩, ?_⟩ .nil <;> decide

end Sample

/-- The pets are inferred to be what they are, even if the variables of the rule are those that
stand for the open places of the query. -/
theorem inference_of_pets_ignores_names :
    Sample.pets.OverOpenStores ∧
      List.Forall₂ Rule.SameButForNames Sample.taxonomy.rules [Sample.respelled] ∧
      ScopePair.mode ⟨.version 1, none⟩ = .ok .snapshot ∧
      ∃ renamed, RuleSet.ofList [Sample.respelled] = .ok renamed ∧
        ∃ inf, infer Sample.pets renamed .any ⟨.version 1, none⟩ = .ok inf ∧
          inf.rows = [⟨Sample.catsAreAnimals, .plain⟩, ⟨Sample.tomIsCat, .plain⟩,
            ⟨Sample.tomIsAnimal, .plain⟩] := by
  have ho : Sample.pets.OverOpenStores := Backend.overOpenStores_single rfl
  obtain ⟨renamed, accepted, -, outcome⟩ :=
    inference_ignores_names Sample.pets ho Sample.taxonomy [Sample.respelled]
      Sample.sameButForNames_respelled .any ⟨.version 1, none⟩ .snapshot rfl
  obtain ⟨inf, ok, rows⟩ := Sample.infer_pets
  refine ⟨ho, Sample.sameButForNames_respelled, rfl, renamed, accepted, ?_⟩
  rcases outcome with ⟨one, other, ok', also, same⟩ | ⟨label, label', remaining, failed, -⟩
  · obtain rfl := Except.ok.inj (ok.symm.trans ok')
    exact ⟨other, also, same.trans rows⟩
  · cases ok.symm.trans failed

end Annals
