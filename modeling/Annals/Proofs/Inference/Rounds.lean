import Annals.Proofs.Inference.Candidates
import Annals.Proofs.Inference.Universe

/-!
# What a round concludes

The index of a frontier hides no row that sets off a rule, and firings that come down to the same
rule and mark conclude the same. So a round concludes of a version what the rules yield there from
the rows of the frontier, and stops short only if a row leaves more than one premise to look up.
-/

namespace Annals

namespace Rule

theorem mem_instances {r : Rule} {b : Binding} {row : Triple} :
    row ∈ r.instances b ↔
      ∃ c ∈ r.head, (c.bind b).isGround = true ∧ row = ⟨c.bind b, b.mark⟩ := by
  simp only [instances, List.mem_filterMap, Pattern.instantiate?]
  refine exists_congr fun c => and_congr_right fun _ => ?_
  by_cases h : (c.bind b).isGround = true <;> simp [h, eq_comm]

end Rule

namespace Frontier

variable {f : Frontier} {rules : List Rule}

/-- A firing is a rule that a row of the frontier has set off. -/
theorem exists_row_of_mem_firings {firing : Firing} (h : firing ∈ f.firings rules) :
    ∃ r ∈ rules, ∃ row ∈ f.toList,
      r.setOffBy? row.fact = some firing.rule ∧ firing.mark = row.mark := by
  have mem := (distinctBy_sublist _ _).subset h
  obtain ⟨r, hr, mem⟩ := List.mem_flatMap.mp mem
  obtain ⟨row, hrow, hfire⟩ := List.mem_filterMap.mp mem
  obtain ⟨n, hn, rfl⟩ := Rule.fire?_eq_some_iff.mp hfire
  exact ⟨r, hr, row, (mem_candidates.mp hrow).1, hn, rfl⟩

/-- Whatever a row of the frontier sets off has a firing. -/
theorem exists_firing {r n : Rule} {row : Triple} (hr : r ∈ rules) (hrow : row ∈ f.toList)
    (hf : row.fact.isGround = true) (h : r.setOffBy? row.fact = some n) :
    ∃ firing ∈ f.firings rules, firing.rule = n ∧ firing.mark = row.mark := by
  obtain ⟨b, hb, -⟩ := Option.map_eq_some_iff.mp h
  have allowed : r.allows (⟨row.fact, .plain⟩ : Triple).fact.predicate = true :=
    Rule.allows_of_trigger? (Pattern.isGround_iff.mp hf .predicate) hb
  have candidate : row ∈ f.candidates r := mem_candidates.mpr ⟨hrow, allowed⟩
  have listed : (⟨r, n, row.mark⟩ : Firing) ∈
      rules.flatMap fun r => (f.candidates r).filterMap r.fire? :=
    List.mem_flatMap.mpr ⟨r, hr, List.mem_filterMap.mpr
      ⟨row, candidate, Rule.fire?_eq_some_iff.mpr ⟨n, h, rfl⟩⟩⟩
  have key : (n, row.mark) ∈ (f.firings rules).map fun firing => (firing.rule, firing.mark) :=
    mem_map_distinctBy.mpr (List.mem_map.mpr ⟨_, listed, rfl⟩)
  obtain ⟨firing, hfiring, he⟩ := List.mem_map.mp key
  exact ⟨firing, hfiring, congrArg Prod.fst he, congrArg Prod.snd he⟩

/-- Some row of the frontier leaves more than one premise of a rule to look up. -/
def Stalls (f : Frontier) (rules : List Rule) : Prop :=
  ∃ firing ∈ f.firings rules, 1 < firing.residual.length

end Frontier

/-- What a run of inference reads: the rows that premises are looked up in, all of which fit into a
universe that has the constants of the conclusions too. -/
structure Setting (mode : Mode) (rules : List Rule) extends Universe where
  answers : Query → List Triple
  fitting : ∀ q, ∀ row ∈ answers q, toUniverse.Admits mode row
  heads : ∀ r ∈ rules, ∀ c ∈ r.head, ∀ i, (c.get i).isVariable = false → c.get i ∈ terms

namespace Setting

variable {mode : Mode} {rules : List Rule} (S : Setting mode rules)

/-- The facts that hold at a version among those found for a query. -/
def foundAt (v : Version) (q : Query) (f : Fact) : Prop := Attests (S.answers q) v f

/-- The rows that meet the premise that a firing leaves, if it leaves one. -/
def met (firing : Firing) : List Triple :=
  match firing.residual with
  | [] => []
  | premise :: _ => S.answers (.ofPattern premise)

/-- What follows from a firing. -/
def conclude (firing : Firing) : List Triple := firing.conclusions mode (S.met firing)

/-- What follows from the firings of a frontier. -/
def concluded (f : Frontier) : List Triple := (f.firings rules).flatMap S.conclude

variable {S}

/-- A conclusion from a firing holds where the row holds and, if a premise is left, where a row that
meets it does. -/
theorem mem_conclude {firing : Firing} {row : Triple} (hm : firing.mark.Suits mode S.versions)
    (h : row ∈ S.conclude firing) :
    row.mark.Suits mode S.versions ∧ row.fact.isGround = true ∧
      ∃ c ∈ firing.rule.head,
        (firing.residual = [] ∧ row.fact = c ∧
          ∀ v, row.mark.HoldsAt v ↔ firing.mark.HoldsAt v) ∨
        ∃ premise rest hit b, firing.residual = premise :: rest ∧
          hit ∈ S.answers (.ofPattern premise) ∧ premise.match? hit.fact = some b ∧
          row.fact = c.bind b ∧
          ∀ v, row.mark.HoldsAt v ↔ firing.mark.HoldsAt v ∧ hit.mark.HoldsAt v := by
  unfold conclude Firing.conclusions met at h
  cases hres : firing.residual with
  | nil =>
    obtain ⟨n, hn, suits, holds⟩ := Mark.commonMark?_of_settled hm
    simp only [hres, hn, Option.toList_some, List.flatMap_singleton, Rule.mem_instances,
      Pattern.bind_withMark, Pattern.bind_empty, Binding.mark_withMark] at h
    obtain ⟨c, hc, ground, rfl⟩ := h
    exact ⟨suits, ground, c, hc, Or.inl ⟨rfl, rfl, holds⟩⟩
  | cons premise rest =>
    simp only [hres, List.mem_flatMap] at h
    obtain ⟨hit, hhit, h⟩ := h
    split at h
    · next b m hb hmark =>
      obtain ⟨c0, hc0, rfl⟩ := Option.map_eq_some_iff.mp hb
      obtain ⟨suits, holds⟩ := Mark.commonMark?_some hm (S.fitting _ _ hhit).2 hmark
      obtain ⟨c, hc, ground, rfl⟩ := Rule.mem_instances.mp h
      exact ⟨suits, ground, c, hc, Or.inr ⟨premise, rest, hit, c0, rfl, hhit, hc0, rfl, holds⟩⟩
    · cases h

/-- What follows from a firing holds at a version if the row does and the narrowed rule concludes it
from what is found there. -/
theorem attests_conclude {firing : Firing} {v : Version} {g : Fact}
    (hm : firing.mark.Suits mode S.versions) (single : firing.residual.length ≤ 1) :
    Attests (S.conclude firing) v g ↔
      firing.mark.HoldsAt v ∧ firing.rule.Concludes (S.foundAt v) g := by
  constructor
  · rintro ⟨row, hrow, rfl, hv⟩
    obtain ⟨-, ground, c, hc, found⟩ := mem_conclude hm hrow
    rcases found with ⟨settled, he, holds⟩ | ⟨premise, rest, hit, b, left, hhit, hb, he, holds⟩
    · rw [he] at ground ⊢
      exact ⟨(holds v).mp hv, .atOnce settled hc ground⟩
    · obtain rfl : rest = [] := by simpa [left] using single
      rw [he] at ground ⊢
      exact ⟨((holds v).mp hv).1,
        .onHit left ⟨hit, hhit, rfl, ((holds v).mp hv).2⟩ hb hc ground⟩
  · rintro ⟨hv, hc⟩
    cases hc with
    | atOnce settled mem ground =>
      obtain ⟨n, hn, -, holds⟩ := Mark.commonMark?_of_settled hm
      refine ⟨⟨g, n⟩, ?_, rfl, (holds v).mpr hv⟩
      have settled : firing.residual = [] := settled
      simp only [conclude, Firing.conclusions, settled, hn, Option.toList_some,
        List.flatMap_singleton, Rule.mem_instances]
      exact ⟨g, mem, by simpa using ground, by simp⟩
    | @onHit premise c f b left hit matched mem ground =>
      obtain ⟨row, hrow, rfl, hw⟩ := hit
      have suits := (S.fitting _ _ hrow).2
      have left : firing.residual = [premise] := left
      cases hmark : mode.commonMark? firing.mark (some row.mark) with
      | none => exact absurd ⟨hv, hw⟩ (Mark.commonMark?_none hm suits hmark v)
      | some n =>
        have holds := (Mark.commonMark?_some hm suits hmark).2 v
        refine ⟨⟨c.bind b, n⟩, ?_, rfl, holds.mpr ⟨hv, hw⟩⟩
        simp only [conclude, Firing.conclusions, met, left, List.mem_flatMap]
        refine ⟨row, hrow, ?_⟩
        simp only [Pattern.matchRow?, matched, Option.map_some, hmark]
        exact Rule.mem_instances.mpr ⟨c, mem, by simpa using ground, by simp⟩

/-- The constants in the conclusions of a rule that a fact has narrowed belong to the universe. -/
theorem get_mem_terms_of_setOffBy? {r n : Rule} {f : Fact} (hr : r ∈ rules) (hf : f ∈ S.facts)
    (h : r.setOffBy? f = some n) {c : Pattern} (hc : c ∈ n.head) {i : Position}
    (constant : (c.get i).isVariable = false) : c.get i ∈ S.terms := by
  obtain ⟨b, hb, rfl⟩ := Option.map_eq_some_iff.mp h
  obtain ⟨d, hd, rfl⟩ := List.mem_map.mp hc
  rw [Pattern.get_bind] at constant ⊢
  rcases Binding.resolve_eq_constant constant rfl with he | ⟨-, value⟩
  · rw [← he] at constant ⊢
    exact S.heads r hr d hd i constant
  · obtain ⟨premise, -, m, hm, hx⟩ := (Rule.get?_trigger? hb).mp value
    obtain ⟨j, -, hj, -, -⟩ := (Pattern.get?_match? hm).mp hx
    rw [← hj]
    exact Universe.mem_facts.mp hf j

section Round

variable {f : Frontier} (fits : ∀ row ∈ f.toList, S.Admits mode row)

include fits

/-- What a round concludes fits into the universe. -/
theorem admits_concluded : ∀ row ∈ S.concluded f, S.Admits mode row := by
  intro row hrow
  obtain ⟨firing, hfiring, hrow⟩ := List.mem_flatMap.mp hrow
  obtain ⟨r, hr, origin, horigin, hn, hmark⟩ := Frontier.exists_row_of_mem_firings hfiring
  obtain ⟨hfact, hsuits⟩ := fits origin horigin
  obtain ⟨suits, ground, c, hc, found⟩ := mem_conclude (hmark ▸ hsuits) hrow
  refine ⟨Universe.mem_facts.mpr fun i => ?_, suits⟩
  have constant := Pattern.isGround_iff.mp ground i
  rcases found with ⟨-, he, -⟩ | ⟨premise, rest, hit, b, -, hhit, hb, he, -⟩
  · rw [he] at constant ⊢
    exact get_mem_terms_of_setOffBy? hr hfact hn hc constant
  · rw [he, Pattern.get_bind] at constant ⊢
    rcases Binding.resolve_eq_constant constant rfl with same | ⟨-, value⟩
    · rw [← same] at constant ⊢
      exact get_mem_terms_of_setOffBy? hr hfact hn hc constant
    · obtain ⟨j, -, hj, -, -⟩ := (Pattern.get?_match? hb).mp value
      rw [← hj]
      exact Universe.mem_facts.mp (S.fitting _ _ hhit).1 j

/-- A round stalls on a frontier if and only if one of its rows stalls a rule. -/
theorem stalls_iff :
    f.Stalls rules ↔ ∃ row ∈ f.toList, ∃ r ∈ rules, r.StalledBy row.fact := by
  constructor
  · rintro ⟨firing, hfiring, several⟩
    obtain ⟨r, hr, row, hrow, hn, -⟩ := Frontier.exists_row_of_mem_firings hfiring
    exact ⟨row, hrow, r, hr, firing.rule, hn, several⟩
  · rintro ⟨row, hrow, r, hr, n, hn, several⟩
    obtain ⟨firing, hfiring, rfl, -⟩ := Frontier.exists_firing hr hrow
      (Universe.isGround_of_mem_facts (fits row hrow).1) hn
    exact ⟨firing, hfiring, several⟩

/-- A round concludes of a version what the rules yield there from the rows of its frontier. -/
theorem attests_concluded (easy : ¬ f.Stalls rules) {v : Version} {g : Fact} :
    Attests (S.concluded f) v g ↔
      ∃ h, Attests f.toList v h ∧ ∃ r ∈ rules, r.Yields (S.foundAt v) h g := by
  have single : ∀ firing ∈ f.firings rules, firing.residual.length ≤ 1 := fun firing h =>
    Nat.le_of_not_lt fun several => easy ⟨firing, h, several⟩
  constructor
  · rintro ⟨row, hrow, rfl, hv⟩
    obtain ⟨firing, hfiring, hrow⟩ := List.mem_flatMap.mp hrow
    obtain ⟨r, hr, origin, horigin, hn, hmark⟩ := Frontier.exists_row_of_mem_firings hfiring
    have hm : firing.mark.Suits mode S.versions := hmark ▸ (fits origin horigin).2
    obtain ⟨holds, concludes⟩ :=
      (attests_conclude hm (single firing hfiring)).mp ⟨row, hrow, rfl, hv⟩
    exact ⟨origin.fact, ⟨origin, horigin, rfl, hmark ▸ holds⟩, r, hr, firing.rule, hn, concludes⟩
  · rintro ⟨-, ⟨origin, horigin, rfl, hv⟩, r, hr, n, hn, concludes⟩
    obtain ⟨hfact, hsuits⟩ := fits origin horigin
    obtain ⟨firing, hfiring, rfl, hmark⟩ := Frontier.exists_firing hr horigin
      (Universe.isGround_of_mem_facts hfact) hn
    obtain ⟨row, hrow, he, holds⟩ :=
      (attests_conclude (hmark ▸ hsuits) (single firing hfiring)).mpr ⟨hmark ▸ hv, concludes⟩
    exact ⟨row, List.mem_flatMap.mpr ⟨firing, hfiring, hrow⟩, he, holds⟩

end Round

section Run

variable {b : Backend} {premises : ScopePair}
  (answered : ∀ q, b.rows q premises = .ok (S.answers q))

include answered

/-- A firing asks the stores once if it leaves a premise to look up. -/
theorem run_firing (firing : Firing) (asked : Nat) :
    (firing.run b mode premises).run asked =
      .ok (S.conclude firing, asked + if firing.residual = [] then 0 else b.width) := by
  unfold Firing.run conclude met
  cases h : firing.residual with
  | nil => rfl
  | cons premise rest =>
    have found : (b.search (.ofPattern premise) premises).run asked =
        .ok (S.answers (.ofPattern premise), asked + b.width) := by
      rw [Backend.run_search, answered]
      rfl
    simp only [Metered.run_bind_ok found, Metered.run_pure, reduceCtorEq, if_false]

/-- A round that does not stall succeeds. -/
theorem run_round {f : Frontier} (easy : ¬ f.Stalls rules) (asked : Nat) :
    (f.round b mode rules premises).run asked =
      .ok ((f.firings rules, S.concluded f), asked + (f.firings rules).foldr
        (fun firing n => (if firing.residual = [] then 0 else b.width) + n) 0) := by
  have none_found : (f.firings rules).find? (fun firing => firing.residual.length > 1) = none := by
    refine List.find?_eq_none.mpr fun firing h several => easy ⟨firing, h, ?_⟩
    simpa using several
  have all := Metered.run_mapM
    (fun firing (_ : firing ∈ f.firings rules) => run_firing answered firing) asked
  simp only [Frontier.round, none_found, Metered.run_bind_ok all, Metered.run_pure, concluded,
    List.flatMap]

omit answered in
/-- A round that stalls reports a firing that leaves several premises. -/
theorem run_round_of_stalls {f : Frontier} (stalls : f.Stalls rules) (asked : Nat) :
    ∃ label remaining, (f.round b mode rules premises).run asked =
      .error (.unsupportedBody label remaining) := by
  obtain ⟨firing, hfiring, several⟩ := stalls
  obtain ⟨first, hfirst⟩ := Option.isSome_iff_exists.mp
    (List.find?_isSome (p := fun firing : Firing => firing.residual.length > 1)
      |>.mpr ⟨firing, hfiring, by simpa using several⟩)
  exact ⟨first.rule.label, first.residual.length, by simp only [Frontier.round, hfirst]; rfl⟩

end Run

end Setting

end Annals
