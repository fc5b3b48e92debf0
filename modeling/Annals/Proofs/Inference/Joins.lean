import Annals.Proofs.Inference.Instances
import Annals.Proofs.Inference.Snapshot

/-!
# Rules of two premises

A fact that sets off a rule meets one of its premises, so a rule of two premises has one to look up
at the most, and inference with such rules always answers. If only the second premise is met, the
first one is looked up, and the rule concludes for each instance of both.
-/

namespace Annals

namespace Rule

variable {r : Rule} {found : Query → Fact → Prop} {f : Fact}

/-- A ground fact does not stall a rule of two premises. -/
theorem not_stalledBy_of_length_le (short : r.body.length ≤ 2) (ground : f.isGround = true) :
    ¬ r.StalledBy f := by
  rintro ⟨n, hn, several⟩
  obtain ⟨b, hb, rfl⟩ := Option.map_eq_some_iff.mp hn
  obtain ⟨p, hp, c, matched⟩ := exists_premise_of_trigger? hb
  have met : f ∈ (r.bind b).body :=
    List.mem_map.mpr ⟨p, hp, bind_of_trigger? hb ground hp matched⟩
  have fewer : (r.bind b).openPremises.length < (r.bind b).body.length := by
    apply List.length_filter_lt_length_iff_exists.mpr
    exact ⟨f, met, by simp [ground]⟩
  have same : (r.bind b).body.length = r.body.length := List.length_map _
  omega

variable {first second c : Pattern} {σ : Assignment}

/-- If the second premise alone matches a fact, that fact gives values to its variables only. -/
theorem exists_setOffBy? (body : r.body = [first, second])
    (alone : first.match? (second.under σ) = none) :
    ∃ d : Binding, d.Gives second σ ∧ r.setOffBy? (second.under σ) = some (r.bind d) := by
  obtain ⟨a, ha⟩ := second.exists_match?_under σ
  have gives := Binding.gives_of_match? ha
  have within : ∀ b ∈ [a], b.Within σ.apply := by
    intro b hb
    obtain rfl := List.mem_singleton.mp hb
    exact gives.within
  obtain ⟨d, hd⟩ := Binding.exists_merge? within
  refine ⟨d, ?_, ?_⟩
  · intro x v
    rw [Binding.get?_merge? hd, ← gives x v]
    simp
  · rw [setOffBy?, trigger?, body]
    simp [alone, ha, hd]

/-- Once both premises are met no variable is left in a conclusion that has no other variables. -/
theorem isGround_bind_bind {d e : Binding} (hd : d.Gives second σ) (he : e.Gives (first.bind d) σ)
    (safe : ∀ i, (c.get i).isVariable = true →
      (∃ j, first.get j = c.get i) ∨ ∃ j, second.get j = c.get i) :
    ((c.bind d).bind e).isGround = true := by
  apply Pattern.isGround_iff.mpr
  intro i
  rw [Pattern.get_bind, Pattern.get_bind]
  cases var : (c.get i).isVariable with
  | false => rw [Binding.resolve_constant var, Binding.resolve_constant var, var]
  | true =>
    by_cases shared : ∃ j, second.get j = c.get i
    · have constant := σ.isVariable_apply (c.get i)
      rw [hd.resolve_mem var shared, Binding.resolve_constant constant, constant]
    · obtain ⟨j, same⟩ := (safe i var).resolve_right shared
      have kept : d.resolve (c.get i) = c.get i := hd.resolve_not_mem shared
      have mem : (first.bind d).get j = c.get i := by rw [Pattern.get_bind, same, kept]
      rw [kept, he.resolve_mem var ⟨j, mem⟩, σ.isVariable_apply]

section Join

variable (body : r.body = [first, second])
  (own : ∃ i, (first.get i).isVariable = true ∧ ∀ j, second.get j ≠ first.get i)

include own

/-- A variable of its own is left in the first premise when the second one is met. -/
theorem isGround_bind_eq_false {d : Binding} (hd : d.Gives second σ) :
    (first.bind d).isGround = false := by
  obtain ⟨i, var, unshared⟩ := own
  apply Bool.eq_false_iff.mpr
  intro ground
  have constant := Pattern.isGround_iff.mp ground i
  rw [Pattern.get_bind, hd.resolve_not_mem fun ⟨j, same⟩ => unshared j same, var] at constant
  cases constant

include body

/-- A rule whose second premise alone matches a fact concludes, for each instance of the first one
that is found, the instance of its conclusion. -/
theorem yields_under
    (safe : ∀ i, (c.get i).isVariable = true →
      (∃ j, first.get j = c.get i) ∨ ∃ j, second.get j = c.get i)
    (hc : c ∈ r.head) (alone : first.match? (second.under σ) = none)
    (hit : ∀ query : Query, query.admits (first.under σ) = true → found query (first.under σ)) :
    r.Yields found (second.under σ) (c.under σ) := by
  obtain ⟨d, hd, setOff⟩ := exists_setOffBy? body alone
  have left : (r.bind d).openPremises = [first.bind d] := by
    simp [openPremises, bind, body, hd.isGround_bind, isGround_bind_eq_false own hd]
  -- the premise that is left has the same instance as before
  have same : (first.bind d).under σ = first.under σ := Pattern.under_bind hd.within
  obtain ⟨e, matched⟩ := (first.bind d).exists_match?_under σ
  have he := Binding.gives_of_match? matched
  have ground := isGround_bind_bind hd he safe
  have concluded : (c.bind d).bind e = c.under σ := by
    rw [Pattern.bind_eq_under he.within ground, Pattern.under_bind hd.within]
  have admitted : (Query.ofPattern (first.bind d)).admits (first.under σ) = true := by
    rw [← same]
    exact Pattern.admits_under
  rw [same] at matched
  refine ⟨r.bind d, setOff, ?_⟩
  rw [← concluded]
  exact .onHit left (hit _ admitted) matched (List.mem_map_of_mem hc) ground

/-- What such a rule concludes is an instance of a conclusion, from the same instance of the second
premise and an instance of the first one that is found. -/
theorem exists_under_of_yields (alone : first.match? (second.under σ) = none)
    (stored : ∀ q f, found q f → f.isGround = true) {g : Fact}
    (h : r.Yields found (second.under σ) g) :
    ∃ τ : Assignment, second.under τ = second.under σ ∧ (∃ query, found query (first.under τ)) ∧
      ∃ c ∈ r.head, c.under τ = g := by
  obtain ⟨d, hd, setOff⟩ := exists_setOffBy? body alone
  obtain ⟨n, hn, concludes⟩ := h
  obtain rfl := Option.some.inj (setOff.symm.trans hn)
  obtain ⟨e, -, -, ⟨narrowed, mem, same⟩, ground, premises⟩ := concludes.exists_binding stored
  obtain ⟨c, hc, rfl⟩ := List.mem_map.mp mem
  have lookedUp : first.bind d ∈ (r.bind d).body :=
    List.mem_map_of_mem (body ▸ List.mem_cons_self)
  have met : second.bind d = second.under σ := Pattern.bind_eq_under hd.within hd.isGround_bind
  -- variables get their values from the fact first, and then from what is found
  let τ := (Assignment.blank.after e).after d
  have instances : ∀ p : Pattern, p.under τ = ((p.bind d).bind e).under .blank := by
    intro p
    rw [Pattern.under_after, Pattern.under_after]
  rcases premises _ lookedUp with settled | ⟨query, hit⟩
  · cases (isGround_bind_eq_false own hd).symm.trans settled
  · refine ⟨τ, ?_, ⟨query, ?_⟩, c, hc, ?_⟩
    · rw [instances, met, Pattern.bind_of_isGround Pattern.isGround_under,
        Pattern.under_of_isGround Pattern.isGround_under]
    · rwa [instances, Pattern.under_of_isGround (stored _ _ hit)]
    · rw [instances, same, Pattern.under_of_isGround ground]

end Join

/-- Where every premise has a variable of its own, a rule concludes from instances of its premises
that were found or are the fact itself. -/
theorem exists_instances_of_yields {n : Rule} {q : Query} {t g : Fact}
    (narrowed : r.narrow? q = some n) (constants : ∀ i v, q.get i = some v → v.isVariable = false)
    (own : ∀ p ∈ r.body, r.Owns q p) (ground : t.isGround = true)
    (stored : ∀ q f, found q f → f.isGround = true) (h : n.Yields found t g) :
    ∃ σ : Assignment, (∃ c ∈ r.head, c.under σ = g) ∧
      ∀ p ∈ r.body, p.under σ = t ∨ ∃ query, found query (p.under σ) := by
  obtain ⟨σ, -, ⟨c, hc, -, conclusion⟩, premises⟩ :=
    exists_setsOff_of_yields narrowed constants ground stored h
  refine ⟨σ, ⟨c, hc, conclusion⟩, ?_⟩
  intro p hp
  exact (premises p hp).imp_left fun settled => settled.under_eq (own p hp)

end Rule

/-- Over open stores inference with rules of two premises at the most always answers. -/
theorem Infer.exists_ok_of_length_le {b : Backend} (ho : b.OverOpenStores) {scopes : ScopePair}
    {mode : Mode} (hm : scopes.mode = .ok mode) {rules : RuleSet}
    (short : ∀ r ∈ rules.rules, r.body.length ≤ 2) (q : Query) :
    ∃ inf, infer b rules q scopes = .ok inf := by
  rw [Infer.answers_iff ho hm]
  rintro ⟨v, f, derived, n, hn, stalled⟩
  obtain ⟨r, hr, narrowed⟩ := List.mem_filterMap.mp hn
  obtain ⟨d, rfl, -⟩ := Rule.exists_binding_of_narrow? narrowed
  have same : (r.bind d).body.length = r.body.length := List.length_map _
  have ground : f.isGround = true := by
    apply derived.isGround
    rintro g ⟨row, hrow, rfl, -⟩
    exact (Backend.stored_of_mem_rows ho hm (Backend.rows_eq_answers ho hm q) hrow).1
  exact Rule.not_stalledBy_of_length_le (same ▸ short r hr) ground stalled

/-- At a version of an open store such an inference lists what is derivable, each fact once. -/
theorem Infer.exists_listing_of_length_le {s : Store} (isOpen : s.closed = false) {rules : RuleSet}
    (short : ∀ r ∈ rules.rules, r.body.length ≤ 2) (q : Query) (v : Version) :
    ∃ inf, infer (.single (.store s)) rules q ⟨.version v, none⟩ = .ok inf ∧ inf.rows.Nodup ∧
      ∀ row, row ∈ inf.rows ↔
        row.mark = .plain ∧ Derives (.single (.store s)) rules q ⟨.version v, none⟩ row.fact := by
  have ho : (Backend.single (.store s)).OverOpenStores := Backend.overOpenStores_single isOpen
  have mode : ScopePair.mode ⟨.version v, none⟩ = .ok .snapshot := rfl
  obtain ⟨inf, ok⟩ := Infer.exists_ok_of_length_le ho mode short q
  obtain ⟨nodup, listed, -⟩ := Infer.rows_of_ok ho mode ok
  exact ⟨inf, ok, nodup, listed⟩

end Annals
