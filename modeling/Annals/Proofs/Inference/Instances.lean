import Annals.Proofs.Narrowing

/-!
# Instances that facts set off

What a rule concludes once a fact has set it off can be told from its instances, without bindings.
The query and the fact give values to variables of the rule, the same ones in every instance that is
set off. A premise that has no other variables is settled and is not looked up, whether its instance
holds or not. The others are, and a conclusion counts if all of its variables have got a value.
-/

namespace Annals

namespace Rule

/-- The query gives a value to the variable: it names a term at a place where some conclusion has the
variable. -/
def Fixes (r : Rule) (q : Query) (x : Term) : Prop :=
  ∃ c ∈ r.head, ∃ i, c.get i = x ∧ (q.get i).isSome = true

/-- The fact gives a value to the variable: it is the instance of a premise that has the variable. -/
def Meets (r : Rule) (σ : Assignment) (t : Fact) (x : Term) : Prop :=
  ∃ p ∈ r.body, p.under σ = t ∧ ∃ i, p.get i = x

/-- The query and the fact give values to all variables of the premise. -/
def Settles (r : Rule) (q : Query) (σ : Assignment) (t : Fact) (p : Pattern) : Prop :=
  p.VariablesIn fun x => r.Fixes q x ∨ r.Meets σ t x

/-- The query and the premises give values to all variables of the conclusion. -/
def Supplies (r : Rule) (q : Query) (c : Pattern) : Prop :=
  c.VariablesIn fun x => r.Fixes q x ∨ ∃ p ∈ r.body, ∃ i, p.get i = x

/-- The fact sets off the instance of the rule: all conclusions answer the query, and the fact is the
instance of a premise. It also is the instance of every premise that it can be the instance of in
any instance of the rule whose conclusions answer the query. -/
structure SetsOff (r : Rule) (q : Query) (σ : Assignment) (t : Fact) : Prop where
  answers : (r.under σ).Answers q
  met : ∃ p ∈ r.body, p.under σ = t
  all : ∀ p ∈ r.body, ∀ τ, (r.under τ).Answers q → p.under τ = t → p.under σ = t

/-- The premise has a variable of its own: the query does not fix it, and no other premise has it. -/
def Owns (r : Rule) (q : Query) (p : Pattern) : Prop :=
  ∃ i, (p.get i).isVariable = true ∧ ¬ r.Fixes q (p.get i) ∧
    ∀ other ∈ r.body, ∀ j, other.get j = p.get i → other = p

/-- If a query fixes nothing, a variable is a premise's own that no other premise has. -/
theorem owns_any {r : Rule} {p : Pattern} {x : Term} (var : x.isVariable = true) (mem : x ∈ p.terms)
    (alone : ∀ other ∈ r.body, x ∈ other.terms → other = p) : r.Owns .any p := by
  obtain ⟨i, rfl⟩ := Pattern.exists_get_of_mem_terms mem
  refine ⟨i, var, ?_, fun other hother j same => ?_⟩
  · rintro ⟨-, -, j, -, named⟩
    cases j <;> cases named
  · exact alone other hother (same ▸ Pattern.get_mem_terms other j)

/-- A premise with a variable of its own is settled only if the fact is its instance. -/
theorem Settles.under_eq {r : Rule} {q : Query} {σ : Assignment} {t : Fact} {p : Pattern}
    (h : r.Settles q σ t p) (own : r.Owns q p) : p.under σ = t := by
  obtain ⟨i, var, unfixed, alone⟩ := own
  obtain ⟨other, hother, met, j, same⟩ := (h i var).resolve_left unfixed
  obtain rfl := alone other hother j same
  exact met

theorem isGround_or_open {n : Rule} {p : Pattern} (hp : p ∈ n.body) :
    p.isGround = true ∨ p ∈ n.openPremises := by
  cases ground : p.isGround with
  | true => exact Or.inl rfl
  | false => exact Or.inr (List.mem_filter.mpr ⟨hp, by simp [ground]⟩)

/-- A narrowed rule concludes an instance of one of its conclusions, under a binding of variables of
its premises, under which every premise is ground or a fact that was found. -/
theorem Concludes.exists_binding {n : Rule} {found : Query → Fact → Prop} {g : Fact}
    (h : n.Concludes found g) (stored : ∀ q f, found q f → f.isGround = true) :
    ∃ b : Binding, b.OfConstants ∧ (∀ x, b.Binds x → ∃ p ∈ n.body, ∃ i, p.get i = x) ∧
      (∃ c ∈ n.head, c.bind b = g) ∧ g.isGround = true ∧
      ∀ p ∈ n.body, p.isGround = true ∨ ∃ q, found q (p.bind b) := by
  cases h with
  | atOnce settled mem ground =>
    refine ⟨.empty, Binding.ofConstants_empty, nofun, ⟨g, mem, Pattern.bind_empty g⟩, ground,
      fun p hp => Or.inl ?_⟩
    exact (isGround_or_open hp).resolve_right fun h => List.not_mem_nil (settled ▸ h)
  | @onHit premise c f b left hit matched mem ground =>
    have listed : premise ∈ n.openPremises := left ▸ List.mem_cons_self
    refine ⟨b, Pattern.ofConstants_match? matched, ?_, ⟨c, mem, rfl⟩, ground,
      fun p hp => (isGround_or_open hp).imp_right fun h => ?_⟩
    · rintro x ⟨v, value⟩
      obtain ⟨i, same, -⟩ := (Pattern.get?_match? matched).mp value
      exact ⟨premise, (List.mem_filter.mp listed).1, i, same⟩
    · obtain rfl : p = premise := List.mem_singleton.mp (left ▸ h)
      have same : p.bind b = f := Pattern.bind_eq_of_match? matched (stored _ f hit)
      exact ⟨_, same.symm ▸ hit⟩

/-- A narrowed rule with one premise to look up at the most, whose instance is found, concludes what
its conclusions become under a binding that makes all premises ground. -/
theorem exists_binding_of_found {n : Rule} {found : Query → Fact → Prop} {σ : Assignment}
    (few : n.openPremises.length ≤ 1)
    (hit : ∀ p ∈ n.openPremises, ∀ query : Query, query.admits (p.under σ) = true →
      found query (p.under σ)) :
    ∃ b : Binding, b.OfConstants ∧ b.Within σ.apply ∧ (∀ p ∈ n.body, (p.bind b).isGround = true) ∧
      ∀ c ∈ n.head, (c.bind b).isGround = true → n.Concludes found (c.bind b) := by
  cases left : n.openPremises with
  | nil =>
    refine ⟨.empty, Binding.ofConstants_empty, nofun, fun p hp => ?_, fun c hc ground => ?_⟩
    · rw [Pattern.bind_empty]
      exact (isGround_or_open hp).resolve_right fun h => List.not_mem_nil (left ▸ h)
    · rw [Pattern.bind_empty] at ground ⊢
      exact .atOnce left hc ground
  | cons premise rest =>
    obtain rfl : rest = [] := by
      rw [left, List.length_cons] at few
      exact List.eq_nil_of_length_eq_zero (by omega)
    obtain ⟨b, matched⟩ := premise.exists_match?_under σ
    have gives := Binding.gives_of_match? matched
    refine ⟨b, Pattern.ofConstants_match? matched, gives.within, fun p hp => ?_, fun c hc ground =>
      .onHit left (hit premise (left ▸ List.mem_cons_self) _ Pattern.admits_under) matched hc ground⟩
    rcases isGround_or_open hp with ground | listed
    · rwa [Pattern.bind_of_isGround ground]
    · obtain rfl : p = premise := List.mem_singleton.mp (left ▸ listed)
      exact gives.isGround_bind

variable {r n : Rule} {q : Query} {b d : Binding} {σ τ : Assignment} {p : Pattern} {t g : Fact}
  {x : Term}

section Narrowed

variable (values : r.NarrowedBy q b)

include values

theorem NarrowedBy.fixes (bound : b.Binds x) : r.Fixes q x := by
  obtain ⟨v, value⟩ := bound
  obtain ⟨c, hc, i, same, fixed, -⟩ := (values x v).mp value
  exact ⟨c, hc, i, same, by rw [fixed]; rfl⟩

/-- In an instance that answers the query, what the query names is a constant. -/
theorem NarrowedBy.binds (answers : (r.under σ).Answers q) (var : x.isVariable = true)
    (fixed : r.Fixes q x) : b.Binds x := by
  obtain ⟨c, hc, i, same, named⟩ := fixed
  obtain ⟨v, hv⟩ := Option.isSome_iff_exists.mp named
  have shown : (c.under σ).get i = v :=
    Query.admits_iff.mp (answers_under_iff.mp answers c hc) i v hv
  have constant : v.isVariable = false := shown ▸ Pattern.isGround_iff.mp Pattern.isGround_under i
  exact ⟨v, (values x v).mpr ⟨c, hc, i, same, hv, var, constant⟩⟩

/-- A premise of the narrowed rule matches a fact if and only if that is its instance in some
instance of the rule that answers the query. -/
theorem exists_match?_bind_iff (narrowed : r.narrow? q = some (r.bind b))
    (constants : ∀ i v, q.get i = some v → v.isVariable = false) (ground : t.isGround = true) :
    (∃ a, (p.bind b).match? t = some a) ↔ ∃ τ, (r.under τ).Answers q ∧ p.under τ = t := by
  rw [Pattern.exists_match?_iff ground]
  constructor
  · rintro ⟨τ, same⟩
    refine ⟨τ.after b, ?_, by rw [Pattern.under_after, same]⟩
    rw [under_after]
    exact answers_of_narrow? narrowed constants
  · rintro ⟨τ, answers, same⟩
    exact ⟨τ, by rw [Pattern.under_bind (values.within answers), same]⟩

end Narrowed

theorem SetsOff.isGround (h : r.SetsOff q σ t) : t.isGround = true := by
  obtain ⟨p, -, rfl⟩ := h.met
  exact Pattern.isGround_under

section Triggered

variable (h : r.SetsOff q σ t) (values : r.NarrowedBy q b)
  (narrowed : r.narrow? q = some (r.bind b))
  (constants : ∀ i v, q.get i = some v → v.isVariable = false)

include h values narrowed constants

theorem SetsOff.exists_match?_iff (hp : p ∈ r.body) :
    (∃ a, (p.bind b).match? t = some a) ↔ p.under σ = t := by
  rw [exists_match?_bind_iff values narrowed constants h.isGround]
  constructor
  · rintro ⟨τ, answers, same⟩
    exact h.all p hp τ answers same
  · intro same
    exact ⟨σ, h.answers, same⟩

/-- A fact that sets off an instance of the rule narrows the rule by values of that instance. -/
theorem SetsOff.exists_trigger? :
    ∃ d, (r.bind b).trigger? ⟨t, .plain⟩ = some d ∧ d.Within σ.apply := by
  have within : ∀ a ∈ (r.bind b).body.filterMap fun premise => premise.match? t,
      a.Within σ.apply := by
    intro a ha
    obtain ⟨premise, hpremise, matched⟩ := List.mem_filterMap.mp ha
    obtain ⟨p, hp, rfl⟩ := List.mem_map.mp hpremise
    have same : (p.bind b).under σ = t := by
      rw [Pattern.under_bind (values.within h.answers)]
      exact (h.exists_match?_iff values narrowed constants hp).mp ⟨a, matched⟩
    rw [← same] at matched
    exact (Binding.gives_of_match? matched).within
  obtain ⟨p, hp, same⟩ := h.met
  obtain ⟨a, matched⟩ := (h.exists_match?_iff values narrowed constants hp).mpr same
  have listed : a ∈ (r.bind b).body.filterMap fun premise => premise.match? t :=
    List.mem_filterMap.mpr ⟨p.bind b, List.mem_map_of_mem hp, matched⟩
  obtain ⟨d, merged⟩ := Binding.exists_merge? within
  refine ⟨d.withMark .plain, ?_, fun x v value => Binding.within_merge? within merged x v value⟩
  unfold trigger?
  split
  · next none => cases none ▸ listed
  · exact congrArg (Option.map fun e => e.withMark .plain) merged

variable (triggered : (r.bind b).trigger? ⟨t, .plain⟩ = some d)

include triggered

/-- The variables with a value are those to which the query or the fact gives one. -/
theorem SetsOff.binds_iff (var : x.isVariable = true) :
    b.Binds x ∨ d.Binds x ↔ r.Fixes q x ∨ r.Meets σ t x := by
  constructor
  · rintro (bound | ⟨v, value⟩)
    · exact Or.inl (values.fixes bound)
    · obtain ⟨premise, hpremise, a, matched, value⟩ := (get?_trigger? triggered).mp value
      obtain ⟨p, hp, rfl⟩ := List.mem_map.mp hpremise
      obtain ⟨i, same, -⟩ := (Pattern.get?_match? matched).mp value
      exact Or.inr ⟨p, hp, (h.exists_match?_iff values narrowed constants hp).mp ⟨a, matched⟩, i,
        Pattern.get_eq_of_get_bind values.ofConstants var same⟩
  · rintro (fixed | ⟨p, hp, same, i, rfl⟩)
    · exact Or.inl (values.binds h.answers var fixed)
    · by_cases bound : b.Binds (p.get i)
      · exact Or.inl bound
      · right
        obtain ⟨a, matched⟩ := (h.exists_match?_iff values narrowed constants hp).mpr same
        have kept : (p.bind b).get i = p.get i := by
          rw [Pattern.get_bind, Binding.resolve_of_not_binds bound]
        have value : a.get? (p.get i) = some (t.get i) := (Pattern.get?_match? matched).mpr
          ⟨i, kept, rfl, var, Pattern.isGround_iff.mp h.isGround i⟩
        exact ⟨_, (get?_trigger? triggered).mpr
          ⟨p.bind b, List.mem_map_of_mem hp, a, matched, value⟩⟩

/-- The premises that become ground are those that are settled. -/
theorem SetsOff.isGround_iff_settles :
    ((p.bind b).bind d).isGround = true ↔ r.Settles q σ t p := by
  rw [Pattern.isGround_iff_variablesIn, Pattern.variablesIn_bind (ofConstants_trigger? triggered),
    Pattern.variablesIn_bind values.ofConstants]
  simp only [or_false]
  constructor
  · intro bound
    exact bound.mono fun x var => (h.binds_iff values narrowed constants triggered var).mp
  · intro given
    exact given.mono fun x var => (h.binds_iff values narrowed constants triggered var).mpr

/-- The variables of a conclusion that becomes ground have got values. -/
theorem SetsOff.supplies {c : Pattern} {e : Binding} (eConstants : e.OfConstants)
    (lookedUp : ∀ x, e.Binds x → ∃ p ∈ ((r.bind b).bind d).body, ∃ i, p.get i = x)
    (ground : (((c.bind b).bind d).bind e).isGround = true) : r.Supplies q c := by
  have dConstants := ofConstants_trigger? triggered
  rw [c.isGround_bind_bind_bind_iff values.ofConstants dConstants eConstants] at ground
  refine ground.mono fun x var => ?_
  have ofBoth := (h.binds_iff values narrowed constants triggered var).mp
  have inPremise : r.Meets σ t x → ∃ p ∈ r.body, ∃ i, p.get i = x :=
    fun ⟨p, hp, _, has⟩ => ⟨p, hp, has⟩
  rintro (bound | bound | bound)
  · exact (ofBoth (Or.inl bound)).imp_right inPremise
  · exact (ofBoth (Or.inr bound)).imp_right inPremise
  · obtain ⟨premise, hpremise, i, same⟩ := lookedUp x bound
    obtain ⟨p1, hp1, rfl⟩ := List.mem_map.mp hpremise
    obtain ⟨p, hp, rfl⟩ := List.mem_map.mp hp1
    exact Or.inr ⟨p, hp, i, Pattern.get_eq_of_get_bind values.ofConstants var
      (Pattern.get_eq_of_get_bind dConstants var same)⟩

end Triggered

/-- Under a binding that makes all premises ground, a conclusion whose variables have got values
becomes its instance. -/
theorem NarrowedBy.bind_eq_under (values : r.NarrowedBy q b) (answers : (r.under σ).Answers q)
    {e : Binding} (dConstants : d.OfConstants) (dWithin : d.Within σ.apply)
    (eConstants : e.OfConstants) (eWithin : e.Within σ.apply)
    (met : ∀ p ∈ r.body, (((p.bind b).bind d).bind e).isGround = true) {c : Pattern}
    (supplied : r.Supplies q c) : ((c.bind b).bind d).bind e = c.under σ := by
  have bound := fun p : Pattern =>
    p.isGround_bind_bind_bind_iff values.ofConstants dConstants eConstants
  have ground : (((c.bind b).bind d).bind e).isGround = true := by
    refine (bound c).mpr (supplied.mono fun x var => ?_)
    rintro (fixed | ⟨p, hp, i, rfl⟩)
    · exact Or.inl (values.binds answers var fixed)
    · exact (bound p).mp (met p hp) i var
  rw [Pattern.bind_eq_under eWithin ground, Pattern.under_bind dWithin,
    Pattern.under_bind (values.within answers)]

variable {found : Query → Fact → Prop}

/-- What a rule yields is the instance of a conclusion whose variables have got values, in an instance
of the rule that the fact sets off and in which every premise is settled or found. -/
theorem exists_setsOff_of_yields (narrowed : r.narrow? q = some n)
    (constants : ∀ i v, q.get i = some v → v.isVariable = false) (ground : t.isGround = true)
    (stored : ∀ q f, found q f → f.isGround = true) (h : n.Yields found t g) :
    ∃ σ, r.SetsOff q σ t ∧ (∃ c ∈ r.head, r.Supplies q c ∧ c.under σ = g) ∧
      ∀ p ∈ r.body, r.Settles q σ t p ∨ ∃ query, found query (p.under σ) := by
  obtain ⟨b, rfl, values⟩ := exists_binding_of_narrow? narrowed
  obtain ⟨m, hm, concludes⟩ := h
  obtain ⟨d, hd, rfl⟩ := Option.map_eq_some_iff.mp hm
  obtain ⟨e, eConstants, lookedUp, ⟨c, hc, he⟩, hg, met⟩ := concludes.exists_binding stored
  -- variables get their values from the query first, then from the fact, then from what is found
  let σ := ((Assignment.blank.after e).after d).after b
  have under : ∀ p : Pattern, p.under σ = (((p.bind b).bind d).bind e).under .blank := by
    intro p
    simp only [σ, Pattern.under_after]
  have matched : ∀ p ∈ r.body, ∀ a, (p.bind b).match? t = some a → p.under σ = t := by
    intro p hp a ha
    have became : (p.bind b).bind d = t :=
      bind_of_trigger? hd ground (List.mem_map_of_mem hp) ha
    rw [under, became, Pattern.bind_of_isGround ground, Pattern.under_of_isGround ground]
  have setsOff : r.SetsOff q σ t := by
    constructor
    · rw [under_after]
      exact answers_of_narrow? narrowed constants
    · obtain ⟨premise, hpremise, a, ha⟩ := exists_premise_of_trigger? hd
      obtain ⟨p, hp, rfl⟩ := List.mem_map.mp hpremise
      exact ⟨p, hp, matched p hp a ha⟩
    · intro p hp τ answers same
      obtain ⟨a, ha⟩ :=
        (exists_match?_bind_iff values narrowed constants ground).mpr ⟨τ, answers, same⟩
      exact matched p hp a ha
  refine ⟨σ, setsOff, ?_, fun p hp => ?_⟩
  · obtain ⟨c1, hc1, rfl⟩ := List.mem_map.mp hc
    obtain ⟨c0, hc0, rfl⟩ := List.mem_map.mp hc1
    exact ⟨c0, hc0, setsOff.supplies values narrowed constants hd eConstants lookedUp (he ▸ hg),
      by rw [under, he, Pattern.under_of_isGround hg]⟩
  · rcases met _ (List.mem_map_of_mem (List.mem_map_of_mem hp)) with settled | ⟨query, hit⟩
    · exact Or.inl ((setsOff.isGround_iff_settles values narrowed constants hd).mp settled)
    · exact Or.inr ⟨query, by rwa [under, Pattern.under_of_isGround (stored _ _ hit)]⟩

/-- In an instance that a fact sets off and in which all premises are settled or found, the rule
yields the instances of the conclusions whose variables have got values, unless several premises are
left to look up. -/
theorem SetsOff.yields (h : r.SetsOff q σ t) (narrowed : r.narrow? q = some n)
    (constants : ∀ i v, q.get i = some v → v.isVariable = false) (never : ¬ n.StalledBy t)
    (premises : ∀ p ∈ r.body, r.Settles q σ t p ∨
      ∀ query : Query, query.admits (p.under σ) = true → found query (p.under σ))
    {c : Pattern} (hc : c ∈ r.head) (supplied : r.Supplies q c) : n.Yields found t (c.under σ) := by
  obtain ⟨b, rfl, values⟩ := exists_binding_of_narrow? narrowed
  obtain ⟨d, triggered, within⟩ := h.exists_trigger? values narrowed constants
  have dConstants := ofConstants_trigger? triggered
  have setOff : (r.bind b).setOffBy? t = some ((r.bind b).bind d) := by
    rw [setOffBy?, triggered]
    rfl
  have few : ((r.bind b).bind d).openPremises.length ≤ 1 := by
    by_contra several
    exact never ⟨_, setOff, Nat.lt_of_not_le several⟩
  have hit : ∀ p ∈ ((r.bind b).bind d).openPremises, ∀ query : Query,
      query.admits (p.under σ) = true → found query (p.under σ) := by
    intro premise hpremise
    obtain ⟨listed, unsettled⟩ := List.mem_filter.mp hpremise
    obtain ⟨p1, hp1, rfl⟩ := List.mem_map.mp listed
    obtain ⟨p, hp, rfl⟩ := List.mem_map.mp hp1
    rw [Pattern.under_bind within, Pattern.under_bind (values.within h.answers)]
    refine (premises p hp).resolve_left fun settled => ?_
    rw [(h.isGround_iff_settles values narrowed constants triggered).mpr settled] at unsettled
    cases unsettled
  obtain ⟨e, eConstants, eWithin, ground, concludes⟩ := exists_binding_of_found few hit
  have same : ((c.bind b).bind d).bind e = c.under σ :=
    values.bind_eq_under h.answers dConstants within eConstants eWithin
      (fun p hp => ground _ (List.mem_map_of_mem (List.mem_map_of_mem hp))) supplied
  refine ⟨_, setOff, ?_⟩
  rw [← same]
  exact concludes _ (List.mem_map_of_mem (List.mem_map_of_mem hc)) (same ▸ Pattern.isGround_under)

end Rule

end Annals
