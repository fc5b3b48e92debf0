import Annals.Matching

/-!
# What matching binds

Merging keeps every value of every binding that is merged and adds none, so a match binds a variable
of the left pattern exactly where a constant stands on the right. A pattern that matches a ground
fact becomes that fact under the binding.
-/

namespace Annals

namespace Binding

/-- Every variable that has a value in `b` has the same value in `c`. -/
def Extends (c b : Binding) : Prop :=
  ∀ x v, b.get? x = some v → c.get? x = some v

@[simp] theorem get?_empty (x : Term) : empty.get? x = none := rfl

@[simp] theorem get?_withMark (b : Binding) (m : Mark) (x : Term) :
    (b.withMark m).get? x = b.get? x := rfl

@[simp] theorem mark_withMark (b : Binding) (m : Mark) : (b.withMark m).mark = m := rfl

theorem get?_single {x v y w : Term} :
    (single x v).get? y = some w ↔ y = x ∧ w = v := by
  by_cases h : y = x
  · simp [single, get?, h, eq_comm]
  · have hb : (y == x) = false := by simpa using h
    simp [single, get?, List.lookup_cons, h, hb]

theorem bind?_of_some {b : Binding} {x v known : Term} (h : b.get? x = some known) :
    b.bind? x v = if known = v then some b else none := by
  unfold bind?
  split
  · next found => rw [Option.some.inj (h.symm.trans found)]
  · next absent => cases h.symm.trans absent

theorem values_of_bind? {b : Binding} {x v : Term} (h : b.get? x = none) :
    ∃ d, b.bind? x v = some d ∧ d.values = b.values ++ [(x, v)] ∧ d.mark = b.mark := by
  unfold bind?
  split
  · next found => cases h.symm.trans found
  · exact ⟨_, rfl, rfl, rfl⟩

theorem ext_values {b c : Binding} (values : b.values = c.values) (mark : b.mark = c.mark) :
    b = c := by
  cases b
  cases c
  simp only [mk.injEq]
  exact ⟨values, mark⟩

/-- Giving a value adds that value and no other. -/
theorem get?_bind? {b c : Binding} {x v y w : Term} (h : b.bind? x v = some c) :
    c.get? y = some w ↔ b.get? y = some w ∨ (y = x ∧ w = v) := by
  unfold bind? at h
  split at h
  · next known hk =>
    split at h
    · next hv =>
      obtain rfl := Option.some.inj h
      subst hv
      constructor
      · exact Or.inl
      · rintro (hy | ⟨rfl, rfl⟩)
        · exact hy
        · exact hk
    · cases h
  · next hk =>
    obtain rfl := Option.some.inj h
    simp only [get?, List.lookup_append, Option.or_eq_some_iff]
    constructor
    · rintro (hy | ⟨-, hy⟩)
      · exact Or.inl hy
      · exact Or.inr (get?_single.mp hy)
    · rintro (hy | ⟨rfl, rfl⟩)
      · exact Or.inl hy
      · exact Or.inr ⟨hk, get?_single.mpr ⟨rfl, rfl⟩⟩

theorem get?_bindAll? {b d : Binding} {pairs : List (Term × Term)} {y w : Term}
    (h : b.bindAll? pairs = some d) : d.get? y = some w ↔ b.get? y = some w ∨ (y, w) ∈ pairs := by
  induction pairs generalizing b with
  | nil =>
    obtain rfl : b = d := by simpa [bindAll?] using h
    simp
  | cons pair rest ih =>
    obtain ⟨x, v⟩ := pair
    rw [bindAll?, List.foldlM_cons, Option.bind_eq_bind, Option.bind_eq_some_iff] at h
    obtain ⟨c, hc, hd⟩ := h
    rw [ih hd, get?_bind? hc]
    simp only [List.mem_cons, Prod.mk.injEq, or_assoc]

/-- A variable's value is the one it is listed with. -/
theorem get?_eq_some_iff {b : Binding} {x v : Term} : b.get? x = some v ↔ (x, v) ∈ b.values := by
  obtain ⟨values, mark, functional⟩ := b
  simp only [get?]
  induction values with
  | nil => simp
  | cons pair rest ih =>
    obtain ⟨y, w⟩ := pair
    obtain ⟨fresh, rest_functional⟩ := List.nodup_cons.mp functional
    by_cases hx : x = y
    · subst hx
      have absent : (x, v) ∉ rest := fun hmem => fresh (List.mem_map.mpr ⟨(x, v), hmem, rfl⟩)
      simp [absent, eq_comm]
    · have hb : (x == y) = false := by simpa using hx
      simp [List.lookup_cons, hb, hx, ih rest_functional]

theorem get?_absorb? {b c d : Binding} {y w : Term} (h : b.absorb? c = some d) :
    d.get? y = some w ↔ b.get? y = some w ∨ c.get? y = some w := by
  obtain ⟨e, he, rfl⟩ := Option.map_eq_some_iff.mp h
  rw [get?_withMark, get?_bindAll? he, get?_eq_some_iff (b := c)]

/-- A common extension has the values of its parts and no others. -/
theorem get?_merge? {bs : List Binding} {d : Binding} {y w : Term} (h : merge? bs = some d) :
    d.get? y = some w ↔ ∃ b ∈ bs, b.get? y = some w := by
  have general : ∀ start : Binding, bs.foldlM absorb? start = some d →
      (d.get? y = some w ↔ start.get? y = some w ∨ ∃ b ∈ bs, b.get? y = some w) := by
    clear h
    induction bs with
    | nil =>
      intro start h
      obtain rfl : start = d := by simpa using h
      simp
    | cons b rest ih =>
      intro start h
      rw [List.foldlM_cons, Option.bind_eq_bind, Option.bind_eq_some_iff] at h
      obtain ⟨c, hc, hd⟩ := h
      rw [ih c hd, get?_absorb? hc]
      simp [or_assoc]
  simpa using general empty h

/-- The values of the binding are those that a function gives to its variables. -/
def Within (b : Binding) (τ : Term → Term) : Prop := ∀ x v, b.get? x = some v → v = τ x

section Within

variable {τ : Term → Term} {b c : Binding}

theorem exists_bind? (hb : b.Within τ) (x : Term) : ∃ d, b.bind? x (τ x) = some d := by
  unfold bind?
  split
  · next known hk =>
    rw [if_pos (hb x known hk)]
    exact ⟨b, rfl⟩
  · exact ⟨_, rfl⟩

theorem exists_bindAll? {pairs : List (Term × Term)} (hb : b.Within τ)
    (hp : ∀ pair ∈ pairs, pair.2 = τ pair.1) : ∃ d, b.bindAll? pairs = some d := by
  induction pairs generalizing b with
  | nil => exact ⟨b, rfl⟩
  | cons pair rest ih =>
    obtain ⟨x, v⟩ := pair
    obtain rfl : v = τ x := hp (x, v) List.mem_cons_self
    obtain ⟨c, hc⟩ := exists_bind? hb x
    have within : c.Within τ := by
      intro y w hy
      rcases (get?_bind? hc).mp hy with known | ⟨rfl, rfl⟩
      · exact hb y w known
      · rfl
    obtain ⟨d, hd⟩ := ih within fun pair h => hp pair (List.mem_cons_of_mem _ h)
    exact ⟨d, by simpa [bindAll?, hc] using hd⟩

theorem exists_absorb? (hb : b.Within τ) (hc : c.Within τ) :
    ∃ d, b.absorb? c = some d ∧ d.Within τ := by
  have values : ∀ pair ∈ c.values, pair.2 = τ pair.1 := by
    intro pair h
    exact hc pair.1 pair.2 (get?_eq_some_iff.mpr h)
  obtain ⟨d, hd⟩ := exists_bindAll? hb values
  have absorbed : b.absorb? c = some (d.withMark (b.mark.orElse c.mark)) := by
    rw [absorb?, hd]
    rfl
  refine ⟨_, absorbed, ?_⟩
  intro x v h
  rcases (get?_absorb? absorbed).mp h with h | h
  · exact hb x v h
  · exact hc x v h

/-- Bindings within one function have a common extension. -/
theorem exists_merge? {bs : List Binding} (h : ∀ b ∈ bs, b.Within τ) :
    ∃ d, merge? bs = some d := by
  have general : ∀ start : Binding, start.Within τ → ∃ d, bs.foldlM absorb? start = some d := by
    induction bs with
    | nil => exact fun start _ => ⟨start, rfl⟩
    | cons b rest ih =>
      intro start within
      obtain ⟨next, absorbed, hnext⟩ := exists_absorb? within (h b List.mem_cons_self)
      obtain ⟨d, hd⟩ := ih (fun c hc => h c (List.mem_cons_of_mem b hc)) next hnext
      exact ⟨d, by rw [List.foldlM_cons, absorbed]; exact hd⟩
  apply general
  intro x v h
  cases h

theorem within_merge? {bs : List Binding} (h : ∀ b ∈ bs, b.Within τ) {d : Binding}
    (merged : merge? bs = some d) : d.Within τ := by
  intro x v value
  obtain ⟨b, hb, value⟩ := (get?_merge? merged).mp value
  exact h b hb x v value

end Within

@[simp] theorem resolve_constant {b : Binding} {t : Term} (h : t.isVariable = false) :
    b.resolve t = t := by
  simp [resolve, h]

theorem resolve_bound {b : Binding} {x v : Term} (hx : x.isVariable = true)
    (h : b.get? x = some v) : b.resolve x = v := by
  simp [resolve, hx, h]

/-- A term that becomes a constant was that constant, or a variable with that value. -/
theorem resolve_eq_constant {b : Binding} {t v : Term} (hv : v.isVariable = false)
    (h : b.resolve t = v) : t = v ∨ (t.isVariable = true ∧ b.get? t = some v) := by
  unfold resolve at h
  split at h
  · next ht =>
    cases hg : b.get? t with
    | none =>
      rw [hg, Option.getD_none] at h
      rw [h, hv] at ht
      cases ht
    | some w =>
      rw [hg, Option.getD_some] at h
      exact Or.inr ⟨ht, congrArg some h⟩
  · exact Or.inl h

/-- All values of the binding are constants. -/
def OfConstants (b : Binding) : Prop := ∀ x v, b.get? x = some v → v.isVariable = false

theorem ofConstants_empty : empty.OfConstants := nofun

theorem OfConstants.withMark {b : Binding} (h : b.OfConstants) (m : Mark) :
    (b.withMark m).OfConstants := h

theorem ofConstants_merge? {bs : List Binding} (h : ∀ b ∈ bs, b.OfConstants) {d : Binding}
    (merged : Binding.merge? bs = some d) : d.OfConstants := by
  intro x v value
  obtain ⟨b, hb, value⟩ := (get?_merge? merged).mp value
  exact h b hb x v value

/-- The variable has a value in the binding. -/
def Binds (b : Binding) (x : Term) : Prop := ∃ v, b.get? x = some v

theorem resolve_of_not_binds {b : Binding} {x : Term} (h : ¬ b.Binds x) : b.resolve x = x := by
  have none : b.get? x = none := Option.eq_none_iff_forall_ne_some.mpr fun v hv => h ⟨v, hv⟩
  simp [resolve, none]

/-- A binding of constants makes a variable only of that variable itself. -/
theorem eq_of_resolve_eq_variable {b : Binding} {t x : Term} (constants : b.OfConstants)
    (hx : x.isVariable = true) (h : b.resolve t = x) : t = x := by
  unfold resolve at h
  split at h
  · cases hg : b.get? t with
    | none => rwa [hg, Option.getD_none] at h
    | some v =>
      rw [hg, Option.getD_some] at h
      cases hx.symm.trans (h ▸ constants t v hg)
  · exact h

end Binding

namespace Term

/-- A term gets a value if it is a variable held against a constant. -/
theorem get?_match? {t u x v : Term} {b : Binding} (h : t.match? u = some b) :
    b.get? x = some v ↔ x = t ∧ v = u ∧ t.isVariable = true ∧ u.isVariable = false := by
  unfold match? at h
  split at h
  · next ht =>
    obtain rfl := Option.some.inj h
    cases hu : u.isVariable with
    | true => simp
    | false => simp [Binding.get?_single, ht]
  · next ht =>
    split at h
    · obtain rfl := Option.some.inj h
      simp [ht]
    · cases h

/-- Two constants match only if they are the same. -/
theorem eq_of_match? {t u : Term} {b : Binding} (h : t.match? u = some b)
    (ht : t.isVariable = false) (hu : u.isVariable = false) : t = u := by
  simp only [match?, ht, hu, Bool.false_eq_true, ↓reduceIte, false_or] at h
  split at h
  · assumption
  · cases h

end Term

namespace Pattern

/-- A match is a match at each place, and the merged binding of these. -/
theorem match?_eq_some_iff {p q : Pattern} {b : Binding} :
    p.match? q = some b ↔ ∃ c : Position → Binding,
      (∀ i, (p.get i).match? (q.get i) = some (c i)) ∧
        Binding.merge? (Position.all.map c) = some b := by
  simp only [match?, Option.bind_eq_bind, Option.bind_eq_some_iff]
  constructor
  · rintro ⟨s, hs, r, hr, o, ho, hb⟩
    refine ⟨fun i => Position.casesOn (motive := fun _ => Binding) i s r o, ?_, hb⟩
    rintro (_ | _ | _)
    · exact hs
    · exact hr
    · exact ho
  · rintro ⟨c, hc, hb⟩
    exact ⟨c .subject, hc .subject, c .predicate, hc .predicate, c .object, hc .object, hb⟩

/-- A match binds the variables that are held against constants, to these constants. -/
theorem get?_match? {p q : Pattern} {b : Binding} {x v : Term} (h : p.match? q = some b) :
    b.get? x = some v ↔
      ∃ i, p.get i = x ∧ q.get i = v ∧ x.isVariable = true ∧ v.isVariable = false := by
  obtain ⟨c, hc, hb⟩ := match?_eq_some_iff.mp h
  rw [Binding.get?_merge? hb]
  constructor
  · rintro ⟨d, hd, hx⟩
    obtain ⟨i, -, rfl⟩ := List.mem_map.mp hd
    obtain ⟨rfl, rfl, hvar, hconst⟩ := (Term.get?_match? (hc i)).mp hx
    exact ⟨i, rfl, rfl, hvar, hconst⟩
  · rintro ⟨i, rfl, rfl, hvar, hconst⟩
    exact ⟨c i, List.mem_map_of_mem (Position.mem_all i),
      (Term.get?_match? (hc i)).mpr ⟨rfl, rfl, hvar, hconst⟩⟩

theorem ofConstants_match? {p q : Pattern} {b : Binding} (h : p.match? q = some b) : b.OfConstants := by
  intro x v value
  obtain ⟨-, -, -, -, constant⟩ := (get?_match? h).mp value
  exact constant

/-- Where two constants meet in a match they are the same. -/
theorem get_eq_of_match? {p q : Pattern} {b : Binding} (h : p.match? q = some b) {i : Position}
    (hp : (p.get i).isVariable = false) (hq : (q.get i).isVariable = false) :
    p.get i = q.get i := by
  obtain ⟨c, hc, -⟩ := match?_eq_some_iff.mp h
  exact Term.eq_of_match? (hc i) hp hq

/-- There is no match where two different constants meet. -/
theorem match?_eq_none_of_ne {p q : Pattern} {i : Position} (hp : (p.get i).isVariable = false)
    (hq : (q.get i).isVariable = false) (differ : p.get i ≠ q.get i) : p.match? q = none := by
  apply Option.eq_none_iff_forall_ne_some.mpr
  intro b h
  exact differ (get_eq_of_match? h hp hq)

/-- Held against a query, a conclusion takes the terms that the query names. -/
theorem get?_match?_toPattern {p : Pattern} {q : Query} {b : Binding} {x v : Term}
    (h : p.match? q.toPattern = some b) :
    b.get? x = some v ↔
      ∃ i, p.get i = x ∧ q.get i = some v ∧ x.isVariable = true ∧ v.isVariable = false := by
  rw [get?_match? h]
  refine exists_congr fun i => and_congr_right fun _ => ?_
  rw [Query.get_toPattern]
  cases q.get i with
  | some t => simp
  | none =>
    have variable_ : i.openVariable.isVariable = true := by cases i <;> decide
    constructor
    · rintro ⟨rfl, -, constant⟩
      cases variable_.symm.trans constant
    · rintro ⟨absent, -⟩
      cases absent

@[simp] theorem get_bind (p : Pattern) (b : Binding) (i : Position) :
    (p.bind b).get i = b.resolve (p.get i) := by
  simp [bind]

@[simp] theorem bind_empty (p : Pattern) : p.bind .empty = p := by
  apply ext_get
  intro i
  cases h : (p.get i).isVariable <;> simp [Binding.resolve, h]

theorem bind_of_isGround {p : Pattern} (h : p.isGround = true) (b : Binding) : p.bind b = p := by
  refine ext_get fun i => ?_
  rw [get_bind]
  exact Binding.resolve_constant (isGround_iff.mp h i)

@[simp] theorem bind_withMark (p : Pattern) (b : Binding) (m : Mark) :
    p.bind (b.withMark m) = p.bind b := rfl

/-- A pattern becomes the ground fact that it matches, also under any further binding of its
variables. -/
theorem bind_of_match? {p : Pattern} {f : Fact} {b c : Binding} (h : p.match? f = some b)
    (hf : f.isGround = true) (hc : c.Extends b) : p.bind c = f := by
  apply ext_get
  intro i
  have hconst := isGround_iff.mp hf i
  rw [get_bind]
  cases hp : (p.get i).isVariable with
  | true =>
    have value : b.get? (p.get i) = some (f.get i) :=
      (get?_match? h).mpr ⟨i, rfl, rfl, hp, hconst⟩
    exact Binding.resolve_bound hp (hc _ _ value)
  | false => rw [Binding.resolve_constant hp, get_eq_of_match? h hp hconst]

theorem bind_eq_of_match? {p : Pattern} {f : Fact} {b : Binding} (h : p.match? f = some b)
    (hf : f.isGround = true) : p.bind b = f := by
  apply bind_of_match? h hf
  intro x v value
  exact value

/-- A binding of constants leaves variables where they were. -/
theorem get_eq_of_get_bind {p : Pattern} {b : Binding} {i : Position} {x : Term}
    (constants : b.OfConstants) (hx : x.isVariable = true) (h : (p.bind b).get i = x) :
    p.get i = x :=
  Binding.eq_of_resolve_eq_variable constants hx (get_bind p b i ▸ h)

/-- The variables of the pattern are among the given ones. -/
def VariablesIn (p : Pattern) (given : Term → Prop) : Prop :=
  ∀ i, (p.get i).isVariable = true → given (p.get i)

theorem VariablesIn.mono {p : Pattern} {given more : Term → Prop} (h : p.VariablesIn given)
    (sub : ∀ x, x.isVariable = true → given x → more x) : p.VariablesIn more :=
  fun i var => sub _ var (h i var)

theorem isGround_iff_variablesIn {p : Pattern} :
    p.isGround = true ↔ p.VariablesIn fun _ => False := by
  simp [isGround_iff, VariablesIn]

/-- The variables that a binding of constants leaves in a pattern are those without a value. -/
theorem variablesIn_bind {p : Pattern} {b : Binding} (constants : b.OfConstants)
    {given : Term → Prop} :
    (p.bind b).VariablesIn given ↔ p.VariablesIn fun x => b.Binds x ∨ given x := by
  refine forall_congr' fun i => ?_
  rw [get_bind]
  cases var : (p.get i).isVariable with
  | false => simp [var]
  | true =>
    by_cases bound : b.Binds (p.get i)
    · obtain ⟨v, value⟩ := id bound
      simp [Binding.resolve_bound var value, constants _ v value, bound]
    · simp [Binding.resolve_of_not_binds bound, var, bound]

/-- Bindings of constants, one after the other, make a pattern ground if and only if each of its
variables has a value in one of them. -/
theorem isGround_bind_bind_bind_iff (p : Pattern) {b d e : Binding} (hb : b.OfConstants)
    (hd : d.OfConstants) (he : e.OfConstants) :
    (((p.bind b).bind d).bind e).isGround = true ↔
      p.VariablesIn fun x => b.Binds x ∨ d.Binds x ∨ e.Binds x := by
  rw [isGround_iff_variablesIn, variablesIn_bind he, variablesIn_bind hd, variablesIn_bind hb]
  simp only [or_false]

end Pattern

end Annals
