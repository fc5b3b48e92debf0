import Annals.Inference.Firing
import Annals.Proofs.Lists
import Annals.Proofs.Matching

/-!
# What rules derive

A fact sets off a rule and so narrows it. If the narrowed rule has no premise left that is not
ground, it concludes at once; if it has one, it concludes once for every fact that is found to be an
instance of that premise. The facts that are derivable from a seed are the least set that contains
it and is closed under such conclusions, made one fact at a time.
-/

namespace Annals

namespace Rule

/-- The premises that are not ground yet. -/
def openPremises (n : Rule) : List Pattern := n.body.filter fun premise => !premise.isGround

/-- The rule as a fact that sets it off narrows it. -/
def setOffBy? (r : Rule) (f : Fact) : Option Rule := (r.trigger? ⟨f, .plain⟩).map r.bind

/-- What a narrowed rule concludes, given the facts that are found for a query. Conclusions with a
variable left in them do not count. -/
inductive Concludes (n : Rule) (found : Query → Fact → Prop) : Fact → Prop
  | atOnce {c : Pattern} (settled : n.openPremises = []) (mem : c ∈ n.head)
      (ground : c.isGround = true) : Concludes n found c
  | onHit {premise c : Pattern} {f : Fact} {b : Binding} (left : n.openPremises = [premise])
      (hit : found (.ofPattern premise) f) (matched : premise.match? f = some b)
      (mem : c ∈ n.head) (ground : (c.bind b).isGround = true) : Concludes n found (c.bind b)

/-- The rule concludes the second fact once the first one sets it off. -/
def Yields (r : Rule) (found : Query → Fact → Prop) (f g : Fact) : Prop :=
  ∃ n, r.setOffBy? f = some n ∧ n.Concludes found g

/-- The fact sets off the rule, but leaves more than one premise to look up. -/
def StalledBy (r : Rule) (f : Fact) : Prop :=
  ∃ n, r.setOffBy? f = some n ∧ 1 < n.openPremises.length

end Rule

/-- The facts that rules derive from a seed, one fact setting off a rule at a time. -/
inductive Derivable (rules : List Rule) (found : Query → Fact → Prop) (seed : Fact → Prop) :
    Fact → Prop
  | seed {f : Fact} (h : seed f) : Derivable rules found seed f
  | step {r : Rule} {f g : Fact} (hf : Derivable rules found seed f) (hr : r ∈ rules)
      (h : r.Yields found f g) : Derivable rules found seed g

theorem Rule.Yields.isGround {r : Rule} {found : Query → Fact → Prop} {f g : Fact}
    (h : r.Yields found f g) : g.isGround = true := by
  obtain ⟨n, -, concludes⟩ := h
  cases concludes with
  | atOnce _ _ ground => exact ground
  | onHit _ _ _ _ ground => exact ground

/-- From ground facts only ground ones are derivable. -/
theorem Derivable.isGround {rules : List Rule} {found : Query → Fact → Prop} {seed : Fact → Prop}
    {f : Fact} (h : Derivable rules found seed f) (stored : ∀ f, seed f → f.isGround = true) :
    f.isGround = true := by
  cases h with
  | seed hf => exact stored f hf
  | step _ _ yields => exact yields.isGround

theorem Derivable.exists_seed {rules : List Rule} {found : Query → Fact → Prop}
    {seed : Fact → Prop} {f : Fact} (h : Derivable rules found seed f) : ∃ g, seed g := by
  induction h with
  | seed h => exact ⟨_, h⟩
  | step _ _ _ ih => exact ih

section Monotone

variable {found found' : Query → Fact → Prop}

theorem Rule.Yields.mono {r : Rule} {f g : Fact} (h : r.Yields found f g)
    (hfound : ∀ q f, found q f → found' q f) : r.Yields found' f g := by
  obtain ⟨n, hn, hc⟩ := h
  refine ⟨n, hn, ?_⟩
  cases hc with
  | atOnce settled mem ground => exact .atOnce settled mem ground
  | onHit left hit matched mem ground => exact .onHit left (hfound _ _ hit) matched mem ground

theorem Rule.yields_congr {r : Rule} {f g : Fact} (hfound : ∀ q f, found q f ↔ found' q f) :
    r.Yields found f g ↔ r.Yields found' f g :=
  ⟨fun h => h.mono fun q f => (hfound q f).mp, fun h => h.mono fun q f => (hfound q f).mpr⟩

/-- A rule looks up one fact at the most, so what it concludes from two tables it concludes from one
of them. -/
theorem Rule.yields_or_iff {r : Rule} {f g : Fact} :
    r.Yields (fun q h => found q h ∨ found' q h) f g ↔ r.Yields found f g ∨ r.Yields found' f g := by
  constructor
  · rintro ⟨n, hn, concludes⟩
    cases concludes with
    | atOnce settled mem ground => exact Or.inl ⟨n, hn, .atOnce settled mem ground⟩
    | onHit left hit matched mem ground =>
      exact hit.imp (fun hit => ⟨n, hn, .onHit left hit matched mem ground⟩)
        fun hit => ⟨n, hn, .onHit left hit matched mem ground⟩
  · rintro (h | h)
    · exact h.mono fun _ _ => Or.inl
    · exact h.mono fun _ _ => Or.inr

theorem Derivable.mono {rules : List Rule} {seed seed' : Fact → Prop} {f : Fact}
    (h : Derivable rules found seed f) (hseed : ∀ f, seed f → Derivable rules found' seed' f)
    (hfound : ∀ q f, found q f → found' q f) : Derivable rules found' seed' f := by
  induction h with
  | seed h => exact hseed _ h
  | step _ hr hg ih => exact .step ih hr (hg.mono hfound)

/-- Derivability depends only on what is in the seed and what is found. -/
theorem derivable_congr {rules : List Rule} {seed seed' : Fact → Prop}
    (hseed : ∀ f, seed f ↔ seed' f) (hfound : ∀ q f, found q f ↔ found' q f) (f : Fact) :
    Derivable rules found seed f ↔ Derivable rules found' seed' f :=
  ⟨fun h => h.mono (fun f hf => .seed ((hseed f).mp hf)) fun q f => (hfound q f).mp,
    fun h => h.mono (fun f hf => .seed ((hseed f).mpr hf)) fun q f => (hfound q f).mpr⟩

/-- As one fact at a time sets off a rule, a seed of two parts derives what either part derives. -/
theorem derivable_or_iff {rules : List Rule} {seed seed' : Fact → Prop} {f : Fact} :
    Derivable rules found (fun g => seed g ∨ seed' g) f ↔
      Derivable rules found seed f ∨ Derivable rules found seed' f := by
  constructor
  · intro h
    induction h with
    | seed h => exact h.imp .seed .seed
    | step _ hr yields ih => exact ih.imp (.step · hr yields) (.step · hr yields)
  · rintro (h | h)
    · exact h.mono (fun g hg => .seed (Or.inl hg)) fun _ _ => id
    · exact h.mono (fun g hg => .seed (Or.inr hg)) fun _ _ => id

end Monotone

namespace Rule

/-- The binding has the values that a query gives to the variables in the conclusions of a rule, and
no others. -/
def NarrowedBy (r : Rule) (q : Query) (b : Binding) : Prop :=
  ∀ x v, b.get? x = some v ↔ ∃ c ∈ r.head, ∃ i, c.get i = x ∧ q.get i = some v ∧
    x.isVariable = true ∧ v.isVariable = false

/-- A query narrows a rule by the terms that it names in place of variables in conclusions. -/
theorem exists_binding_of_narrow? {r n : Rule} {q : Query} (h : r.narrow? q = some n) :
    ∃ b, n = r.bind b ∧ r.NarrowedBy q b := by
  unfold narrow? at h
  split at h
  · cases h
  · simp only [Option.bind_eq_bind, Option.bind_eq_some_iff] at h
    obtain ⟨bindings, hbindings, b, hb, hn⟩ := h
    refine ⟨b, (Option.some.inj hn).symm, fun x v => ?_⟩
    rw [Binding.get?_merge? hb]
    constructor
    · rintro ⟨d, hd, hx⟩
      obtain ⟨c, hc, hm⟩ := (mem_iff_of_mapM_eq_some hbindings).mp hd
      exact ⟨c, hc, (Pattern.get?_match?_toPattern hm).mp hx⟩
    · rintro ⟨c, hc, value⟩
      obtain ⟨d, hd, hm⟩ := exists_mem_of_mapM_eq_some hbindings hc
      exact ⟨d, hd, (Pattern.get?_match?_toPattern hm).mpr value⟩

theorem NarrowedBy.ofConstants {r : Rule} {q : Query} {b : Binding} (h : r.NarrowedBy q b) :
    b.OfConstants := by
  intro x v value
  obtain ⟨-, -, -, -, -, -, constant⟩ := (h x v).mp value
  exact constant

/-- Where a query names a constant, the conclusions of a rule that is narrowed to it have that
constant. -/
theorem get_of_narrow? {r n : Rule} {q : Query} {c : Pattern} {i : Position} {v : Term}
    (h : r.narrow? q = some n) (hc : c ∈ n.head) (fixed : q.get i = some v)
    (constant : v.isVariable = false) : c.get i = v := by
  unfold narrow? at h
  split at h
  · cases h
  · simp only [Option.bind_eq_bind, Option.bind_eq_some_iff] at h
    obtain ⟨bindings, hbindings, b, hb, hn⟩ := h
    obtain rfl := Option.some.inj hn
    obtain ⟨origin, horigin, rfl⟩ := List.mem_map.mp hc
    obtain ⟨d, hd, hm⟩ := exists_mem_of_mapM_eq_some hbindings horigin
    have named : q.toPattern.get i = v := by
      rw [Query.get_toPattern, fixed, Option.getD_some]
    rw [Pattern.get_bind]
    cases var : (origin.get i).isVariable with
    | false =>
      rw [Binding.resolve_constant var]
      exact (Pattern.get_eq_of_match? hm var (named ▸ constant)).trans named
    | true =>
      have value : d.get? (origin.get i) = some v :=
        (Pattern.get?_match?_toPattern hm).mpr ⟨i, rfl, fixed, var, constant⟩
      exact Binding.resolve_bound var ((Binding.get?_merge? hb).mpr ⟨d, hd, value⟩)

/-- A constant that all conclusions of a rule have at a place stays there. -/
theorem Yields.get_eq {n : Rule} {found : Query → Fact → Prop} {f g : Fact} {i : Position}
    {v : Term} (h : n.Yields found f g) (same : ∀ c ∈ n.head, c.get i = v)
    (constant : v.isVariable = false) : g.get i = v := by
  obtain ⟨m, hm, concludes⟩ := h
  obtain ⟨b, -, rfl⟩ := Option.map_eq_some_iff.mp hm
  have narrowed : ∀ c ∈ (n.bind b).head, c.get i = v := by
    intro c hc
    obtain ⟨origin, horigin, rfl⟩ := List.mem_map.mp hc
    rw [Pattern.get_bind, same origin horigin, Binding.resolve_constant constant]
  cases concludes with
  | atOnce _ mem _ => exact narrowed _ mem
  | onHit _ _ _ mem _ => rw [Pattern.get_bind, narrowed _ mem, Binding.resolve_constant constant]

/-- A rule that is set off has a premise that matches the fact. -/
theorem exists_premise_of_trigger? {r : Rule} {row : Triple} {b : Binding}
    (h : r.trigger? row = some b) :
    ∃ premise ∈ r.body, ∃ c, premise.match? row.fact = some c := by
  unfold trigger? at h
  split at h
  · cases h
  · next nonempty =>
    obtain ⟨c, hc⟩ := List.exists_mem_of_ne_nil _ nonempty
    obtain ⟨premise, hp, hm⟩ := List.mem_filterMap.mp hc
    exact ⟨premise, hp, c, hm⟩

/-- The binding that sets off a rule has the values of all matches of its premises and no other. -/
theorem get?_trigger? {r : Rule} {row : Triple} {b : Binding} {x v : Term}
    (h : r.trigger? row = some b) :
    b.get? x = some v ↔
      ∃ premise ∈ r.body, ∃ c, premise.match? row.fact = some c ∧ c.get? x = some v := by
  unfold trigger? at h
  split at h
  · cases h
  · obtain ⟨d, hd, rfl⟩ := Option.map_eq_some_iff.mp h
    rw [Binding.get?_withMark, Binding.get?_merge? hd]
    simp only [List.mem_filterMap]
    constructor
    · rintro ⟨c, ⟨premise, hp, hm⟩, hx⟩
      exact ⟨premise, hp, c, hm, hx⟩
    · rintro ⟨premise, hp, c, hm, hx⟩
      exact ⟨c, ⟨premise, hp, hm⟩, hx⟩

/-- Once a fact has set off a rule, the premises that it matches are that fact. -/
theorem bind_of_trigger? {r : Rule} {f : Fact} {b c : Binding} {p : Pattern}
    (h : r.trigger? ⟨f, .plain⟩ = some b) (ground : f.isGround = true) (hp : p ∈ r.body)
    (matched : p.match? f = some c) : p.bind b = f := by
  apply Pattern.bind_of_match? matched ground
  intro x v hx
  exact (get?_trigger? h).mpr ⟨p, hp, c, matched, hx⟩

theorem ofConstants_trigger? {r : Rule} {row : Triple} {b : Binding} (h : r.trigger? row = some b) :
    b.OfConstants := by
  intro x v value
  obtain ⟨premise, -, c, hm, value⟩ := (get?_trigger? h).mp value
  exact Pattern.ofConstants_match? hm x v value

@[simp] theorem bind_withMark (r : Rule) (b : Binding) (m : Mark) :
    r.bind (b.withMark m) = r.bind b := rfl

/-- The mark of a row plays no part in how the row narrows a rule. -/
theorem trigger?_eq (r : Rule) (row : Triple) :
    r.trigger? row = (r.trigger? ⟨row.fact, .plain⟩).map fun b => b.withMark row.mark := by
  unfold trigger?
  cases r.body.filterMap fun premise => premise.match? row.fact with
  | nil => rfl
  | cons c rest =>
    simp only [Option.map_map]
    rfl

/-- A firing is the narrowed rule with the mark of the row. -/
theorem fire?_eq_some_iff {r : Rule} {row : Triple} {firing : Firing} :
    r.fire? row = some firing ↔
      ∃ n, r.setOffBy? row.fact = some n ∧ firing = ⟨r, n, row.mark⟩ := by
  rw [fire?, trigger?_eq, setOffBy?]
  cases r.trigger? ⟨row.fact, .plain⟩ <;> simp [eq_comm]

end Rule

end Annals
