import Annals.Proofs.Matching
import Mathlib.Data.List.Forall2

/-!
# Common extensions

The common extension of bindings has all their values, so there is one unless two of them give a
variable different values. Merging lists each variable where it is given its value first, whether
the bindings are merged one by one or group by group.

## Implementation notes

A binding lists its variables in the order in which they were bound. Nothing that is said here of
values depends on that order, which is why bindings are compared by their values (`SameValues`).
-/

namespace Annals

theorem Mark.orElse_assoc (l m n : Mark) : (l.orElse m).orElse n = l.orElse (m.orElse n) := by
  cases l <;> rfl

theorem Mark.orElse_plain (m : Mark) : m.orElse .plain = m := by
  cases m <;> rfl

namespace Binding

/-- One of the bindings gives the variable the value. -/
def Given (bs : List Binding) (x v : Term) : Prop := ∃ b ∈ bs, b.get? x = some v

/-- No two of the bindings give a variable different values. -/
def Agree (bs : List Binding) : Prop :=
  ∀ b ∈ bs, ∀ c ∈ bs, ∀ x v w, b.get? x = some v → c.get? x = some w → v = w

/-- Two bindings give the same variables the same values. -/
def SameValues (b c : Binding) : Prop := ∀ x, b.get? x = c.get? x

/-- The first of the bindings' marks that says something. -/
def firstMark (bs : List Binding) : Mark :=
  ((bs.map mark).find? fun m => decide (m ≠ .plain)).getD .plain

section Given

variable {bs cs : List Binding} {b : Binding} {x v : Term}

theorem agree_iff_given :
    Agree bs ↔ ∀ x v w, Given bs x v → Given bs x w → v = w := by
  constructor
  · rintro agree x v w ⟨b, hb, hv⟩ ⟨c, hc, hw⟩
    exact agree b hb c hc x v w hv hw
  · intro agree b hb c hc x v w hv hw
    exact agree x v w ⟨b, hb, hv⟩ ⟨c, hc, hw⟩

theorem agree_congr (same : ∀ x v, Given bs x v ↔ Given cs x v) : Agree bs ↔ Agree cs := by
  simp only [agree_iff_given, same]

theorem given_cons : Given (b :: bs) x v ↔ b.get? x = some v ∨ Given bs x v :=
  List.exists_mem_cons_iff _ _ _

theorem given_append : Given (bs ++ cs) x v ↔ Given bs x v ∨ Given cs x v := by
  simp only [Given, List.mem_append, or_and_right, exists_or]

theorem given_perm (h : cs.Perm bs) : Given cs x v ↔ Given bs x v := by
  simp only [Given, h.mem_iff]

theorem given_sameValues (h : List.Forall₂ SameValues cs bs) : Given cs x v ↔ Given bs x v := by
  induction h with
  | nil => rfl
  | cons same _ ih => rw [given_cons, given_cons, ih, same x]

end Given

section FirstMark

variable {bs cs : List Binding} {b : Binding}

theorem firstMark_cons : firstMark (b :: bs) = b.mark.orElse (firstMark bs) := by
  rw [firstMark, List.map_cons]
  cases b.mark <;> rfl

theorem firstMark_append : firstMark (bs ++ cs) = (firstMark bs).orElse (firstMark cs) := by
  induction bs with
  | nil => rfl
  | cons b rest ih => rw [List.cons_append, firstMark_cons, ih, firstMark_cons, Mark.orElse_assoc]

end FirstMark

section Merge

variable {b c d : Binding} {bs cs group : List Binding}

/-- A variable that has no value yet is listed with its value at the end. -/
theorem listing_bind? {x v : Term} (h : b.bind? x v = some c) :
    c.values = distinctBy Prod.fst (b.values ++ [(x, v)]) ∧ c.mark = b.mark := by
  rw [distinctBy_concat b.functional]
  cases value : b.get? x with
  | some known =>
    have listed : x ∈ b.values.map Prod.fst :=
      List.mem_map.mpr ⟨(x, known), get?_eq_some_iff.mp value, rfl⟩
    rw [bind?_of_some value, Option.ite_none_right_eq_some] at h
    obtain ⟨-, h⟩ := h
    obtain rfl := Option.some.inj h
    rw [if_pos listed]
    exact ⟨rfl, rfl⟩
  | none =>
    obtain ⟨d, bound, values, mark⟩ := values_of_bind? (v := v) value
    obtain rfl := Option.some.inj (bound.symm.trans h)
    rw [if_neg (not_mem_of_get?_eq_none value)]
    exact ⟨values, mark⟩

theorem listing_bindAll? {pairs : List (Term × Term)} (h : b.bindAll? pairs = some d) :
    d.values = distinctBy Prod.fst (b.values ++ pairs) ∧ d.mark = b.mark := by
  induction pairs generalizing b with
  | nil =>
    obtain rfl : b = d := by simpa [bindAll?] using h
    rw [List.append_nil, distinctBy_eq_self b.functional]
    exact ⟨rfl, rfl⟩
  | cons pair rest ih =>
    rw [bindAll?, List.foldlM_cons, Option.bind_eq_bind, Option.bind_eq_some_iff] at h
    obtain ⟨c, hc, hd⟩ := h
    obtain ⟨values, mark⟩ := listing_bind? hc
    obtain ⟨values', mark'⟩ := ih hd
    rw [values', values, distinctBy_distinctBy_append, List.append_assoc, List.singleton_append]
    exact ⟨rfl, mark'.trans mark⟩

theorem listing_absorb? (h : b.absorb? c = some d) :
    d.values = distinctBy Prod.fst (b.values ++ c.values) ∧ d.mark = b.mark.orElse c.mark := by
  obtain ⟨e, he, rfl⟩ := Option.map_eq_some_iff.mp h
  exact ⟨(listing_bindAll? he).1, rfl⟩

/-- Absorbing bindings adds each variable where it is first given a value. -/
theorem listing_foldlM_absorb? (h : bs.foldlM absorb? b = some d) :
    d.values = distinctBy Prod.fst (b.values ++ bs.flatMap values) ∧
      d.mark = b.mark.orElse (firstMark bs) := by
  induction bs generalizing b with
  | nil =>
    obtain rfl : b = d := by simpa using h
    rw [List.flatMap_nil, List.append_nil, distinctBy_eq_self b.functional]
    exact ⟨rfl, (Mark.orElse_plain _).symm⟩
  | cons first rest ih =>
    rw [List.foldlM_cons, Option.bind_eq_bind, Option.bind_eq_some_iff] at h
    obtain ⟨c, hc, hd⟩ := h
    obtain ⟨values, mark⟩ := listing_absorb? hc
    obtain ⟨values', mark'⟩ := ih hd
    rw [values', values, distinctBy_distinctBy_append, List.append_assoc, List.flatMap_cons,
      mark', mark, Mark.orElse_assoc, firstMark_cons]
    exact ⟨rfl, rfl⟩

/-- Merging lists every variable where it is given its value first. -/
theorem listing_merge? (h : merge? bs = some d) :
    d.values = distinctBy Prod.fst (bs.flatMap values) ∧ d.mark = firstMark bs :=
  listing_foldlM_absorb? h

/-- Bindings have a common extension if and only if they agree. -/
theorem exists_merge?_iff : (∃ d, merge? bs = some d) ↔ Agree bs := by
  constructor
  · rintro ⟨d, merged⟩ b hb c hc x v w hv hw
    have first : d.get? x = some v := (get?_merge? merged).mpr ⟨b, hb, hv⟩
    have second : d.get? x = some w := (get?_merge? merged).mpr ⟨c, hc, hw⟩
    exact Option.some.inj (first.symm.trans second)
  · intro agree
    -- one function has the values of all bindings
    have within : ∀ b ∈ bs, b.Within fun x => (bs.findSome? fun b => b.get? x).getD x := by
      intro b hb x v hv
      change v = (bs.findSome? fun b => b.get? x).getD x
      cases found : bs.findSome? fun b => b.get? x with
      | none => cases hv.symm.trans (List.findSome?_eq_none_iff.mp found b hb)
      | some w =>
        obtain ⟨c, hc, hw⟩ := List.exists_of_findSome?_eq_some found
        exact agree b hb c hc x v w hv hw
    exact exists_merge? within

/-- What bindings are merged to is determined by their listings and their marks. -/
theorem merge?_eq_some_iff :
    merge? bs = some d ↔
      Agree bs ∧ d.values = distinctBy Prod.fst (bs.flatMap values) ∧ d.mark = firstMark bs := by
  constructor
  · intro merged
    exact ⟨exists_merge?_iff.mp ⟨d, merged⟩, listing_merge? merged⟩
  · rintro ⟨agree, values, mark⟩
    obtain ⟨e, merged⟩ := exists_merge?_iff.mpr agree
    obtain ⟨values', mark'⟩ := listing_merge? merged
    rw [merged, ext_values (values.trans values'.symm) (mark.trans mark'.symm)]

/-- A group among bindings can be merged first. -/
theorem merge?_group :
    merge? (bs ++ (group ++ cs)) = (merge? group).bind fun d => merge? (bs ++ d :: cs) := by
  cases merged : merge? group with
  | none =>
    apply Option.eq_none_iff_forall_ne_some.mpr
    intro d whole
    obtain ⟨agree, -⟩ := merge?_eq_some_iff.mp whole
    have within : Agree group := fun b hb c hc =>
      agree b (List.mem_append_right _ (List.mem_append_left _ hb))
        c (List.mem_append_right _ (List.mem_append_left _ hc))
    obtain ⟨e, found⟩ := exists_merge?_iff.mpr within
    cases merged.symm.trans found
  | some d =>
    have given : ∀ x v, Given (bs ++ (group ++ cs)) x v ↔ Given (bs ++ d :: cs) x v := by
      intro x v
      rw [given_append, given_append, given_append, given_cons, get?_merge? merged]
      rfl
    obtain ⟨values, mark⟩ := listing_merge? merged
    have listed : distinctBy Prod.fst ((bs ++ (group ++ cs)).flatMap Binding.values) =
        distinctBy Prod.fst ((bs ++ d :: cs).flatMap Binding.values) := by
      rw [List.flatMap_append, List.flatMap_append, List.flatMap_append, List.flatMap_cons, values,
        distinctBy_append, ← distinctBy_distinctBy_append, ← distinctBy_append]
    have marked : firstMark (bs ++ (group ++ cs)) = firstMark (bs ++ d :: cs) := by
      rw [firstMark_append, firstMark_append, firstMark_append, firstMark_cons, mark]
    apply Option.ext
    intro e
    rw [Option.bind_some, merge?_eq_some_iff, merge?_eq_some_iff, agree_congr given, listed, marked]

/-- The values of a common extension are those of the bindings, in whatever order these come and
list their variables. -/
theorem merge?_reordered (same : ∀ x v, Given cs x v ↔ Given bs x v) :
    ((∃ e, merge? cs = some e) ↔ ∃ d, merge? bs = some d) ∧
      ∀ d e, merge? bs = some d → merge? cs = some e → e.SameValues d := by
  refine ⟨?_, ?_⟩
  · rw [exists_merge?_iff, exists_merge?_iff, agree_congr same]
  · intro d e hd he x
    apply Option.ext
    intro v
    rw [get?_merge? he, get?_merge? hd]
    exact same x v

/-- Groups can be merged first, whatever comes before them. -/
theorem merge?_append_flatten (bs : List Binding) (groups : List (List Binding)) :
    merge? (bs ++ groups.flatten) = (groups.mapM merge?).bind fun ds => merge? (bs ++ ds) := by
  induction groups generalizing bs with
  | nil => rfl
  | cons group rest ih =>
    rw [List.flatten_cons, merge?_group, List.mapM_cons]
    cases merge? group with
    | none => rfl
    | some d =>
      -- the group that is merged joins what comes before the rest
      have shifted := ih (bs ++ [d])
      simp only [List.append_assoc, List.singleton_append] at shifted
      rw [Option.bind_some, shifted]
      cases rest.mapM merge? <;> rfl

/-- Bindings can be merged group by group. -/
theorem merge?_flatten (groups : List (List Binding)) :
    merge? groups.flatten = (groups.mapM merge?).bind merge? :=
  merge?_append_flatten [] groups

end Merge

end Binding

open Binding in
/-- Merging joins bindings as partial maps. They have a common extension if and only if no two of
them give a variable different values. It has all their values and the first mark that says
something. Its values depend neither on the order of the bindings nor on the order in which each
lists its variables, and groups of neighbours can be merged first. -/
theorem merged_binding_is_join (bs : List Binding) :
    ((∃ d, merge? bs = some d) ↔ Agree bs) ∧
      (∀ d, merge? bs = some d →
        (∀ x v, d.get? x = some v ↔ Given bs x v) ∧ d.mark = firstMark bs) ∧
      (∀ reordered cs, reordered.Perm bs → List.Forall₂ SameValues cs reordered →
        ((∃ e, merge? cs = some e) ↔ ∃ d, merge? bs = some d) ∧
          ∀ d e, merge? bs = some d → merge? cs = some e → e.SameValues d) ∧
      ∀ groups : List (List Binding),
        groups.flatten = bs → (groups.mapM merge?).bind merge? = merge? bs := by
  refine ⟨exists_merge?_iff, ?_, ?_, ?_⟩
  · intro d merged
    exact ⟨fun x v => get?_merge? merged, (listing_merge? merged).2⟩
  · intro reordered cs perm relisted
    exact merge?_reordered fun x v => (given_sameValues relisted).trans (given_perm perm)
  · rintro groups rfl
    exact (merge?_flatten groups).symm

namespace Sample

/-- A man is the orator. -/
def whoIsCicero : Binding := .single ⟨"?who"⟩ ⟨"cicero"⟩

/-- He comes from Arpinum, as an added row says. -/
def whoOfTown : Binding :=
  .ofPairs [(⟨"?town"⟩, ⟨"arpinum"⟩), (⟨"?who"⟩, ⟨"cicero"⟩)] (.change true)

/-- The town lies in Latium, as a removed row says. -/
def townOfRegion : Binding :=
  .ofPairs [(⟨"?region"⟩, ⟨"latium"⟩), (⟨"?town"⟩, ⟨"arpinum"⟩)] (.change false)

end Sample

open Binding Sample in
/-- The three bindings agree, so they have a common extension, which tells the region and bears the
mark of the second one. The last two of them can be merged first, and in the other order. -/
theorem merged_binding_of_cicero :
    ∃ d, merge? [whoIsCicero, whoOfTown, townOfRegion] = some d ∧
      d.get? ⟨"?region"⟩ = some ⟨"latium"⟩ ∧ d.mark = .change true ∧
      (([[whoIsCicero], [whoOfTown, townOfRegion]].mapM merge?).bind merge? = some d) ∧
      ∃ e, merge? [townOfRegion, whoOfTown, whoIsCicero] = some e ∧ e.SameValues d := by
  obtain ⟨-, join, reorder, group⟩ :=
    merged_binding_is_join [whoIsCicero, whoOfTown, townOfRegion]
  have merged : (merge? [whoIsCicero, whoOfTown, townOfRegion]).isSome := by decide +kernel
  obtain ⟨d, hd⟩ := Option.isSome_iff_exists.mp merged
  obtain ⟨values, mark⟩ := join d hd
  obtain ⟨succeeds, same⟩ := reorder [townOfRegion, whoOfTown, whoIsCicero] _
    (by decide +kernel) (List.forall₂_same.mpr fun b _ x => rfl)
  obtain ⟨e, he⟩ := succeeds.mpr ⟨d, hd⟩
  refine ⟨d, hd, ?_, ?_, (group [[whoIsCicero], [whoOfTown, townOfRegion]] rfl).trans hd, e, he,
    same d e hd he⟩
  · exact (values _ _).mpr ⟨townOfRegion, by simp, by decide +kernel⟩
  · rw [mark]
    decide +kernel

end Annals
