import Mathlib.Data.List.Basic
import Mathlib.Data.Nat.Find
import Mathlib.Order.Bounds.Basic

/-!
# Lists

Facts about lists of any entries: partial functions that are defined on all of a list, the first
entry with a property, tests of which an entry passes one at the most, and sums of prices.
-/

namespace Annals

section Options

variable {α β : Type} {g : α → Option β} {l : List α} {out : List β}

/-- A partial function is defined on a whole list if it is on each entry, and takes them one by
one. -/
theorem mapM_eq_some_iff : l.mapM g = some out ↔ l.map g = out.map some := by
  induction l generalizing out with
  | nil => cases out <;> simp
  | cons a rest ih =>
    simp only [List.mapM_cons, Option.bind_eq_bind, Option.bind_eq_some_iff, ih]
    cases out with
    | nil => simp
    | cons b others => simp [eq_comm]

theorem mem_iff_of_mapM_eq_some {b : β} (h : l.mapM g = some out) :
    b ∈ out ↔ ∃ a ∈ l, g a = some b := by
  calc b ∈ out
    _ ↔ some b ∈ out.map some := by simp
    _ ↔ some b ∈ l.map g := by rw [mapM_eq_some_iff.mp h]
    _ ↔ ∃ a ∈ l, g a = some b := List.mem_map

theorem exists_mem_of_mapM_eq_some {a : α} (h : l.mapM g = some out) (ha : a ∈ l) :
    ∃ b ∈ out, g a = some b := by
  have listed : g a ∈ out.map some := mapM_eq_some_iff.mp h ▸ List.mem_map_of_mem ha
  obtain ⟨b, hb, same⟩ := List.mem_map.mp listed
  exact ⟨b, hb, same.symm⟩

/-- Where the function is defined on every entry, it is on the list. -/
theorem exists_mapM_eq_some {good : β → Prop} (h : ∀ a ∈ l, ∃ b, g a = some b ∧ good b) :
    ∃ out, l.mapM g = some out ∧ ∀ b ∈ out, good b := by
  induction l with
  | nil => exact ⟨[], rfl, nofun⟩
  | cons a rest ih =>
    obtain ⟨b, found, first⟩ := h a List.mem_cons_self
    obtain ⟨out, all, others⟩ := ih fun other hother => h other (List.mem_cons_of_mem a hother)
    refine ⟨b :: out, ?_, List.forall_mem_cons.mpr ⟨first, others⟩⟩
    simp [List.mapM_cons, found, all]

end Options

section First

variable {α : Type} {l : List α} {P : α → Prop} {a : α} {k : Nat}

/-- An entry is the first one with a property if none of those before it has the property. -/
theorem isLeast_getElem?_iff (hk : l[k]? = some a) :
    IsLeast {k | ∃ a, l[k]? = some a ∧ P a} k ↔ P a ∧ ∀ b ∈ l.take k, ¬ P b := by
  constructor
  · rintro ⟨⟨b, hb, own⟩, least⟩
    obtain rfl := Option.some.inj (hk.symm.trans hb)
    refine ⟨own, fun b hb earlier => ?_⟩
    obtain ⟨j, hj⟩ := List.mem_iff_getElem?.mp hb
    rw [List.getElem?_take, Option.ite_none_right_eq_some] at hj
    exact Nat.not_le_of_lt hj.1 (least ⟨b, hj.2, earlier⟩)
  · rintro ⟨own, none⟩
    refine ⟨⟨a, hk, own⟩, fun j => ?_⟩
    rintro ⟨b, hb, later⟩
    by_contra before
    have listed : (l.take k)[j]? = some b := by
      rw [List.getElem?_take, if_pos (Nat.lt_of_not_le before), hb]
    exact none b (List.mem_of_getElem? listed) later

/-- Where some entry has the property, there is a first one. -/
theorem exists_isLeast_getElem?_iff :
    (∃ k, IsLeast {k : Nat | ∃ a, l[k]? = some a ∧ P a} k) ↔ ∃ a ∈ l, P a := by
  classical
  constructor
  · rintro ⟨k, ⟨a, hk, own⟩, -⟩
    exact ⟨a, List.mem_of_getElem? hk, own⟩
  · rintro ⟨a, ha, own⟩
    obtain ⟨k, hk⟩ := List.mem_iff_getElem?.mp ha
    have some_entry : ∃ k, ∃ a, l[k]? = some a ∧ P a := ⟨k, a, hk, own⟩
    exact ⟨Nat.find some_entry, Nat.find_spec some_entry, fun j => Nat.find_min' some_entry⟩

end First

section Filters

variable {α γ : Type} {p : γ → α → Bool}

/-- Entries that pass one of two tests, and never both, are those that pass the first and those
that pass the second. -/
theorem filter_append_perm_filter_or {p q : α → Bool} {l : List α}
    (apart : ∀ a ∈ l, p a = true → q a = true → False) :
    (l.filter p ++ l.filter q).Perm (l.filter fun a => p a || q a) := by
  have split := List.filter_append_perm p (l.filter fun a => p a || q a)
  rw [List.filter_filter, List.filter_filter] at split
  have first : l.filter (fun a => p a && (p a || q a)) = l.filter p :=
    List.filter_congr fun a _ => by cases p a <;> rfl
  have second : l.filter (fun a => !p a && (p a || q a)) = l.filter q := by
    refine List.filter_congr fun a ha => ?_
    cases hp : p a with
    | false => rfl
    | true => exact (Bool.eq_false_iff.mpr (apart a ha hp)).symm
  rwa [first, second] at split

/-- Of tests of which an entry passes one at the most, all together keep what some test keeps. -/
theorem flatMap_filter_perm {cs : List γ} {l : List α} (nodup : cs.Nodup)
    (apart : ∀ a ∈ l, ∀ c ∈ cs, ∀ d ∈ cs, p c a = true → p d a = true → c = d) :
    (cs.flatMap fun c => l.filter (p c)).Perm (l.filter fun a => cs.any fun c => p c a) := by
  induction cs with
  | nil => simp
  | cons c rest ih =>
    obtain ⟨first, others⟩ := List.nodup_cons.mp nodup
    have later := ih others fun a ha c hc d hd =>
      apart a ha c (List.mem_cons_of_mem _ hc) d (List.mem_cons_of_mem _ hd)
    simp only [List.flatMap_cons, List.any_cons]
    refine (later.append_left _).trans (filter_append_perm_filter_or fun a ha own other => ?_)
    obtain ⟨d, hd, passes⟩ := List.any_eq_true.mp other
    obtain rfl := apart a ha c List.mem_cons_self d (List.mem_cons_of_mem _ hd) own passes
    exact first hd

end Filters

/-- What is paid for some of a list is the price times their number. -/
theorem foldr_price_eq {α : Type} (p : α → Bool) (price : Nat) (l : List α) :
    l.foldr (fun a n => (if p a then price else 0) + n) 0 = price * l.countP p := by
  induction l with
  | nil => rfl
  | cons a rest ih =>
    rw [List.foldr_cons, ih, List.countP_cons]
    cases p a with
    | false => rw [if_neg Bool.false_ne_true, if_neg Bool.false_ne_true, Nat.zero_add, Nat.add_zero]
    | true => rw [if_pos rfl, if_pos rfl, Nat.mul_succ, Nat.add_comm]

end Annals
