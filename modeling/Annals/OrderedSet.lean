/-!
# Finite sets as strictly ascending lists

An ordered set is its listing, so two sets with the same members are equal, and the order in which
members are shown belongs to the value. Versions, facts and row numbers are kept this way.
-/

namespace Annals

open Std

universe u

/-- A finite set, listed in strictly ascending order. -/
structure OrderedSet (α : Type u) [Ord α] where
  toList : List α
  ascending : toList.Pairwise fun a b => compare a b = .lt

namespace OrderedSet

variable {α : Type u} [Ord α]

instance [DecidableEq α] : DecidableEq (OrderedSet α) := fun s t =>
  decidable_of_iff (s.toList = t.toList) ⟨fun h => by cases s; cases t; simpa using h, congrArg _⟩

instance : EmptyCollection (OrderedSet α) := ⟨⟨[], .nil⟩⟩

instance : Inhabited (OrderedSet α) := ⟨∅⟩

instance : Membership α (OrderedSet α) := ⟨fun s a => a ∈ s.toList⟩

theorem mem_def {a : α} {s : OrderedSet α} : a ∈ s ↔ a ∈ s.toList := Iff.rfl

instance [DecidableEq α] (a : α) (s : OrderedSet α) : Decidable (a ∈ s) :=
  inferInstanceAs (Decidable (a ∈ s.toList))

@[simp] theorem not_mem_empty (a : α) : a ∉ (∅ : OrderedSet α) := List.not_mem_nil

/-- The number of members. -/
def size (s : OrderedSet α) : Nat := s.toList.length

/-- True of the empty set alone. -/
def isEmpty (s : OrderedSet α) : Bool := s.toList.isEmpty

theorem isEmpty_iff {s : OrderedSet α} : s.isEmpty = true ↔ ∀ a, a ∉ s := by
  simp only [isEmpty, List.isEmpty_iff, List.eq_nil_iff_forall_not_mem, mem_def]

theorem isEmpty_eq_false_iff {s : OrderedSet α} : s.isEmpty = false ↔ ∃ a, a ∈ s := by
  rw [← Bool.not_eq_true, isEmpty_iff, Classical.not_forall_not]

/-- The members that pass a test. -/
def filter (keep : α → Bool) (s : OrderedSet α) : OrderedSet α :=
  ⟨s.toList.filter keep, s.ascending.filter _⟩

@[simp] theorem mem_filter {keep : α → Bool} {s : OrderedSet α} {a : α} :
    a ∈ s.filter keep ↔ a ∈ s ∧ keep a = true := List.mem_filter

/-- Puts a member in its place; a member that is there already stays as it is. -/
def place (a : α) : List α → List α
  | [] => [a]
  | b :: rest =>
    match compare a b with
    | .lt => a :: b :: rest
    | .eq => b :: rest
    | .gt => b :: place a rest

section Lawful

variable [LawfulEqOrd α]

@[simp] theorem mem_place {a b : α} {l : List α} : b ∈ place a l ↔ b = a ∨ b ∈ l := by
  induction l with
  | nil => simp [place]
  | cons c rest ih =>
    rw [place]
    split
    · simp
    · next h =>
      have hac : a = c := LawfulEqCmp.eq_of_compare h
      subst hac
      simp
    · simp only [List.mem_cons, ih]
      constructor
      · rintro (h | h | h) <;> simp [h]
      · rintro (h | h | h) <;> simp [h]

theorem ascending_place [TransOrd α] {a : α} {l : List α}
    (h : l.Pairwise fun a b => compare a b = .lt) :
    (place a l).Pairwise fun a b => compare a b = .lt := by
  induction l with
  | nil => simp [place]
  | cons c rest ih =>
    obtain ⟨first, tail⟩ := List.pairwise_cons.1 h
    rw [place]
    split
    · next hlt =>
      refine List.pairwise_cons.2 ⟨fun d hd => ?_, h⟩
      rcases List.mem_cons.1 hd with rfl | hd
      · exact hlt
      · exact TransCmp.lt_trans hlt (first d hd)
    · exact h
    · next hgt =>
      refine List.pairwise_cons.2 ⟨fun d hd => ?_, ih tail⟩
      rcases mem_place.1 hd with rfl | hd
      · exact OrientedCmp.gt_iff_lt.1 hgt
      · exact first d hd

variable [TransOrd α]

/-- The set with one more member. -/
def insert (a : α) (s : OrderedSet α) : OrderedSet α :=
  ⟨place a s.toList, ascending_place s.ascending⟩

@[simp] theorem mem_insert {a b : α} {s : OrderedSet α} : b ∈ s.insert a ↔ b = a ∨ b ∈ s :=
  mem_place

/-- The set of the members of a list. -/
def ofList (l : List α) : OrderedSet α := l.foldr insert ∅

@[simp] theorem mem_ofList {a : α} {l : List α} : a ∈ ofList l ↔ a ∈ l := by
  induction l with
  | nil => simp [ofList]
  | cons b rest ih =>
    change a ∈ insert b (ofList rest) ↔ a ∈ b :: rest
    simp [ih]

/-- The members of either set. -/
def union (s t : OrderedSet α) : OrderedSet α := t.toList.foldr insert s

instance : Union (OrderedSet α) := ⟨union⟩

@[simp] theorem mem_union {a : α} {s t : OrderedSet α} : a ∈ s ∪ t ↔ a ∈ s ∨ a ∈ t := by
  change a ∈ t.toList.foldr insert s ↔ a ∈ s ∨ a ∈ t.toList
  generalize t.toList = l
  induction l with
  | nil => simp
  | cons b rest ih =>
    simp only [List.foldr_cons, mem_insert, ih, List.mem_cons]
    constructor
    · rintro (h | h | h) <;> simp [h]
    · rintro (h | h | h) <;> simp [h]

end Lawful

section Decided

variable [DecidableEq α]

/-- The set without one of its members. -/
def erase (s : OrderedSet α) (a : α) : OrderedSet α := s.filter fun b => decide (b ≠ a)

@[simp] theorem mem_erase {a b : α} {s : OrderedSet α} : b ∈ s.erase a ↔ b ∈ s ∧ b ≠ a := by
  simp [erase]

instance : Inter (OrderedSet α) := ⟨fun s t => s.filter fun a => decide (a ∈ t)⟩

@[simp] theorem mem_inter {a : α} {s t : OrderedSet α} : a ∈ s ∩ t ↔ a ∈ s ∧ a ∈ t := by
  change a ∈ s.filter _ ↔ _
  simp

instance : SDiff (OrderedSet α) := ⟨fun s t => s.filter fun a => decide (a ∉ t)⟩

@[simp] theorem mem_sdiff {a : α} {s t : OrderedSet α} : a ∈ s \ t ↔ a ∈ s ∧ a ∉ t := by
  change a ∈ s.filter _ ↔ _
  simp

end Decided

/-- Each member is listed once. -/
theorem nodup_toList [TransOrd α] (s : OrderedSet α) : s.toList.Nodup :=
  s.ascending.imp fun {a b} h e => by subst e; simp [ReflOrd.compare_self] at h

/-- An ordered set is determined by its members. -/
@[ext] theorem ext [TransOrd α] {s t : OrderedSet α} (h : ∀ a, a ∈ s ↔ a ∈ t) : s = t := by
  have same : s.toList = t.toList :=
    List.Perm.eq_of_pairwise
      (fun a b _ _ (hab : compare a b = .lt) (hba : compare b a = .lt) =>
        absurd hba (OrientedCmp.not_lt_of_lt hab))
      s.ascending t.ascending ((List.perm_ext_iff_of_nodup s.nodup_toList t.nodup_toList).2 h)
  cases s
  cases t
  simpa using same

end OrderedSet

end Annals
