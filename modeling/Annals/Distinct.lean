/-!
# First occurrences

Rows, firings and linked terms are kept once each, in the order in which they were first met.
-/

namespace Annals

universe u v

variable {α : Type u} {β : Type v} [DecidableEq β]

/-- The entries whose key has not occurred earlier in the list. -/
def distinctBy (key : α → β) : List α → List α
  | [] => []
  | a :: rest => a :: (distinctBy key rest).filter fun b => decide (key b ≠ key a)

/-- The distinct entries of a list, in order of first occurrence. -/
def distinct : List β → List β := distinctBy id

theorem distinctBy_sublist (key : α → β) (l : List α) : (distinctBy key l).Sublist l := by
  induction l with
  | nil => exact .slnil
  | cons a rest ih => exact (List.filter_sublist.trans ih).cons_cons a

/-- Every key that occurs is kept. -/
theorem mem_map_distinctBy {key : α → β} {l : List α} {k : β} :
    k ∈ (distinctBy key l).map key ↔ k ∈ l.map key := by
  induction l with
  | nil => simp [distinctBy]
  | cons a rest ih =>
    by_cases h : k = key a
    · simp [distinctBy, h]
    · simp only [distinctBy, List.map_cons, List.mem_cons, h, false_or, ← ih]
      simp only [List.mem_map, List.mem_filter, decide_eq_true_eq]
      constructor
      · rintro ⟨b, ⟨hb, -⟩, rfl⟩
        exact ⟨b, hb, rfl⟩
      · rintro ⟨b, hb, rfl⟩
        exact ⟨b, ⟨hb, h⟩, rfl⟩

/-- No key is kept twice. -/
theorem nodup_map_distinctBy (key : α → β) (l : List α) : ((distinctBy key l).map key).Nodup := by
  induction l with
  | nil => simp [distinctBy]
  | cons a rest ih =>
    rw [distinctBy, List.map_cons, List.nodup_cons]
    refine ⟨?_, ih.sublist (List.filter_sublist.map key)⟩
    simp only [List.mem_map, List.mem_filter, decide_eq_true_eq]
    rintro ⟨b, ⟨-, hb⟩, he⟩
    exact hb he

@[simp] theorem mem_distinct {l : List β} {b : β} : b ∈ distinct l ↔ b ∈ l := by
  have keys : b ∈ (distinctBy id l).map id ↔ b ∈ l.map id := mem_map_distinctBy
  simpa [distinct] using keys

theorem nodup_distinct (l : List β) : (distinct l).Nodup := by
  simpa [distinct] using nodup_map_distinctBy id l

/-- Where no key occurs twice, every entry is kept. -/
theorem distinctBy_eq_self {key : α → β} {l : List α} (h : (l.map key).Nodup) :
    distinctBy key l = l := by
  induction l with
  | nil => rfl
  | cons a rest ih =>
    obtain ⟨first, others⟩ := List.nodup_cons.mp h
    have kept : rest.filter (fun b => decide (key b ≠ key a)) = rest :=
      List.filter_eq_self.mpr fun b hb => decide_eq_true fun same =>
        first (List.mem_map.mpr ⟨b, hb, same⟩)
    rw [distinctBy, ih others, kept]

/-- The entries of a second list are kept unless the first one has their keys. -/
theorem distinctBy_append (key : α → β) (l m : List α) :
    distinctBy key (l ++ m) =
      distinctBy key l ++ (distinctBy key m).filter fun b => decide (key b ∉ l.map key) := by
  induction l with
  | nil => exact (List.filter_eq_self.mpr fun _ _ => by simp).symm
  | cons a rest ih =>
    rw [List.cons_append, distinctBy, distinctBy, ih, List.filter_append, List.filter_filter,
      List.cons_append]
    simp only [List.map_cons, List.mem_cons, not_or, Bool.decide_and]

/-- One more entry is kept at the end if its key is new. -/
theorem distinctBy_concat {key : α → β} {l : List α} (nodup : (l.map key).Nodup) (a : α) :
    distinctBy key (l ++ [a]) = if key a ∈ l.map key then l else l ++ [a] := by
  have single : distinctBy key [a] = [a] := rfl
  rw [distinctBy_append, distinctBy_eq_self nodup, single, List.filter_cons, List.filter_nil]
  by_cases h : key a ∈ l.map key
  · rw [if_pos h, if_neg (by simpa using h), List.append_nil]
  · rw [if_neg h, if_pos (by simpa using h)]

/-- What the keys of the first list keep out does not depend on repetitions in it. -/
theorem distinctBy_distinctBy_append (key : α → β) (l m : List α) :
    distinctBy key (distinctBy key l ++ m) = distinctBy key (l ++ m) := by
  rw [distinctBy_append, distinctBy_append, distinctBy_eq_self (nodup_map_distinctBy key l)]
  simp only [mem_map_distinctBy]

theorem distinct_eq_self {l : List β} (h : l.Nodup) : distinct l = l :=
  distinctBy_eq_self (by rwa [List.map_id])

theorem distinct_append (l m : List β) :
    distinct (l ++ m) = distinct l ++ (distinct m).filter fun b => decide (b ∉ l) := by
  have whole := distinctBy_append id l m
  rw [List.map_id] at whole
  exact whole

theorem distinct_concat {l : List β} (nodup : l.Nodup) (b : β) :
    distinct (l ++ [b]) = if b ∈ l then l else l ++ [b] := by
  have keys : (l.map id).Nodup := by rwa [List.map_id]
  have whole := distinctBy_concat keys b
  rw [List.map_id] at whole
  exact whole

theorem distinct_distinct_append (l m : List β) :
    distinct (distinct l ++ m) = distinct (l ++ m) :=
  distinctBy_distinctBy_append id l m

end Annals
