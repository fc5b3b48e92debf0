import Annals.Proofs.Inference.Absorbing
import Mathlib.Data.List.Find

/-!
# Repeated rows

An answer takes in a row once, so it makes no difference how often a row is handed to it. Firings
with one key conclude the same rows. So firings that are left out because another one has their key
are not missed.
-/

namespace Annals

section Distinct

variable {α β γ : Type} [DecidableEq β] [DecidableEq γ]

/-- To leave out entries by their keys, it does not matter whether before or after repetitions. -/
theorem filter_distinctBy {key : α → γ} {p : α → Bool}
    (byKey : ∀ a b, key a = key b → p a = p b) (l : List α) :
    (distinctBy key l).filter p = distinctBy key (l.filter p) := by
  induction l with
  | nil => rfl
  | cons a rest ih =>
    cases ha : p a with
    | true =>
      rw [List.filter_cons_of_pos ha, distinctBy, distinctBy, List.filter_cons_of_pos ha, ← ih,
        List.filter_filter, List.filter_filter]
      simp only [Bool.and_comm]
    | false =>
      rw [List.filter_cons_of_neg (ne_true_of_eq_false ha), distinctBy,
        List.filter_cons_of_neg (ne_true_of_eq_false ha), ← ih, List.filter_filter]
      refine List.filter_congr fun b _ => ?_
      by_cases same : key b = key a
      · simp [byKey b a same, ha]
      · simp [same]

/-- Repetitions are left out with those of their keys. -/
theorem distinctBy_distinct (key : β → γ) (l : List β) :
    distinctBy key (distinct l) = distinctBy key l := by
  induction l with
  | nil => rfl
  | cons a rest ih =>
    have byKey : ∀ b c, key b = key c → decide (key b ≠ key a) = decide (key c ≠ key a) := by
      intro b c same
      rw [same]
    have others : ∀ b, (decide (key b ≠ key a) && decide (b ≠ a)) = decide (key b ≠ key a) := by
      intro b
      by_cases same : b = a
      · simp [same]
      · simp [same]
    calc distinctBy key (distinct (a :: rest))
      _ = a :: (distinctBy key ((distinct rest).filter fun b => decide (b ≠ a))).filter
            fun b => decide (key b ≠ key a) := rfl
      _ = a :: distinctBy key ((distinct rest).filter fun b => decide (key b ≠ key a)) := by
        rw [filter_distinctBy byKey, List.filter_filter]
        simp only [others]
      _ = a :: (distinctBy key rest).filter fun b => decide (key b ≠ key a) := by
        rw [← filter_distinctBy byKey, ih]

/-- Entries with one key are told apart by nothing, so the first one with a property is the same. -/
theorem find?_distinctBy {key : α → γ} {p : α → Bool}
    (byKey : ∀ a b, key a = key b → p a = p b) (l : List α) :
    (distinctBy key l).find? p = l.find? p := by
  induction l with
  | nil => rfl
  | cons a rest ih =>
    cases ha : p a with
    | true => rw [distinctBy, List.find?_cons_of_pos ha, List.find?_cons_of_pos ha]
    | false =>
      rw [distinctBy, List.find?_cons_of_neg (ne_true_of_eq_false ha),
        List.find?_cons_of_neg (ne_true_of_eq_false ha), List.find?_filter, ← ih]
      refine List.find?_congr fun b _ => ?_
      by_cases same : key b = key a
      · simp [byKey b a same, ha]
      · simp [same]

/-- If entries with one key give the same, then one of each key gives all that is distinct, in the
same order. -/
theorem distinct_flatMap_distinctBy {key : α → γ} {g : α → List β}
    (byKey : ∀ a b, key a = key b → g a = g b) (l : List α) :
    distinct ((distinctBy key l).flatMap g) = distinct (l.flatMap g) := by
  induction l with
  | nil => rfl
  | cons a rest ih =>
    have own : (g a).filter (fun c => decide (c ∉ g a)) = [] := by simp
    have unseen : ∀ l : List α,
        ((l.filter fun b => decide (key b ≠ key a)).flatMap g).filter (fun c => decide (c ∉ g a)) =
          (l.flatMap g).filter fun c => decide (c ∉ g a) := by
      intro l
      induction l with
      | nil => rfl
      | cons b rest ih =>
        by_cases same : key b = key a
        · rw [List.filter_cons_of_neg (by simp [same]), ih, List.flatMap_cons, List.filter_append,
            byKey b a same, own, List.nil_append]
        · rw [List.filter_cons_of_pos (by simpa using same), List.flatMap_cons, List.flatMap_cons,
            List.filter_append, List.filter_append, ih]
    have apart : ∀ l : List β, (distinct l).filter (fun c => decide (c ∉ g a)) =
        distinct (l.filter fun c => decide (c ∉ g a)) :=
      filter_distinctBy fun b c (same : b = c) => by rw [same]
    rw [distinctBy, List.flatMap_cons, List.flatMap_cons, distinct_append, distinct_append, apart,
      unseen, ← apart, ih]

end Distinct

theorem SnapshotAnswer.absorb_distinct (a : SnapshotAnswer) (rows : List Triple) :
    a.absorb (distinct rows) = a.absorb rows := by
  rw [absorb, absorb, distinct_eq_self (nodup_distinct rows)]

theorem DeltaAnswer.absorb_distinct (a : DeltaAnswer) (rows : List Triple) :
    a.absorb (distinct rows) = a.absorb rows := by
  have facts : ∀ f, f ∈ (distinct rows).map Triple.fact ↔ f ∈ rows.map Triple.fact := by
    intro f
    simp
  have retained : a.retained (distinct rows) = a.retained rows := by
    simp only [DeltaAnswer.retained, facts]
  rw [absorb, absorb, retained, distinctBy_distinct]

namespace HistoryAnswer

variable {a : HistoryAnswer} {row other : Triple} {rows : List Triple}

/-- The answer has all versions of the row. -/
def Has (a : HistoryAnswer) (row : Triple) : Prop :=
  ∀ versions, row.mark.versions? = some versions → ∀ v, v ∈ versions → v ∈ a.versionsOf row.fact

theorem has_iff : a.Has row ↔ ∀ v ∈ row.versions, v ∈ a.versionsOf row.fact := by
  rw [Has, Triple.versions]
  cases row.mark.versions? with
  | none =>
    refine iff_of_true (fun versions named => ?_) fun v hv => absurd hv (OrderedSet.not_mem_empty v)
    cases named
  | some versions => simp only [Option.some.injEq, forall_eq', Option.getD_some]

/-- Nothing is gained from a row whose versions the answer has. -/
theorem add_of_has (h : a.Has row) : a.add row = (a, none) := by
  rw [add_eq, if_pos]
  refine OrderedSet.isEmpty_iff.mpr fun v hv => ?_
  obtain ⟨listed, new⟩ := OrderedSet.mem_sdiff.mp hv
  exact new (has_iff.mp h v listed)

/-- An answer loses no version. -/
theorem Has.add (h : a.Has row) : (a.add other).1.Has row :=
  has_iff.mpr fun v hv => mem_versionsOf_add.mpr (Or.inl (has_iff.mp h v hv))

theorem has_add : (a.add row).1.Has row :=
  has_iff.mpr fun _ hv => mem_versionsOf_add.mpr (Or.inr ⟨rfl, hv⟩)

/-- A row whose versions the answer has can be left out wherever it comes. -/
theorem absorb_filter_ne (h : a.Has row) :
    a.absorb (rows.filter fun other => decide (other ≠ row)) = a.absorb rows := by
  induction rows generalizing a with
  | nil => rfl
  | cons other rest ih =>
    by_cases same : other = row
    · subst same
      rw [List.filter_cons_of_neg (by simp), ih h, absorb_cons, add_of_has h]
      rfl
    · rw [List.filter_cons_of_pos (by simpa using same), absorb_cons, absorb_cons, ih h.add]

theorem absorb_distinct (a : HistoryAnswer) (rows : List Triple) :
    a.absorb (distinct rows) = a.absorb rows := by
  induction rows generalizing a with
  | nil => rfl
  | cons row rest ih =>
    have later : (a.add row).1.absorb ((distinct rest).filter fun other => decide (other ≠ row)) =
        (a.add row).1.absorb rest := (absorb_filter_ne has_add).trans (ih _)
    change a.absorb (row :: (distinct rest).filter fun other => decide (other ≠ row)) = _
    rw [absorb_cons, absorb_cons, later]

end HistoryAnswer

namespace Answer

/-- An answer does not see how often a row is handed to it. -/
theorem absorb_distinct (a : Answer) (rows : List Triple) :
    a.absorb (distinct rows) = a.absorb rows := by
  cases a with
  | snapshot a => simp only [absorb, SnapshotAnswer.absorb_distinct]
  | delta a => simp only [absorb, DeltaAnswer.absorb_distinct]
  | history a => simp only [absorb, HistoryAnswer.absorb_distinct]

/-- Of firings with one key, one is enough. -/
theorem absorb_flatMap_distinctBy {α γ : Type} [DecidableEq γ] {key : α → γ}
    {g : α → List Triple} (byKey : ∀ a b, key a = key b → g a = g b) (a : Answer) (l : List α) :
    a.absorb ((distinctBy key l).flatMap g) = a.absorb (l.flatMap g) := by
  rw [← absorb_distinct, distinct_flatMap_distinctBy byKey, absorb_distinct]

end Answer

end Annals
