/-!
# What a run of inference did
-/

namespace Annals

/-- How often each label was counted, in the order of the labels. -/
structure Tally where
  counts : List (String × Nat) := []
  deriving DecidableEq, Repr

namespace Tally

/-- Counts a label in its place. -/
def bump (label : String) : List (String × Nat) → List (String × Nat)
  | [] => [(label, 1)]
  | (l, n) :: rest =>
    match compare label l with
    | .lt => (label, 1) :: (l, n) :: rest
    | .eq => (l, n + 1) :: rest
    | .gt => (l, n) :: bump label rest

/-- Counts a label once more. -/
def add (t : Tally) (label : String) : Tally := ⟨bump label t.counts⟩

/-- The sum of all counts. -/
def total (t : Tally) : Nat := t.counts.foldr (fun (_, n) rest => n + rest) 0

@[simp] theorem total_add (t : Tally) (label : String) : (t.add label).total = t.total + 1 := by
  obtain ⟨counts⟩ := t
  simp only [add, total]
  induction counts with
  | nil => rfl
  | cons entry rest ih =>
    rw [bump]
    split
    · simp only [List.foldr_cons]
      omega
    · simp only [List.foldr_cons]
      omega
    · simp only [List.foldr_cons, ih]
      omega

theorem total_foldl_add {α : Type} (label : α → String) (firings : List α) (t : Tally) :
    (firings.foldl (fun t firing => t.add (label firing)) t).total = t.total + firings.length := by
  induction firings generalizing t with
  | nil => rfl
  | cons firing rest ih =>
    rw [List.foldl_cons, ih, total_add, List.length_cons]
    omega

end Tally

/-- The counters of a run. -/
structure Report where
  /-- Rounds made, the last of which found nothing new. -/
  rounds : Nat := 0
  /-- Distinct ways in which a row set off a rule. -/
  triggered : Nat := 0
  /-- Rows found beyond those of the stores, each gain of versions counting as one. -/
  inferred : Nat := 0
  /-- Retractions dropped because their facts can still be concluded. -/
  suppressed : Nat := 0
  /-- Queries put to stores. -/
  asked : Nat := 0
  /-- How often each rule was set off. -/
  fired : Tally := {}
  deriving DecidableEq, Repr

namespace Report

/-- Counts that a rule was set off. -/
def countFiring (r : Report) (label : String) : Report :=
  { r with triggered := r.triggered + 1, fired := r.fired.add label }

/-- Each of several firings counts once, and the rest of the report stays. -/
theorem foldl_countFiring {α : Type} (label : α → String) (firings : List α) (r : Report) :
    firings.foldl (fun r firing => r.countFiring (label firing)) r =
      { r with
        triggered := r.triggered + firings.length
        fired := firings.foldl (fun t firing => t.add (label firing)) r.fired } := by
  induction firings generalizing r with
  | nil => rfl
  | cons firing rest ih =>
    have triggered : r.triggered + 1 + rest.length = r.triggered + (rest.length + 1) := by omega
    rw [List.foldl_cons, ih]
    simp only [countFiring, List.foldl_cons, List.length_cons, triggered]

end Report

end Annals
