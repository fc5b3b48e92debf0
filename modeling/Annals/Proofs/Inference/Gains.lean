import Annals.Proofs.Inference.Course
import Annals.Proofs.Inference.Merging
import Annals.Proofs.Store.Append

/-!
# What is gained on the way

In the course of an answer over all versions it is known by then what the earlier steps named, and a
step hands on the rest of what it names. So each fact is handed on once at every version that it has
in the end, by the first step that names it there: nothing that was gained is lost, and nothing sets
off rules twice.
-/

namespace Annals

/-- The step with the number names the fact at the version. -/
def NamedAt (steps : List (List Triple)) (f : Fact) (v : Version) (k : Nat) : Prop :=
  ∃ rows, steps[k]? = some rows ∧ ∃ row ∈ rows, row.Names f v

section Steps

variable {steps : List (List Triple)} {rows : List Triple} {f : Fact} {v : Version} {k : Nat}

/-- A step is the first one to name a fact at a version if no step before it does. -/
theorem isLeast_namedAt_iff (hk : steps[k]? = some rows) :
    IsLeast {k | NamedAt steps f v k} k ↔
      v ∈ versionsIn rows f ∧ v ∉ versionsIn (steps.take k).flatten f := by
  refine (isLeast_getElem?_iff hk).trans (and_congr mem_versionsIn.symm ?_)
  rw [mem_versionsIn]
  constructor
  · rintro never ⟨row, hrow, named⟩
    obtain ⟨rows, hrows, hrow⟩ := List.mem_flatten.mp hrow
    exact never rows hrows ⟨row, hrow, named⟩
  · rintro never rows hrows ⟨row, hrow, named⟩
    exact never ⟨row, List.mem_flatten.mpr ⟨rows, hrows, hrow⟩, named⟩

/-- Where some step names a fact at a version, there is a first one. -/
theorem exists_isLeast_namedAt :
    (∃ k, IsLeast {k | NamedAt steps f v k} k) ↔ v ∈ versionsIn steps.flatten f := by
  refine exists_isLeast_getElem?_iff.trans ?_
  rw [mem_versionsIn]
  constructor
  · rintro ⟨rows, hrows, row, hrow, named⟩
    exact ⟨row, List.mem_flatten.mpr ⟨rows, hrows, hrow⟩, named⟩
  · rintro ⟨row, hrow, named⟩
    obtain ⟨rows, hrows, hrow⟩ := List.mem_flatten.mp hrow
    exact ⟨rows, hrows, row, hrow, named⟩

end Steps

namespace Course

variable {seed : List Triple} {rounds : List (List Triple)} {k : Nat} {frontier : Frontier}

/-- An answer over all versions has taken in the rows of all steps, one after the other. -/
theorem answer_history : (ofRounds .history seed rounds).answer =
    .history ((⟨[]⟩ : HistoryAnswer).absorb (seed :: rounds).flatten).1 := by
  induction rounds using List.reverseRecOn with
  | nil =>
    rw [List.flatten_singleton]
    rfl
  | append_singleton rounds concluded ih =>
    rw [ofRounds_concat, absorb, ih, ← List.cons_append, List.flatten_append,
      List.flatten_singleton, HistoryAnswer.absorb_append]
    rfl

/-- Each frontier is what its step adds to the steps before it. -/
theorem exists_of_history (hk : (ofRounds .history seed rounds).frontiers[k]? = some frontier) :
    ∃ rows, (seed :: rounds)[k]? = some rows ∧ frontier.toList =
      (((⟨[]⟩ : HistoryAnswer).absorb ((seed :: rounds).take k).flatten).1.absorb rows).2 := by
  cases k with
  | zero =>
    obtain rfl := Option.some.inj (getElem?_frontiers_zero.symm.trans hk)
    exact ⟨seed, rfl, Frontier.toList_ofList _⟩
  | succ k =>
    rw [getElem?_frontiers_succ, Option.map_eq_some_iff] at hk
    obtain ⟨concluded, hc, rfl⟩ := hk
    refine ⟨concluded, hc, ?_⟩
    rw [answer_history]
    exact Frontier.toList_ofList _

/-- The answer has the merged rows of all steps. -/
theorem rows_history :
    (ofRounds .history seed rounds).answer.rows = mergeByFact (seed :: rounds).flatten := by
  rw [answer_history]
  rfl

/-- The answer names a fact at a version if and only if some step did, and so there is a first one
that did. -/
theorem exists_names_iff {f : Fact} {v : Version} :
    (∃ row ∈ (ofRounds .history seed rounds).answer.rows, row.Names f v) ↔
      ∃ k, IsLeast {k | NamedAt (seed :: rounds) f v k} k := by
  rw [← mem_versionsIn, rows_history, versionsIn_mergeByFact, exists_isLeast_namedAt]

/-- A frontier names a fact at a version in one row if its step is the first one to do so, and in
none if it is not. -/
theorem countP_frontier (hk : (ofRounds .history seed rounds).frontiers[k]? = some frontier)
    (f : Fact) (v : Version) :
    (IsLeast {k | NamedAt (seed :: rounds) f v k} k →
        frontier.toList.countP (fun row => decide (row.Names f v)) = 1) ∧
      (¬ IsLeast {k | NamedAt (seed :: rounds) f v k} k →
        ∀ row ∈ frontier.toList, ¬ row.Names f v) := by
  obtain ⟨rows, hrows, listed⟩ := exists_of_history hk
  have new := isLeast_namedAt_iff (f := f) (v := v) hrows
  rw [← HistoryAnswer.versionsOf_absorb_empty ((seed :: rounds).take k).flatten] at new
  rw [listed]
  constructor
  · intro first
    rw [HistoryAnswer.countP_absorb, if_pos (new.mp first)]
  · intro other row hrow named
    have none : (((⟨[]⟩ : HistoryAnswer).absorb ((seed :: rounds).take k).flatten).1.absorb
        rows).2.countP (fun row => decide (row.Names f v)) = 0 := by
      rw [HistoryAnswer.countP_absorb, if_neg (mt new.mpr other)]
    exact List.countP_eq_zero.mp none row hrow (decide_eq_true named)

theorem exists_version_of_mem_frontier
    (hf : frontier ∈ (ofRounds .history seed rounds).frontiers) {row : Triple}
    (hrow : row ∈ frontier.toList) :
    ∃ versions, row.mark = .holding versions ∧ ∃ v, v ∈ versions := by
  obtain ⟨k, hk⟩ := List.mem_iff_getElem?.mp hf
  obtain ⟨rows, -, listed⟩ := exists_of_history hk
  exact HistoryAnswer.exists_version_of_mem_absorb (listed ▸ hrow)

end Course

/-- Over all versions an answer that took in a seed and rounds of any rows has each fact that a
version was named of once, in the order in which these facts first occurred, with all versions that
were named of it. Of each fact that it has at a version, one row was handed on that names it there,
by the first step that did. No other was, and none without versions. So rows that are merged stay as
they are, and come out the same, up to their order, in whatever order they go in. -/
theorem versions_are_handed_on_once (seed : List Triple) (rounds : List (List Triple)) :
    (Course.ofRounds .history seed rounds).answer.rows =
        (datedFacts (seed :: rounds).flatten).map
          (fun f => ⟨f, .holding (versionsIn (seed :: rounds).flatten f)⟩) ∧
      (Course.ofRounds .history seed rounds).frontiers.length = rounds.length + 1 ∧
      (∀ frontier ∈ (Course.ofRounds .history seed rounds).frontiers, ∀ row ∈ frontier.toList,
        ∃ versions, row.mark = .holding versions ∧ ∃ v, v ∈ versions) ∧
      (∀ f v, (∃ row ∈ (Course.ofRounds .history seed rounds).answer.rows, row.Names f v) ↔
        ∃ k, IsLeast {k | NamedAt (seed :: rounds) f v k} k) ∧
      (∀ k frontier, (Course.ofRounds .history seed rounds).frontiers[k]? = some frontier →
        ∀ f v,
          (IsLeast {k | NamedAt (seed :: rounds) f v k} k →
            frontier.toList.countP (fun row => decide (row.Names f v)) = 1) ∧
          (¬ IsLeast {k | NamedAt (seed :: rounds) f v k} k →
            ∀ row ∈ frontier.toList, ¬ row.Names f v)) ∧
      ∀ rows, mergeByFact (mergeByFact rows) = mergeByFact rows ∧
        ∀ others, others.Perm rows → (mergeByFact others).Perm (mergeByFact rows) := by
  refine ⟨Course.rows_history.trans (mergeByFact_eq _), Course.length_frontiers, ?_, ?_, ?_,
    fun rows => ⟨?_, ?_⟩⟩
  · intro frontier hf row hrow
    exact Course.exists_version_of_mem_frontier hf hrow
  · intro f v
    exact Course.exists_names_iff
  · intro k frontier hk f v
    exact Course.countP_frontier hk f v
  · exact mergeByFact_mergeByFact rows
  · intro others perm
    exact mergeByFact_perm perm

namespace Sample

/-- The lamp is lit in the first version. -/
def firstSight : List Triple := [⟨lampIsLit, .holding (.ofList [0])⟩]

/-- It is lit in the second version too, and in the third one by the row that tells so last. -/
def laterSights : List (List Triple) :=
  [[⟨lampIsLit, .holding ∅⟩, ⟨lampIsLit, .holding (.ofList [0, 1])⟩],
    [⟨lampIsLit, .plain⟩, ⟨lampIsLit, .holding (.ofList [1, 2])⟩]]

end Sample

/-- The second step is the first one to tell of the second version, which is handed on once. -/
theorem versions_of_lamp_are_handed_on_once :
    IsLeast {k | NamedAt (Sample.firstSight :: Sample.laterSights) Sample.lampIsLit 1 k} 1 ∧
      ∃ frontier,
        (Course.ofRounds .history Sample.firstSight Sample.laterSights).frontiers[1]? =
          some frontier ∧
        frontier.toList.countP (fun row => decide (row.Names Sample.lampIsLit 1)) = 1 ∧
        (Course.ofRounds .history Sample.firstSight Sample.laterSights).answer.rows =
          [⟨Sample.lampIsLit, .holding (.ofList [0, 1, 2])⟩] := by
  have first : IsLeast
      {k | NamedAt (Sample.firstSight :: Sample.laterSights) Sample.lampIsLit 1 k} 1 :=
    (isLeast_namedAt_iff rfl).mpr (by decide +kernel)
  obtain ⟨rows, length, -, -, handed, -⟩ :=
    versions_are_handed_on_once Sample.firstSight Sample.laterSights
  obtain ⟨frontier, hk⟩ : ∃ frontier,
      (Course.ofRounds .history Sample.firstSight Sample.laterSights).frontiers[1]? =
        some frontier := by
    refine ⟨_, List.getElem?_eq_getElem ?_⟩
    rw [length]
    decide
  refine ⟨first, frontier, hk, (handed 1 frontier hk Sample.lampIsLit 1).1 first, rows.trans ?_⟩
  decide +kernel

end Annals
