import Annals.Proofs.Inference.Course
import Annals.Proofs.Inference.Delta

/-!
# Retractions that are dropped

In the course of a difference a retraction goes as soon as a round concludes its fact, and no other
row does. What is known are the facts that were handed on so far, those that the seed asserts and
those that a round concluded. So each fact is handed on once, by the first step that has it.
-/

namespace Annals

/-- The facts that rounds concluded. -/
def factsOf (rounds : List (List Triple)) : List Fact := rounds.flatten.map Triple.fact

/-- The round with the number concludes the fact. -/
def ConcludedAt (rounds : List (List Triple)) (f : Fact) (k : Nat) : Prop :=
  ∃ concluded, rounds[k]? = some concluded ∧ f ∈ concluded.map Triple.fact

section Rounds

variable {rounds : List (List Triple)} {concluded : List Triple} {f : Fact} {k : Nat}

theorem factsOf_concat :
    factsOf (rounds ++ [concluded]) = factsOf rounds ++ concluded.map Triple.fact := by
  rw [factsOf, List.flatten_append, List.flatten_singleton, List.map_append]
  rfl

theorem mem_factsOf : f ∈ factsOf rounds ↔ ∃ concluded ∈ rounds, f ∈ concluded.map Triple.fact := by
  simp only [factsOf, List.map_flatten, List.mem_flatten, List.mem_map (f := List.map Triple.fact),
    exists_exists_and_eq_and]

/-- A round is the first one to conclude a fact if no round before it does. -/
theorem isLeast_concludedAt_iff (hk : rounds[k]? = some concluded) :
    IsLeast {k | ConcludedAt rounds f k} k ↔
      f ∈ concluded.map Triple.fact ∧ f ∉ factsOf (rounds.take k) := by
  refine (isLeast_getElem?_iff hk).trans (and_congr_right fun _ => ?_)
  rw [mem_factsOf]
  exact ⟨fun never ⟨rows, hrows, named⟩ => never rows hrows named,
    fun never rows hrows named => never ⟨rows, hrows, named⟩⟩

end Rounds

namespace DeltaAnswer

variable {a : DeltaAnswer} {rows : List Triple} {f : Fact}

theorem mem_map_asserted : f ∈ (ofRows rows).2.map Triple.fact ↔ ⟨f, .change true⟩ ∈ rows := by
  rw [List.mem_map]
  constructor
  · rintro ⟨⟨g, mark⟩, hrow, rfl⟩
    obtain ⟨mem, rfl⟩ := mem_asserted.mp hrow
    exact mem
  · intro mem
    exact ⟨_, mem_asserted.mpr ⟨mem, rfl⟩, rfl⟩

/-- An asserted fact has one row that asserts it. -/
theorem nodup_map_asserted (rows : List Triple) : ((ofRows rows).2.map Triple.fact).Nodup := by
  refine List.Nodup.map_on ?_ ((nodup_distinct rows).sublist List.filter_sublist)
  rintro ⟨f, l⟩ hl ⟨g, m⟩ hm (rfl : f = g)
  obtain rfl := (mem_asserted.mp hl).2
  obtain rfl := (mem_asserted.mp hm).2
  rfl

/-- What was known stays, and what becomes known was not. -/
theorem nodup_known_absorb (nodup : a.known.Nodup) : (a.absorb rows).1.known.Nodup := by
  have known : (a.absorb rows).1.known = a.known ++ (a.absorb rows).2.map Triple.fact := rfl
  rw [known, List.nodup_append']
  refine ⟨nodup, ?_, fun f old fresh => (mem_map_fresh.mp fresh).2 old⟩
  exact (nodup_map_distinctBy Triple.fact rows).sublist (List.filter_sublist.map _)

theorem toList_frontier_absorb (a : DeltaAnswer) (rows : List Triple) :
    ((Answer.delta a).absorb rows).frontier.toList = (a.absorb rows).2 :=
  Frontier.toList_ofList _

end DeltaAnswer

namespace Course

/-- The facts that the steps handed on. -/
def handed (c : Course) : List Fact := (c.frontiers.flatMap Frontier.toList).map Triple.fact

/-- What rounds have left of the seed of a difference, and what is known after them. -/
structure Sheds (seed : List Triple) (rounds : List (List Triple)) (c : Course) : Prop where
  answer : c.answer =
    .delta ⟨(distinct seed).filter (Infer.survives (factsOf rounds)), c.handed⟩
  counted : c.suppressed + c.answer.size = (distinct seed).length
  once : c.handed.Nodup
  known : ∀ f, f ∈ c.handed ↔ ⟨f, .change true⟩ ∈ seed ∨ f ∈ factsOf rounds

namespace Sheds

variable {seed : List Triple} {rounds : List (List Triple)} {c : Course}

/-- At first the distinct rows of the seed are there, and what they assert is known. -/
theorem start (seed : List Triple) : Sheds seed [] (seeded .delta seed) := by
  have handed : (seeded .delta seed).handed = (DeltaAnswer.ofRows seed).2.map Triple.fact := by
    simp [Course.handed, seeded, Answer.ofRows]
  have all : (distinct seed).filter (Infer.survives (factsOf [])) = distinct seed :=
    List.filter_eq_self.mpr fun row _ => Infer.survives_iff.mpr fun h => List.not_mem_nil h.2
  refine ⟨?_, Nat.zero_add _, ?_, fun f => ?_⟩
  · rw [all, handed]
    rfl
  · rw [handed]
    exact DeltaAnswer.nodup_map_asserted seed
  · rw [handed, DeltaAnswer.mem_map_asserted]
    exact (or_iff_left List.not_mem_nil).symm

/-- One more round drops the retractions of what it concludes, and makes it known. -/
theorem next (h : Sheds seed rounds c) (concluded : List Triple) :
    Sheds seed (rounds ++ [concluded]) (c.absorb concluded) := by
  let a : DeltaAnswer := ⟨(distinct seed).filter (Infer.survives (factsOf rounds)), c.handed⟩
  have handed : (c.absorb concluded).handed = (a.absorb concluded).1.known := by
    rw [Course.handed, Course.absorb, h.answer, List.flatMap_append, List.flatMap_singleton,
      DeltaAnswer.toList_frontier_absorb, List.map_append]
    rfl
  have left : (a.absorb concluded).1.rows =
      (distinct seed).filter (Infer.survives (factsOf (rounds ++ [concluded]))) := by
    rw [factsOf_concat]
    exact Infer.retained_eq rfl
  refine ⟨?_, ?_, ?_, fun f => ?_⟩
  · rw [handed, ← left, Course.absorb, h.answer]
    rfl
  · have inMode : c.answer.mode = .delta := by
      rw [h.answer]
      rfl
    have dropped := Answer.size_absorb_of_delta inMode concluded
    rw [Course.absorb, Nat.add_assoc, dropped, h.counted]
  · rw [handed]
    exact DeltaAnswer.nodup_known_absorb h.once
  · rw [handed, DeltaAnswer.mem_known_absorb, factsOf_concat, List.mem_append, ← or_assoc,
      ← h.known]

theorem ofRounds (seed : List Triple) (rounds : List (List Triple)) :
    Sheds seed rounds (Course.ofRounds .delta seed rounds) := by
  induction rounds using List.reverseRecOn with
  | nil => exact start seed
  | append_singleton rounds concluded ih =>
    rw [ofRounds_concat]
    exact ih.next concluded

end Sheds

variable {seed : List Triple} {rounds : List (List Triple)} {frontier : Frontier} {f : Fact}

/-- The seed hands on the facts that it asserts. -/
theorem mem_first_frontier (first : (ofRounds .delta seed rounds).frontiers[0]? = some frontier) :
    f ∈ frontier.toList.map Triple.fact ↔ ⟨f, .change true⟩ ∈ seed := by
  rw [getElem?_frontiers_zero, Option.some_inj] at first
  have listed : (Answer.ofRows .delta seed).2.toList = (DeltaAnswer.ofRows seed).2 :=
    Frontier.toList_ofList _
  rw [← first, listed, DeltaAnswer.mem_map_asserted]

/-- A round hands on a fact if it is the first one to conclude it, and the seed does not assert
it. -/
theorem mem_later_frontier {k : Nat}
    (later : (ofRounds .delta seed rounds).frontiers[k + 1]? = some frontier) :
    f ∈ frontier.toList.map Triple.fact ↔
      ⟨f, .change true⟩ ∉ seed ∧ IsLeast {k | ConcludedAt rounds f k} k := by
  rw [getElem?_frontiers_succ, Option.map_eq_some_iff] at later
  obtain ⟨concluded, hk, rfl⟩ := later
  have before := Sheds.ofRounds seed (rounds.take k)
  rw [before.answer, DeltaAnswer.toList_frontier_absorb, DeltaAnswer.mem_map_fresh, before.known,
    not_or, isLeast_concludedAt_iff hk]
  exact and_left_comm

end Course

/-- Of a difference that takes in rounds of any rows, the distinct rows of the seed are left in their
order, but for the retractions of facts that some round concluded, each of which is counted. Over
all frontiers each fact is handed on at most once: by the seed if the seed asserts it, and otherwise
by the first round that concludes it. -/
theorem retractions_go_once_concluded (seed : List Triple) (rounds : List (List Triple)) :
    (Course.ofRounds .delta seed rounds).answer.rows = (distinct seed).filter
        (fun row => ¬ (row.mark = .change false ∧ row.fact ∈ factsOf rounds)) ∧
      (Course.ofRounds .delta seed rounds).suppressed = (distinct seed).countP
        (fun row => row.mark = .change false ∧ row.fact ∈ factsOf rounds) ∧
      (Course.ofRounds .delta seed rounds).frontiers.length = rounds.length + 1 ∧
      (((Course.ofRounds .delta seed rounds).frontiers.flatMap Frontier.toList).map
        Triple.fact).Nodup ∧
      (∀ frontier, (Course.ofRounds .delta seed rounds).frontiers[0]? = some frontier →
        ∀ f, f ∈ frontier.toList.map Triple.fact ↔ ⟨f, .change true⟩ ∈ seed) ∧
      ∀ k frontier, (Course.ofRounds .delta seed rounds).frontiers[k + 1]? = some frontier →
        ∀ f, f ∈ frontier.toList.map Triple.fact ↔
          ⟨f, .change true⟩ ∉ seed ∧ IsLeast {k | ConcludedAt rounds f k} k := by
  have sheds := Course.Sheds.ofRounds seed rounds
  have rows : (Course.ofRounds .delta seed rounds).answer.rows = (distinct seed).filter
      (fun row => ¬ (row.mark = .change false ∧ row.fact ∈ factsOf rounds)) := by
    rw [sheds.answer]
    refine List.filter_congr fun row _ => ?_
    rw [Bool.eq_iff_iff, Infer.survives_iff, decide_eq_true_iff]
  refine ⟨rows, ?_, Course.length_frontiers, sheds.once, fun frontier first f => ?_,
    fun k frontier later f => ?_⟩
  · have counted := sheds.counted
    rw [Answer.size, rows, ← List.countP_eq_length_filter] at counted
    have split : (distinct seed).length = _ := List.length_eq_countP_add_countP
      fun row => decide (row.mark = .change false ∧ row.fact ∈ factsOf rounds)
    simp only [decide_eq_true_eq] at split
    omega
  · exact Course.mem_first_frontier first
  · exact Course.mem_later_frontier later

namespace Sample

/-- That Tom is an animal is taken back twice, that he is a cat is both stated and taken back. -/
def petChanges : List Triple :=
  [⟨tomIsAnimal, .change false⟩, ⟨tomIsCat, .change true⟩, ⟨tomIsCat, .change false⟩,
    ⟨tomIsAnimal, .change false⟩]

/-- The second round concludes from two rows that Tom is an animal. -/
def petRounds : List (List Triple) :=
  [[⟨tomIsCat, .plain⟩], [⟨tomIsAnimal, .plain⟩, ⟨tomIsCat, .plain⟩, ⟨tomIsAnimal, .plain⟩]]

end Sample

/-- Both retractions go, as their facts are concluded, the second one of them only in the second
round. That Tom is a cat sets off rules at the start alone, that he is an animal after the second
round alone. -/
theorem retractions_of_pets_go_once_concluded :
    IsLeast {k | ConcludedAt Sample.petRounds Sample.tomIsAnimal k} 1 ∧
      ∃ frontier, (Course.ofRounds .delta Sample.petChanges Sample.petRounds).frontiers[2]? =
          some frontier ∧
        Sample.tomIsAnimal ∈ frontier.toList.map Triple.fact ∧
        Sample.tomIsCat ∉ frontier.toList.map Triple.fact ∧
        (Course.ofRounds .delta Sample.petChanges Sample.petRounds).answer.rows =
          [⟨Sample.tomIsCat, .change true⟩] ∧
        (Course.ofRounds .delta Sample.petChanges Sample.petRounds).suppressed = 2 := by
  obtain ⟨rows, suppressed, length, -, -, later⟩ :=
    retractions_go_once_concluded Sample.petChanges Sample.petRounds
  have first : IsLeast {k | ConcludedAt Sample.petRounds Sample.tomIsAnimal k} 1 :=
    (isLeast_concludedAt_iff rfl).mpr (by decide +kernel)
  obtain ⟨frontier, hk⟩ : ∃ frontier,
      (Course.ofRounds .delta Sample.petChanges Sample.petRounds).frontiers[2]? =
        some frontier := by
    refine ⟨_, List.getElem?_eq_getElem ?_⟩
    rw [length]
    decide
  refine ⟨first, frontier, hk, (later 1 frontier hk _).mpr ⟨by decide +kernel, first⟩, ?_,
    rows.trans (by decide +kernel), suppressed.trans (by decide +kernel)⟩
  intro known
  exact ((later 1 frontier hk _).mp known).1 (by decide +kernel)

end Annals
