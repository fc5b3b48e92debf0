import Annals.Inference.Answer
import Annals.Proofs.Lists
import Mathlib.Data.List.Induction

/-!
# The making of an answer

An answer starts with the rows that a query found and takes in what one round after the other
concluded, whatever that is. Its course keeps what each of these steps handed on.
-/

namespace Annals

/-- An answer with what each step of its making handed on, the seed's first. -/
structure Course where
  answer : Answer
  frontiers : List Frontier
  /-- How many retractions were dropped in all. -/
  suppressed : Nat

namespace Course

/-- The answer that holds the rows of a seed. -/
def seeded (mode : Mode) (seed : List Triple) : Course :=
  ⟨(Answer.ofRows mode seed).1, [(Answer.ofRows mode seed).2], 0⟩

/-- Takes in the conclusions of one more round. -/
def absorb (c : Course) (concluded : List Triple) : Course :=
  let absorbed := c.answer.absorb concluded
  ⟨absorbed.answer, c.frontiers ++ [absorbed.frontier], c.suppressed + absorbed.suppressed⟩

/-- Takes in a seed and then the conclusions of rounds. -/
def ofRounds (mode : Mode) (seed : List Triple) (rounds : List (List Triple)) : Course :=
  rounds.foldl absorb (seeded mode seed)

variable {mode : Mode} {seed : List Triple} {rounds : List (List Triple)} {k : Nat}

theorem ofRounds_concat (concluded : List Triple) :
    ofRounds mode seed (rounds ++ [concluded]) = (ofRounds mode seed rounds).absorb concluded := by
  rw [ofRounds, List.foldl_append]
  rfl

/-- Each step hands on a frontier. -/
theorem length_frontiers : (ofRounds mode seed rounds).frontiers.length = rounds.length + 1 := by
  induction rounds using List.reverseRecOn with
  | nil => rfl
  | append_singleton rounds concluded ih =>
    rw [ofRounds_concat, absorb, List.length_append, List.length_append, ih]
    rfl

theorem getElem?_frontiers_zero :
    (ofRounds mode seed rounds).frontiers[0]? = some (Answer.ofRows mode seed).2 := by
  induction rounds using List.reverseRecOn with
  | nil => rfl
  | append_singleton rounds concluded ih =>
    have first : 0 < (ofRounds mode seed rounds).frontiers.length := by
      rw [length_frontiers]
      exact Nat.succ_pos _
    rw [ofRounds_concat, absorb, List.getElem?_append_left first, ih]

/-- A round hands on what is new to the answer that took in the seed and the rounds before it. -/
theorem getElem?_frontiers_succ :
    (ofRounds mode seed rounds).frontiers[k + 1]? = rounds[k]?.map fun concluded =>
      ((ofRounds mode seed (rounds.take k)).answer.absorb concluded).frontier := by
  induction rounds using List.reverseRecOn with
  | nil => rfl
  | append_singleton rounds concluded ih =>
    rw [ofRounds_concat, absorb]
    rcases Nat.lt_trichotomy k rounds.length with earlier | rfl | later
    · rw [List.getElem?_append_left (by rw [length_frontiers]; omega), ih,
        List.getElem?_append_left earlier, List.take_append_of_le_length earlier.le]
    · rw [← length_frontiers, List.getElem?_concat_length, List.getElem?_concat_length,
        List.take_left, Option.map_some]
    · rw [List.getElem?_eq_none, List.getElem?_eq_none, Option.map_none]
      · rw [List.length_append, List.length_singleton]
        exact later
      · rw [List.length_append, List.length_singleton, length_frontiers]
        omega

end Course

end Annals
