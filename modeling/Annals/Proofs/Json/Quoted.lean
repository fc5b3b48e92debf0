import Annals.Json.Quoted
import Mathlib.Data.Option.Basic

/-!
# Quoted text is read as it was meant

Whatever characters a text has, between its quotes it ends where it was meant to end, and its
escapes stand for the characters that they were written for.
-/

namespace Annals.Json.Quoted

theorem hexValue?_hexDigit : ∀ n < 16, hexValue? (hexDigit n) = some n := by decide

/-- The digits that are written for a control character are its number. -/
theorem unit?_hexDigits {c : Char} (control : isControl c = true) :
    unit? '0' '0' (hexDigit (c.toNat / 16)) (hexDigit (c.toNat % 16)) = some c.toNat := by
  have small : c.toNat < 32 := of_decide_eq_true control
  have zero : hexValue? '0' = some 0 := by decide
  have sixteens := hexValue?_hexDigit (c.toNat / 16) (by omega)
  have ones := hexValue?_hexDigit (c.toNat % 16) (by omega)
  have number : c.toNat / 16 * 16 + c.toNat % 16 = c.toNat := Nat.div_add_mod' _ _
  simp [unit?, zero, sixteens, ones, number]

/-- A character is written in one of three ways. -/
inductive Spelled (c : Char) : List Char → Prop
  | short {e : Char} (means : shortEscape? e = some c) (other : e ≠ 'u') : Spelled c ['\\', e]
  | long (control : isControl c = true) :
    Spelled c ['\\', 'u', '0', '0', hexDigit (c.toNat / 16), hexDigit (c.toNat % 16)]
  | plain (quote : c ≠ '"') (backslash : c ≠ '\\') (printable : isControl c = false) : Spelled c [c]

theorem spelled_escapeChar (c : Char) : Spelled c (escapeChar c) := by
  unfold escapeChar
  split
  · exact .short rfl (by decide)
  · exact .short rfl (by decide)
  · exact .short rfl (by decide)
  · exact .short rfl (by decide)
  · exact .short rfl (by decide)
  · exact .short rfl (by decide)
  · exact .short rfl (by decide)
  · next quote backslash _ _ _ _ _ =>
    split
    · next control => exact .long control
    · next printable => exact .plain quote backslash (Bool.eq_false_iff.mpr printable)

variable {c : Char} {spelling : List Char}

/-- A closing quote is not looked for inside of what is written for a character. -/
theorem Spelled.scan (h : Spelled c spelling) (rest : List Char) :
    Quoted.scan (spelling ++ rest) =
      (Quoted.scan rest).map fun (raw, rest) => (spelling ++ raw, rest) := by
  cases h with
  | @short e means other =>
    have step : Quoted.scan ('\\' :: e :: rest) = do
        let _ ← shortEscape? e
        let (raw, rest) ← Quoted.scan rest
        return ('\\' :: e :: raw, rest) := by
      rw [Quoted.scan]
      intro a b c d after unit
      exact absurd unit other
    rw [List.cons_append, List.cons_append, List.nil_append, step, means]
    cases Quoted.scan rest <;> rfl
  | long control =>
    simp only [List.cons_append, List.nil_append, Quoted.scan, unit?_hexDigits control]
    cases Quoted.scan rest <;> rfl
  | plain quote backslash printable =>
    have step : Quoted.scan (c :: rest) = do
        guard (c ≠ '\\' && !isControl c)
        let (raw, rest) ← Quoted.scan rest
        return (c :: raw, rest) := by
      rw [Quoted.scan]
      · exact quote
      · intro a b c d after escape
        exact absurd escape backslash
      · intro e after escape
        exact absurd escape backslash
    have allowed : (decide (c ≠ '\\') && !isControl c) = true := by simp [backslash, printable]
    rw [List.cons_append, List.nil_append, step, allowed]
    cases Quoted.scan rest <;> rfl

/-- A text between quotes ends at its closing quote. -/
theorem scan_escape (s rest : List Char) :
    scan (escape s ++ '"' :: rest) = some (escape s, rest) := by
  induction s with
  | nil => rfl
  | cons c s ih =>
    have first : escape (c :: s) = escapeChar c ++ escape s := List.flatMap_cons
    rw [first, List.append_assoc, (spelled_escapeChar c).scan, ih]
    rfl

theorem join_char (c : Char) (ps : List Piece) : join (.char c :: ps) = (join ps).map (c :: ·) := by
  rw [join]
  cases join ps <;> rfl

/-- The number of a control character is not a half of a pair. -/
theorem join_unit_of_control (control : isControl c = true) (ps : List Piece) :
    join (.unit c.toNat :: ps) = (join ps).map (c :: ·) := by
  have small : c.toNat < 32 := of_decide_eq_true control
  have low : isLowUnit c.toNat = false := by
    simp [isLowUnit]
    omega
  have high : isHighUnit c.toNat = false := by
    simp [isHighUnit]
    omega
  have step : join (.unit c.toNat :: ps) = do return Char.ofNat c.toNat :: (← join ps) := by
    rcases ps with _ | ⟨_ | _, _⟩ <;> simp [join, low, high]
  rw [step, Char.ofNat_toNat]
  cases join ps <;> rfl

/-- What is written for a character is read as one piece, which is joined to that character. -/
theorem Spelled.exists_piece (h : Spelled c spelling) :
    ∃ p, (∀ raw, pieces (spelling ++ raw) = (pieces raw).map (p :: ·)) ∧
      ∀ ps, join (p :: ps) = (join ps).map (c :: ·) := by
  cases h with
  | @short e means other =>
    refine ⟨.char c, fun raw => ?_, join_char c⟩
    have step : pieces ('\\' :: e :: raw) = do
        return .char (← shortEscape? e) :: (← pieces raw) := by
      rw [pieces]
      intro a b c d after unit
      exact absurd unit other
    rw [List.cons_append, List.cons_append, List.nil_append, step, means]
    cases pieces raw <;> rfl
  | long control =>
    refine ⟨.unit c.toNat, fun raw => ?_, join_unit_of_control control⟩
    simp only [List.cons_append, List.nil_append, pieces, unit?_hexDigits control]
    cases pieces raw <;> rfl
  | plain quote backslash printable =>
    refine ⟨.char c, fun raw => ?_, join_char c⟩
    have step : pieces (c :: raw) =
        if c = '\\' then none else do return .char c :: (← pieces raw) := by
      rw [pieces]
      · intro a b c d after escape
        exact absurd escape backslash
      · intro e after escape
        exact absurd escape backslash
    rw [List.cons_append, List.nil_append, step, if_neg backslash]
    cases pieces raw <;> rfl

/-- The escapes of a text stand for its characters. -/
theorem unescape?_escape (s : List Char) : unescape? (escape s) = some s := by
  have joined : ∃ ps, pieces (escape s) = some ps ∧ join ps = some s := by
    induction s with
    | nil => exact ⟨[], rfl, rfl⟩
    | cons c s ih =>
      obtain ⟨ps, read, joined⟩ := ih
      obtain ⟨p, reads, joins⟩ := (spelled_escapeChar c).exists_piece
      have first : escape (c :: s) = escapeChar c ++ escape s := List.flatMap_cons
      exact ⟨p :: ps, by rw [first, reads, read]; rfl, by rw [joins, joined]; rfl⟩
  obtain ⟨ps, read, joined⟩ := joined
  rw [unescape?, read]
  exact joined

end Annals.Json.Quoted
