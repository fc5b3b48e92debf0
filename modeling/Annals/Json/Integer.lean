/-!
# Integers as written

An integer is written in decimal without leading zeros, and with a minus sign if it is negative.
Minus zero, a fraction and an exponent are numbers but no integers, whatever their value.
-/

namespace Annals.Json.Integer

/-- The number whose decimal spelling is given. -/
def natural? (digits : List Char) : Option Nat :=
  let n := Nat.ofDigitChars 10 digits 0
  if Nat.toDigits 10 n = digits then some n else none

theorem natural?_eq_some_iff {digits : List Char} {n : Nat} :
    natural? digits = some n ↔ digits = Nat.toDigits 10 n := by
  simp only [natural?, Option.ite_none_right_eq_some, Option.some.injEq]
  constructor
  · rintro ⟨h, rfl⟩
    exact h.symm
  · rintro rfl
    simp [Nat.ofDigitChars_ten_toDigits]

/-- The integer whose spelling is given. -/
def parse? : List Char → Option Int
  | '-' :: digits =>
    match natural? digits with
    | some (n + 1) => some (.negSucc n)
    | _ => none
  | digits => (natural? digits).map Int.ofNat

/-- The spelling of an integer. -/
def print : Int → List Char
  | .ofNat n => Nat.toDigits 10 n
  | .negSucc n => '-' :: Nat.toDigits 10 (n + 1)

theorem parse?_print (n : Int) : parse? (print n) = some n := by
  cases n with
  | ofNat n =>
    have plain : parse? (Nat.toDigits 10 n) = (natural? (Nat.toDigits 10 n)).map Int.ofNat := by
      rw [parse?]
      intro digits h
      have dash : '-' ∈ Nat.toDigits 10 n := by simp [h]
      exact absurd (Nat.isDigit_of_mem_toDigits (by decide) (by decide) dash) (by decide)
    rw [print, plain, natural?_eq_some_iff.2 rfl, Option.map_some]
  | negSucc n => rw [print, parse?, natural?_eq_some_iff.2 rfl]

end Annals.Json.Integer
