/-
# Numerals

A whole number is written with ASCII digits, the highest first, without
leading zeros; a minus sign goes before a negative one. Digits of any script
are read.

Key definitions: `numeral`, `integerText`, `digitsValue`.
Key theorems: `digitsValue_numeral`, `numeral_ne_nil`, `numeral_injective`.
-/
import NumericAnswer.Text.Digit

namespace NumericAnswer

/-- The digits of a natural number. -/
def numeral (n : Nat) : Text :=
  if n < 10 then [Nat.digitChar n] else numeral (n / 10) ++ [Nat.digitChar (n % 10)]
termination_by n

/-- A whole number with its sign. -/
def integerText (i : Int) : Text :=
  if i < 0 then '-' :: numeral i.natAbs else numeral i.natAbs

/-- The number that a row of digits writes. -/
def digitsValue (s : Text) : Nat :=
  s.foldl (fun n c => 10 * n + (digitValue? c).getD 0) 0

theorem digitsValue_append_singleton (s : Text) (c : Char) :
    digitsValue (s ++ [c]) = 10 * digitsValue s + (digitValue? c).getD 0 := by
  simp [digitsValue, List.foldl_append]

theorem digitValue?_digitChar : ∀ n < 10, digitValue? (Nat.digitChar n) = some n := by
  decide

theorem numeral_ne_nil (n : Nat) : numeral n ≠ [] := by
  rw [numeral]; split <;> simp

/-- What is written reads back. -/
theorem digitsValue_numeral (n : Nat) : digitsValue (numeral n) = n := by
  induction n using Nat.strongRecOn with
  | _ n ih =>
    rw [numeral]
    split
    · next h => simp [digitsValue, digitValue?_digitChar n h]
    · next h =>
      rw [digitsValue_append_singleton, ih (n / 10) (by omega),
        digitValue?_digitChar _ (Nat.mod_lt _ (by omega))]
      simp only [Option.getD_some]
      omega

theorem numeral_injective {m n : Nat} (h : numeral m = numeral n) : m = n := by
  rw [← digitsValue_numeral m, h, digitsValue_numeral]

end NumericAnswer
