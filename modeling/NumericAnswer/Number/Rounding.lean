/-
# Rounding a quotient

The whole number nearest to a quotient; half-way cases go to the even one.

Key definition: `roundQuotient`.
Key theorems: `roundQuotient_mul`, `roundQuotient_within`.
-/

namespace NumericAnswer

/-- The whole number nearest to `num / den`, the even one of two equally near. -/
def roundQuotient (num den : Nat) : Nat :=
  let quotient := num / den
  let remainder := num % den
  if 2 * remainder < den then quotient
  else if den < 2 * remainder then quotient + 1
  else quotient + quotient % 2

theorem roundQuotient_mul (n : Nat) {den : Nat} (h : 0 < den) :
    roundQuotient (n * den) den = n := by
  simp [roundQuotient, Nat.mul_div_cancel n h, h]

/-- The rounded quotient is at most half a unit away. -/
theorem roundQuotient_within (num : Nat) {den : Nat} (h : 0 < den) :
    2 * num ≤ 2 * (roundQuotient num den * den) + den ∧
      2 * (roundQuotient num den * den) ≤ 2 * num + den := by
  have hlt := Nat.mod_lt num h
  have heq : num / den * den + num % den = num := by
    rw [Nat.mul_comm]
    exact Nat.div_add_mod num den
  simp only [roundQuotient]
  split
  · omega
  · split
    · rw [Nat.add_mul, Nat.one_mul]; omega
    · rcases Nat.mod_two_eq_zero_or_one (num / den) with h2 | h2
      · rw [h2, Nat.add_zero]; omega
      · rw [h2, Nat.add_mul, Nat.one_mul]; omega

end NumericAnswer
