/-
# The search for the closest fraction

The continued fraction of a number is followed as long as denominators fit. Two
neighbouring convergents have the determinant 1 or -1, and so have the last
convergent and the last fraction between it and the one before. The number lies
between these two; any other fraction there has at least the sum of their
denominators, and that does not fit. So one of the two is closest.

Key definitions: `Convergents.Follows`, `Convergents.Candidates`.
Key theorems: `Convergents.Follows.run`, `Convergents.Candidates.closest`,
`closestFraction_spec`.
-/
import Mathlib
import NumericAnswer.Number.Fraction

namespace NumericAnswer

theorem distance_eq (r s : ℚ) : distance r s = |r - s| := by
  unfold distance
  split
  · next h => rw [abs_sub_comm, abs_of_nonneg (sub_nonneg.mpr h)]
  · next h => rw [abs_of_pos (sub_pos.mpr (not_le.mp h))]

/-! ### Fractions with the determinant 1 -/

/-- What lies strictly between two fractions with the determinant 1 has at least
the sum of their denominators. -/
theorem add_le_den {p q p' q' : ℤ} (hq : 0 < q) (hq' : 0 < q') (hdet : p * q' - p' * q = 1) {s : ℚ}
    (hlow : (p' : ℚ) / q' < s) (hhigh : s < p / q) : q + q' ≤ s.den := by
  have hden : (0 : ℚ) < s.den := by exact_mod_cast s.den_pos
  rw [← Rat.num_div_den s] at hlow hhigh
  rw [div_lt_div_iff₀ (by exact_mod_cast hq') hden] at hlow
  rw [div_lt_div_iff₀ hden (by exact_mod_cast hq)] at hhigh
  have hlow : p' * s.den + 1 ≤ s.num * q' := by exact_mod_cast hlow
  have hhigh : s.num * q + 1 ≤ p * s.den := by exact_mod_cast hhigh
  have hfirst := mul_le_mul_of_nonneg_left hlow hq.le
  have hsecond := mul_le_mul_of_nonneg_left hhigh hq'.le
  have hscaled : (s.den : ℤ) * (p * q' - p' * q) = s.den := by rw [hdet, mul_one]
  linarith

/-- Of the ends of an interval around `r` one is as close as anything outside. -/
theorem closest_end {low high r s : ℚ} (hlow : low ≤ r) (hhigh : r ≤ high)
    (h : ¬(low < s ∧ s < high)) : |low - r| ≤ |s - r| ∨ |high - r| ≤ |s - r| := by
  rcases le_or_gt s low with hs | hs
  · left
    rw [abs_of_nonpos (by linarith), abs_of_nonpos (by linarith)]
    linarith
  · right
    have hs := not_lt.mp fun hlt => h ⟨hs, hlt⟩
    rw [abs_of_nonneg (by linarith), abs_of_nonneg (by linarith)]
    linarith

namespace Convergents

variable {bound : ℕ} {r : ℚ} {c : Convergents} {n : ℤ} {d : ℕ}

/-! ### Convergents -/

/-- The convergents of `r` that the terms so far give; `n / d` is what is left of
`r` to be developed. -/
structure Follows (bound : ℕ) (r : ℚ) (c : Convergents) (n : ℤ) (d : ℕ) : Prop where
  num_eq : n * c.num + d * c.previousNum = r.num
  den_eq : n * c.den + d * c.previousDen = r.den
  det : c.num * c.previousDen - c.previousNum * c.den = 1 ∨
    c.previousNum * c.den - c.num * c.previousDen = 1
  den_pos : 0 < c.den
  den_le : c.den ≤ bound
  previous_le : c.previousDen ≤ bound
  lt : (d : ℤ) < n

theorem toNat_emod (n : ℤ) (hd : 0 < d) : (((n % d).toNat : ℕ) : ℤ) = n % d :=
  Int.toNat_of_nonneg (Int.emod_nonneg n (by omega))

/-- The first term is the whole part of the number. -/
theorem follows_start (hbound : 1 ≤ bound) (r : ℚ) :
    Follows bound r (start.next (r.num / r.den)) r.den (r.num % r.den).toNat where
  num_eq := by
    rw [toNat_emod _ r.den_pos]
    show (r.den : ℤ) * (0 + r.num / r.den * 1) + r.num % r.den * 1 = r.num
    rw [zero_add, mul_one, mul_one, Int.mul_ediv_add_emod]
  den_eq := by
    show (r.den : ℤ) * (1 + (r.num / r.den).toNat * 0 : ℕ) + _ * (0 : ℕ) = r.den
    simp
  det := by
    right
    show 1 * ((1 + (r.num / r.den).toNat * 0 : ℕ) : ℤ) - _ * (0 : ℕ) = 1
    simp
  den_pos := Nat.lt_add_right _ one_pos
  den_le := hbound
  previous_le := Nat.zero_le _
  lt := by
    rw [toNat_emod _ r.den_pos]
    exact Int.emod_lt_of_pos _ (by exact_mod_cast r.den_pos)

/-- A term is positive. -/
theorem Follows.one_le_term (h : Follows bound r c n d) (hd : 0 < d) : 1 ≤ n / d :=
  (Int.le_ediv_iff_mul_le (by omega)).mpr (by have := h.lt; omega)

theorem Follows.nextDen_eq (h : Follows bound r c n d) (hd : 0 < d) :
    (c.nextDen (n / d) : ℤ) = c.previousDen + n / d * c.den := by
  have hterm := h.one_le_term hd
  rw [nextDen]
  push_cast
  rw [Int.toNat_of_nonneg (by omega)]

theorem Follows.next (h : Follows bound r c n d) (hd : 0 < d) (hfit : c.nextDen (n / d) ≤ bound) :
    Follows bound r (c.next (n / d)) d (n % d).toNat := by
  have hden : ((c.next (n / d)).den : ℤ) = c.previousDen + n / d * c.den := h.nextDen_eq hd
  have hnum : (c.next (n / d)).num = c.previousNum + n / d * c.num := rfl
  have hrest := Int.mul_ediv_add_emod n d
  have hterm := h.one_le_term hd
  constructor
  · rw [toNat_emod n hd, hnum, ← h.num_eq]
    show _ + n % d * c.num = _
    linear_combination c.num * hrest
  · rw [toNat_emod n hd, hden, ← h.den_eq]
    show _ + n % d * (c.den : ℤ) = _
    linear_combination (c.den : ℤ) * hrest
  · rw [hnum, hden]
    show _ * (c.den : ℤ) - c.num * _ = 1 ∨ c.num * _ - _ * (c.den : ℤ) = 1
    rcases h.det with hdet | hdet
    · exact .inr (by linear_combination hdet)
    · exact .inl (by linear_combination hdet)
  · have hpos : (0 : ℤ) < c.den := by exact_mod_cast h.den_pos
    have hmul : 0 < n / d * c.den := mul_pos (by omega) hpos
    omega
  · exact hfit
  · exact h.den_le
  · rw [toNat_emod n hd]
    exact Int.emod_lt_of_pos _ (by omega)

/-- The terms do not end as long as denominators fit, if that of the number itself
does not. -/
theorem Follows.ne_zero (h : Follows bound r c n d) (hr : bound < r.den) : d ≠ 0 := by
  rintro rfl
  have hnum := h.num_eq
  have hden := h.den_eq
  rw [Nat.cast_zero, zero_mul, add_zero] at hnum hden
  have hunit : IsUnit n := r.isCoprime_num_den.isUnit_of_dvd' ⟨_, hnum.symm⟩ ⟨_, hden.symm⟩
  have hone : n = 1 := by
    have hlt := h.lt
    rcases Int.isUnit_iff.mp hunit with hn | hn <;> omega
  rw [hone, one_mul] at hden
  have hle := h.den_le
  omega

/-- The search ends where the next denominator does not fit. -/
theorem Follows.run (hr : bound < r.den) (h : Follows bound r c n d) :
    ∃ n' d', 0 < d' ∧ Follows bound r (c.run bound n d) n' d' ∧
      bound < (c.run bound n d).nextDen (n' / d') := by
  fun_induction Convergents.run bound c n d with
  | case1 c n => exact absurd rfl (h.ne_zero hr)
  | case2 c n d hd hstop => exact ⟨n, d, Nat.pos_of_ne_zero hd, h, hstop⟩
  | case3 c n d hd hfit ih => exact ih (h.next (Nat.pos_of_ne_zero hd) (not_lt.mp hfit))

/-! ### The two candidates -/

/-- What the two candidates of a search that has ended have to do with `r`: the
second one is between the convergents, as far as it fits. -/
structure Candidates (bound : ℕ) (r : ℚ) (c : Convergents) (p' q' : ℤ) : Prop where
  den_pos : 0 < q'
  den_le : q' ≤ bound
  bound_lt : (bound : ℤ) < c.den + q'
  bracket : (c.num * q' - p' * c.den = 1 ∧ (p' : ℚ) / q' ≤ r ∧ r ≤ (c.num : ℚ) / c.den) ∨
    (p' * c.den - c.num * q' = 1 ∧ (c.num : ℚ) / c.den ≤ r ∧ r ≤ (p' : ℚ) / q')

theorem Follows.candidates (h : Follows bound r c n d) (hd : 0 < d)
    (hstop : bound < c.nextDen (n / d)) : ∃ p' q' : ℤ, c.between bound = (p' : ℚ) / q' ∧
      Candidates bound r c p' q' := by
  obtain ⟨steps, hsteps⟩ : ∃ steps, steps = (bound - c.previousDen) / c.den := ⟨_, rfl⟩
  have hq : (0 : ℚ) < c.den := by exact_mod_cast h.den_pos
  have hrden : (0 : ℚ) < r.den := by exact_mod_cast r.den_pos
  have hprevious := h.previous_le
  have hlow : steps * c.den ≤ bound - c.previousDen := hsteps ▸ Nat.div_mul_le_self _ _
  have hhigh : bound - c.previousDen < steps * c.den + c.den :=
    hsteps ▸ Nat.lt_div_mul_add h.den_pos
  have hpos : (0 : ℤ) < c.previousDen + steps * c.den := by
    have hle := h.den_le
    have hlt : 0 < c.previousDen + steps * c.den := by omega
    exact_mod_cast hlt
  have hq' : (0 : ℚ) < (c.previousDen + steps * c.den : ℤ) := by exact_mod_cast hpos
  -- Fewer steps than the next term has.
  have hweight : (0 : ℤ) ≤ n - steps * d := by
    have hnext := h.nextDen_eq hd
    have hterm : (steps : ℤ) ≤ n / d := by
      by_contra hlt
      have hmul := mul_le_mul_of_nonneg_right (not_le.mp hlt).le (Nat.cast_nonneg (α := ℤ) c.den)
      have hlow : (steps : ℤ) * c.den ≤ bound - c.previousDen := by
        rw [← Nat.cast_sub hprevious]
        exact_mod_cast hlow
      omega
    have hmul := mul_le_mul_of_nonneg_right hterm (Nat.cast_nonneg (α := ℤ) d)
    have hle := Int.ediv_mul_le n (show (d : ℤ) ≠ 0 by omega)
    omega
  refine ⟨c.previousNum + steps * c.num, c.previousDen + steps * c.den, ?_, hpos, ?_, ?_, ?_⟩
  · rw [between, ← hsteps, Rat.mkRat_eq_div]
    push_cast
    rfl
  · have hle : c.previousDen + steps * c.den ≤ bound := by omega
    exact_mod_cast hle
  · have hlt : bound < c.den + (c.previousDen + steps * c.den) := by omega
    exact_mod_cast hlt
  · have hother : r.num * (c.previousDen + steps * c.den) -
        (c.previousNum + steps * c.num) * r.den =
          (n - steps * d) * (c.num * c.previousDen - c.previousNum * c.den) := by
      rw [← h.num_eq, ← h.den_eq]
      ring
    have hconvergent : c.num * r.den - r.num * c.den =
        d * (c.num * c.previousDen - c.previousNum * c.den) := by
      rw [← h.num_eq, ← h.den_eq]
      ring
    have hr : r = r.num / r.den := (Rat.num_div_den r).symm
    rcases h.det with hdet | hdet
    · rw [hdet, mul_one] at hother hconvergent
      refine .inl ⟨by linear_combination hdet, ?_, ?_⟩
      · rw [hr, div_le_div_iff₀ hq' hrden]
        exact_mod_cast sub_nonneg.mp (hother ▸ hweight)
      · rw [hr, div_le_div_iff₀ hrden hq]
        exact_mod_cast sub_nonneg.mp (hconvergent ▸ Nat.cast_nonneg (α := ℤ) d)
    · have hdet' : c.num * c.previousDen - c.previousNum * c.den = -1 := by linear_combination -hdet
      rw [hdet'] at hother hconvergent
      refine .inr ⟨by linear_combination hdet, ?_, ?_⟩
      · rw [hr, div_le_div_iff₀ hq hrden]
        exact_mod_cast (by omega : c.num * r.den ≤ r.num * c.den)
      · rw [hr, div_le_div_iff₀ hrden hq']
        exact_mod_cast (by omega :
          r.num * (c.previousDen + steps * c.den) ≤ (c.previousNum + steps * c.num) * r.den)

/-- One of the two candidates is as close as any fraction that fits. -/
theorem Candidates.closest {p' q' : ℤ} (h : Candidates bound r c p' q') (hc : 0 < c.den) {s : ℚ}
    (hs : s.den ≤ bound) :
    |(c.num : ℚ) / c.den - r| ≤ |s - r| ∨ |(p' : ℚ) / q' - r| ≤ |s - r| := by
  have hlarge := h.bound_lt
  have hc : (0 : ℤ) < c.den := by exact_mod_cast hc
  rcases h.bracket with ⟨hdet, hlow, hhigh⟩ | ⟨hdet, hlow, hhigh⟩
  · refine (closest_end hlow hhigh fun ⟨h₁, h₂⟩ => ?_).symm
    have hden := add_le_den hc h.den_pos hdet h₁ h₂
    omega
  · refine closest_end hlow hhigh fun ⟨h₁, h₂⟩ => ?_
    have hden := add_le_den h.den_pos hc hdet h₁ h₂
    omega

end Convergents

open Convergents

/-- The denominator of a quotient divides that of its expression. -/
theorem den_div_le (p : ℤ) {q : ℤ} (hq : 0 < q) : ((p / q : ℚ).den : ℤ) ≤ q :=
  Int.le_of_dvd hq (Rat.divInt_eq_div p q ▸ Rat.den_dvd p q)

/-- **The closest fraction.** Its denominator fits, and no other fraction with a
denominator that fits is closer. -/
theorem closestFraction_spec {bound : ℕ} (hbound : 1 ≤ bound) (r : ℚ) :
    (closestFraction bound r).den ≤ bound ∧
      ∀ s : ℚ, s.den ≤ bound → |closestFraction bound r - r| ≤ |s - r| := by
  unfold closestFraction
  split
  · next hr =>
    refine ⟨hr, fun s _ => ?_⟩
    rw [sub_self, abs_zero]
    exact abs_nonneg _
  · next hr =>
    have hr := not_le.mp hr
    have hstart : start.run bound r.num r.den =
        (start.next (r.num / r.den)).run bound r.den (r.num % r.den).toNat := by
      have hfit : ¬bound < start.nextDen (r.num / r.den) := not_lt.mpr hbound
      rw [run, if_neg r.den_pos.ne', if_neg hfit]
    rw [hstart]
    obtain ⟨n, d, hd, hfollows, hstop⟩ := (follows_start hbound r).run hr
    generalize (start.next (r.num / r.den)).run bound r.den (r.num % r.den).toNat = c at *
    obtain ⟨p', q', hbetween, hcandidates⟩ := hfollows.candidates hd hstop
    have hconvergent : mkRat c.num c.den = c.num / c.den := Rat.mkRat_eq_div ..
    simp only [distance_eq, hconvergent, hbetween]
    constructor
    · have hle := den_div_le c.num (q := c.den) (by exact_mod_cast hfollows.den_pos)
      have hle' := den_div_le p' hcandidates.den_pos
      rw [Int.cast_natCast] at hle
      have hfit := hfollows.den_le
      have hfit' := hcandidates.den_le
      split_ifs <;> omega
    · intro s hs
      have hclosest := hcandidates.closest hfollows.den_pos hs
      split_ifs with h
      · exact hclosest.elim id h.trans
      · exact hclosest.elim (not_le.mp h).le.trans id
end NumericAnswer
