/-
# Multiples of 1 and of π

An expression denotes a rational multiple of 1 or of π, if its numbers are taken for what they are
and nothing is rounded. Where such a multiple is written with numerals, each of them is read as the
double nearest to its number. In lowest terms two numerals that are both rounded never make up for
each other: the quotient is the one that was written only if doubles can hold both.

Key definitions: `Double.Exact`, `Double.nearest?`, `Multiple`, `Multiple.read`, `Expr.multiple?`.
Key theorems: `Double.Holds.exists_nat`, `Multiple.read_of_exact`, `Multiple.exact_of_read`.
-/
import Mathlib
import NumericAnswer.Expr.Basic
import NumericAnswer.Proofs.Displayed
import NumericAnswer.Proofs.Limits

namespace NumericAnswer

open Binary Double

/-! ### Whole numbers and the doubles nearest to them -/

namespace Double

/-- The number can be held by a double. -/
def Exact (n : ℕ) : Prop :=
  ∃ x, Holds x n

/-- The value of the double nearest to a number, if that is finite. -/
def nearest? (n : ℕ) : Option ℚ :=
  (ofFloat? (ofInt n)).map toRat

variable {n p q A B : ℕ} {a : ℚ}

theorem nearest?_eq_some_iff : nearest? n = some a ↔ Holds (ofInt n) a := by
  rw [nearest?, Option.map_eq_some_iff]
  rfl

theorem nearest?_of_exact (h : Exact n) : nearest? n = some (n : ℚ) := by
  rw [nearest?_eq_some_iff]
  rcases Nat.eq_zero_or_pos n with rfl | hn
  · exact holds_ofInt_of_lt (n := 0) (by norm_num)
  · obtain ⟨x, hx⟩ := h
    have hself : x = ofRat ((n : ℤ) : ℚ) := by
      rw [Int.cast_natCast]
      exact hx.eq_ofRat (by exact_mod_cast hn.ne')
    rw [hself] at hx
    exact hx

theorem exact_of_lt (h : n < 2 ^ 53) : Exact n :=
  ⟨_, holds_ofInt_of_lt (n := n) h⟩

theorem nearest?_one : nearest? 1 = some 1 := by
  rw [nearest?_of_exact (exact_of_lt (by norm_num)), Nat.cast_one]

/-- A large number is rounded to a large one. -/
theorem two_pow_53_le (h : Holds (ofInt n) a) (hn : 2 ^ 53 ≤ n) : 2 ^ 53 ≤ a := by
  have hnonneg : 0 ≤ a := h.ofRat_nonneg (d := ((n : ℤ) : ℚ)) (by positivity)
  have hpower : Holds (ofRat (2 ^ 53)) (2 ^ 53) :=
    holds_ofRat_of_canonical (m := 2 ^ 52) (e := 1)
      ⟨by norm_num, by norm_num, by norm_num, .inr le_rfl⟩ (by norm_num)
  have habs : |(2 : ℚ) ^ 53| ≤ |((n : ℤ) : ℚ)| := by
    rw [Int.cast_natCast, abs_of_nonneg (by positivity), abs_of_nonneg (by positivity)]
    exact_mod_cast hn
  obtain ⟨s, hs, hle⟩ := exists_holds_of_le habs h
  rw [hpower.unique hs]
  exact (le_abs_self s).trans (hle.trans_eq (abs_of_nonneg hnonneg))

/-- The double nearest to a number is less than twice as large. -/
theorem lt_two_mul (h : Holds (ofInt n) a) (hn : 2 ^ 53 ≤ n) : a < 2 * n := by
  have hpos : (2 : ℚ) ^ 53 ≤ n := by exact_mod_cast hn
  rcases lt_or_ge (n : ℚ) ((2 ^ 54 - 1) * 2 ^ (970 : ℤ)) with hlt | hge
  · have habs : |((n : ℤ) : ℚ)| = n := by rw [Int.cast_natCast, abs_of_nonneg (by positivity)]
    obtain ⟨r, hr, herror⟩ := holds_ofRat (d := ((n : ℤ) : ℚ)) (by rwa [habs])
    obtain rfl := h.unique hr
    rw [habs, Int.cast_natCast] at herror
    have hsmall : max ((n : ℚ) / 2 ^ (53 : ℕ)) ((2 : ℚ) ^ (-1075 : ℤ)) < n := by
      refine max_lt (div_lt_self (by linarith) (by norm_num)) ?_
      have hone : (2 : ℚ) ^ (-1075 : ℤ) ≤ 1 := zpow_le_one_of_nonpos₀ one_le_two (by norm_num)
      linarith
    have := (abs_le.mp herror).2
    linarith
  · have habs := (le_abs_self a).trans_lt h.abs_lt
    rw [show (1024 : ℤ) = 54 + 970 from rfl, zpow_add₀ two_ne_zero] at habs
    have hunit := two_zpow_pos 970
    generalize (2 : ℚ) ^ (970 : ℤ) = unit at *
    norm_num at habs hge
    linarith

/-- The double nearest to a number is a whole number, and less than twice as large. -/
theorem Holds.exists_nat (h : Holds (ofInt n) a) (hn : 0 < n) :
    ∃ A : ℕ, a = A ∧ 0 < A ∧ A < 2 * n := by
  rcases Nat.lt_or_ge n (2 ^ 53) with hlt | hge
  · exact ⟨n, h.unique (holds_ofInt_of_lt (n := n) hlt), hn, by omega⟩
  · have hlow := two_pow_53_le h hge
    have hhigh := lt_two_mul h hge
    obtain ⟨b, hb, rfl⟩ := h
    have hwhole : b.toRat = b.roundEven := by
      by_contra hne
      have := (le_abs_self _).trans_lt (abs_toRat_lt hb hne)
      linarith
    have hpos : (0 : ℚ) < b.roundEven := by
      rw [← hwhole]
      linarith
    obtain ⟨A, hA⟩ := Int.eq_ofNat_of_zero_le (by exact_mod_cast hpos.le : 0 ≤ b.roundEven)
    rw [hA, Int.cast_natCast] at hwhole hpos
    rw [hwhole] at hhigh
    exact ⟨A, hwhole, by exact_mod_cast hpos, by exact_mod_cast hhigh⟩

/-- A multiple of a number that is less than twice as large is the number. -/
theorem eq_of_mul_eq (hcoprime : p.Coprime q) (h : A * q = p * B) (hA : 0 < A) (hlt : A < 2 * p) :
    A = p := by
  obtain ⟨k, rfl⟩ : p ∣ A := hcoprime.dvd_of_dvd_mul_right ⟨B, h⟩
  have hk : k < 2 := by
    by_contra hge
    have := Nat.mul_le_mul_left p (Nat.not_lt.mp hge)
    omega
  have hpos : k ≠ 0 := by
    rintro rfl
    omega
  rw [show k = 1 by omega, mul_one]

end Double
/-! ### Multiples of 1 and of π -/

/-- A rational multiple of 1 or of π. -/
structure Multiple where
  ratio : ℚ
  ofPi : Bool

namespace Multiple

def neg (m : Multiple) : Multiple :=
  ⟨-m.ratio, m.ofPi⟩

/-- The sum of multiples of the same number. -/
def add? (m k : Multiple) : Option Multiple :=
  if m.ofPi = k.ofPi then some ⟨m.ratio + k.ratio, m.ofPi⟩ else none

/-- The product, of which one factor at most is a multiple of π. -/
def mul? (m k : Multiple) : Option Multiple :=
  if m.ofPi && k.ofPi then none else some ⟨m.ratio * k.ratio, m.ofPi || k.ofPi⟩

/-- The quotient. Only a multiple of π is divided by one. -/
def div? (m k : Multiple) : Option Multiple :=
  if k.ratio = 0 || (k.ofPi && !m.ofPi) then none
  else some ⟨m.ratio / k.ratio, m.ofPi && !k.ofPi⟩

/-- What is read where the multiple is shown: the numerator and the denominator are rounded to
doubles, each for itself. -/
def read (m : Multiple) : Option Multiple := do
  let num ← nearest? m.ratio.num.natAbs
  let den ← nearest? m.ratio.den
  some ⟨signedRat (decide (m.ratio.num < 0)) num / den, m.ofPi⟩

/-- The numerator and the denominator can be held by doubles. -/
def Exact (m : Multiple) : Prop :=
  Double.Exact m.ratio.num.natAbs ∧ Double.Exact m.ratio.den

theorem read_of_exact {m : Multiple} (h : m.Exact) : m.read = some m := by
  rw [read, nearest?_of_exact h.1, nearest?_of_exact h.2]
  show some (Multiple.mk _ _) = _
  rw [signedRat_natAbs, Rat.num_div_den]

/-- **A quotient in lowest terms is read exactly only if its parts are.** -/
theorem exact_of_read {m : Multiple} (h : m.read = some m) : m.Exact := by
  obtain ⟨a, ha, h⟩ := Option.bind_eq_some_iff.mp h
  obtain ⟨b, hb, h⟩ := Option.bind_eq_some_iff.mp h
  have hratio : signedRat (decide (m.ratio.num < 0)) a / b = m.ratio := by
    have h := Option.some.inj h
    exact congrArg Multiple.ratio h
  rw [nearest?_eq_some_iff] at ha hb
  obtain ⟨B, rfl, hB, hBlt⟩ := hb.exists_nat m.ratio.den_pos
  rcases Nat.eq_zero_or_pos m.ratio.num.natAbs with hzero | hnum
  · have hden : m.ratio.den = 1 := by
      have hcoprime := m.ratio.reduced
      rwa [hzero, Nat.coprime_zero_left] at hcoprime
    refine ⟨?_, ?_⟩
    · rw [hzero]
      exact exact_of_lt (by norm_num)
    · rw [hden]
      exact exact_of_lt (by norm_num)
  · obtain ⟨A, rfl, hA, hAlt⟩ := ha.exists_nat hnum
    -- The quotient of the doubles is that of the numbers, cleared of the denominators.
    have hcross : A * m.ratio.den = m.ratio.num.natAbs * B := by
      have habs := congrArg abs hratio
      rw [abs_div, abs_signedRat, Nat.abs_cast, Nat.abs_cast, ← natAbs_div_den,
        div_eq_div_iff (by positivity) (by exact_mod_cast m.ratio.den_pos.ne')] at habs
      exact_mod_cast habs
    obtain rfl := eq_of_mul_eq m.ratio.reduced hcross hA hAlt
    have hBden := eq_of_mul_eq m.ratio.reduced.symm
      (by rw [Nat.mul_comm B, Nat.mul_comm m.ratio.den, hcross]) hB hBlt
    rw [hBden] at hb
    exact ⟨⟨_, ha⟩, ⟨_, hb⟩⟩

end Multiple

namespace Expr

/-- The multiple of 1 or of π that the expression denotes, if its numbers are taken for what they
are and nothing is rounded. -/
def multiple? : Expr → Option Multiple
  | number x => (ofFloat? x).map fun b => ⟨b.toRat, false⟩
  | constant .pi => some ⟨1, true⟩
  | neg x => x.multiple?.map Multiple.neg
  | binary o x y => do
    let m ← x.multiple?
    let k ← y.multiple?
    match o with
    | .add => m.add? k
    | .subtract => m.add? k.neg
    | .multiply => m.mul? k
    | .divide => m.div? k
  | fraction x y => do
    let m ← x.multiple?
    let k ← y.multiple?
    m.div? k
  | _ => none

end Expr

end NumericAnswer
