/-
# Doubles

A double is packed into bits: a sign, an exponent and a mantissa. What an
operation computes is packed again, and packing keeps the sign and keeps apart
what is no number; it makes infinity only of exponents that are too large.

Key definitions: `Double.signOf?`.
Key theorems: `Double.isNaN_pack`, `Double.signOf?_pack`, `Double.isFinite_neg`,
`Double.isFinite_abs`, `Double.neg_not_lt_zero`, `Double.isNaN_inv`,
`Binary.isNaN_nearest`, `Binary.isFinite_nearest`.
-/
import Mathlib
import NumericAnswer.Number.Binary

namespace NumericAnswer
namespace Double

open Float.Model Float.Model.UnpackedFloat

/-- The sign of an unpacked number. -/
def signOf? : UnpackedFloat → Option Sign
  | .infinity s | .zero s | .finite s _ _ _ => some s
  | .notANumber => none

/-! ### Packing and unpacking -/

section Format

variable {spec : Format}

theorem isFinite_unpack (b : BitVec spec.numBits) :
    (UnpackedFloat.unpack spec b).isFinite = decide (unpackExponent b ≠ -1#_) := by
  unfold UnpackedFloat.unpack
  simp only
  split
  · next h => split <;> simp [h, UnpackedFloat.isFinite]
  · next h => split <;> (try split) <;> simp [h, UnpackedFloat.isFinite]

theorem isNaN_unpack (b : BitVec spec.numBits) :
    (UnpackedFloat.unpack spec b).isNaN =
      decide (unpackExponent b = -1#_ ∧ unpackMantissa b ≠ 0#_) := by
  unfold UnpackedFloat.unpack
  simp only
  split
  · next h => split <;> simp [*, UnpackedFloat.isNaN]
  · next h => split <;> (try split) <;> simp [h, UnpackedFloat.isNaN]

theorem signOf?_unpack {b : BitVec spec.numBits}
    (h : (UnpackedFloat.unpack spec b).isNaN = false) :
    signOf? (UnpackedFloat.unpack spec b) = some (Sign.ofBitVec (unpackSign b)) := by
  revert h
  unfold UnpackedFloat.unpack
  simp only
  split
  · split
    · intro _; rfl
    · intro h; exact absurd h (by simp [UnpackedFloat.isNaN])
  · split
    · split <;> (intro _; rfl)
    · intro _; rfl

/-- The exponent of an unpacked number fits. -/
theorem exponent_lt_of_unpack (h2 : 2 ≤ spec.exponentBits) {b : BitVec spec.numBits} {s : Sign}
    {m : Nat} {e : Int} {hm : 0 < m} (h : UnpackedFloat.unpack spec b = .finite s m e hm) :
    (e + spec.exponentBias + spec.mantissaBitsWithoutImplicit).toNat <
      (BitVec.allOnes spec.exponentBits).toNat := by
  rw [BitVec.toNat_allOnes]
  have h4 : 2 ^ 2 ≤ 2 ^ spec.exponentBits := Nat.pow_le_pow_right (by decide) h2
  have hlt := (unpackExponent b).isLt
  unfold UnpackedFloat.unpack at h
  simp only at h
  split at h
  · split at h <;> simp at h
  · next hmax =>
    have hne : (unpackExponent b).toNat ≠ 2 ^ spec.exponentBits - 1 := by
      intro he
      refine hmax (BitVec.eq_of_toNat_eq ?_)
      rw [he, BitVec.neg_one_eq_allOnes, BitVec.toNat_allOnes]
    split at h
    · next hzero =>
      split at h
      · simp at h
      · obtain ⟨_, _, rfl⟩ := by simpa using h
        simp only [hzero, BitVec.toNat_ofNat, Nat.zero_mod]
        omega
    · obtain ⟨_, _, rfl⟩ := by simpa using h
      omega

/-- A number that is not infinite packs with an exponent below the largest. -/
theorem pack_finite (s : Sign) {m : Nat} {e : Int} (hm : 0 < m)
    (h : (e + spec.exponentBias + spec.mantissaBitsWithoutImplicit).toNat <
      (BitVec.allOnes spec.exponentBits).toNat) :
    ∃ exponent mantissa, exponent ≠ -1#_ ∧
      UnpackedFloat.pack spec (.finite s m e hm) = packComponents spec s exponent mantissa := by
  rw [BitVec.toNat_allOnes] at h
  unfold UnpackedFloat.pack
  simp only
  rw [if_neg (by omega)]
  split
  · refine ⟨_, _, ?_, rfl⟩
    intro he
    have hn := congrArg BitVec.toNat he
    rw [BitVec.neg_one_eq_allOnes, BitVec.toNat_ofNat, BitVec.toNat_allOnes,
      Nat.mod_eq_of_lt (by omega)] at hn
    omega
  · refine ⟨_, _, ?_, rfl⟩
    simp [Nat.pos_iff_ne_zero.1 spec.he]

theorem pack_infinite {s : Sign} {m : Nat} {e : Int} {hm : 0 < m}
    (h : (BitVec.allOnes spec.exponentBits).toNat ≤
      (e + spec.exponentBias + spec.mantissaBitsWithoutImplicit).toNat) :
    UnpackedFloat.pack spec (.finite s m e hm) = packedInfinity spec s := by
  rw [BitVec.toNat_allOnes] at h
  unfold UnpackedFloat.pack
  simp only
  rw [if_pos (by omega)]

/-- Packing keeps apart what is no number. -/
theorem isNaN_pack (u : UnpackedFloat) :
    (UnpackedFloat.unpack spec (UnpackedFloat.pack spec u)).isNaN = u.isNaN := by
  cases u with
  | infinity s =>
    rw [isNaN_unpack]
    simp [UnpackedFloat.pack, packedInfinity, UnpackedFloat.isNaN]
  | notANumber =>
    show (UnpackedFloat.unpack spec (packedNaN spec)).isNaN = true
    rw [unpack_packedNaN]
    rfl
  | zero s =>
    show (UnpackedFloat.unpack spec (packedZero spec s)).isNaN = false
    rw [unpack_packedZero]
    rfl
  | finite s m e hm =>
    rw [isNaN_unpack]
    by_cases h : (e + spec.exponentBias + spec.mantissaBitsWithoutImplicit).toNat <
        (BitVec.allOnes spec.exponentBits).toNat
    · obtain ⟨exponent, mantissa, he, hp⟩ := pack_finite s hm h
      simp [hp, he, UnpackedFloat.isNaN]
    · rw [pack_infinite (by omega)]
      simp [packedInfinity, UnpackedFloat.isNaN]

/-- Packing keeps the sign. -/
theorem signOf?_pack (u : UnpackedFloat) :
    signOf? (UnpackedFloat.unpack spec (UnpackedFloat.pack spec u)) = signOf? u := by
  have key : ∀ {s : Sign} {exponent : BitVec spec.exponentBits}
      {mantissa : BitVec spec.mantissaBitsWithoutImplicit}, signOf? u = some s →
      UnpackedFloat.pack spec u = packComponents spec s exponent mantissa →
      signOf? (UnpackedFloat.unpack spec (UnpackedFloat.pack spec u)) = signOf? u := by
    intro s exponent mantissa hs hp
    have hn : u.isNaN = false := by
      cases u with
      | notANumber => simp [signOf?] at hs
      | _ => rfl
    rw [signOf?_unpack (by rw [isNaN_pack]; exact hn), hs, hp, unpackSign_packComponents,
      Sign.ofBitVec_toBitVec]
  cases u with
  | infinity s => exact key rfl rfl
  | notANumber =>
    have hn := @isNaN_pack spec .notANumber
    revert hn
    cases UnpackedFloat.unpack spec (UnpackedFloat.pack spec .notANumber) <;>
      simp [UnpackedFloat.isNaN, signOf?]
  | zero s => exact key rfl rfl
  | finite s m e hm =>
    by_cases h : (e + spec.exponentBias + spec.mantissaBitsWithoutImplicit).toNat <
        (BitVec.allOnes spec.exponentBits).toNat
    · obtain ⟨exponent, mantissa, _, hp⟩ := pack_finite s hm h
      exact key rfl hp
    · exact key rfl (pack_infinite (by omega))

/-- What an unpacked number keeps its exponent in packs to a finite one. -/
theorem isFinite_pack_of_unpack (h2 : 2 ≤ spec.exponentBits) {b : BitVec spec.numBits} {s s' : Sign}
    {m : Nat} {e : Int} {hm : 0 < m} (h : UnpackedFloat.unpack spec b = .finite s m e hm) :
    (UnpackedFloat.unpack spec (UnpackedFloat.pack spec (.finite s' m e hm))).isFinite = true := by
  obtain ⟨exponent, mantissa, he, hp⟩ :=
    pack_finite s' hm (exponent_lt_of_unpack h2 h)
  rw [isFinite_unpack, hp, unpackExponent_packComponents]
  simpa using he

end Format

/-! ### Numbers that are finite, infinite or none -/

theorem isNaN_of_isFinite {x : Float} (h : x.isFinite = true) : x.isNaN = false := by
  revert h
  show x.toModel.unpack.isFinite = true → x.toModel.unpack.isNaN = false
  cases x.toModel.unpack <;> simp [UnpackedFloat.isFinite, UnpackedFloat.isNaN]

/-- The model of a packed result, unpacked. -/
theorem unpack_ofModel_pack (u : UnpackedFloat) :
    (Float.ofModel (Float.Model.pack u)).toModel.unpack =
      UnpackedFloat.unpack Format.binary64 (UnpackedFloat.pack Format.binary64 u) := rfl

theorem isFinite_neg {x : Float} (h : x.isFinite = true) : (-x).isFinite = true := by
  show (Float.ofModel (Float.Model.pack x.toModel.unpack.neg)).toModel.unpack.isFinite = true
  rw [unpack_ofModel_pack]
  have hx : x.toModel.unpack.isFinite = true := h
  cases hu : x.toModel.unpack with
  | infinity s => simp [hu, UnpackedFloat.isFinite] at hx
  | notANumber => simp [hu, UnpackedFloat.isFinite] at hx
  | zero s => cases s <;> rfl
  | finite s m e hm => exact isFinite_pack_of_unpack (by decide) hu

theorem isFinite_abs {x : Float} (h : x.isFinite = true) : x.abs.isFinite = true := by
  show (Float.ofModel (Float.Model.pack x.toModel.unpack.abs)).toModel.unpack.isFinite = true
  rw [unpack_ofModel_pack]
  have hx : x.toModel.unpack.isFinite = true := h
  cases hu : x.toModel.unpack with
  | infinity s => simp [hu, UnpackedFloat.isFinite] at hx
  | notANumber => simp [hu, UnpackedFloat.isFinite] at hx
  | zero s => cases s <;> rfl
  | finite s m e hm => exact isFinite_pack_of_unpack (by decide) hu

/-- What is below zero has the negative sign. -/
theorem signOf?_of_lt_zero {x : Float} (h : x < 0) :
    signOf? x.toModel.unpack = some .negative := by
  have h' : x.toModel.unpack.lt (.zero .positive) = true := of_decide_eq_true h
  revert h'
  cases x.toModel.unpack with
  | infinity s => cases s <;> simp [UnpackedFloat.lt, UnpackedFloat.compare, signOf?]
  | notANumber => simp [UnpackedFloat.lt, UnpackedFloat.compare]
  | zero s => simp [UnpackedFloat.lt, UnpackedFloat.compare]
  | finite s m e hm => cases s <;> simp [UnpackedFloat.lt, UnpackedFloat.compare, signOf?]

theorem neg_not_lt_zero {x : Float} (h : x < 0) : ¬ -x < 0 := by
  intro hn
  have hs := signOf?_of_lt_zero hn
  have hx := signOf?_of_lt_zero h
  rw [show (-x).toModel.unpack = _ from unpack_ofModel_pack x.toModel.unpack.neg,
    signOf?_pack] at hs
  cases hu : x.toModel.unpack with
  | notANumber => simp [hu, signOf?] at hx
  | infinity s => cases s <;> simp [hu, signOf?, UnpackedFloat.neg] at hx hs
  | zero s => cases s <;> simp [hu, signOf?, UnpackedFloat.neg] at hx hs
  | finite s m e hm => cases s <;> simp [hu, signOf?, UnpackedFloat.neg] at hx hs

/-- Rounding gives a number. -/
theorem isNaN_roundWithAccuracy (spec : Format) (s : Sign) (m : Nat) (e : Int) (a : Accuracy) :
    (roundWithAccuracy spec s m e a).isNaN = false := by
  unfold roundWithAccuracy
  simp only
  split <;> rfl

/-- The inverse of a number other than zero is a number. -/
theorem isNaN_inv {x : Float} (hx : x.isFinite = true) (h : (x == 0) = false) :
    (1.0 / x).isNaN = false := by
  show (Float.ofModel (Float.Model.pack (UnpackedFloat.div Format.binary64
    (1.0 : Float).toModel.unpack x.toModel.unpack))).toModel.unpack.isNaN = false
  rw [unpack_ofModel_pack, isNaN_pack]
  have hx : x.toModel.unpack.isFinite = true := hx
  have h : x.toModel.unpack.beq (.zero .positive) = false := h
  have hone : ∃ m e hm, (1.0 : Float).toModel.unpack = .finite .positive m e hm := ⟨_, _, _, rfl⟩
  obtain ⟨m₁, e₁, hm₁, hone⟩ := hone
  rw [hone]
  cases hu : x.toModel.unpack with
  | infinity s => simp [hu, UnpackedFloat.isFinite] at hx
  | notANumber => simp [hu, UnpackedFloat.isFinite] at hx
  | zero s => simp [hu, UnpackedFloat.beq, UnpackedFloat.compare] at h
  | finite s m e hm => exact isNaN_roundWithAccuracy _ _ _ _ _

/-! ### Comparisons with zero -/

/-- The number is zero, or has the positive sign. -/
def IsNonnegative (u : UnpackedFloat) : Prop :=
  (∃ s, u = .zero s) ∨ signOf? u = some .positive

theorem isNonnegative_iff (u : UnpackedFloat) :
    IsNonnegative u ↔ (UnpackedFloat.zero .positive).le u = true := by
  unfold IsNonnegative
  cases u with
  | infinity s => cases s <;> simp [UnpackedFloat.le, UnpackedFloat.compare, signOf?]
  | notANumber => simp [UnpackedFloat.le, UnpackedFloat.compare, signOf?]
  | zero s => simp [UnpackedFloat.le, UnpackedFloat.compare]
  | finite s m e hm => cases s <;> simp [UnpackedFloat.le, UnpackedFloat.compare, signOf?]

theorem isNonnegative_of_le {x : Float} (h : 0 ≤ x) : IsNonnegative x.toModel.unpack :=
  (isNonnegative_iff _).mpr (of_decide_eq_true h)

theorem isNonnegative_pack {u : UnpackedFloat} (h : IsNonnegative u) :
    IsNonnegative (UnpackedFloat.unpack Format.binary64 (UnpackedFloat.pack Format.binary64 u)) := by
  rcases h with ⟨s, rfl⟩ | h
  · exact .inl ⟨s, by cases s <;> rfl⟩
  · exact .inr (by rw [signOf?_pack]; exact h)

theorem signOf?_roundWithAccuracy (spec : Format) (s : Sign) (m : Nat) (e : Int) (a : Accuracy) :
    signOf? (roundWithAccuracy spec s m e a) = some s := by
  unfold roundWithAccuracy
  simp only
  split <;> rfl

/-- A product with a positive finite factor does not change its sign. -/
theorem isNonnegative_mul {u : UnpackedFloat} {m : Nat} {e : Int} {hm : 0 < m}
    (h : IsNonnegative u) :
    IsNonnegative (UnpackedFloat.mul Format.binary64 u (.finite .positive m e hm)) := by
  rcases h with ⟨s, rfl⟩ | h
  · exact .inl ⟨_, rfl⟩
  · right
    cases u with
    | notANumber => cases h
    | infinity s => obtain rfl := Option.some.inj h; rfl
    | zero s => obtain rfl := Option.some.inj h; rfl
    | finite s n d hn =>
      obtain rfl := Option.some.inj h
      exact signOf?_roundWithAccuracy _ _ _ _ _

/-- A finite number less itself is zero. -/
theorem sub_self_abs {x : Float} (h : x.isFinite = true) :
    (x - x).abs.toModel.unpack = .zero .positive := by
  have hx : x.toModel.unpack.isFinite = true := h
  have hsub : UnpackedFloat.sub Format.binary64 x.toModel.unpack x.toModel.unpack =
      .zero .positive := by
    cases hu : x.toModel.unpack with
    | infinity s => simp [hu, UnpackedFloat.isFinite] at hx
    | notANumber => simp [hu, UnpackedFloat.isFinite] at hx
    | zero s => cases s <;> rfl
    | finite s m e hm =>
      simp only [UnpackedFloat.sub, Int.sub_self]
      rfl
  show (Float.ofModel (Float.Model.pack (Float.ofModel (Float.Model.pack
    (UnpackedFloat.sub Format.binary64 x.toModel.unpack
      x.toModel.unpack))).toModel.unpack.abs)).toModel.unpack = _
  rw [hsub]
  rfl

/-! ### Doubles with given bits -/

/-- A finite number with given bits. -/
theorem isFinite_ofBits {bits : UInt64}
    (h : (UnpackedFloat.unpack Format.binary64 bits.toBitVec).isFinite = true) :
    (Float.ofBits bits).isFinite = true := by
  show (Float.ofModel (Float.Model.pack
    (UnpackedFloat.unpack Format.binary64 bits.toBitVec))).toModel.unpack.isFinite = true
  rw [unpack_ofModel_pack]
  cases hu : UnpackedFloat.unpack Format.binary64 bits.toBitVec with
  | infinity s => simp [hu, UnpackedFloat.isFinite] at h
  | notANumber => simp [hu, UnpackedFloat.isFinite] at h
  | zero s => cases s <;> rfl
  | finite s m e hm => exact isFinite_pack_of_unpack (by decide) hu

theorem isNaN_ofBits (bits : UInt64) :
    (Float.ofBits bits).isNaN =
      (UnpackedFloat.unpack Format.binary64 bits.toBitVec).isNaN := by
  show (Float.ofModel (Float.Model.pack
    (UnpackedFloat.unpack Format.binary64 bits.toBitVec))).toModel.unpack.isNaN = _
  rw [unpack_ofModel_pack, isNaN_pack]

end Double

namespace Binary

open Float.Model Float.Model.UnpackedFloat

theorem nearestBits_le (num den : Nat) : nearestBits num den ≤ infinityBits := by
  unfold nearestBits
  split
  · exact Nat.zero_le _
  · exact Nat.min_le_left _ _

theorem toNat_unpackExponent {n : Nat} (h : n < UInt64.size) :
    (@unpackExponent Format.binary64 (UInt64.ofNat n).toBitVec).toNat =
      n / 4503599627370496 % 2048 := by
  have hn : (UInt64.ofNat n).toBitVec.toNat = n := Nat.mod_eq_of_lt h
  unfold unpackExponent
  rw [BitVec.toNat_cast, BitVec.extractLsb_toNat, hn, Nat.shiftRight_eq_div_pow]
  rfl

theorem toNat_unpackMantissa {n : Nat} (h : n < UInt64.size) :
    (@unpackMantissa Format.binary64 (UInt64.ofNat n).toBitVec).toNat = n % 4503599627370496 := by
  have hn : (UInt64.ofNat n).toBitVec.toNat = n := Nat.mod_eq_of_lt h
  unfold unpackMantissa
  rw [BitVec.toNat_cast, BitVec.extractLsb_toNat, hn, Nat.shiftRight_zero]
  rfl

/-- A sign fits beside the bits of a magnitude. -/
theorem signed_bits_lt {negative : Bool} {bits : Nat} (h : bits ≤ infinityBits) :
    bits + (if negative then Nat.pow 2 63 else 0) < UInt64.size := by
  have hi : infinityBits = 9218868437227405312 := by decide +kernel
  have hs : Nat.pow 2 63 = 9223372036854775808 := by decide +kernel
  have hw : UInt64.size = 18446744073709551616 := rfl
  split <;> omega

theorem isNaN_signed {negative : Bool} {bits : Nat} (h : bits ≤ infinityBits) :
    (signed negative bits).isNaN = false := by
  have hlt := @signed_bits_lt negative bits h
  have hi : infinityBits = 9218868437227405312 := by decide +kernel
  have hs : Nat.pow 2 63 = 9223372036854775808 := by decide +kernel
  unfold signed
  rw [Double.isNaN_ofBits, Double.isNaN_unpack, decide_eq_false_iff_not]
  rintro ⟨he, hm⟩
  have he := congrArg BitVec.toNat he
  rw [toNat_unpackExponent hlt, show (-1#_ : BitVec 11).toNat = 2047 from rfl] at he
  refine hm (BitVec.eq_of_toNat_eq ?_)
  rw [toNat_unpackMantissa hlt]
  show _ = 0
  cases negative <;> simp only [hs, if_true, if_false, Bool.false_eq_true] at he ⊢ <;> omega

theorem isFinite_signed {negative : Bool} {bits : Nat} (h : bits < infinityBits) :
    (signed negative bits).isFinite = true := by
  have hlt := @signed_bits_lt negative bits (Nat.le_of_lt h)
  have hi : infinityBits = 9218868437227405312 := by decide +kernel
  have hs : Nat.pow 2 63 = 9223372036854775808 := by decide +kernel
  unfold signed
  refine Double.isFinite_ofBits ?_
  rw [Double.isFinite_unpack, decide_eq_true_eq]
  intro he
  have he := congrArg BitVec.toNat he
  rw [toNat_unpackExponent hlt, show (-1#_ : BitVec 11).toNat = 2047 from rfl] at he
  cases negative <;> simp only [hs, if_true, if_false, Bool.false_eq_true] at he <;> omega

/-- The double nearest to a quotient is a number or infinite. -/
theorem isNaN_nearest (negative : Bool) (num den : Nat) :
    (nearest negative num den).isNaN = false :=
  isNaN_signed (nearestBits_le num den)

theorem isFinite_nearest {negative : Bool} {num den : Nat} (h : nearestBits num den < infinityBits) :
    (nearest negative num den).isFinite = true :=
  isFinite_signed h

end Binary
end NumericAnswer
