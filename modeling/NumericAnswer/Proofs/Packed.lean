/-
# Packed doubles

The bits of a double are its sign, its exponent and its mantissa. Between the
exact number and the bits nothing is lost: a finite double is unpacked into the
number that its bits hold, and packed back into them. A shift to the right with
rounding is a rounded quotient.

Key definitions: `Binary.unpacked`, `Binary.decode?`.
Key theorems: `Binary.unpack_of_decode?`, `Binary.toNat_pack_finite`,
`Binary.toBits_signed`, `Binary.eq_signed_of_ofFloat?`,
`Double.roundedMantissa_shift`.
-/
import Mathlib
import NumericAnswer.Proofs.Double
import NumericAnswer.Proofs.Nearest

namespace NumericAnswer

open Float.Model Float.Model.UnpackedFloat

namespace Double

theorem toNat_packComponents (s : Sign) (exponent : BitVec 11) (mantissa : BitVec 52) :
    (packComponents Format.binary64 s exponent mantissa).toNat =
      s.toBitVec.toNat * 2 ^ 63 + exponent.toNat * 2 ^ 52 + mantissa.toNat := by
  have he := exponent.isLt
  have hm := mantissa.isLt
  unfold packComponents
  rw [BitVec.toNat_append, BitVec.toNat_append, ← Nat.shiftLeft_add_eq_or_of_lt hm,
    ← Nat.shiftLeft_add_eq_or_of_lt he, Nat.shiftLeft_eq, Nat.shiftLeft_eq]
  ring

theorem toNat_unpackExponent (b : BitVec 64) :
    (@unpackExponent Format.binary64 b).toNat = b.toNat / 2 ^ 52 % 2 ^ 11 := by
  unfold unpackExponent
  rw [BitVec.toNat_cast, BitVec.extractLsb_toNat, Nat.shiftRight_eq_div_pow]
  rfl

theorem toNat_unpackMantissa (b : BitVec 64) :
    (@unpackMantissa Format.binary64 b).toNat = b.toNat % 2 ^ 52 := by
  unfold unpackMantissa
  rw [BitVec.toNat_cast, BitVec.extractLsb_toNat, Nat.shiftRight_zero]
  rfl

/-- The sign of a truth value that tells whether it is negative. -/
def signOf (negative : Bool) : Sign :=
  if negative then .negative else .positive

theorem toNat_signOf (negative : Bool) : (signOf negative).toBitVec.toNat = negative.toNat := by
  cases negative <;> rfl

theorem ofBitVec_unpackSign (b : BitVec 64) :
    Sign.ofBitVec (@unpackSign Format.binary64 b) = signOf (decide (2 ^ 63 ≤ b.toNat)) := by
  have hs : (@unpackSign Format.binary64 b).toNat = b.toNat / 2 ^ 63 % 2 := by
    unfold unpackSign
    rw [BitVec.toNat_cast, BitVec.extractLsb_toNat, Nat.shiftRight_eq_div_pow]
    rfl
  have hb := b.isLt
  have hz : @unpackSign Format.binary64 b = 0#1 ↔ (@unpackSign Format.binary64 b).toNat = 0 :=
    BitVec.toNat_inj.symm
  unfold Sign.ofBitVec signOf
  by_cases h : 2 ^ 63 ≤ b.toNat
  · rw [if_neg (mt hz.mp (by omega)), decide_eq_true h, if_pos rfl]
  · rw [if_pos (hz.mpr (by omega)), decide_eq_false h, if_neg (by decide)]

/-! ### Shifts -/

/-- The bits that a shift to the right leaves behind. -/
theorem shift_eq (m : ℕ) : ∀ n : ℕ,
    ExtendedMantissa.ofMantissaAndAccuracy m .exact >>> (n + 1) =
      ⟨m / 2 ^ (n + 1), m / 2 ^ n % 2 != 0, m % 2 ^ n != 0⟩
  | 0 => by
    show ExtendedMantissa.shiftRightOne ⟨m, false, false⟩ = _
    simp [ExtendedMantissa.shiftRightOne, Nat.mod_one]
  | n + 1 => by
    have hdiv : m / 2 ^ (n + 1) / 2 = m / 2 ^ (n + 1 + 1) := by
      rw [Nat.div_div_eq_div_mul, ← Nat.pow_succ]
    have hmod : m % 2 ^ (n + 1) = m % 2 ^ n + 2 ^ n * (m / 2 ^ n % 2) := Nat.mod_pow_succ
    have hbits : ((m / 2 ^ n % 2 != 0) || (m % 2 ^ n != 0)) = (m % 2 ^ (n + 1) != 0) := by
      rw [hmod]
      rcases Nat.mod_two_eq_zero_or_one (m / 2 ^ n) with h | h <;> simp [h]
    show ExtendedMantissa.shiftRightOne
      (ExtendedMantissa.ofMantissaAndAccuracy m .exact >>> (n + 1)) = _
    rw [shift_eq m n, ExtendedMantissa.shiftRightOne, hdiv, hbits]

/-- A shift to the right with rounding is a rounded quotient. -/
theorem roundedMantissa_shift (m : ℕ) : ∀ n : ℕ,
    (ExtendedMantissa.ofMantissaAndAccuracy m .exact >>> n).roundedMantissa =
      roundQuotient m (2 ^ n)
  | 0 => by
    show m = roundQuotient m (2 ^ 0)
    simp [roundQuotient, Nat.mod_one]
  | n + 1 => by
    have hmod : m % 2 ^ (n + 1) = m % 2 ^ n + 2 ^ n * (m / 2 ^ n % 2) := Nat.mod_pow_succ
    have hlt : m % 2 ^ n < 2 ^ n := Nat.mod_lt _ (Nat.two_pow_pos n)
    have hpow : 2 ^ (n + 1) = 2 ^ n * 2 := Nat.pow_succ 2 n
    rw [shift_eq, ExtendedMantissa.roundedMantissa, ExtendedMantissa.accuracy.eq_def]
    simp only [roundQuotient]
    generalize m / 2 ^ (n + 1) = quotient
    rcases Nat.mod_two_eq_zero_or_one (m / 2 ^ n) with h | h <;> rw [h] at hmod ⊢
    · by_cases h0 : m % 2 ^ n = 0
      · rw [h0, if_pos (by omega)]; rfl
      · rw [bne_iff_ne.mpr h0, if_pos (by omega)]; rfl
    · by_cases h0 : m % 2 ^ n = 0
      · rw [h0, if_neg (by omega), if_neg (by omega)]; rfl
      · rw [bne_iff_ne.mpr h0, if_neg (by omega), if_pos (by omega)]; rfl

end Double

namespace Binary

/-- The unpacked form of a number. -/
def unpacked (b : Binary) : UnpackedFloat :=
  if h : 0 < b.mantissa then .finite (Double.signOf b.negative) b.mantissa b.exponent h
  else .zero (Double.signOf b.negative)

/-- The number that bits hold, unless they are those of infinity or of no number. -/
def decode? (bits : ℕ) : Option Binary :=
  if bits / 2 ^ 52 % 2 ^ 11 = 2047 then none
  else if bits / 2 ^ 52 % 2 ^ 11 = 0 then some ⟨decide (2 ^ 63 ≤ bits), bits % 2 ^ 52, -1074⟩
  else some ⟨decide (2 ^ 63 ≤ bits), bits % 2 ^ 52 + 2 ^ 52, (bits / 2 ^ 52 % 2 ^ 11 : ℕ) - 1075⟩

theorem ofFloat?_eq_decode? (x : Float) : ofFloat? x = decode? x.toBits.toNat := rfl

variable {bits : ℕ} {b : Binary}

/-- The two kinds of numbers that bits hold. -/
theorem decode?_cases (h : decode? bits = some b) :
    (bits / 2 ^ 52 % 2 ^ 11 = 0 ∧ b = ⟨decide (2 ^ 63 ≤ bits), bits % 2 ^ 52, -1074⟩) ∨
    (0 < bits / 2 ^ 52 % 2 ^ 11 ∧ bits / 2 ^ 52 % 2 ^ 11 < 2047 ∧
      b = ⟨decide (2 ^ 63 ≤ bits), bits % 2 ^ 52 + 2 ^ 52,
        (bits / 2 ^ 52 % 2 ^ 11 : ℕ) - 1075⟩) := by
  unfold decode? at h
  split at h
  · simp at h
  · split at h
    · next hz => exact .inl ⟨hz, (Option.some.inj h).symm⟩
    · exact .inr ⟨by omega, by omega, (Option.some.inj h).symm⟩

theorem canonical_of_decode? (h : decode? bits = some b) : Canonical b.mantissa b.exponent := by
  rcases decode?_cases h with ⟨-, rfl⟩ | ⟨h₁, h₂, rfl⟩
  · exact ⟨by simp only; omega, le_rfl, by simp only; omega, .inl rfl⟩
  · exact ⟨by simp only; omega, by simp only; omega, by simp only; omega, .inr (by simp only; omega)⟩

theorem bits_of_decode? (hlt : bits < 2 ^ 64) (h : decode? bits = some b) :
    bits = bitsOf b.mantissa b.exponent + b.negative.toNat * 2 ^ 63 := by
  have hsign : b.negative = decide (2 ^ 63 ≤ bits) := by
    rcases decode?_cases h with ⟨-, rfl⟩ | ⟨-, -, rfl⟩ <;> rfl
  have hvalue : b.negative.toNat = bits / 2 ^ 63 := by
    rw [hsign]
    by_cases hn : 2 ^ 63 ≤ bits
    · rw [decide_eq_true hn, Bool.toNat_true]; omega
    · rw [decide_eq_false hn, Bool.toNat_false]; omega
  rw [hvalue]
  rcases decode?_cases h with ⟨hz, rfl⟩ | ⟨h₁, h₂, rfl⟩
  · simp only [bitsOf]; omega
  · simp only [bitsOf]; omega

theorem unpack_of_decode? {v : BitVec 64} (h : decode? v.toNat = some b) :
    UnpackedFloat.unpack Format.binary64 v = b.unpacked := by
  have he := Double.toNat_unpackExponent v
  have hm := Double.toNat_unpackMantissa v
  have hs := Double.ofBitVec_unpackSign v
  have hmax : ∀ w : BitVec 11, w = -1#11 ↔ w.toNat = 2047 := fun w =>
    ⟨fun hw => by rw [hw]; rfl, fun hw => BitVec.eq_of_toNat_eq hw⟩
  have hzero : ∀ {n : ℕ} (w : BitVec n), w = 0#n ↔ w.toNat = 0 := fun w =>
    ⟨fun hw => by rw [hw]; rfl, fun hw => BitVec.eq_of_toNat_eq (by simpa using hw)⟩
  have hbias : (Format.binary64.exponentBias : ℤ) + Format.binary64.mantissaBitsWithoutImplicit =
      1075 := rfl
  unfold UnpackedFloat.unpack
  simp only
  split
  · next hinf =>
    have := (hmax _).mp hinf
    rcases decode?_cases h with ⟨hz, -⟩ | ⟨-, h₂, -⟩ <;> omega
  · rcases decode?_cases h with ⟨hz, rfl⟩ | ⟨h₁, h₂, rfl⟩
    · rw [if_pos ((hzero _).mpr (he.trans hz))]
      split
      · next hf =>
        have := (hzero _).mp hf
        rw [unpacked, dif_neg (by simp only; omega), hs]
      · next hf =>
        have := mt (hzero _).mpr hf
        rw [unpacked, dif_pos (by simp only; omega), UnpackedFloat.finite.injEq]
        refine ⟨hs, hm, ?_⟩
        rw [he, hz, hbias]
        rfl
    · rw [if_neg (mt (hzero _).mp (by omega)), unpacked, dif_pos (by simp only; omega),
        UnpackedFloat.finite.injEq]
      refine ⟨hs, ?_, ?_⟩
      · rw [BitVec.toNat_append, ← Nat.shiftLeft_add_eq_or_of_lt (BitVec.isLt _), hm,
          Nat.shiftLeft_eq]
        exact Nat.add_comm _ _
      · rw [he, hbias]

/-- What is neither finite nor infinite has bits beyond those of infinity. -/
theorem unpack_of_infinite {v : BitVec 64} {negative : Bool}
    (h : v.toNat = 2047 * 2 ^ 52 + negative.toNat * 2 ^ 63) :
    UnpackedFloat.unpack Format.binary64 v = .infinity (Double.signOf negative) := by
  have he := Double.toNat_unpackExponent v
  have hm := Double.toNat_unpackMantissa v
  have hs := Double.ofBitVec_unpackSign v
  have hneg : decide (2 ^ 63 ≤ v.toNat) = negative := by
    cases negative <;> simp only [Bool.toNat_true, Bool.toNat_false] at h <;>
      simp only [decide_eq_true_eq, decide_eq_false_iff_not] <;> omega
  unfold UnpackedFloat.unpack
  simp only
  rw [if_pos (BitVec.eq_of_toNat_eq (by rw [he, h]; cases negative <;> rfl)),
    if_pos (BitVec.eq_of_toNat_eq (by rw [hm, h]; cases negative <;> rfl)), hs, hneg]

theorem bitsOf_lt_of_le {m : ℕ} {e : ℤ} (hm : m < 2 ^ 53) (he : e ≤ 971) :
    bitsOf m e < 2047 * 2 ^ 52 := by
  unfold bitsOf
  omega

/-- A number with a short mantissa is packed into its bits, or into infinity. -/
theorem toNat_pack_finite (s : Sign) {m : ℕ} {e : ℤ} (hm : 0 < m) (hlt : m < 2 ^ 53)
    (hleast : -1074 ≤ e) (hnormal : e = -1074 ∨ 2 ^ 52 ≤ m) :
    (UnpackedFloat.pack Format.binary64 (.finite s m e hm)).toNat =
      s.toBitVec.toNat * 2 ^ 63 + min (2047 * 2 ^ 52) (bitsOf m e) := by
  have hbias : (Format.binary64.exponentBias : ℤ) + Format.binary64.mantissaBitsWithoutImplicit = 1075 :=
    rfl
  have hlog : m.log2 + 1 = Format.binary64.mantissaBits ↔ 2 ^ 52 ≤ m := by
    have hb : Format.binary64.mantissaBits = 53 := rfl
    have h₁ := Nat.le_log2 hm.ne' (k := 52)
    have h₂ := Nat.log2_lt hm.ne' (k := 53)
    omega
  unfold UnpackedFloat.pack
  simp only [add_assoc, hbias, hlog]
  split
  · next hbig =>
    have hbig : 2 ^ 11 ≤ (e + 1075).toNat + 1 := hbig
    rw [packedInfinity, Double.toNat_packComponents, min_eq_left (by unfold bitsOf; omega),
      show (-1#11 : BitVec 11).toNat = 2047 from rfl, show (0 : BitVec 52).toNat = 0 from rfl,
      Nat.add_zero]
  · next hsmall =>
    have hsmall : ¬2 ^ 11 ≤ (e + 1075).toNat + 1 := hsmall
    rw [min_eq_right (bitsOf_lt_of_le hlt (by omega)).le]
    split
    · next hn =>
      rw [Double.toNat_packComponents, BitVec.toNat_ofNat, BitVec.toNat_ofNat, bitsOf,
        Nat.mod_eq_of_lt (a := (e + 1075).toNat) (by omega)]
      omega
    · next hn =>
      obtain rfl := hnormal.resolve_right hn
      rw [Double.toNat_packComponents, BitVec.toNat_ofNat, BitVec.toNat_ofNat, bitsOf]
      omega

theorem toNat_pack_unpacked (hb : Canonical b.mantissa b.exponent) :
    (UnpackedFloat.pack Format.binary64 b.unpacked).toNat =
      bitsOf b.mantissa b.exponent + b.negative.toNat * 2 ^ 63 := by
  unfold unpacked
  split
  · next hm =>
    rw [toNat_pack_finite _ hm hb.lt hb.least hb.normal, Double.toNat_signOf,
      min_eq_right (bitsOf_lt_of_le hb.lt hb.most).le, Nat.add_comm]
  · next hm =>
    have hm : b.mantissa = 0 := by omega
    have he : b.exponent = -1074 := hb.normal.resolve_right (by omega)
    rw [UnpackedFloat.pack, packedZero, Double.toNat_packComponents, Double.toNat_signOf,
      show (0 : BitVec 11).toNat = 0 from rfl, show (0 : BitVec 52).toNat = 0 from rfl, hm, he]
    simp [bitsOf]

theorem decode?_eq_none_iff : decode? bits = none ↔ bits / 2 ^ 52 % 2 ^ 11 = 2047 := by
  unfold decode?
  split_ifs with h₁ h₂
  · exact iff_of_true rfl h₁
  · exact iff_of_false (by simp) h₁
  · exact iff_of_false (by simp) h₁

/-- Bits up to those of infinity, under either sign, are unpacked and packed again. -/
theorem toNat_pack_unpack {v : BitVec 64} {negative : Bool} {n : ℕ} (h : n ≤ 2047 * 2 ^ 52)
    (hv : v.toNat = n + negative.toNat * 2 ^ 63) :
    (UnpackedFloat.pack Format.binary64 (UnpackedFloat.unpack Format.binary64 v)).toNat =
      v.toNat := by
  cases hd : decode? v.toNat with
  | some b =>
    rw [unpack_of_decode? hd, toNat_pack_unpacked (canonical_of_decode? hd)]
    exact (bits_of_decode? v.isLt hd).symm
  | none =>
    have hmax := decode?_eq_none_iff.mp hd
    have hinf : v.toNat = 2047 * 2 ^ 52 + negative.toNat * 2 ^ 63 := by
      rw [hv] at hmax ⊢
      cases negative <;> simp only [Bool.toNat_true, Bool.toNat_false] at hmax ⊢ <;> omega
    rw [unpack_of_infinite hinf, UnpackedFloat.pack, packedInfinity, Double.toNat_packComponents,
      Double.toNat_signOf, hinf, show (-1#11 : BitVec 11).toNat = 2047 from rfl,
      show (0 : BitVec 52).toNat = 0 from rfl]
    omega

theorem toNat_toBits_ofBits (u : UInt64) : (Float.ofBits u).toBits.toNat =
    (UnpackedFloat.pack Format.binary64 (UnpackedFloat.unpack Format.binary64 u.toBitVec)).toNat :=
  rfl

/-- Bits up to those of infinity stay as they are, under either sign. -/
theorem toBits_signed (negative : Bool) {n : ℕ} (h : n ≤ infinityBits) :
    (signed negative n).toBits.toNat = n + negative.toNat * 2 ^ 63 := by
  have hn : n + (if negative then Nat.pow 2 63 else 0) = n + negative.toNat * 2 ^ 63 := by
    cases negative <;> simp
  rw [infinityBits_eq] at h
  have hlt : n + negative.toNat * 2 ^ 63 < 2 ^ 64 := by
    cases negative <;> simp only [Bool.toNat_true, Bool.toNat_false] <;> omega
  have hv : (UInt64.ofNat (n + negative.toNat * 2 ^ 63)).toBitVec.toNat =
      n + negative.toNat * 2 ^ 63 := UInt64.toNat_ofNat_of_lt hlt
  rw [signed, hn, toNat_toBits_ofBits, toNat_pack_unpack h hv, hv]

theorem eq_of_toBits {x y : Float} (h : x.toBits.toNat = y.toBits.toNat) : x = y := by
  have h : x.toBits = y.toBits := UInt64.toNat.inj h
  obtain ⟨⟨u, hu⟩⟩ := x
  obtain ⟨⟨v, hv⟩⟩ := y
  obtain rfl : u = v := h
  rfl

/-- A finite double is the one that its magnitude is packed into. -/
theorem eq_signed_of_ofFloat? {x : Float} (h : ofFloat? x = some b) :
    x = signed b.negative (bitsOf b.mantissa b.exponent) := by
  have hc := canonical_of_decode? h
  refine eq_of_toBits ?_
  rw [toBits_signed _ (by rw [infinityBits_eq]; exact (bitsOf_lt_of_le hc.lt hc.most).le)]
  exact bits_of_decode? x.toBits.toNat_lt h

end Binary
end NumericAnswer
