/-
# What a literal is and where it ends

The reader of numbers returns a well-formed literal, the longest one at the front of the text:
what follows it does not go on with it. Conversely a well-formed literal is read whole from any
text that goes on so.

Key definitions: `Literal.Formed`, `Literal.EndsBefore`.
Key theorem: `Literal.read?_eq_some_iff`.
-/
import NumericAnswer.Proofs.Shapes

namespace NumericAnswer

/-- The letters of names lie apart from the digits of any script. -/
theorem isDecimalDigit_of_isAsciiLetter {c : Char} (h : isAsciiLetter c = true) :
    isDecimalDigit c = false := by
  have hrange : 65 ≤ c.toNat ∧ c.toNat ≤ 122 := by
    simp only [isAsciiLetter, Bool.or_eq_true, Bool.and_eq_true, decide_eq_true_eq,
      Char.le_def, UInt32.le_iff_toNat_le] at h
    change 65 ≤ c.val.toNat ∧ c.val.toNat ≤ 122
    have : 'a'.val.toNat = 97 ∧ 'z'.val.toNat = 122 ∧ 'A'.val.toNat = 65 ∧ 'Z'.val.toNat = 90 := by
      decide
    omega
  have hzeros : ∀ first ∈ digitZeros, first + 9 < 65 ∨ 122 < first := by decide
  have hnone : digitValue? c = none := by
    rw [digitValue?, Option.map_eq_none_iff, List.find?_eq_none]
    intro first hmem
    have := hzeros first hmem
    simp only [Bool.and_eq_true, decide_eq_true_eq]
    omega
  rw [isDecimalDigit, hnone]
  rfl

namespace Literal

/-- The mark, the sign and the digits are ones that can be read. -/
structure Power.Formed (p : Power) : Prop where
  mark : p.mark = 'e' ∨ p.mark = 'E'
  sign : ∀ c ∈ p.sign, c = '+' ∨ c = '-'
  ne_nil : p.digits ≠ []
  digits : ∀ c ∈ p.digits, isDecimalDigit c = true

/-- The parts of the literal are ones that can be read. -/
structure Formed (l : Literal) : Prop where
  whole : ∀ c ∈ l.whole, isDecimalDigit c = true
  fraction : ∀ c ∈ l.fraction, isDecimalDigit c = true
  point : l.point = false → l.fraction = []
  ne_nil : l.whole ≠ [] ∨ l.fraction ≠ []
  power : ∀ p ∈ l.power, p.Formed

/-- The text does not go on with the literal. -/
structure EndsBefore (l : Literal) (r : Text) : Prop where
  digit : r.head?.any isDecimalDigit = false
  power : l.power = none → (readPower? r).1 = none
  point : l.power = none → l.point = false → r.head? ≠ some '.'

section Spans

variable {s r digits : Text}

theorem spanDigits_digits_append (hd : ∀ c ∈ digits, isDecimalDigit c = true)
    (hr : r.head?.any isDecimalDigit = false) : spanDigits (digits ++ r) = (digits, r) := by
  unfold spanDigits
  rw [List.takeWhile_append_of_pos hd, List.dropWhile_append_of_pos hd]
  cases r with
  | nil => simp
  | cons c r =>
    have hc : isDecimalDigit c = false := hr
    simp [hc]

theorem isDecimalDigit_of_mem_spanDigits (s : Text) :
    ∀ c ∈ (spanDigits s).1, isDecimalDigit c = true :=
  List.all_eq_true.mp List.all_takeWhile

theorem head?_spanDigits (s : Text) : (spanDigits s).2.head?.any isDecimalDigit = false :=
  head?_dropWhile_any isDecimalDigit s

end Spans

/-! ### Powers of ten -/

section Power

variable {p : Power} {r s digits : Text}

theorem spanSign_append_digits (sign : Option Char) (hs : ∀ c ∈ sign, c = '+' ∨ c = '-')
    (hd : ∀ c ∈ digits, isDecimalDigit c = true) (hne : digits ≠ []) (r : Text) :
    spanSign (sign.toList ++ (digits ++ r)) = (sign, digits ++ r) := by
  cases sign with
  | some c => rcases hs c rfl with rfl | rfl <;> rfl
  | none =>
    obtain ⟨d, digits, rfl⟩ := List.exists_cons_of_ne_nil hne
    have hdigit := hd d (List.mem_cons_self ..)
    have hplus : d ≠ '+' := by rintro rfl; exact absurd hdigit (by decide)
    have hminus : d ≠ '-' := by rintro rfl; exact absurd hdigit (by decide)
    unfold spanSign
    split <;> simp_all

theorem Power.Formed.readPower?_text_append (hp : p.Formed) (hr : r.head?.any isDecimalDigit = false) :
    readPower? (p.text ++ r) = (some p, r) := by
  obtain ⟨mark, sign, digits⟩ := p
  have hmark : (decide (mark = 'e') || decide (mark = 'E')) = true := by simpa using hp.mark
  simp only [Power.text, List.cons_append, List.append_assoc, readPower?, hmark, if_true,
    spanSign_append_digits sign hp.sign hp.digits hp.ne_nil, spanDigits_digits_append hp.digits hr]
  cases digits with
  | nil => exact absurd rfl hp.ne_nil
  | cons d digits => rfl

theorem readPower?_of_none (h : (readPower? s).1 = none) : readPower? s = (none, s) := by
  have happend := readPower?_append s
  rw [h] at happend
  exact Prod.ext h happend

theorem sign_of_spanSign (s : Text) : ∀ c ∈ (spanSign s).1, c = '+' ∨ c = '-' := by
  unfold spanSign
  split <;> simp

/-- A power of ten is found, whatever follows it. -/
theorem Power.Formed.readPower?_ne_none (hp : p.Formed) (r : Text) :
    (readPower? (p.text ++ r)).1 ≠ none := by
  obtain ⟨mark, sign, digits⟩ := p
  have hmark : (decide (mark = 'e') || decide (mark = 'E')) = true := by simpa using hp.mark
  simp only [Power.text, List.cons_append, List.append_assoc, readPower?, hmark, if_true,
    spanSign_append_digits sign hp.sign hp.digits hp.ne_nil]
  obtain ⟨d, digits, rfl⟩ := List.exists_cons_of_ne_nil hp.ne_nil
  have hd : isDecimalDigit d = true := hp.digits d (List.mem_cons_self ..)
  simp [spanDigits, hd]

/-- What is read as a power of ten is one, and its digits end where it ends. -/
theorem Power.formed_of_readPower? (h : readPower? s = (some p, r)) :
    p.Formed ∧ r.head?.any isDecimalDigit = false := by
  unfold readPower? at h
  split at h
  · cases h
  · next c s =>
    split at h
    · next hmark =>
      simp only at h
      split at h
      · cases h
      · next digits rest hne hspan =>
        obtain ⟨hp, rfl⟩ := Prod.mk.inj h
        obtain rfl := Option.some.inj hp
        have hdigits := isDecimalDigit_of_mem_spanDigits (spanSign s).2
        have hend := head?_spanDigits (spanSign s).2
        rw [hspan] at hdigits hend
        exact ⟨⟨by simpa using hmark, sign_of_spanSign s, hne, hdigits⟩, hend⟩
    · cases h

end Power

/-! ### Literals -/

section Read

variable {l : Literal} {r s : Text}

/-- A well-formed literal is read whole. -/
theorem read?_text_append (h : l.Formed) (hr : l.EndsBefore r) :
    read? (l.text ++ r) = some (l, r) := by
  obtain ⟨whole, point, fraction, power⟩ := l
  obtain ⟨hwhole, hfraction, hpoint, hne, hpower⟩ := h
  obtain ⟨hdigit, hnone, hnopoint⟩ := hr
  simp only at hwhole hfraction hpoint hne hpower hnone hnopoint
  -- What the digits are followed by, and that it is no digit.
  obtain ⟨after, hafter⟩ : ∃ after, after = (power.map Power.text).getD [] ++ r := ⟨_, rfl⟩
  have hread : readPower? after = (power, r) := by
    cases power with
    | none => 
      rw [hafter]
      exact readPower?_of_none (hnone rfl)
    | some p =>
      rw [hafter]
      exact (hpower p rfl).readPower?_text_append hdigit
  have hhead : after.head?.any isDecimalDigit = false := by
    cases power with
    | none => rw [hafter]; exact hdigit
    | some p =>
      rw [hafter]
      rcases (hpower p rfl).mark with hm | hm <;> simp [Power.text, hm] <;> decide
  cases point with
  | true =>
    have htext : text ⟨whole, true, fraction, power⟩ ++ r = whole ++ '.' :: (fraction ++ after) := by
      simp [text, hafter]
    rw [htext]
    unfold read?
    rw [spanDigits_digits_append hwhole (r := '.' :: (fraction ++ after)) rfl]
    cases whole with
    | nil =>
      simp only [spanDigits_digits_append hfraction hhead]
      cases fraction with
      | nil => simp at hne
      | cons d fraction => simp only [hread]
    | cons d whole => simp only [spanDigits_digits_append hfraction hhead, hread]
  | false =>
    obtain rfl := hpoint rfl
    have htext : text ⟨whole, false, [], power⟩ ++ r = whole ++ after := by simp [text, hafter]
    have hafterpoint : after.head? ≠ some '.' := by
      cases power with
      | none => rw [hafter]; exact hnopoint rfl rfl
      | some p =>
        rw [hafter]
        rcases (hpower p rfl).mark with hm | hm <;> simp [Power.text, hm]
    rw [htext]
    unfold read?
    rw [spanDigits_digits_append hwhole hhead]
    cases whole with
    | nil => simp at hne
    | cons d whole =>
      cases after with
      | nil => simp only [hread]
      | cons c after =>
        have hc : c ≠ '.' := by simpa using hafterpoint
        split <;> simp_all

/-- A literal is found, whatever follows it. -/
theorem Formed.read?_ne_none (h : l.Formed) (r : Text) : read? (l.text ++ r) ≠ none := by
  obtain ⟨whole, point, fraction, power⟩ := l
  obtain ⟨hwhole, hfraction, hpoint, hne, -⟩ := h
  simp only at hwhole hfraction hpoint hne
  cases whole with
  | cons d whole =>
    have hd : isDecimalDigit d = true := hwhole d (List.mem_cons_self ..)
    unfold read?
    simp only [text, List.cons_append, spanDigits, List.takeWhile_cons, List.dropWhile_cons, hd, if_true]
    split <;> simp_all
  | nil =>
    obtain ⟨d, fraction, rfl⟩ := List.exists_cons_of_ne_nil (hne.resolve_left (by simp))
    have hd : isDecimalDigit d = true := hfraction d (List.mem_cons_self ..)
    have hp : point = true := by
      cases point with
      | true => rfl
      | false => cases hpoint rfl
    subst hp
    have hdot : isDecimalDigit '.' = false := by decide
    unfold read?
    simp [text, spanDigits, hdot, hd]

/-- What stands after the digits of a literal. -/
theorem power_of_read? {whole fraction rest : Text} {point : Bool}
    (hwhole : ∀ c ∈ whole, isDecimalDigit c = true)
    (hfraction : ∀ c ∈ fraction, isDecimalDigit c = true) (hpoint : point = false → fraction = [])
    (hne : whole ≠ [] ∨ fraction ≠ []) (hdigit : rest.head?.any isDecimalDigit = false)
    (hrest : point = false → rest.head? ≠ some '.') :
    (⟨whole, point, fraction, (readPower? rest).1⟩ : Literal).Formed ∧
      (⟨whole, point, fraction, (readPower? rest).1⟩ : Literal).EndsBefore (readPower? rest).2 := by
  cases hp : readPower? rest with
  | mk power after =>
    cases power with
    | some p =>
      obtain ⟨hformed, hend⟩ := Power.formed_of_readPower? hp
      refine ⟨⟨hwhole, hfraction, hpoint, hne, fun q hq => ?_⟩, ⟨hend, ?_, ?_⟩⟩
      · obtain rfl := Option.some.inj hq
        exact hformed
      · intro h; cases h
      · intro h; cases h
    | none =>
      have hnone : (readPower? rest).1 = none := by rw [hp]
      have hafter := (readPower?_of_none hnone).symm.trans hp
      obtain ⟨-, rfl⟩ := Prod.mk.inj hafter
      exact ⟨⟨hwhole, hfraction, hpoint, hne, by simp⟩, ⟨hdigit, fun _ => hnone, fun _ => hrest⟩⟩

theorem formed_of_read? (h : read? s = some (l, r)) : l.Formed ∧ l.EndsBefore r := by
  have hdigits := isDecimalDigit_of_mem_spanDigits s
  have hhead := head?_spanDigits s
  unfold read? at h
  split at h
  · next after hspan =>
    split at h
    · cases h
    · next fraction rest hne hfraction =>
      obtain ⟨rfl, rfl⟩ := Prod.mk.inj (Option.some.inj h)
      have hdigits := isDecimalDigit_of_mem_spanDigits after
      have hhead := head?_spanDigits after
      rw [hfraction] at hdigits hhead
      exact power_of_read? (by simp) hdigits (by simp) (.inr hne) hhead (by simp)
  · cases h
  · next whole after hne hspan =>
    obtain ⟨rfl, rfl⟩ := Prod.mk.inj (Option.some.inj h)
    rw [hspan] at hdigits
    exact power_of_read? hdigits (isDecimalDigit_of_mem_spanDigits after) (by simp)
      (.inl hne) (head?_spanDigits after) (by simp)
  · next whole rest _ hne hpoint hspan =>
    obtain ⟨rfl, rfl⟩ := Prod.mk.inj (Option.some.inj h)
    rw [hspan] at hdigits hhead
    refine power_of_read? hdigits (by simp) (by simp) (.inl hne) hhead fun _ hp => ?_
    obtain ⟨after, ht⟩ := List.head?_eq_some_iff.mp hp
    exact hpoint after ht

/-- The reader of numbers returns the longest literal at the front of the text. -/
theorem read?_eq_some_iff : read? s = some (l, r) ↔ s = l.text ++ r ∧ l.Formed ∧ l.EndsBefore r := by
  constructor
  · intro h
    exact ⟨(text_append_of_read? h).symm, formed_of_read? h⟩
  · rintro ⟨rfl, h, hr⟩
    exact read?_text_append h hr

/-- A letter of a literal is the mark of its power of ten, which has a sign or a digit after it. -/
theorem Formed.not_letter_after (h : l.Formed) {p q : Text} {d : Char} (ht : l.text = p ++ d :: q)
    (hd : isAsciiLetter d = true) : ∃ e q', q = e :: q' ∧ isAsciiLetter e = false := by
  obtain ⟨whole, point, fraction, power⟩ := l
  obtain ⟨hwhole, hfraction, -, -, hpower⟩ := h
  simp only at hwhole hfraction hpower
  have hdigit : isDecimalDigit d = false := isDecimalDigit_of_isAsciiLetter hd
  have hne : ∀ e ∈ ['.', '+', '-'], d ≠ e := by
    simp only [List.forall_mem_cons]
    refine ⟨?_, ?_, ?_, by simp⟩ <;> (rintro rfl; exact absurd hd (by decide))
  have hfront : d ∉ whole ++ ((if point then ['.'] else []) ++ fraction) := by
    intro hm
    rcases List.mem_append.mp hm with hm | hm
    · rw [hwhole d hm] at hdigit
      cases hdigit
    · rcases List.mem_append.mp hm with hm | hm
      · split at hm
        · exact hne '.' (by simp) (List.mem_singleton.mp hm)
        · cases hm
      · rw [hfraction d hm] at hdigit
        cases hdigit
  have hsplit : text ⟨whole, point, fraction, power⟩ =
      (whole ++ ((if point then ['.'] else []) ++ fraction)) ++ (power.map Power.text).getD [] := by
    simp [text]
  rw [hsplit] at ht
  have hmem : d :: q <:+ (power.map Power.text).getD [] := by
    rcases List.append_eq_append_iff.mp ht with ⟨a, -, ha⟩ | ⟨a, ha, hpow⟩
    · exact ⟨a, ha.symm⟩
    · cases a with
      | nil => exact ⟨[], hpow⟩
      | cons e a =>
        obtain ⟨rfl, -⟩ := List.cons.inj hpow
        exact absurd (ha ▸ by simp) hfront
  cases power with
  | none => exact absurd hmem (by simp)
  | some m =>
    obtain ⟨mark, sign, digits⟩ := m
    obtain ⟨-, hsign, hdigits, hall⟩ := hpower _ rfl
    have hnot : ∀ e ∈ sign.toList ++ digits, isAsciiLetter e = false := by
      intro e he
      rcases List.mem_append.mp he with he | he
      · rcases hsign e (by simpa using he) with rfl | rfl <;> decide
      · by_contra hletter
        have hdigit := isDecimalDigit_of_isAsciiLetter (by simpa using hletter)
        rw [hall e he] at hdigit
        cases hdigit
    rcases List.suffix_cons_iff.mp hmem with heq | hsuffix
    · obtain ⟨-, rfl⟩ := List.cons.inj heq
      obtain ⟨e, q', hq⟩ := List.exists_cons_of_ne_nil
        (List.append_ne_nil_of_right_ne_nil sign.toList hdigits)
      exact ⟨e, q', hq, hnot e (hq ▸ List.mem_cons_self ..)⟩
    · exact absurd (hnot d (hsuffix.subset (List.mem_cons_self ..))) (by simp [hd])

end Read

end Literal
end NumericAnswer
