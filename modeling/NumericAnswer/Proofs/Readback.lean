/-
# Numbers as answers

A sign and a literal of ASCII digits, such as a displayed value is, is an
answer in canonical form, is cleaned already, and has the value of the literal
under the sign, if that is finite.

Key definitions: `Literal.signedText`, `Literal.signedValue`.
Key theorems: `Literal.Formed.ofText_signedText`,
`Literal.Formed.cleaned_signedText`.
-/
import Mathlib
import NumericAnswer.Proofs.Arithmetic
import NumericAnswer.Proofs.Cleaned
import NumericAnswer.Proofs.Numbers
import NumericAnswer.Proofs.Rereading
import NumericAnswer.Proofs.Stability

namespace NumericAnswer

/-! ### Texts without blanks -/

theorem collapse_eq_self {s : Text} (hne : s ≠ []) (hs : ∀ c ∈ s, isBlank c = false) :
    collapse s = s := by
  have hwords : words ([' '].intercalate [s]) = [s] :=
    words_intercalate fun w hw => by
      obtain rfl := List.mem_singleton.mp hw
      exact ⟨hne, hs⟩
  have hself : [' '].intercalate [s] = s := by simp [List.intercalate]
  rw [hself] at hwords
  rw [collapse, hwords, hself]

theorem cleaned_eq_self {s : Text} (hne : s ≠ []) (hs : ∀ c ∈ s, isBlank c = false)
    (hdollar : '$' ∉ s) (hbackslash : '\\' ∉ s) : cleaned s = s := by
  have hcollapse := collapse_eq_self hne hs
  have hstrip : strip s = s := hcollapse ▸ strip_collapse s
  have hcommand : ¬displayStyleCommand <:+: s := fun h =>
    hbackslash (h.subset (List.mem_cons_self ..))
  have herase : erase displayStyleCommand s = s := by
    have h := erase_of_not_infix hcommand (margin_of_isAllBlank (b := []) rfl)
    rwa [List.append_nil] at h
  rw [cleaned, hstrip, stripDollars_eq_self hdollar, herase, hcollapse]

namespace Literal

def signedText (negative : Bool) (l : Literal) : Text :=
  (if negative then ['-'] else []) ++ l.text

def signedValue (negative : Bool) (l : Literal) : Float :=
  if negative then -l.value else l.value

variable {l : Literal}

theorem Plain.formed (h : l.Plain) (hmark : ∀ p ∈ l.power, p.mark = 'e' ∨ p.mark = 'E') :
    l.Formed where
  whole c hc := isDecimalDigit_of_isDigit (h.whole c hc)
  fraction c hc := isDecimalDigit_of_isDigit (h.fraction c hc)
  point hpoint := by
    by_contra hne
    rw [h.point.mpr hne] at hpoint
    cases hpoint
  ne_nil := .inl h.ne_nil
  power p hp :=
    { mark := hmark p hp
      sign := fun c hc => by
        rcases h.sign p hp with hs | hs <;> rw [hs] at hc <;> cases hc <;> simp
      ne_nil := (h.digits p hp).1
      digits := fun c hc => isDecimalDigit_of_isDigit ((h.digits p hp).2 c hc) }

theorem Formed.read?_text (h : l.Formed) : read? l.text = some (l, []) := by
  have hends : l.EndsBefore [] := ⟨rfl, fun _ => rfl, fun _ _ => by simp⟩
  rw [← List.append_nil l.text]
  exact read?_text_append h hends

/-- The characters that a literal and its sign are made of. -/
theorem Formed.mem_signedText (h : l.Formed) (negative : Bool) : ∀ c ∈ l.signedText negative,
    isAsciiLetter c = true ∨ isDecimalDigit c = true ∨ c ∈ ['.', '+', '-'] := by
  intro c hc
  rcases List.mem_append.mp hc with hc | hc
  · cases negative with
    | false => cases hc
    | true =>
      obtain rfl := List.mem_singleton.mp hc
      exact .inr (.inr (by simp))
  · exact mem_text_of_read? h.read?_text c hc

theorem Formed.signedText_ne_nil (h : l.Formed) (negative : Bool) : l.signedText negative ≠ [] := by
  intro hnil
  have htext : l.text = [] := (List.append_eq_nil_iff.mp hnil).2
  have hread := h.read?_text
  rw [htext] at hread
  cases hread

theorem Formed.notMem_signedText (h : l.Formed) (negative : Bool) {c : Char}
    (hc : isPlain c = false) : c ∉ l.signedText negative := by
  intro hmem
  have hplain := isPlain_of_lexeme_char (h.mem_signedText negative c hmem)
  rw [hc] at hplain
  cases hplain

theorem Formed.isBlank_signedText (h : l.Formed) (negative : Bool) :
    ∀ c ∈ l.signedText negative, isBlank c = false := fun c hc =>
  isBlank_of_lexeme_char (h.mem_signedText negative c hc)

theorem Formed.cleaned_signedText (h : l.Formed) (negative : Bool) :
    cleaned (l.signedText negative) = l.signedText negative :=
  cleaned_eq_self (h.signedText_ne_nil negative) (h.isBlank_signedText negative)
    (h.notMem_signedText negative (by decide)) (h.notMem_signedText negative (by decide))

theorem Formed.canonical_signedText (h : l.Formed) (negative : Bool) :
    canonical (l.signedText negative) = l.signedText negative :=
  canonical_eq_self
    (fun c hc => notMem_triggers_of_isPlain (isPlain_of_lexeme_char (h.mem_signedText negative c hc)))
    (h.notMem_signedText negative (by decide)) (h.notMem_signedText negative (by decide))
    (collapse_eq_self (h.signedText_ne_nil negative) (h.isBlank_signedText negative))

/-! ### Reading and evaluating -/

/-- The expression that a sign and a literal write. -/
def signedExpr (negative : Bool) (l : Literal) : Expr :=
  if negative then .neg (.number l.value) else .number l.value

theorem Formed.parse_signedText (h : l.Formed) (negative : Bool) :
    Expr.parse (l.signedText negative) = .ok (l.signedExpr negative) := by
  cases negative with
  | false => exact (Written.number l h.read?_text).parseWithin_text Expr.callLimit
  | true => exact (Written.neg (.number l h.read?_text)).parseWithin_text Expr.callLimit

variable [MathLibrary]

theorem value_signedExpr (negative : Bool) (hvalue : l.value.isFinite = true) :
    (l.signedExpr negative).value = .ok (l.signedValue negative) := by
  have hread : ∀ levels, Expr.valueWithin (levels + 1) (.number l.value) = .ok l.value :=
    fun levels => by rw [Expr.valueWithin, finite, if_pos hvalue]
  have hwithin : (l.signedExpr negative).valueWithin Expr.levelLimit = .ok (l.signedValue negative) := by
    cases negative with
    | false => exact hread _
    | true =>
      show (Expr.valueWithin 999 (.number l.value) >>= fun a => Except.ok (-a)) = _
      rw [hread]
      rfl
  have hsigned : (l.signedValue negative).isFinite = true := by
    cases negative with
    | false => exact hvalue
    | true =>
      rw [Double.isFinite_eq] at hvalue
      obtain ⟨b, hb⟩ := Option.isSome_iff_exists.mp hvalue
      exact (Double.holds_of_ofFloat? hb).neg.isFinite
  rw [Expr.value, hwithin]
  show finite "result" (l.signedValue negative) = _
  rw [finite, if_pos hsigned]

theorem value_signedExpr_error (negative : Bool) (hvalue : l.value.isFinite = false) :
    (l.signedExpr negative).value = .error (.notFinite "literal") := by
  have hread : ∀ levels, Expr.valueWithin (levels + 1) (.number l.value) =
      .error (.notFinite "literal") := fun levels => by
    rw [Expr.valueWithin, finite, if_neg (by simp [hvalue])]
  have hwithin : (l.signedExpr negative).valueWithin Expr.levelLimit =
      .error (.notFinite "literal") := by
    cases negative with
    | false => exact hread _
    | true =>
      show (Expr.valueWithin 999 (.number l.value) >>= fun a => Except.ok (-a)) = _
      rw [hread]
      rfl
  rw [Expr.value, hwithin]
  rfl

theorem Formed.ofText_signedText (h : l.Formed) (negative : Bool) :
    Outcome.ofText (l.signedText negative) =
      if l.value.isFinite then .success (l.signedValue negative) (l.signedText negative)
      else .failure (.value (.notFinite "literal")) (some (l.signedText negative)) := by
  have hblank : isAllBlank (l.signedText negative) = false :=
    Expr.isAllBlank_of_parseWithin (h.parse_signedText negative)
  rw [Outcome.ofText, hblank, h.canonical_signedText, evaluateCanonical, h.parse_signedText]
  cases hvalue : l.value.isFinite with
  | true => simp [value_signedExpr negative hvalue]
  | false => simp [value_signedExpr_error negative hvalue]

end Literal
end NumericAnswer
