/-
# Copied values

The preview of a text with a value has a text to copy, the displayed value.
Under the built-in settings that text is itself an answer, and it is graded as
right where the text previewed is the expected answer, unless the value is so
large that ten digits round it up beyond the doubles: then it has no value.

Key definition: `Store.ReadsBuiltin`.
Key theorem: `Access.copied_correct`.
-/
import Mathlib
import NumericAnswer.Proofs.Displayed
import NumericAnswer.Proofs.Grading
import NumericAnswer.Proofs.Queries

namespace NumericAnswer

open Double

/-- What is looked up now finds the built-in settings. -/
def Store.ReadsBuiltin (store : Store) : Prop :=
  ∃ settings, store.read.1 = .ok settings ∧ settings.Builtin

/-! ### The preview -/

section Preview

variable {settings : Settings}

/-- The hint for a finite value under the built-in settings. -/
theorem Display.finiteHint_eq_of_builtin (hs : settings.Builtin) (x : Float) (b : Binary) :
    finiteHint settings x b =
      if offWhole x b.roundEven < 1e-10 then .ok none
      else
        let fraction := closestFraction 100 b.toRat
        if (Binary.ofRat fraction - x).abs < 1e-10 then .ok (some (fractionText fraction))
        else .ok (piHint 1e-10 x) := by
  rw [finiteHint, hs, hs]
  rfl

/-- A finite value has a hint, if only an empty one. -/
theorem Display.finiteHint_builtin (hs : settings.Builtin) (x : Float) (b : Binary) :
    ∃ hint, finiteHint settings x b = .ok hint := by
  rw [finiteHint_eq_of_builtin hs]
  split_ifs
  · exact ⟨_, rfl⟩
  · dsimp only
    split_ifs <;> exact ⟨_, rfl⟩

variable [MathLibrary]

theorem isAllBlank_of_success {answer expression : Text} {value : Float}
    (h : Outcome.ofText answer = .success value expression) : isAllBlank answer = false := by
  by_contra hblank
  rw [Bool.not_eq_false] at hblank
  rw [Outcome.ofText, if_pos hblank] at h
  cases h

/-- What has a finite value is previewed with that value as the text to copy. -/
theorem Access.previewLines_of_success {store : Store} (hstore : store.read.1 = .ok settings)
    (hs : settings.Builtin) {answer expression shown : Text} {x : Float} {b : Binary}
    (hvalue : Outcome.ofText answer = .success x expression) (hb : Binary.ofFloat? x = some b)
    (hshown : Display.text settings none x = .ok shown) :
    ∃ lines, (previewLines answer store).1 = .ok lines ∧ lines.copyText = shown := by
  obtain ⟨hint, hhint⟩ := Display.finiteHint_builtin hs x b
  refine ⟨.ofValue x expression shown hint, ?_, rfl⟩
  rw [← Request.access_previewQuery, Query.access_eq, hstore, Request.previewQuery,
    isAllBlank_of_success hvalue, hvalue]
  have hformat : (Request.formatQuery none x).answer (.ok settings) = .ok shown := hshown
  have hdescribe : (Request.describeQuery x).answer (.ok settings) = .ok hint := by
    rw [Request.describeQuery, hb]
    exact hhint
  simp only [Bool.false_eq_true, if_false, Query.answer_bind, Query.answer_map, hformat,
    hdescribe, Except.bind, Except.map]

/-- Of two answers the one is graded as right if their values are close. -/
theorem Access.verdict_of_close {store : Store} (hstore : store.read.1 = .ok settings)
    (hs : settings.Builtin) {user expected userExpression expectedExpression : Text}
    {u v : Float} {p q : ℚ} (huser : cleaned user = user) (hexpected : cleaned expected = expected)
    (hne : user ≠ []) (hu : Outcome.ofText user = .success u userExpression)
    (hv : Outcome.ofText expected = .success v expectedExpression) (hp : Holds u p) (hq : Holds v q)
    (hclose : |p - q| ≤ max 1 |q| * (7 / 10 ^ 10)) :
    ∃ verdict, (Access.verdict .blank user expected store).1 = .ok verdict ∧
      verdict.correct = true := by
  have hmatch := numbersMatch_of_close hp hq hclose
  have hfactor : (settings.get .answerTolerance).factor = .ok 1e-9 := by
    rw [hs]
    rfl
  have hempty : user.isEmpty = false := by simpa using hne
  rw [← Request.access_verifyQuery, Query.access_eq, hstore, Request.verifyQuery, huser, hexpected,
    hempty, Request.valueQuery]
  simp only [Bool.false_eq_true, if_false, reduceCtorEq]
  split
  · exact ⟨⟨true, .exact, none, .texts user expected⟩, rfl, rfl⟩
  · rw [hu, hv]
    have hcompare : (Request.compareQuery none u v).answer (.ok settings) = .ok true := by
      rw [Request.compareQuery, Query.answer_map, Query.answer_lookup, hfactor]
      exact congrArg Except.ok hmatch
    simp only [Query.answer_map, hcompare]
    exact ⟨_, rfl, rfl⟩

/-! ### The copy -/

/-- A copied value is graded as right, unless it is too large for ten digits. -/
theorem Access.copied_correct {answer expression : Text} {value : Float} {store store' : Store}
    (hclean : cleaned answer = answer) (hvalue : Outcome.ofText answer = .success value expression)
    (hstore : store.ReadsBuiltin) (hstore' : store'.ReadsBuiltin) :
    ∃ lines, (previewLines answer store).1 = .ok lines ∧
      ∃ q, Holds value q ∧
        (|q| ≤ Decimal.copyLimit →
          (Outcome.ofText lines.copyText).isSuccess = true ∧
          ∃ verdict, (Access.verdict .blank lines.copyText answer store').1 = .ok verdict ∧
            verdict.correct = true) ∧
        (Decimal.copyLimit < |q| → (Outcome.ofText lines.copyText).isSuccess = false) := by
  obtain ⟨settings, hread, hs⟩ := hstore
  obtain ⟨settings', hread', hs'⟩ := hstore'
  have hfinite := Outcome.isFinite_of_success hvalue
  rw [isFinite_eq] at hfinite
  obtain ⟨b, hb⟩ := Option.isSome_iff_exists.mp hfinite
  obtain ⟨l, negative, htext, hshows⟩ := Display.text_builtin hs hb
  obtain ⟨lines, hlines, hcopy⟩ := previewLines_of_success hread hs hvalue hb htext
  have hread := hshows.formed.ofText_signedText negative
  refine ⟨lines, hlines, b.toRat, holds_of_ofFloat? hb, fun hsmall => ?_, fun hlarge => ?_⟩
  · obtain ⟨r, hr, hclose⟩ := hshows.exists_holds hsmall
    have hsuccess : Outcome.ofText lines.copyText =
        .success (l.signedValue negative) (l.signedText negative) := by
      rw [hcopy, hread, if_pos hr.isFinite]
    refine ⟨by rw [hsuccess]; rfl, ?_⟩
    refine verdict_of_close hread' hs' ?_ hclean ?_ hsuccess hvalue
      (Literal.holds_signedValue hr negative) (holds_of_ofFloat? hb) hclose
    · rw [hcopy, hshows.formed.cleaned_signedText]
    · rw [hcopy]
      exact hshows.formed.signedText_ne_nil negative
  · rw [hcopy, hread, hshows.isFinite_value hlarge]
    rfl

end Preview

theorem Store.readsBuiltin_initial (writable : Bool) : (initial none writable).ReadsBuiltin :=
  ⟨Settings.default, rfl, Settings.builtin_default⟩

/-- A value that is rounded down when it is displayed. -/
theorem Access.copied_correct_third :
    ∃ lines, (previewLines "1/3".toList (Store.initial none true)).1 = .ok lines ∧
      (Outcome.ofText lines.copyText).isSuccess = true ∧
      ∃ verdict, (Access.verdict .blank lines.copyText "1/3".toList (Store.initial none true)).1 =
        .ok verdict ∧ verdict.correct = true := by
  have hvalue : (Outcome.ofText "1/3".toList).value? = some (Float.ofBits 0x3fd5555555555555) := by
    decide +kernel
  obtain ⟨expression, hvalue⟩ := Outcome.eq_success_of_value? hvalue
  obtain ⟨lines, hlines, q, hq, hsmall, -⟩ := copied_correct (by decide +kernel) hvalue
    (Store.readsBuiltin_initial true) (Store.readsBuiltin_initial true)
  have hbits : Binary.ofFloat? (Float.ofBits 0x3fd5555555555555) =
      some ⟨false, 6004799503160661, -54⟩ := by decide +kernel
  have hvalue : |q| ≤ 1 := by
    rw [hq.unique (holds_of_ofFloat? hbits), Binary.abs_toRat, Binary.magnitude]
    norm_num
  have hlimit : ((1 : ℕ) : ℚ) ≤ Decimal.copyLimit := by
    rw [Decimal.copyLimit_eq]
    exact Nat.cast_le.mpr (by decide +kernel)
  exact ⟨lines, hlines, hsmall (hvalue.trans (Nat.cast_one.symm.le.trans hlimit))⟩

/-- The largest double is rounded up beyond the doubles. -/
theorem Access.not_copied_correct :
    ¬∀ (answer expression : Text) (value : Float) (store : Store), cleaned answer = answer →
      Outcome.ofText answer = .success value expression → store.ReadsBuiltin →
      ∃ lines, (previewLines answer store).1 = .ok lines ∧
        (Outcome.ofText lines.copyText).isSuccess = true ∧
        ∃ verdict, (Access.verdict .blank lines.copyText answer store).1 = .ok verdict ∧
          verdict.correct = true := by
  intro hclaim
  have hvalue : (Outcome.ofText "1.7976931348623157e308".toList).value? =
      some (Float.ofBits 0x7fefffffffffffff) := by decide +kernel
  obtain ⟨expression, hvalue⟩ := Outcome.eq_success_of_value? hvalue
  obtain ⟨lines, hlines, hsuccess, -⟩ :=
    hclaim _ expression _ (Store.initial none true) (by decide +kernel) hvalue
      (Store.readsBuiltin_initial true)
  have hcopy : (previewLines "1.7976931348623157e308".toList (Store.initial none true)).1.toOption.map
      PreviewLines.copyText = some "1.797693135E+308".toList := by decide +kernel
  have hfailure : (Outcome.ofText "1.797693135E+308".toList).isSuccess = false := by decide +kernel
  rw [hlines] at hcopy
  rw [Option.some.inj hcopy, hfailure] at hsuccess
  cases hsuccess

end NumericAnswer
