/-
# Grading by value

An answer that has a value is right if the value matches the expected one. The
comparison of texts that comes first takes no notice of blanks, though blanks
separate tokens: an answer that differs from the expected one in blanks only is
right whatever its value is.

Key definition: `OnlyBlanksDiffer`.
Key theorems: `numbersMatch_self`, `Access.correct_iff_numbersMatch`.
-/
import NumericAnswer.Answer.Verdict
import NumericAnswer.Proofs.Double

namespace NumericAnswer

open Float.Model Float.Model.UnpackedFloat

/-- The scale of a comparison is a positive number. -/
theorem scale_positive {x : Float} (h : x.isFinite = true) :
    ∃ m e hm, (if x.abs < 1 then (1 : Float) else x.abs).toModel.unpack =
      .finite .positive m e hm := by
  have hone : ∃ m e hm, (1 : Float).toModel.unpack = .finite .positive m e hm := ⟨_, _, _, rfl⟩
  split
  · exact hone
  · next hlt =>
    have hf : x.abs.toModel.unpack.isFinite = true := Double.isFinite_abs h
    have hlt : x.abs.toModel.unpack.lt (1 : Float).toModel.unpack = false := by
      by_cases hl : x.abs.toModel.unpack.lt (1 : Float).toModel.unpack = true
      · exact absurd (decide_eq_true hl) hlt
      · simpa using hl
    obtain ⟨m, e, hm, hone⟩ := hone
    rw [hone] at hlt
    have hs : Double.signOf? x.abs.toModel.unpack = some .positive := by
      have hx : x.toModel.unpack.isFinite = true := h
      rw [show x.abs.toModel.unpack = _ from Double.unpack_ofModel_pack x.toModel.unpack.abs,
        Double.signOf?_pack]
      cases hu : x.toModel.unpack with
      | notANumber => simp [hu, UnpackedFloat.isFinite] at hx
      | _ => rfl
    cases hu : x.abs.toModel.unpack with
    | infinity s => simp [hu, UnpackedFloat.isFinite] at hf
    | notANumber => simp [hu, UnpackedFloat.isFinite] at hf
    | zero s => simp [hu, UnpackedFloat.lt, UnpackedFloat.compare] at hlt
    | finite s n d hn =>
      rw [hu] at hs
      obtain rfl := Option.some.inj hs
      exact ⟨n, d, hn, rfl⟩

/-- A finite value matches itself. -/
theorem numbersMatch_self {tolerance x : Float} (ht : 0 ≤ tolerance) (hx : x.isFinite = true) :
    numbersMatch tolerance x x = true := by
  obtain ⟨m, e, hm, hscale⟩ := scale_positive hx
  have hp : Double.IsNonnegative
      (tolerance * if x.abs < 1 then (1 : Float) else x.abs).toModel.unpack := by
    rw [show (tolerance * if x.abs < 1 then (1 : Float) else x.abs).toModel.unpack = _ from
      Double.unpack_ofModel_pack _, hscale]
    exact Double.isNonnegative_pack (Double.isNonnegative_mul (Double.isNonnegative_of_le ht))
  have hle := (Double.isNonnegative_iff _).mp hp
  rw [← Double.sub_self_abs hx] at hle
  unfold numbersMatch
  exact decide_eq_true (decide_eq_true hle)

/-- The cleaned answers are not the same, but only their blanks differ. -/
def OnlyBlanksDiffer (user expected : Text) : Prop :=
  cleaned user ≠ cleaned expected ∧ unblanked (cleaned user) = unblanked (cleaned expected)

theorem Outcome.eq_success_of_value? {outcome : Outcome} {value : Float}
    (h : outcome.value? = some value) : ∃ expression, outcome = .success value expression := by
  cases outcome with
  | success v expression =>
    obtain rfl := Option.some.inj h
    exact ⟨expression, rfl⟩
  | failure => cases h

namespace Access

/-- The comparison by value, with the tolerance of the settings. -/
theorem numbersMatch_settings {store : Store} {settings : Settings} {tolerance : Float}
    (hsettings : store.read.1 = .ok settings)
    (htolerance : (settings.get .answerTolerance).factor = .ok tolerance) (u c : Float) :
    (numbersMatch none u c store).1 = .ok (NumericAnswer.numbersMatch tolerance u c) := by
  rcases hr : store.read with ⟨result, store'⟩
  rw [hr] at hsettings
  obtain rfl : result = .ok settings := hsettings
  have hs : Access.settings store = (.ok settings, store') := hr
  simp only [numbersMatch, bind, ExceptT.bind, ExceptT.mk, ExceptT.bindCont, StateT.bind, hs,
    ofExcept, htolerance]
  rfl

/-- An answer with a value is right exactly if its value matches, or if it
differs from the expected answer in blanks only. -/
theorem correct_iff_numbersMatch [MathLibrary] {type : QuestionType} {user expected : Text} {store : Store}
    {settings : Settings} {tolerance u c : Float} (htype : type ≠ .choice)
    (hsettings : store.read.1 = .ok settings)
    (htolerance : (settings.get .answerTolerance).factor = .ok tolerance)
    (hnonneg : 0 ≤ tolerance) (huser : cleaned user ≠ [])
    (hu : (Outcome.ofText (cleaned user)).value? = some u)
    (hc : (Outcome.ofText (cleaned expected)).value? = some c) :
    ∃ v, (verdict type user expected store).1 = .ok v ∧
      (v.correct = true ↔ NumericAnswer.numbersMatch tolerance u c = true ∨
        OnlyBlanksDiffer user expected) := by
  obtain ⟨userExpression, hus⟩ := Outcome.eq_success_of_value? hu
  obtain ⟨expectedExpression, hcs⟩ := Outcome.eq_success_of_value? hc
  have hempty : (cleaned user).isEmpty = false := by simpa using huser
  unfold verdict
  simp only [hempty, Bool.false_eq_true, if_false, htype]
  unfold valueVerdict
  by_cases hsame : unblanked (cleaned user) = unblanked (cleaned expected)
  · rw [if_pos hsame]
    refine ⟨_, rfl, iff_of_true rfl ?_⟩
    by_cases he : cleaned user = cleaned expected
    · left
      rw [he, hc] at hu
      obtain rfl := Option.some.inj hu
      exact numbersMatch_self hnonneg (Outcome.isFinite_of_success hcs)
    · exact .inr ⟨he, hsame⟩
  · rw [if_neg hsame, hus, hcs]
    have hm := numbersMatch_settings hsettings htolerance u c
    rcases hn : numbersMatch none u c store with ⟨result, store'⟩
    rw [hn] at hm
    obtain rfl : result = _ := hm
    simp only [bind, ExceptT.bind, ExceptT.mk, ExceptT.bindCont, StateT.bind, hn]
    refine ⟨_, rfl, ?_⟩
    simp [numericVerdict, OnlyBlanksDiffer, hsame]

/-- A blank makes a product of the number 2000; the answer is right although the
values do not match. -/
theorem correct_iff_numbersMatch_blank :
    ∃ u c, (@Outcome.ofText .native (cleaned "2e 3".toList)).value? = some u ∧
      (@Outcome.ofText .native (cleaned "2e3".toList)).value? = some c ∧
      NumericAnswer.numbersMatch 1e-9 u c = false ∧
      ∃ v, (@verdict .native .blank "2e 3".toList "2e3".toList
          ⟨none, true, some Settings.default⟩).1 = .ok v ∧
        (v.correct = true ↔ NumericAnswer.numbersMatch 1e-9 u c = true ∨
          OnlyBlanksDiffer "2e 3".toList "2e3".toList) := by
  have hu : (@Outcome.ofText .native (cleaned "2e 3".toList)).value?.isSome = true := by
    decide +kernel
  have hc : (@Outcome.ofText .native (cleaned "2e3".toList)).value?.isSome = true := by
    decide +kernel
  have hm : NumericAnswer.numbersMatch 1e-9 (Option.get _ hu) (Option.get _ hc) = false := by
    decide +kernel +revert
  refine ⟨Option.get _ hu, Option.get _ hc, (Option.some_get hu).symm, (Option.some_get hc).symm, hm,
    ?_⟩
  exact @correct_iff_numbersMatch .native .blank _ _ ⟨none, true, some Settings.default⟩
    Settings.default 1e-9 _ _ (by decide) rfl rfl (by decide +kernel) (by decide +kernel)
    (Option.some_get hu).symm (Option.some_get hc).symm

end Access
end NumericAnswer
