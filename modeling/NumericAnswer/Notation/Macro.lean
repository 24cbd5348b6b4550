/-
# Macros with arguments

Fractions, roots, logarithms to a base, and powers of functions, each with its
own pass. A power between a function and its argument raises the value of the
function; a negative one is left alone, as it could also mean the inverse
function.

Key definitions: `Pass.fraction`, `Pass.root`, `Pass.logBase`,
`Pass.functionPower`.
-/
import NumericAnswer.Function.Basic
import NumericAnswer.Notation.Pass

namespace NumericAnswer

def inBraces (s : Text) : Text :=
  '\x7b' :: s ++ ['\x7d']

def inSquareBrackets (s : Text) : Text :=
  '[' :: s ++ [']']

/-- The length of the blanks and the mark at the front of a text. -/
def markLength? (mark : Char) (s : Text) : Option Nat :=
  if (dropBlanks s).head? = some mark then some ((s.takeWhile isBlank).length + 1) else none

/-- A macro that starts here and takes `length` characters after its first one;
`build` reads its arguments. -/
def siteAt (s : Text) (length : Nat) (build : Text → Except Refusal (Text × Text)) : Site :=
  ⟨length, build (s.drop length)⟩

/-! ### What the macros become -/

def fractionCommands : List Text :=
  ["frac".toList, "dfrac".toList, "tfrac".toList, "cfrac".toList]

def buildFraction (s : Text) : Except Refusal (Text × Text) := do
  let (numerator, rest) ← macroArgument s
  let (denominator, rest) ← macroArgument rest
  .ok ("frac".toList ++ inBraces numerator ++ inBraces denominator, rest)

/-- A degree in square brackets may stand before the radicand. -/
def buildRoot (s : Text) : Except Refusal (Text × Text) :=
  if (dropBlanks s).head? = some '[' then do
    let (degree, rest) ← readGroup (dropBlanks s)
    let (radicand, rest) ← macroArgument rest
    .ok ("nthroot".toList ++ inSquareBrackets degree ++ inBraces radicand, rest)
  else do
    let (radicand, rest) ← macroArgument s
    .ok ("sqrt".toList ++ inBraces radicand, rest)

/-- The argument of the logarithm stays where it is. -/
def buildLogBase (s : Text) : Except Refusal (Text × Text) := do
  let (base, rest) ← macroArgument s
  .ok ("logBase".toList ++ inSquareBrackets base, rest)

def buildFunctionPower (f : UnaryFunction) (s : Text) : Except Refusal (Text × Text) := do
  let (exponent, rest) ← macroArgument s
  if (strip exponent).head? = some '-' then .error .absent
  else
    let (argument, rest) ← functionArgument rest
    .ok ('(' :: f.name.toList ++ inBraces argument ++ ')' :: '^' :: inBraces exponent, rest)

/-! ### Where they stand -/

def fractionSite? (c : Char) (s : Text) : Option Site :=
  let command := leadingLetters s
  if c = '\\' && fractionCommands.contains command then
    some (siteAt s command.length buildFraction)
  else none

def rootSite? (c : Char) (s : Text) : Option Site :=
  let command := leadingLetters s
  if c = '\\' && command = "sqrt".toList then some (siteAt s command.length buildRoot) else none

def logBaseSite? (c : Char) (s : Text) : Option Site :=
  let command := leadingLetters s
  if c = '\\' && command = "log".toList then
    (markLength? '_' (s.drop command.length)).map fun length =>
      siteAt s (command.length + length) buildLogBase
  else none

def functionPowerSite? (c : Char) (s : Text) : Option Site :=
  let command := leadingLetters s
  if c = '\\' then
    (UnaryFunction.ofCommand? command).bind fun f =>
      (markLength? '^' (s.drop command.length)).map fun length =>
        siteAt s (command.length + length) (buildFunctionPower f)
  else none

/-! ### A replacement is lighter than its macro -/

theorem weight_inBraces (s : Text) : weight (inBraces s) = weight s + 2 := by
  simp [inBraces, weight]
  omega

theorem weight_inSquareBrackets (s : Text) : weight (inSquareBrackets s) = weight s + 2 := by
  simp [inSquareBrackets, weight]
  omega

theorem weight_name_le (f : UnaryFunction) : weight f.name.toList ≤ 6 := by
  cases f <;> decide +kernel

theorem weight_of_sublist {s argument rest : Text} (h : (argument ++ rest).Sublist s) :
    weight argument + weight rest ≤ weight s := by
  rw [← weight_append]
  exact weight_le_of_sublist h

theorem weight_of_buildFraction {s replacement rest : Text}
    (h : buildFraction s = .ok (replacement, rest)) :
    weight replacement + weight rest ≤ weight s + 13 := by
  obtain ⟨⟨numerator, after⟩, hn, h⟩ := exists_of_bind_ok h
  obtain ⟨⟨denominator, after'⟩, hd, h⟩ := exists_of_bind_ok h
  obtain ⟨rfl, rfl⟩ := Prod.mk.inj (Except.ok.inj h)
  have hn := weight_of_sublist (sublist_of_macroArgument hn)
  have hd := weight_of_sublist (sublist_of_macroArgument hd)
  have hw : weight "frac".toList = 4 := by decide +kernel
  simp only [weight_append, weight_inBraces, hw]
  omega

theorem weight_of_buildRoot {s replacement rest : Text}
    (h : buildRoot s = .ok (replacement, rest)) :
    weight replacement + weight rest ≤ weight s + 13 := by
  unfold buildRoot at h
  split at h
  · obtain ⟨⟨degree, after⟩, hd, h⟩ := exists_of_bind_ok h
    obtain ⟨⟨radicand, after'⟩, hr, h⟩ := exists_of_bind_ok h
    obtain ⟨rfl, rfl⟩ := Prod.mk.inj (Except.ok.inj h)
    have hd := weight_of_sublist ((sublist_of_readGroup hd).trans (dropBlanks_sublist s))
    have hr := weight_of_sublist (sublist_of_macroArgument hr)
    have hw : weight "nthroot".toList = 7 := by decide +kernel
    simp only [weight_append, weight_inBraces, weight_inSquareBrackets, hw]
    omega
  · obtain ⟨⟨radicand, after⟩, hr, h⟩ := exists_of_bind_ok h
    obtain ⟨rfl, rfl⟩ := Prod.mk.inj (Except.ok.inj h)
    have hr := weight_of_sublist (sublist_of_macroArgument hr)
    have hw : weight "sqrt".toList = 4 := by decide +kernel
    simp only [weight_append, weight_inBraces, hw]
    omega

theorem weight_of_buildLogBase {s replacement rest : Text}
    (h : buildLogBase s = .ok (replacement, rest)) :
    weight replacement + weight rest ≤ weight s + 13 := by
  obtain ⟨⟨base, after⟩, hb, h⟩ := exists_of_bind_ok h
  obtain ⟨rfl, rfl⟩ := Prod.mk.inj (Except.ok.inj h)
  have hb := weight_of_sublist (sublist_of_macroArgument hb)
  have hw : weight "logBase".toList = 7 := by decide +kernel
  simp only [weight_append, weight_inSquareBrackets, hw]
  omega

theorem weight_of_buildFunctionPower {f : UnaryFunction} {s replacement rest : Text}
    (h : buildFunctionPower f s = .ok (replacement, rest)) :
    weight replacement + weight rest ≤ weight s + 13 := by
  obtain ⟨⟨exponent, after⟩, he, h⟩ := exists_of_bind_ok h
  simp only at h
  split at h
  · simp at h
  · obtain ⟨⟨argument, after'⟩, ha, h⟩ := exists_of_bind_ok h
    obtain ⟨rfl, rfl⟩ := Prod.mk.inj (Except.ok.inj h)
    have he := weight_of_sublist (sublist_of_macroArgument he)
    have ha := weight_of_sublist (sublist_of_functionArgument ha)
    have hf := weight_name_le f
    have ho : ∀ t : Text, weight ('(' :: t) = weight t + 1 := by
      intro t; simp [weight]; omega
    have hc : ∀ t : Text, weight (')' :: '^' :: t) = weight t + 2 := by
      intro t; simp [weight]; omega
    simp only [List.cons_append, weight_append, weight_inBraces, ho, hc]
    omega

theorem weight_siteAt {s : Text} {length length' : Nat}
    {build : Text → Except Refusal (Text × Text)} {replacement rest : Text}
    (hb : ∀ {s replacement rest : Text}, build s = .ok (replacement, rest) →
      weight replacement + weight rest ≤ weight s + 13)
    (h : siteAt s length build = ⟨length', .ok (replacement, rest)⟩) :
    weight replacement + weight rest + 2 < weight ('\\' :: s) := by
  have := hb (Site.mk.inj h).2
  have hd := weight_le_of_sublist (List.drop_sublist length s)
  have hs : weight ('\\' :: s) = weight s + 24 := by simp [weight]; omega
  omega

namespace Pass

def fraction : Pass where
  site? := fractionSite?
  lighter h := by
    unfold fractionSite? at h
    simp only at h
    split at h
    · next hc =>
      simp only [Bool.and_eq_true, decide_eq_true_eq] at hc
      rw [hc.1]
      exact weight_siteAt weight_of_buildFraction (Option.some.inj h)
    · simp at h

def root : Pass where
  site? := rootSite?
  lighter h := by
    unfold rootSite? at h
    simp only at h
    split at h
    · next hc =>
      simp only [Bool.and_eq_true, decide_eq_true_eq] at hc
      rw [hc.1]
      exact weight_siteAt weight_of_buildRoot (Option.some.inj h)
    · simp at h

def logBase : Pass where
  site? := logBaseSite?
  lighter h := by
    unfold logBaseSite? at h
    simp only at h
    split at h
    · next hc =>
      simp only [Bool.and_eq_true, decide_eq_true_eq] at hc
      obtain ⟨length, _, hs⟩ := Option.map_eq_some_iff.mp h
      rw [hc.1]
      exact weight_siteAt weight_of_buildLogBase hs
    · simp at h

def functionPower : Pass where
  site? := functionPowerSite?
  lighter h := by
    unfold functionPowerSite? at h
    simp only at h
    split at h
    · next hc =>
      obtain ⟨f, _, hf⟩ := Option.bind_eq_some_iff.mp h
      obtain ⟨length, _, hs⟩ := Option.map_eq_some_iff.mp hf
      rw [hc]
      exact weight_siteAt weight_of_buildFunctionPower hs
    · simp at h

end Pass
end NumericAnswer
