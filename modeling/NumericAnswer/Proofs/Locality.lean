/-
# What the stages find is local

A macro that finds its arguments in a text finds the same ones when more text
follows that closes the block; a command that stands before the end of the
block has no more letters after it. So every stage of the canonical form is
local.

Key theorems: `macroArgument_append`, `functionArgument_append`,
`Canonical.local_of_mem_stages`.
-/
import Mathlib.Data.List.TakeWhile
import NumericAnswer.Proofs.Frame

namespace NumericAnswer

/-! ### Groups and arguments -/

theorem spanGroup_append {bracket : Bracket} : ∀ {s : Text} {depth : Nat} {content rest : Text},
    spanGroup bracket depth s = some (content, rest) → ∀ v : Text,
      spanGroup bracket depth (s ++ v) = some (content, rest ++ v)
  | [], _, _, _, h, _ => by simp [spanGroup] at h
  | c :: s, depth, content, rest, h, v => by
    have step : ∀ d, (spanGroup bracket d s).map (fun (p : Text × Text) => (c :: p.1, p.2)) =
        some (content, rest) →
        (spanGroup bracket d (s ++ v)).map (fun (p : Text × Text) => (c :: p.1, p.2)) =
          some (content, rest ++ v) := by
      intro d hd
      obtain ⟨⟨content', rest'⟩, hs, he⟩ := Option.map_eq_some_iff.mp hd
      obtain ⟨rfl, rfl⟩ := Prod.mk.inj he
      rw [spanGroup_append hs]
      rfl
    unfold spanGroup at h
    rw [List.cons_append]
    unfold spanGroup
    split at h
    · next ho => rw [if_pos ho]; exact step _ h
    · next ho =>
      rw [if_neg ho]
      split at h
      · next hc =>
        rw [if_pos hc]
        cases depth with
        | zero =>
          obtain ⟨rfl, rfl⟩ := Prod.mk.inj (Option.some.inj h)
          rfl
        | succ depth => exact step _ h
      · next hc => rw [if_neg hc]; exact step _ h

theorem readGroup_append {s content rest : Text} (h : readGroup s = .ok (content, rest)) (v : Text) :
    readGroup (s ++ v) = .ok (content, rest ++ v) := by
  unfold readGroup at h
  split at h
  · cases h
  · next c s =>
    rw [List.cons_append]
    unfold readGroup
    split at h
    · cases h
    · next bracket hb =>
      split at h
      · next group hg =>
        obtain rfl := Except.ok.inj h
        simp only [hb, spanGroup_append hg]
      · cases h

theorem ofOpening?_of_closes {c : Char} (h : isBlank c = true ∨ c ∈ closers) :
    Bracket.ofOpening? c = none := by
  have hb : ∀ b : Bracket, isBlank b.opening = false ∧ b.opening ∉ closers := by
    intro b; cases b <;> decide
  cases ho : Bracket.ofOpening? c with
  | none => rfl
  | some b =>
    rw [Bracket.ofOpening?_eq_some_iff.mp ho] at h
    rcases h with h | h
    · rw [(hb b).1] at h
      cases h
    · exact absurd h (hb b).2

theorem absorbGroups_of_closes {v : Text} (hv : Closes v) : absorbGroups v = .ok ([], v) := by
  obtain ⟨c, r, rfl, hc⟩ := hv.eq_cons
  rw [absorbGroups, ofOpening?_of_closes hc]

theorem absorbGroups_cons {c : Char} {t content rest : Text} {bracket : Bracket}
    (hb : Bracket.ofOpening? c = some bracket) (hr : bracket ≠ .round)
    (hs : spanGroup bracket 0 t = some (content, rest)) :
    absorbGroups (c :: t) = (absorbGroups rest).map fun (groups, rest) =>
      (c :: (content ++ bracket.closing :: groups), rest) := by
  rw [absorbGroups, hb]
  cases bracket with
  | round => exact absurd rfl hr
  | square =>
    simp only
    split
    · next hn => rw [hn] at hs; cases hs
    · next hn =>
      rw [hn] at hs
      obtain ⟨rfl, rfl⟩ := Prod.mk.inj (Option.some.inj hs)
      rfl
  | curly =>
    simp only
    split
    · next hn => rw [hn] at hs; cases hs
    · next hn =>
      rw [hn] at hs
      obtain ⟨rfl, rfl⟩ := Prod.mk.inj (Option.some.inj hs)
      rfl

theorem absorbGroups_append {v : Text} (hv : Closes v) {s groups rest : Text}
    (h : absorbGroups s = .ok (groups, rest)) : absorbGroups (s ++ v) = .ok (groups, rest ++ v) := by
  fun_induction absorbGroups s generalizing groups rest with
  | case1 =>
    obtain ⟨rfl, rfl⟩ := Prod.mk.inj (Except.ok.inj h)
    exact absorbGroups_of_closes hv
  | case2 c t hn =>
    obtain ⟨rfl, rfl⟩ := Prod.mk.inj (Except.ok.inj h)
    rw [List.cons_append, absorbGroups, hn]
  | case3 c t hr =>
    obtain ⟨rfl, rfl⟩ := Prod.mk.inj (Except.ok.inj h)
    rw [List.cons_append, absorbGroups, hr]
  | case4 => cases h
  | case5 c t bracket hne hb content rest' hs ih =>
    obtain ⟨⟨more, after⟩, ha, he⟩ := exists_of_map_ok h
    obtain ⟨rfl, rfl⟩ := Prod.mk.inj he
    rw [List.cons_append, absorbGroups_cons hb hne (spanGroup_append hs v), ih ha]
    rfl

theorem readGroup_ne_absent {c : Char} {s : Text} (h : (Bracket.ofOpening? c).isSome = true) :
    readGroup (c :: s) ≠ .error .absent := by
  obtain ⟨b, hb⟩ := Option.isSome_iff_exists.mp h
  simp only [readGroup, hb]
  split <;> simp

theorem absorbGroups_ne_absent (s : Text) : absorbGroups s ≠ .error .absent := by
  fun_induction absorbGroups s with
  | case1 => simp
  | case2 => simp
  | case3 => simp
  | case4 => simp
  | case5 c t bracket hne hb content rest hs ih =>
    cases ha : absorbGroups rest with
    | ok groups => simp [Except.map]
    | error refusal =>
      rw [ha] at ih
      simpa [Except.map] using ih

theorem map_ne_absent {α β : Type} {x : Except Refusal α} {f : α → β} (h : x ≠ .error .absent) :
    x.map f ≠ .error .absent := by
  cases x with
  | ok a => simp [Except.map]
  | error r => simpa [Except.map] using h

theorem singleToken_append {v : Text} (hv : Closes v) {s argument rest : Text}
    (h : singleToken s = .ok (argument, rest)) : singleToken (s ++ v) = .ok (argument, rest ++ v) := by
  cases s with
  | nil => cases h
  | cons c s =>
    rw [List.cons_append]
    simp only [singleToken, leadingLetters_append_of_head hv.head_isAsciiLetter,
      dropWhile_append_of_head hv.head_isAsciiLetter] at h ⊢
    split at h
    · cases h
    · next hc =>
      rw [if_neg hc]
      split at h
      · next hb =>
        obtain ⟨rfl, rfl⟩ := Prod.mk.inj (Except.ok.inj h)
        rw [if_pos hb]
      · next hb =>
        obtain ⟨rfl, rfl⟩ := Prod.mk.inj (Except.ok.inj h)
        rw [if_neg hb]

theorem drop_leadingLetters_append {v : Text} (s : Text) :
    (s ++ v).drop (leadingLetters s).length = s.drop (leadingLetters s).length ++ v :=
  List.drop_append_of_le_length (length_leadingLetters_le s)

/-- What stands for an argument is not empty. -/
theorem dropBlanks_ne_nil_of_macroArgument {s argument rest : Text}
    (h : macroArgument s = .ok (argument, rest)) : dropBlanks s ≠ [] := by
  intro hs
  simp [macroArgument, hs, leadingLetters, groupedWords, singleToken] at h

/-- An argument of a macro that is absent before the end stays so. -/
theorem macroArgument_absent_append {v : Text} {s : Text} (hs : dropBlanks s ≠ [])
    (hl : v.head?.any isAsciiLetter = false) (h : macroArgument s = .error .absent) :
    macroArgument (s ++ v) = .error .absent := by
  obtain ⟨c, r, hcr⟩ := List.exists_cons_of_ne_nil hs
  unfold macroArgument at h ⊢
  simp only [dropBlanks_append hs, leadingLetters_append_of_head hl, drop_leadingLetters_append,
    List.head?_append_of_ne_nil _ hs] at h ⊢
  split at h
  · next hc =>
    rw [hcr, List.head?_cons, Option.some.injEq] at hc
    rw [hcr, hc] at h
    exact absurd h (readGroup_ne_absent rfl)
  · next hc =>
    rw [if_neg hc]
    split at h
    · exact absurd h (map_ne_absent (absorbGroups_ne_absent _))
    · next hw =>
      rw [if_neg hw]
      rw [hcr] at h ⊢
      simp only [singleToken, List.cons_append] at h ⊢
      split at h
      · next hb => rw [if_pos hb]
      · split at h <;> cases h

/-- The argument of a macro does not depend on the text after the block. -/
theorem macroArgument_append {v : Text} (hv : Closes v) {s argument rest : Text}
    (h : macroArgument s = .ok (argument, rest)) :
    macroArgument (s ++ v) = .ok (argument, rest ++ v) := by
  have hne := dropBlanks_ne_nil_of_macroArgument h
  unfold macroArgument at h ⊢
  simp only [dropBlanks_append hne, leadingLetters_append_of_head hv.head_isAsciiLetter,
    drop_leadingLetters_append, List.head?_append_of_ne_nil _ hne] at h ⊢
  split at h
  · next hc =>
    rw [if_pos hc]
    exact readGroup_append h v
  · next hc =>
    rw [if_neg hc]
    split at h
    · next hw =>
      obtain ⟨⟨groups, after⟩, ha, he⟩ := exists_of_map_ok h
      obtain ⟨rfl, rfl⟩ := Prod.mk.inj he
      rw [if_pos hw, absorbGroups_append hv ha]
      rfl
    · next hw =>
      rw [if_neg hw]
      exact singleToken_append hv h

theorem bareNumber_eq {s : Text} (h : (s.dropWhile isDecimalDigit).head? ≠ some '.') :
    bareNumber s = if (s.takeWhile isDecimalDigit).isEmpty then none
      else some (s.takeWhile isDecimalDigit, s.dropWhile isDecimalDigit) := by
  unfold bareNumber
  simp only
  split
  · next heq => simp [heq] at h
  · rfl

/-- A number at the front is the same before the text after the block. -/
theorem bareNumber_append {v : Text} (hv : Closes v) (s : Text) :
    bareNumber (s ++ v) = (bareNumber s).map fun (operand, rest) => (operand, rest ++ v) := by
  have hd := hv.head_isDecimalDigit
  by_cases hp : (s.dropWhile isDecimalDigit).head? = some '.'
  · obtain ⟨t, ht⟩ := List.head?_eq_some_iff.mp hp
    unfold bareNumber
    simp only [takeWhile_append_of_head hd, dropWhile_append_of_head hd, ht, List.cons_append]
    split
    · split <;> rfl
    · rfl
  · have hp' : ((s ++ v).dropWhile isDecimalDigit).head? ≠ some '.' := by
      rw [dropWhile_append_of_head hd]
      cases hw : s.dropWhile isDecimalDigit with
      | nil => exact hv.head_ne (by decide) (by decide)
      | cons c t => simpa [hw] using hp
    rw [bareNumber_eq hp, bareNumber_eq hp', takeWhile_append_of_head hd,
      dropWhile_append_of_head hd]
    split <;> rfl

theorem bareOperand_eq {s : Text} (h : s.head? ≠ some '\\') :
    bareOperand s = if (leadingLetters s).isEmpty then bareNumber s
      else some (leadingLetters s, s.dropWhile isAsciiLetter) := by
  unfold bareOperand
  split
  · simp at h
  · rfl

theorem bareOperand_append {v : Text} (hv : Closes v) (s : Text) :
    bareOperand (s ++ v) = (bareOperand s).map fun (operand, rest) => (operand, rest ++ v) := by
  have hl := hv.head_isAsciiLetter
  by_cases hb : s.head? = some '\\'
  · obtain ⟨t, rfl⟩ := List.head?_eq_some_iff.mp hb
    simp only [List.cons_append, bareOperand, leadingLetters_append_of_head hl,
      dropWhile_append_of_head hl]
    split <;> rfl
  · have hb' : (s ++ v).head? ≠ some '\\' := by
      cases s with
      | nil => exact hv.head_ne (by decide) (by decide)
      | cons c t => simpa using hb
    rw [bareOperand_eq hb, bareOperand_eq hb', leadingLetters_append_of_head hl,
      dropWhile_append_of_head hl, bareNumber_append hv]
    split <;> rfl

theorem Closes.ofOpening? {v : Text} (hv : Closes v) : v.head?.bind Bracket.ofOpening? = none := by
  obtain ⟨c, r, rfl, hc⟩ := hv.eq_cons
  exact ofOpening?_of_closes hc

/-- The argument of a function does not depend on the text after the block. -/
theorem functionArgument_append {v : Text} (hv : Closes v) {s argument rest : Text}
    (h : functionArgument s = .ok (argument, rest)) :
    functionArgument (s ++ v) = .ok (argument, rest ++ v) := by
  have hne : dropBlanks s ≠ [] := by
    intro hs
    simp [functionArgument, hs, bareOperand, leadingLetters, bareNumber] at h
  unfold functionArgument at h ⊢
  simp only [dropBlanks_append hne, List.head?_append_of_ne_nil _ hne, bareOperand_append hv] at h ⊢
  split at h
  · next hc =>
    rw [if_pos hc]
    exact readGroup_append h v
  · next hc =>
    rw [if_neg hc]
    split at h
    · cases h
    · next operand rest' ho =>
      rw [ho]
      simp only [Option.map_some]
      split at h
      · next hw =>
        obtain ⟨⟨groups, after⟩, ha, he⟩ := exists_of_map_ok h
        obtain ⟨rfl, rfl⟩ := Prod.mk.inj he
        rw [if_pos hw, absorbGroups_append hv ha]
        rfl
      · next hw =>
        obtain ⟨rfl, rfl⟩ := Prod.mk.inj (Except.ok.inj h)
        rw [if_neg hw]

/-- An argument of a function that is absent stays so. -/
theorem functionArgument_absent_append {v : Text} (hv : Closes v) {s : Text}
    (h : functionArgument s = .error .absent) : functionArgument (s ++ v) = .error .absent := by
  unfold functionArgument at h ⊢
  by_cases hs : dropBlanks s = []
  · have hb := bareOperand_append hv.dropBlanks []
    rw [List.nil_append] at hb
    simp only [dropBlanks_of_isAllBlank (dropBlanks_eq_nil_iff.mp hs), hv.dropBlanks.ofOpening?, hb]
    rfl
  · obtain ⟨c, r, hcr⟩ := List.exists_cons_of_ne_nil hs
    simp only [dropBlanks_append hs, List.head?_append_of_ne_nil _ hs, bareOperand_append hv] at h ⊢
    split at h
    · next hc =>
      rw [hcr] at h hc
      exact absurd h (readGroup_ne_absent hc)
    · next hc =>
      rw [if_neg hc]
      split at h
      · next ho => rw [ho]; rfl
      · split at h
        · exact absurd h (map_ne_absent (absorbGroups_ne_absent _))
        · cases h

/-! ### Passes -/

theorem padded_congr {b b' a a' : Option Char} (hb : b.any isAlphanumeric = b'.any isAlphanumeric)
    (ha : a.any isAlphanumeric = a'.any isAlphanumeric) (word : Text) :
    padded b a word = padded b' a' word := by
  unfold padded
  rw [hb, ha]

theorem head_append_isAlphanumeric {v : Text} (hv : Closes v) (s : Text) :
    (s ++ v).head?.any isAlphanumeric = s.head?.any isAlphanumeric := by
  cases s with
  | nil => exact hv.head_isAlphanumeric
  | cons c s => rfl

/-- A pass is local if its macros are. -/
theorem Stage.local_pass {p : Pass} {ended : Char → Text → Bool}
    (hplain : ∀ c s, c ∉ triggers → p.site? c s = none)
    (hnone : ∀ {c s v}, Closes v → p.site? c s = none → p.site? c (s ++ v) = none)
    (hok : ∀ {c s v n r rest}, Closes v → p.site? c s = some ⟨n, .ok (r, rest)⟩ →
      p.site? c (s ++ v) = some ⟨n, .ok (r, rest ++ v)⟩)
    (habsent : ∀ {c s v n}, Closes v → p.site? c s = some ⟨n, .error .absent⟩ →
      ended c s = false → p.site? c (s ++ v) = some ⟨n, .error .absent⟩ ∧ ended c (s ++ v) = false) :
    (Stage.pass p ended).Local where
  before c s h := by
    unfold Stage.pass
    split
    · next r rest _ =>
      rw [padded_congr h rfl]
      exact .step _ _ h
    · exact .unclosed
    · split
      · exact .short
      · exact .nothing
    · exact .nothing
  plain b s h := by simp [Stage.pass, hplain _ _ h]
  nothing := by
    intro b c s v h hv
    unfold Stage.pass at h ⊢
    split at h
    · cases h
    · cases h
    · next hs =>
      split at h
      · cases h
      · next he =>
        obtain ⟨hs', he'⟩ := habsent hv hs (by simpa using he)
        simp [hs', he']
    · next hs => simp [hnone hv hs]
  step := by
    intro b b' c s v out rest h hv
    left
    unfold Stage.pass at h ⊢
    split at h
    · next r rest' hs =>
      obtain ⟨rfl, rfl, rfl⟩ := Found.step.inj h
      simp only [hok hv hs, List.append_assoc]
      rw [padded_congr rfl (head_append_isAlphanumeric hv rest')]
    · cases h
    · split at h <;> cases h
    · cases h

theorem markLength?_append {mark : Char} (hm : isBlank mark = false) (hc : mark ∉ closers) {v : Text}
    (hv : Closes v) (s : Text) : markLength? mark (s ++ v) = markLength? mark s := by
  unfold markLength?
  by_cases hs : dropBlanks s = []
  · have hh := hv.dropBlanks.head_ne hm hc
    rw [dropBlanks_of_isAllBlank (dropBlanks_eq_nil_iff.mp hs), hs]
    simp [hh]
  · rw [dropBlanks_append hs, List.head?_append_of_ne_nil _ hs]
    rw [takeWhile_append_of_ne_nil hs]

/-- A mark stands after blanks. -/
theorem eq_append_of_markLength? {mark : Char} {s : Text} {n : Nat}
    (h : markLength? mark s = some n) :
    ∃ bl, isAllBlank bl = true ∧ s = bl ++ mark :: s.drop n ∧ n = bl.length + 1 := by
  unfold markLength? at h
  split at h
  · next hm =>
    obtain rfl := Option.some.inj h
    obtain ⟨t, ht⟩ := List.head?_eq_some_iff.mp hm
    have hs := List.takeWhile_append_dropWhile (p := isBlank) (l := s)
    have hd : s.drop ((s.takeWhile isBlank).length + 1) = t := by
      rw [← List.drop_drop, drop_length_takeWhile, show s.dropWhile isBlank = mark :: t from ht]
      rfl
    refine ⟨s.takeWhile isBlank, List.all_takeWhile, ?_, rfl⟩
    rw [hd]
    exact (hs.symm.trans (congrArg _ ht))
  · cases h

theorem markLength?_le {mark : Char} {s : Text} {n : Nat} (h : markLength? mark s = some n) :
    n ≤ s.length := by
  obtain ⟨bl, _, hs, hn⟩ := eq_append_of_markLength? h
  have := congrArg List.length hs
  simp only [List.length_append, List.length_cons] at this
  omega

theorem drop_siteLength {s v : Text} {n : Nat} (h : n ≤ (s.drop (leadingLetters s).length).length) :
    (s ++ v).drop ((leadingLetters s).length + n) =
      s.drop ((leadingLetters s).length + n) ++ v := by
  refine List.drop_append_of_le_length ?_
  rw [List.length_drop] at h
  have := length_leadingLetters_le s
  omega

section Builds

variable {v : Text} (hv : Closes v) {s replacement rest : Text}

include hv

theorem buildFraction_append (h : buildFraction s = .ok (replacement, rest)) :
    buildFraction (s ++ v) = .ok (replacement, rest ++ v) := by
  obtain ⟨⟨numerator, after⟩, hn, h⟩ := exists_of_bind_ok h
  obtain ⟨⟨denominator, after'⟩, hd, h⟩ := exists_of_bind_ok h
  obtain ⟨rfl, rfl⟩ := Prod.mk.inj (Except.ok.inj h)
  simp only [buildFraction, macroArgument_append hv hn, macroArgument_append hv hd, bind,
    Except.bind]

theorem buildRoot_append (h : buildRoot s = .ok (replacement, rest)) :
    buildRoot (s ++ v) = .ok (replacement, rest ++ v) := by
  unfold buildRoot at h ⊢
  split at h
  · next hs =>
    obtain ⟨⟨degree, after⟩, hd, h⟩ := exists_of_bind_ok h
    obtain ⟨⟨radicand, after'⟩, hr, h⟩ := exists_of_bind_ok h
    obtain ⟨rfl, rfl⟩ := Prod.mk.inj (Except.ok.inj h)
    have hne : dropBlanks s ≠ [] := by rintro h; rw [h] at hs; cases hs
    rw [dropBlanks_append hne, List.head?_append_of_ne_nil _ hne, if_pos hs]
    simp only [readGroup_append hd, macroArgument_append hv hr, bind, Except.bind]
  · next hs =>
    obtain ⟨⟨radicand, after⟩, hr, h⟩ := exists_of_bind_ok h
    obtain ⟨rfl, rfl⟩ := Prod.mk.inj (Except.ok.inj h)
    have hne := dropBlanks_ne_nil_of_macroArgument hr
    rw [dropBlanks_append hne, List.head?_append_of_ne_nil _ hne, if_neg hs]
    simp only [macroArgument_append hv hr, bind, Except.bind]

theorem buildLogBase_append (h : buildLogBase s = .ok (replacement, rest)) :
    buildLogBase (s ++ v) = .ok (replacement, rest ++ v) := by
  obtain ⟨⟨base, after⟩, hb, h⟩ := exists_of_bind_ok h
  obtain ⟨rfl, rfl⟩ := Prod.mk.inj (Except.ok.inj h)
  simp only [buildLogBase, macroArgument_append hv hb, bind, Except.bind]

theorem buildFunctionPower_append {f : UnaryFunction}
    (h : buildFunctionPower f s = .ok (replacement, rest)) :
    buildFunctionPower f (s ++ v) = .ok (replacement, rest ++ v) := by
  obtain ⟨⟨exponent, after⟩, he, h⟩ := exists_of_bind_ok h
  simp only at h
  split at h
  · cases h
  · next hm =>
    obtain ⟨⟨argument, after'⟩, ha, h⟩ := exists_of_bind_ok h
    obtain ⟨rfl, rfl⟩ := Prod.mk.inj (Except.ok.inj h)
    simp only [buildFunctionPower, macroArgument_append hv he, functionArgument_append hv ha, bind,
      Except.bind, if_neg hm]

/-- A power of a function that lacks an argument before the end lacks it still. -/
theorem buildFunctionPower_absent_append {f : UnaryFunction} (hs : isAllBlank s = false)
    (h : buildFunctionPower f s = .error .absent) :
    buildFunctionPower f (s ++ v) = .error .absent := by
  have hne : dropBlanks s ≠ [] := by
    intro hd
    rw [dropBlanks_eq_nil_iff.mp hd] at hs
    cases hs
  unfold buildFunctionPower at h ⊢
  cases he : macroArgument s with
  | error refusal =>
    rw [he] at h
    obtain rfl : refusal = .absent := Except.error.inj h
    rw [macroArgument_absent_append hne hv.head_isAsciiLetter he]
    rfl
  | ok found =>
    obtain ⟨exponent, after⟩ := found
    rw [he] at h
    rw [macroArgument_append hv he]
    simp only [bind, Except.bind] at h ⊢
    split at h
    · next hm => rw [if_pos hm]
    · next hm =>
      rw [if_neg hm]
      cases ha : functionArgument after with
      | error refusal =>
        rw [ha] at h
        obtain rfl : refusal = .absent := Except.error.inj h
        rw [functionArgument_absent_append hv ha]
      | ok found => rw [ha] at h; cases h

end Builds

theorem backslash_mem_triggers : '\\' ∈ triggers := by decide

theorem ne_backslash_of_notMem {c : Char} (h : c ∉ triggers) : c ≠ '\\' := by
  rintro rfl
  exact h backslash_mem_triggers

namespace Stage

/-- A pass whose macros are commands with arguments right after them. -/
theorem local_command {p : Pass} {names : List Text} {build : Text → Except Refusal (Text × Text)}
    (hp : ∀ c s, p.site? c s = if c = '\\' && names.contains (leadingLetters s) then
      some (siteAt s (leadingLetters s).length build) else none)
    (hb : ∀ {s v replacement rest : Text}, Closes v → build s = .ok (replacement, rest) →
      build (s ++ v) = .ok (replacement, rest ++ v)) : (strictPass p).Local := by
  refine local_pass (fun c s h => ?_) (fun {c s v} hv h => ?_) (fun {c s v n r rest} hv h => ?_)
    (fun _ _ h => by cases h)
  · simp [hp, ne_backslash_of_notMem h]
  · rw [hp] at h ⊢
    rw [leadingLetters_append_of_head hv.head_isAsciiLetter]
    split at h
    · cases h
    · next hc => rw [if_neg hc]
  · rw [hp] at h ⊢
    simp only [leadingLetters_append_of_head hv.head_isAsciiLetter, siteAt,
      drop_leadingLetters_append] at h ⊢
    split at h
    · next hc =>
      obtain ⟨rfl, hs⟩ := Site.mk.inj (Option.some.inj h)
      rw [if_pos hc, hb hv hs]
    · cases h

theorem local_fraction : (strictPass .fraction).Local :=
  local_command (fun _ _ => rfl) fun hv h => buildFraction_append hv h

theorem site_root (c : Char) (s : Text) :
    Pass.root.site? c s = if c = '\\' && ["sqrt".toList].contains (leadingLetters s) then
      some (siteAt s (leadingLetters s).length buildRoot) else none := by
  simp [Pass.root, rootSite?]

theorem local_root : (strictPass .root).Local :=
  local_command site_root fun hv h => buildRoot_append hv h

theorem local_logBase : (strictPass .logBase).Local := by
  have hm : ∀ {s v : Text}, Closes v → markLength? '_' (s ++ v) = markLength? '_' s :=
    fun hv => markLength?_append (by decide) (by decide) hv _
  refine local_pass (fun c s h => ?_) (fun {c s v} hv h => ?_) (fun {c s v n r rest} hv h => ?_)
    (fun _ _ h => by cases h)
  · simp [Pass.logBase, logBaseSite?, ne_backslash_of_notMem h]
  · simp only [Pass.logBase, logBaseSite?, leadingLetters_append_of_head hv.head_isAsciiLetter,
      drop_leadingLetters_append, hm hv] at h ⊢
    split at h
    · next hc =>
      rw [if_pos hc]
      rw [Option.map_eq_none_iff] at h ⊢
      exact h
    · next hc => rw [if_neg hc]
  · simp only [Pass.logBase, logBaseSite?, leadingLetters_append_of_head hv.head_isAsciiLetter,
      drop_leadingLetters_append, hm hv] at h ⊢
    split at h
    · next hc =>
      rw [if_pos hc]
      obtain ⟨k, hk, hs⟩ := Option.map_eq_some_iff.mp h
      obtain ⟨rfl, hb⟩ := Site.mk.inj hs
      rw [hk, Option.map_some, siteAt, drop_siteLength (markLength?_le hk),
        buildLogBase_append hv hb]
    · cases h

theorem local_functionPower : functionPower.Local := by
  have hm : ∀ {s v : Text}, Closes v → markLength? '^' (s ++ v) = markLength? '^' s :=
    fun hv => markLength?_append (by decide) (by decide) hv _
  have hsite : ∀ {c s v n outcome}, Closes v →
      functionPowerSite? c s = some ⟨n, outcome⟩ → ∃ f, outcome = buildFunctionPower f (s.drop n) ∧
        functionPowerSite? c (s ++ v) = some ⟨n, buildFunctionPower f (s.drop n ++ v)⟩ ∧
        (s ++ v).drop n = s.drop n ++ v := by
    intro c s v n outcome hv h
    simp only [functionPowerSite?, leadingLetters_append_of_head hv.head_isAsciiLetter,
      drop_leadingLetters_append, hm hv] at h ⊢
    split at h
    · next hc =>
      obtain ⟨f, hf, h⟩ := Option.bind_eq_some_iff.mp h
      obtain ⟨k, hk, hs⟩ := Option.map_eq_some_iff.mp h
      obtain ⟨rfl, rfl⟩ := Site.mk.inj hs
      have hd := drop_siteLength (v := v) (markLength?_le hk)
      refine ⟨f, rfl, ?_, hd⟩
      rw [if_pos hc, hf, Option.bind_some, hk, Option.map_some, siteAt, hd]
    · cases h
  refine local_pass (fun c s h => ?_) (fun {c s v} hv h => ?_) (fun {c s v n r rest} hv h => ?_)
    (fun {c s v n} hv h he => ?_)
  · simp [Pass.functionPower, functionPowerSite?, ne_backslash_of_notMem h]
  · simp only [Pass.functionPower, functionPowerSite?,
      leadingLetters_append_of_head hv.head_isAsciiLetter, drop_leadingLetters_append, hm hv] at h ⊢
    split at h
    · next hc =>
      rw [if_pos hc]
      cases hf : UnaryFunction.ofCommand? (leadingLetters s) with
      | none => rfl
      | some f =>
        rw [hf, Option.bind_some, Option.map_eq_none_iff] at h
        rw [Option.bind_some, h]
        rfl
    · next hc => rw [if_neg hc]
  · obtain ⟨f, hb, hs, _⟩ := hsite hv h
    exact hs.trans (by rw [buildFunctionPower_append hv hb.symm])
  · obtain ⟨f, hb, hs, hd⟩ := hsite hv h
    have hne : isAllBlank (s.drop n) = false := by
      have h' : functionPowerSite? c s = some ⟨n, .error .absent⟩ := h
      simpa [h'] using he
    rw [buildFunctionPower_absent_append hv hne hb.symm] at hs
    refine ⟨hs, ?_⟩
    rw [hs]
    simp only [Option.any_some, hd]
    rw [isAllBlank, List.all_append, ← isAllBlank, hne, Bool.false_and]

end Stage

/-! ### Substitutions -/

/-- A match of the rule does not depend on the text after the block. -/
def Rule.Persists (rule : Rule) (c : Char) (s v : Text) : Prop :=
  ∀ {replacement : Text} {n : Nat}, rule c s = some (replacement, n) →
    n ≤ s.length ∧ rule c (s ++ v) = some (replacement, n)

/-- A match of the rule takes in the whole text, and the blanks of the text
after the block as well. -/
def Rule.Swallows (rule : Rule) (c : Char) (s v : Text) : Prop :=
  ∀ {replacement : Text} {n : Nat}, rule c s = some (replacement, n) → s.drop n = [] ∧
    ∃ n', rule c (s ++ v) = some (replacement, n') ∧ (s ++ v).drop n' = dropBlanks v

/-- A substitution is local if the matches of its rule are. -/
theorem Stage.local_substitution {rule : Option Char → Rule} {ended : Char → Text → Bool}
    (hbefore : ∀ {b b' : Option Char} (c s), b.any isAlphanumeric = b'.any isAlphanumeric →
      rule b c s = rule b' c s)
    (hplain : ∀ {c : Char} (b s), c ∉ triggers → rule b c s = none ∧ ended c s = false)
    (hnone : ∀ {b c s v}, Closes v → rule b c s = none → ended c s = false →
      rule b c (s ++ v) = none ∧ ended c (s ++ v) = false)
    (hsome : ∀ b c s v, Closes v → (rule b).Persists c s v ∨ (rule b).Swallows c s v) :
    (Stage.substitution rule ended).Local where
  before c s h := by
    unfold substitution
    rw [hbefore c s h]
    split
    · exact .step _ _ rfl
    · split
      · exact .short
      · exact .nothing
  plain b s h := by
    obtain ⟨hr, he⟩ := hplain b s h
    simp [substitution, hr, he]
  nothing := by
    intro b c s v h hv
    unfold substitution at h ⊢
    split at h
    · cases h
    · next hr =>
      split at h
      · cases h
      · next he =>
        obtain ⟨hr', he'⟩ := hnone hv hr (by simpa using he)
        simp [hr', he']
  step := by
    intro b b' c s v out rest h hv
    unfold substitution at h ⊢
    split at h
    · next replacement n hr =>
      obtain ⟨rfl, rfl, rfl⟩ := Found.step.inj h
      rcases hsome b c s v hv with hp | hs
      · left
        obtain ⟨hn, hr'⟩ := hp hr
        simp only [hr', List.take_append_of_le_length hn, List.drop_append_of_le_length hn]
      · right
        obtain ⟨hn, n', hr', hd⟩ := hs hr
        exact ⟨hn, (c :: (s ++ v).take n').getLast?, by simp only [hr', hd]⟩
    · split at h <;> cases h

/-- The rule finds nothing away from the triggers, and nothing more when text
follows after the block. -/
structure Rule.Local (rule : Rule) : Prop where
  plain {c : Char} (s : Text) (h : c ∉ triggers) : rule c s = none
  none {c : Char} {s v : Text} (hv : Closes v) (h : rule c s = none) : rule c (s ++ v) = none

theorem Stage.local_always {rule : Rule} (h : rule.Local)
    (hs : ∀ c s v, Closes v → rule.Persists c s v ∨ rule.Swallows c s v) : (always rule).Local :=
  local_substitution (fun _ _ _ => rfl) (fun _ s hc => ⟨h.plain s hc, rfl⟩)
    (fun hv hn _ => ⟨h.none hv hn, rfl⟩) fun _ => hs

/-- Words stay apart from the text after the block without more padding. -/
theorem Stage.local_wording {rule : Rule} (h : rule.Local)
    (hs : ∀ c s v, Closes v → rule.Persists c s v) : (wording rule).Local := by
  refine local_substitution (fun c s hb => ?_) (fun b s hc => ?_) (fun {b c s v} hv hn _ => ?_)
    fun b c s v hv => .inl ?_
  · unfold Rule.apart
    simp only [padded_congr hb rfl]
  · simp [Rule.apart, h.plain s hc]
  · rw [Rule.apart, Option.map_eq_none_iff] at hn ⊢
    exact ⟨h.none hv hn, rfl⟩
  · intro replacement n hr
    obtain ⟨⟨word, n'⟩, hw, he⟩ := Option.map_eq_some_iff.mp hr
    obtain ⟨rfl, rfl⟩ := Prod.mk.inj he
    obtain ⟨hn, hr'⟩ := hs c s v hv hw
    refine ⟨hn, ?_⟩
    simp only [Rule.apart, hr', Option.map_some, List.drop_append_of_le_length hn]
    rw [padded_congr rfl (head_append_isAlphanumeric hv _)]

namespace Rule

theorem command_append {names : List Text} {build : Nat → Text → Option (Text × Nat)} {v : Text}
    (hv : Closes v) (c : Char) (s : Text) :
    command names build c (s ++ v) = if c = '\\' && names.contains (leadingLetters s) then
      build (leadingLetters s).length (s.drop (leadingLetters s).length ++ v) else none := by
  simp only [command, leadingLetters_append_of_head hv.head_isAsciiLetter,
    drop_leadingLetters_append]

theorem command_plain {names : List Text} {build : Nat → Text → Option (Text × Nat)} {c : Char}
    (h : c ∉ triggers) (s : Text) : command names build c s = none := by
  simp [command, ne_backslash_of_notMem h]

/-- A command is found whatever its rule does with the text after it. -/
theorem local_command {names : List Text} {build : Nat → Text → Option (Text × Nat)}
    (hb : ∀ length rest, build length rest ≠ none) : (command names build).Local where
  plain s h := command_plain h s
  none {c s v} hv h := by
    rw [command_append hv]
    simp only [command] at h
    split at h
    · exact absurd h (hb _ _)
    · next hc => rw [if_neg hc]

/-- A command that is replaced without the text after it. -/
theorem command_persists {names : List Text} {replacement : Text} {c : Char} {s v : Text}
    (hv : Closes v) :
    (command names fun length _ => some (replacement, length)).Persists c s v := by
  intro r n h
  rw [command_append hv]
  simp only [command] at h ⊢
  refine ⟨?_, h⟩
  split at h
  · obtain ⟨rfl, rfl⟩ := Prod.mk.inj (Option.some.inj h)
    exact length_leadingLetters_le s
  · cases h

theorem blankLength_append {s v : Text} (h : dropBlanks s ≠ []) :
    blankLength (s ++ v) = blankLength s := by
  unfold blankLength
  rw [takeWhile_append_of_ne_nil h]

theorem blankLength_le (s : Text) : blankLength s ≤ s.length :=
  (List.takeWhile_sublist _).length_le

theorem drop_blankLength (s : Text) : s.drop (blankLength s) = dropBlanks s :=
  drop_length_takeWhile isBlank s

theorem blankLength_of_isAllBlank {s : Text} (h : isAllBlank s = true) (v : Text) :
    blankLength (s ++ v) = s.length + blankLength v := by
  unfold blankLength
  rw [List.takeWhile_append_of_pos (List.all_eq_true.mp h), List.length_append]

/-- A style command takes in the blanks after it. -/
theorem style_persists_or_swallows {c : Char} {s v : Text} (hv : Closes v) :
    style.Persists c s v ∨ style.Swallows c s v := by
  by_cases hb : dropBlanks (s.drop (leadingLetters s).length) = []
  · right
    intro r n h
    simp only [style, command] at h
    rw [style, command_append hv]
    split at h
    · next hc =>
      obtain ⟨rfl, rfl⟩ := Prod.mk.inj (Option.some.inj h)
      rw [if_pos hc]
      refine ⟨?_, _, rfl, ?_⟩
      · rw [← List.drop_drop, drop_blankLength, hb]
      · rw [← List.drop_drop, drop_leadingLetters_append, drop_blankLength,
          dropBlanks_of_isAllBlank (dropBlanks_eq_nil_iff.mp hb)]
    · cases h
  · left
    intro r n h
    simp only [style, command] at h
    rw [style, command_append hv, blankLength_append hb]
    refine ⟨?_, h⟩
    split at h
    · obtain ⟨rfl, rfl⟩ := Prod.mk.inj (Option.some.inj h)
      have := blankLength_le (s.drop (leadingLetters s).length)
      have := length_leadingLetters_le s
      rw [List.length_drop] at *
      omega
    · cases h

theorem sizing_eq : sizing = command sizingNames fun length rest =>
    some ([], length + blankLength rest + if (dropBlanks rest).head? = some '.' then 1 else 0) := by
  simp only [sizing, drop_blankLength]

/-- A sizing command takes in the blanks after it. No point can follow the block. -/
theorem sizing_persists_or_swallows {c : Char} {s v : Text} (hv : Closes v) :
    sizing.Persists c s v ∨ sizing.Swallows c s v := by
  rw [sizing_eq]
  by_cases hb : dropBlanks (s.drop (leadingLetters s).length) = []
  · right
    intro r n h
    have hp : (dropBlanks v).head? ≠ some '.' := hv.dropBlanks.head_ne (by decide) (by decide)
    have hd := dropBlanks_of_isAllBlank (dropBlanks_eq_nil_iff.mp hb) v
    simp only [command, hb] at h
    simp only [command_append hv, hd, if_neg hp]
    split at h
    · next hc =>
      obtain ⟨rfl, rfl⟩ := Prod.mk.inj (Option.some.inj h)
      rw [if_pos hc]
      refine ⟨?_, _, rfl, ?_⟩
      · rw [List.head?_nil, if_neg (by simp), Nat.add_zero, ← List.drop_drop, drop_blankLength, hb]
      · rw [Nat.add_zero, ← List.drop_drop, drop_leadingLetters_append, drop_blankLength, hd]
    · cases h
  · left
    intro r n h
    simp only [command] at h
    simp only [command_append hv, blankLength_append hb, dropBlanks_append hb,
      List.head?_append_of_ne_nil _ hb]
    refine ⟨?_, h⟩
    split at h
    · obtain ⟨rfl, rfl⟩ := Prod.mk.inj (Option.some.inj h)
      have := length_leadingLetters_le s
      have hl := congrArg List.length (drop_blankLength (s.drop (leadingLetters s).length))
      have := List.length_pos_iff.mpr hb
      simp only [List.length_drop] at hl
      split <;> omega
    · cases h

end Rule

/-- A rule that looks at the character after a backslash is short at the end only. -/
theorem Stage.local_escape {rule : Rule} (hp : ∀ {c : Char} (s), c ∉ triggers → rule c s = none)
    (hn : ∀ {c s v}, Closes v → rule c s = none → (c = '\\' → s ≠ []) → rule c (s ++ v) = none)
    (hs : ∀ {c s v}, Closes v → rule.Persists c s v) : (escape rule).Local := by
  refine local_substitution (fun _ _ _ => rfl) (fun b s hc => ⟨hp s hc, ?_⟩)
    (fun {b c s v} hv h he => ⟨hn hv h ?_, ?_⟩) fun b c s v hv => .inl (hs hv)
  · simp [ne_backslash_of_notMem hc]
  · simpa using he
  · obtain ⟨d, r, rfl, _⟩ := hv.eq_cons
    simp

namespace Rule

theorem length_pos_of_head {p : Char → Bool} {s : Text} (h : s.head?.any p = true) :
    1 ≤ s.length := by
  cases s with
  | nil => cases h
  | cons c s => simp

theorem spacing_head {c : Char} {s v : Text} (hs : c = '\\' → s ≠ []) :
    (decide (c = '\\') && (s ++ v).head?.any spacingSigns.contains) =
      (decide (c = '\\') && s.head?.any spacingSigns.contains) := by
  by_cases hb : c = '\\'
  · rw [List.head?_append_of_ne_nil _ (hs hb)]
  · simp [hb]

theorem local_spacing : (Stage.escape spacing).Local := by
  have hnames : ∀ {c s v}, Closes v → command ["quad".toList, "qquad".toList]
      (fun length _ => some ([' '], length)) c s = none →
      command ["quad".toList, "qquad".toList] (fun length _ => some ([' '], length)) c (s ++ v) =
        none := fun hv h => (local_command (by simp)).none hv h
  refine Stage.local_escape (fun {c} s hc => ?_) (fun {c s v} hv h hs => ?_)
    (fun {c s v} hv r n h => ?_)
  · have ht : c ≠ '~' := by rintro rfl; exact hc (by decide)
    simp [spacing, ht, ne_backslash_of_notMem hc, command]
  · simp only [spacing, spacing_head hs] at h ⊢
    split at h
    · cases h
    · next ht =>
      rw [if_neg ht]
      split at h
      · cases h
      · next hc =>
        rw [if_neg hc]
        exact hnames hv h
  · by_cases hs : c = '\\' → s ≠ []
    · simp only [spacing, spacing_head hs] at h ⊢
      split at h
      · next ht =>
        obtain ⟨rfl, rfl⟩ := Prod.mk.inj (Option.some.inj h)
        exact ⟨Nat.zero_le _, by rw [if_pos ht]⟩
      · next ht =>
        rw [if_neg ht]
        split at h
        · next hc =>
          obtain ⟨rfl, rfl⟩ := Prod.mk.inj (Option.some.inj h)
          rw [if_pos hc]
          simp only [Bool.and_eq_true, decide_eq_true_eq] at hc
          exact ⟨List.length_pos_iff.mpr (hs hc.1), rfl⟩
        · next hc =>
          rw [if_neg hc]
          exact command_persists hv h
    · -- a backslash that ends the text is no match
      obtain ⟨rfl, rfl⟩ : c = '\\' ∧ s = [] := by simpa using hs
      cases h

theorem local_escapedBrace : (Stage.escape escapedBrace).Local := by
  refine Stage.local_escape (fun {c} s hc => ?_) (fun {c s v} hv h hs => ?_)
    (fun {c s v} hv r n h => ?_)
  · simp [escapedBrace, ne_backslash_of_notMem hc]
  · unfold escapedBrace at h ⊢
    by_cases hc : c = '\\'
    · simp only [List.head?_append_of_ne_nil _ (hs hc)]
      exact h
    · rw [if_pos hc]
  · cases s with
    | nil => simp [escapedBrace] at h
    | cons d s =>
      refine ⟨?_, h⟩
      unfold escapedBrace at h
      simp only [List.length_cons]
      split at h
      · cases h
      · split at h
        · obtain ⟨rfl, rfl⟩ := Prod.mk.inj (Option.some.inj h)
          omega
        · split at h
          · obtain ⟨rfl, rfl⟩ := Prod.mk.inj (Option.some.inj h)
            omega
          · cases h

end Rule

/-! ### Braces after a command -/

/-- The character is no brace. -/
def notBrace (c : Char) : Bool :=
  c ≠ '\x7b' && c ≠ '\x7d'

theorem braced?_eq {s t : Text} (h : dropBlanks s = '\x7b' :: t) :
    braced? s = if (t.dropWhile notBrace).head? = some '\x7d' then
      some (t.takeWhile notBrace, blankLength s + (t.takeWhile notBrace).length + 2) else none := by
  rw [← drop_length_takeWhile]
  unfold braced?
  rw [h]
  rfl

theorem braced?_eq_none {s : Text} (h : (dropBlanks s).head? ≠ some '\x7b') : braced? s = none := by
  unfold braced?
  split
  · next heq => simp [heq] at h
  · rfl

theorem endsInBraces_eq {s t : Text} (h : dropBlanks s = '\x7b' :: t) :
    endsInBraces s = (t.dropWhile notBrace).isEmpty := by
  unfold endsInBraces
  rw [h]
  simp only
  rw [Bool.eq_iff_iff, List.isEmpty_iff, List.dropWhile_eq_nil_iff, List.all_eq_true]
  rfl

theorem endsInBraces_eq_false {s : Text} (h : (dropBlanks s).head? ≠ some '\x7b') :
    endsInBraces s = false := by
  unfold endsInBraces
  split
  · next heq => simp [heq] at h
  · rfl

section Braced

variable {s v : Text} (hv : Closes v)

theorem braced?_append {content : Text} {n : Nat} (h : braced? s = some (content, n)) (v : Text) :
    n ≤ s.length ∧ braced? (s ++ v) = some (content, n) := by
  by_cases hs : (dropBlanks s).head? = some '\x7b'
  · obtain ⟨t, ht⟩ := List.head?_eq_some_iff.mp hs
    have hne : dropBlanks s ≠ [] := by simp [ht]
    have ht' : dropBlanks (s ++ v) = '\x7b' :: (t ++ v) := by rw [dropBlanks_append hne, ht]; rfl
    rw [braced?_eq ht] at h
    rw [braced?_eq ht']
    split at h
    · next hd =>
      obtain ⟨rfl, rfl⟩ := Prod.mk.inj (Option.some.inj h)
      have hd' : t.dropWhile notBrace ≠ [] := by rintro hn; rw [hn] at hd; cases hd
      rw [takeWhile_append_of_ne_nil hd', dropWhile_append_of_ne_nil hd',
        List.head?_append_of_ne_nil _ hd', if_pos hd, Rule.blankLength_append hne]
      refine ⟨?_, rfl⟩
      have hl := congrArg List.length (Rule.drop_blankLength s)
      have hc := congrArg List.length (List.takeWhile_append_dropWhile (p := notBrace) (l := t))
      have := List.length_pos_iff.mpr hd'
      rw [ht, List.length_drop, List.length_cons] at hl
      rw [List.length_append] at hc
      omega
    · cases h
  · rw [braced?_eq_none hs] at h
    cases h

include hv

theorem braced?_none_append (h : braced? s = none) (he : endsInBraces s = false) :
    braced? (s ++ v) = none ∧ endsInBraces (s ++ v) = false := by
  by_cases hs : (dropBlanks s).head? = some '\x7b'
  · obtain ⟨t, ht⟩ := List.head?_eq_some_iff.mp hs
    have hne : dropBlanks s ≠ [] := by simp [ht]
    have ht' : dropBlanks (s ++ v) = '\x7b' :: (t ++ v) := by rw [dropBlanks_append hne, ht]; rfl
    rw [endsInBraces_eq ht, List.isEmpty_eq_false_iff] at he
    rw [braced?_eq ht] at h
    rw [braced?_eq ht', endsInBraces_eq ht', dropWhile_append_of_ne_nil he,
      List.head?_append_of_ne_nil _ he]
    split at h
    · cases h
    · next hd =>
      rw [if_neg hd]
      simp [he]
  · have hs' : (dropBlanks (s ++ v)).head? ≠ some '\x7b' := by
      by_cases hn : dropBlanks s = []
      · rw [dropBlanks_of_isAllBlank (dropBlanks_eq_nil_iff.mp hn)]
        exact hv.dropBlanks.head_ne (by decide) (by decide)
      · rwa [dropBlanks_append hn, List.head?_append_of_ne_nil _ hn]
    exact ⟨braced?_eq_none hs', endsInBraces_eq_false hs'⟩

end Braced

namespace Rule

/-- A command with braces after it is local, but where the text ends in the
braces. -/
theorem local_wrapper (names : List Text) (make : Text → Text) : (Stage.wrapper names
    (command names fun length rest =>
      (braced? rest).map fun (content, braces) => (make content, length + braces))).Local := by
  refine Stage.local_substitution (fun _ _ _ => rfl) (fun b s hc => ⟨command_plain hc s, ?_⟩)
    (fun {b c s v} hv h he => ?_) fun b c s v hv => .inl ?_
  · simp [ne_backslash_of_notMem hc]
  · rw [command_append hv]
    simp only [command, leadingLetters_append_of_head hv.head_isAsciiLetter,
      drop_leadingLetters_append] at h he ⊢
    split at h
    · next hc =>
      rw [hc, Bool.true_and] at he ⊢
      rw [if_pos rfl, Option.map_eq_none_iff]
      rw [Option.map_eq_none_iff] at h
      exact braced?_none_append hv h he
    · next hc =>
      rw [if_neg hc]
      simp only [Bool.not_eq_true] at hc
      exact ⟨rfl, by rw [hc, Bool.false_and]⟩
  · intro r n h
    rw [command_append hv]
    simp only [command] at h
    split at h
    · next hc =>
      obtain ⟨⟨content, braces⟩, hb, he⟩ := Option.map_eq_some_iff.mp h
      obtain ⟨rfl, rfl⟩ := Prod.mk.inj he
      obtain ⟨hn, hb'⟩ := braced?_append hb v
      rw [if_pos hc, hb']
      rw [List.length_drop] at hn
      have := length_leadingLetters_le s
      exact ⟨by omega, rfl⟩
    · cases h

/-! ### Words and signs -/

theorem local_functionName : functionName.Local where
  plain s h := by simp [functionName, ne_backslash_of_notMem h]
  none {c s v} hv h := by
    rwa [functionName, leadingLetters_append_of_head hv.head_isAsciiLetter]

theorem functionName_persists {c : Char} {s v : Text} (hv : Closes v) :
    functionName.Persists c s v := by
  intro r n h
  simp only [functionName, leadingLetters_append_of_head hv.head_isAsciiLetter] at h ⊢
  refine ⟨?_, h⟩
  split at h
  · obtain ⟨f, hf, he⟩ := Option.map_eq_some_iff.mp h
    obtain ⟨rfl, rfl⟩ := Prod.mk.inj he
    exact length_leadingLetters_le s
  · cases h

theorem sign_append {c : Char} {s v : Text} (hv : Closes v) : sign c (s ++ v) = sign c s := by
  simp only [sign, leadingLetters_append_of_head hv.head_isAsciiLetter]

theorem length_le_of_sign {c : Char} {s replacement : Text} {n : Nat}
    (h : sign c s = some (replacement, n)) : n ≤ s.length := by
  have hl := length_leadingLetters_le s
  unfold sign at h
  simp only at h
  split at h
  · cases h; exact Nat.zero_le _
  · split at h
    · cases h; exact Nat.zero_le _
    · split at h
      · cases h; exact Nat.zero_le _
      · split at h
        · split at h
          · cases h; exact hl
          · split at h
            · cases h; exact hl
            · cases h
        · cases h

theorem sign_plain {c : Char} (s : Text) (h : c ∉ triggers) : sign c s = none := by
  have hg : c ∉ timesGlyphs := fun hc => h (by revert hc; simp [timesGlyphs, triggers]; tauto)
  have hd : c ≠ '÷' := by rintro rfl; exact h (by decide)
  have hm : c ≠ '−' := by rintro rfl; exact h (by decide)
  simp [sign, hg, hd, hm, ne_backslash_of_notMem h]

theorem local_sign : sign.Local where
  plain s h := sign_plain s h
  none hv h := by rwa [sign_append hv]

theorem local_pi : pi.Local where
  plain {c} s h := by
    have hp : c ≠ 'π' := by rintro rfl; exact h (by decide)
    simp [pi, hp, command_plain h]
  none {c s v} hv h := by
    unfold pi at h ⊢
    split at h
    · cases h
    · next hp =>
      rw [if_neg hp]
      exact (local_command (by simp)).none hv h

theorem pi_persists {c : Char} {s v : Text} (hv : Closes v) : pi.Persists c s v := by
  intro r n h
  unfold pi at h ⊢
  split at h
  · next hp =>
    obtain ⟨rfl, rfl⟩ := Prod.mk.inj (Option.some.inj h)
    exact ⟨Nat.zero_le _, by rw [if_pos hp]⟩
  · next hp =>
    rw [if_neg hp]
    exact command_persists hv h

end Rule

namespace Canonical

theorem local_of_mem_cosmeticStages : ∀ stage ∈ cosmeticStages, stage.Local := by
  simp only [cosmeticStages, List.forall_mem_cons]
  refine ⟨?_, ?_, Rule.local_spacing, Rule.local_wrapper _ fun _ => [],
    Rule.local_wrapper _ fun content =>
      if (UnaryFunction.ofCommand? (strip content)).isSome then '\\' :: strip content
      else strip content, ?_, Rule.local_escapedBrace, by simp⟩
  · exact Stage.local_always (Rule.local_command (by simp)) fun _ _ _ hv =>
      Rule.style_persists_or_swallows hv
  · exact Stage.local_always (Rule.local_command (by simp)) fun _ _ _ hv =>
      Rule.sizing_persists_or_swallows hv
  · exact Stage.local_always (Rule.local_command (by simp)) fun _ _ _ hv =>
      .inl (Rule.command_persists hv)

theorem local_of_mem_passStages : ∀ stage ∈ passStages, stage.Local := by
  simp only [passStages, List.forall_mem_cons]
  exact ⟨Stage.local_fraction, Stage.local_root, Stage.local_logBase, Stage.local_functionPower,
    by simp⟩

theorem local_of_mem_wordStages : ∀ stage ∈ wordStages, stage.Local := by
  simp only [wordStages, List.forall_mem_cons]
  refine ⟨?_, ?_, ?_, ?_, by simp⟩
  · exact Stage.local_wording Rule.local_functionName fun _ _ _ hv => Rule.functionName_persists hv
  · refine Stage.local_always Rule.local_sign fun _ _ _ hv => .inl fun h => ?_
    exact ⟨Rule.length_le_of_sign h, by rwa [Rule.sign_append hv]⟩
  · exact Stage.local_wording Rule.local_pi fun _ _ _ hv => Rule.pi_persists hv
  · exact Stage.local_wording (Rule.local_command (by simp)) fun _ _ _ hv =>
      Rule.command_persists hv

/-- Every stage of the canonical form is local. -/
theorem local_of_mem_stages : ∀ stage ∈ stages, stage.Local := by
  intro stage h
  rcases List.mem_append.mp h with h | h
  · exact local_of_mem_cosmeticStages stage h
  · rcases List.mem_append.mp h with h | h
    · exact local_of_mem_passStages stage h
    · exact local_of_mem_wordStages stage h

end Canonical

end NumericAnswer
