/-
# Absolute values read back

A text is built of characters, of brackets around a text, and of absolute
values, which are printed with a bar on both sides. If no nested absolute value
follows an operand, and each one ends in an operand, the bars are paired the way
they were printed.

Key definitions: `Markup`, `Markup.barred`, `Markup.bracketed`, `Markup.Legible`.
Key theorems: `Markup.barsPair`, `Markup.expandBars_barred`.
-/
import NumericAnswer.Proofs.Bars

namespace NumericAnswer

/-- A text with its brackets and its absolute values, item by item. -/
inductive Markup where
  | nil
  | plain (c : Char) (hc : NoBracket c) (hb : c ≠ '|') (rest : Markup)
  | group (b : Bracket) (body rest : Markup)
  | abs (body rest : Markup)

namespace Markup

/-- The text with a bar on both sides of each absolute value. -/
def barred : Markup → Text
  | nil => []
  | plain c _ _ rest => c :: rest.barred
  | group b body rest => b.opening :: (body.barred ++ b.closing :: rest.barred)
  | abs body rest => '|' :: (body.barred ++ '|' :: rest.barred)

/-- The text with `abs(` and `)` around each absolute value. -/
def bracketed : Markup → Text
  | nil => []
  | plain c _ _ rest => c :: rest.bracketed
  | group b body rest => b.opening :: (body.bracketed ++ b.closing :: rest.bracketed)
  | abs body rest => "abs(".toList ++ (body.bracketed ++ ')' :: rest.bracketed)

end Markup

/-- The letters at the end of a text, as many as there are, name a function or directly follow a
backslash. -/
def EndsInName (s : Text) : Prop :=
  ∃ u run : Text, s = u ++ run ∧ (∀ c ∈ run, isLetter c = true) ∧
    (∀ c ∈ u.getLast?, isLetter c = false) ∧
    ((∃ f ∈ UnaryFunction.commands, f.name.toList = run) ∨ u.getLast? = some '\\')

/-- A character behind which an operand is over. Letters are not among them. -/
def EndsOperand (c : Char) : Prop :=
  isDigit c = true ∨ c ∈ [')', ']', '\x7d', '.', '!']

/-- A character that is no part of an operand's end. -/
def IsSeparator (c : Char) : Prop :=
  isLetter c = false ∧ ¬ EndsOperand c

/-- In a text that begins behind the bar of an absolute value, there are only blanks, or they
follow a separator or a name. -/
def AwaitsOperand (separator : Char → Prop) (s : Text) : Prop :=
  ∃ u blanks : Text, s = u ++ blanks ∧ isAllBlank blanks = true ∧
    (u = [] ∨ ∃ v c, u = v ++ [c] ∧ isBlank c = false ∧
      (separator c ∨ isLetter c = true ∧ EndsInName u))

/-- Blanks aside, the text ends in a nested absolute value, or with the last character of an
operand, or with letters that are no name. -/
def EndsInOperand (s : Text) : Prop :=
  ∃ v c blanks, s = v ++ c :: blanks ∧ isAllBlank blanks = true ∧
    (c = '|' ∨ EndsOperand c ∨ isLetter c = true ∧ ¬ EndsInName (v ++ [c]))

/-- Each absolute value directly inside another one awaits an operand, and each one ends in an
operand. `inside` is the text since the bar of the absolute value around it. -/
def Markup.Legible (separator : Char → Prop) : Option Text → Markup → Prop
  | _, nil => True
  | inside, plain c _ _ rest => rest.Legible separator (inside.map (· ++ [c]))
  | inside, group b body rest => body.Legible separator none ∧
      rest.Legible separator (inside.map (· ++ b.opening :: (body.barred ++ [b.closing])))
  | inside, abs body rest => (∀ s ∈ inside, AwaitsOperand separator s) ∧
      body.Legible separator (some []) ∧ EndsInOperand body.barred ∧
      rest.Legible separator (inside.map (· ++ '|' :: (body.barred ++ ['|'])))

/-! ### Letters and digits -/

theorem isWithin_of_apart {ranges others : List (Nat × Nat)}
    (h : (ranges.all fun r => others.all fun q => decide (r.2 < q.1 ∨ q.2 < r.1)) = true) {c : Char}
    (hc : isWithin c ranges = true) : isWithin c others = false := by
  obtain ⟨r, hr, hc⟩ := List.any_eq_true.mp hc
  refine List.any_eq_false.mpr fun q hq hcq => ?_
  have hapart := List.all_eq_true.mp (List.all_eq_true.mp h r hr) q hq
  simp only [Bool.and_eq_true, decide_eq_true_eq] at hc hcq hapart
  omega

theorem isWithin_of_isAsciiLetter {c : Char} (h : isAsciiLetter c = true) :
    isWithin c [(0x41, 0x5a), (0x61, 0x7a)] = true := by
  simp only [isAsciiLetter, Bool.or_eq_true, Bool.and_eq_true, decide_eq_true_eq, Char.le_def,
    UInt32.le_iff_toNat_le] at h
  simp only [isWithin, List.any_cons, List.any_nil, Bool.or_false, Bool.or_eq_true,
    Bool.and_eq_true, decide_eq_true_eq]
  exact h.symm

theorem isWithin_of_isDecimalDigit {c : Char} (h : isDecimalDigit c = true) :
    isWithin c (digitZeros.map fun first => (first, first + 9)) = true := by
  rw [isDecimalDigit, digitValue?, Option.isSome_map, List.find?_isSome] at h
  obtain ⟨first, hf, hc⟩ := h
  exact List.any_eq_true.mpr ⟨_, List.mem_map_of_mem hf, hc⟩

/-- No digit is a letter. -/
theorem isLetter_of_isDigit {c : Char} (h : isDigit c = true) : isLetter c = false := by
  rw [isDigit, Bool.or_eq_true] at h
  have hd : isWithin c ((digitZeros.map fun first => (first, first + 9)) ++ looseDigitRanges) =
      true := by
    rw [isWithin, List.any_append, Bool.or_eq_true]
    exact h.imp_left isWithin_of_isDecimalDigit
  cases hl : isLetter c with
  | false => rfl
  | true =>
    rw [isLetter, Bool.or_eq_true] at hl
    have hl : isWithin c ([(0x41, 0x5a), (0x61, 0x7a)] ++ letterRanges) = true := by
      rw [isWithin, List.any_append, Bool.or_eq_true]
      exact hl.imp_left isWithin_of_isAsciiLetter
    rw [isWithin_of_apart (by decide +kernel) hd] at hl
    cases hl

/-! ### Which way a bar goes -/

theorem isLetter_bar : isLetter '|' = false := by
  decide +kernel

/-- Read in reverse, the letters at the end of a text are over at the bar before the text. -/
theorem letters_append {u run : Text} (hrun : ∀ c ∈ run, isLetter c = true)
    (hu : ∀ c ∈ u.getLast?, isLetter c = false) (pre : Text) :
    ((u ++ run).reverse ++ '|' :: pre).takeWhile isLetter = run.reverse ∧
      ((u ++ run).reverse ++ '|' :: pre).drop run.reverse.length = u.reverse ++ '|' :: pre := by
  have hhead : (u.reverse ++ '|' :: pre).head?.any isLetter = false := by
    rw [List.head?_append, List.head?_reverse]
    cases hl : u.getLast? with
    | none => simp [isLetter_bar]
    | some c => exact hu c hl
  rw [List.reverse_append, List.append_assoc]
  refine ⟨?_, List.drop_left⟩
  rw [takeWhile_append_of_head hhead]
  exact List.takeWhile_eq_self_iff.mpr fun c hc => hrun c (List.mem_reverse.mp hc)

theorem endsInFunction_iff (s pre : Text) :
    endsInFunction (s.reverse ++ '|' :: pre) = true ↔ EndsInName s := by
  have hname : ∀ run : Text, (UnaryFunction.ofCommand? run).isSome = true ↔
      ∃ f ∈ UnaryFunction.commands, f.name.toList = run := by
    intro run
    simp [UnaryFunction.ofCommand?]
  have hslash : ∀ u : Text, (u.reverse ++ '|' :: pre).head? = some '\\' ↔
      u.getLast? = some '\\' := by
    intro u
    rw [List.head?_append, List.head?_reverse]
    cases u.getLast? <;> simp
  have hends : ∀ {u run : Text}, (∀ c ∈ run, isLetter c = true) →
      (∀ c ∈ u.getLast?, isLetter c = false) →
      (endsInFunction ((u ++ run).reverse ++ '|' :: pre) = true ↔
        (∃ f ∈ UnaryFunction.commands, f.name.toList = run) ∨ u.getLast? = some '\\') := by
    intro u run hrun hu
    obtain ⟨htake, hdrop⟩ := letters_append hrun hu pre
    simp only [endsInFunction, htake, hdrop, List.reverse_reverse, Bool.or_eq_true, hname,
      decide_eq_true_eq, hslash]
  constructor
  · intro h
    have hs : s = (s.reverse.dropWhile isLetter).reverse ++ (s.reverse.takeWhile isLetter).reverse := by
      rw [← List.reverse_append, List.takeWhile_append_dropWhile, List.reverse_reverse]
    have hrun : ∀ c ∈ (s.reverse.takeWhile isLetter).reverse, isLetter c = true := fun c hc =>
      List.mem_takeWhile_imp (List.mem_reverse.mp hc)
    have hu : ∀ c ∈ (s.reverse.dropWhile isLetter).reverse.getLast?, isLetter c = false := by
      intro c hc
      rw [List.getLast?_reverse] at hc
      have := List.head?_dropWhile_not isLetter s.reverse
      rw [Option.mem_def.mp hc] at this
      exact this
    rw [hs] at h
    exact ⟨_, _, hs, hrun, hu, (hends hrun hu).mp h⟩
  · rintro ⟨u, run, rfl, hrun, hu, h⟩
    exact (hends hrun hu).mpr h

/-- What follows for the character behind which an operand may be over. -/
theorem EndsOperand.spec {c : Char} (h : EndsOperand c) :
    isLetter c = false ∧ isBlank c = false ∧ c ≠ '|' := by
  rcases h with h | h
  · refine ⟨isLetter_of_isDigit h, ?_, ?_⟩
    · cases hb : isBlank c with
      | false => rfl
      | true => simpa [isAlphanumeric, h] using isAlphanumeric_of_isBlank hb
    · rintro rfl
      exact absurd h (by decide +kernel)
  · have : ∀ c ∈ [')', ']', '\x7d', '.', '!'], isLetter c = false ∧ isBlank c = false ∧ c ≠ '|' :=
      forall_mem_of_all (by decide +kernel)
    exact this c h

section Bar

variable {v blanks pre : Text} {c : Char} {lastOpened : Bool}

/-- Blanks in reverse are skipped. -/
theorem dropBlanks_reverse (hblanks : isAllBlank blanks = true) (hc : isBlank c = false) :
    dropBlanks ((v ++ c :: blanks).reverse ++ pre) = c :: (v.reverse ++ pre) := by
  have hs : (v ++ c :: blanks).reverse ++ pre = blanks.reverse ++ c :: (v.reverse ++ pre) := by simp
  rw [hs, dropBlanks_of_isAllBlank (by rwa [isAllBlank, List.all_reverse]),
    dropBlanks_cons_of_not_isBlank hc]

theorem barOpens_bar (hblanks : isAllBlank blanks = true) :
    barOpens ((v ++ '|' :: blanks).reverse ++ pre) lastOpened = lastOpened := by
  rw [barOpens, dropBlanks_reverse hblanks (by decide)]
  exact if_pos rfl

theorem barOpens_iff (hblanks : isAllBlank blanks = true) (hc : isBlank c = false) (hb : c ≠ '|') :
    barOpens ((v ++ c :: blanks).reverse ++ '|' :: pre) lastOpened = true ↔
      IsSeparator c ∨ isLetter c = true ∧ EndsInName (v ++ [c]) := by
  have hends := endsInFunction_iff (v ++ [c]) pre
  rw [show (v ++ [c]).reverse ++ '|' :: pre = c :: (v.reverse ++ '|' :: pre) by simp] at hends
  rw [barOpens, dropBlanks_reverse hblanks hc]
  simp only [hb, if_false, IsSeparator]
  cases hl : isLetter c with
  | true => simpa using hends
  | false => simp [EndsOperand]

end Bar

/-- A bar opens an absolute value if the one around it awaits an operand. -/
theorem AwaitsOperand.barOpens {s pre : Text} {lastOpened : Bool}
    (h : AwaitsOperand (fun c => IsSeparator c ∧ c ≠ '|') s)
    (hlast : isAllBlank s = true → lastOpened = true) :
    barOpens (s.reverse ++ '|' :: pre) lastOpened = true := by
  obtain ⟨u, blanks, rfl, hblanks, rfl | ⟨v, c, rfl, hc, hsep⟩⟩ := h
  · have hbar : NumericAnswer.barOpens (([] ++ '|' :: blanks).reverse ++ pre) lastOpened =
        lastOpened := barOpens_bar hblanks
    rw [List.nil_append, List.reverse_cons, List.append_assoc, List.singleton_append] at hbar
    exact hbar.trans (hlast hblanks)
  · have hne : c ≠ '|' := by
      rcases hsep with ⟨_, hne⟩ | ⟨hletter, _⟩
      · exact hne
      · rintro rfl
        exact absurd hletter (by simp [isLetter_bar])
    rw [List.append_assoc, List.singleton_append, barOpens_iff hblanks hc hne]
    exact hsep.imp_left And.left

/-- A bar closes the absolute value around it if that ends in an operand. -/
theorem EndsInOperand.barOpens {s pre : Text} {lastOpened : Bool} (h : EndsInOperand s)
    (hlast : '|' ∈ s → lastOpened = false) :
    barOpens (s.reverse ++ '|' :: pre) lastOpened = false := by
  obtain ⟨v, c, blanks, rfl, hblanks, rfl | hend | ⟨hletter, hname⟩⟩ := h
  · rw [barOpens_bar hblanks]
    exact hlast (by simp)
  · obtain ⟨hletter, hblank, hne⟩ := hend.spec
    rw [← Bool.not_eq_true, barOpens_iff hblanks hblank hne, not_or]
    exact ⟨fun hsep => hsep.2 hend, fun hname => by simp [hletter] at hname⟩
  · have hblank : isBlank c = false := by
      cases hb : isBlank c with
      | false => rfl
      | true => simp [isLetter_of_isAlphanumeric (isAlphanumeric_of_isBlank hb)] at hletter
    have hne : c ≠ '|' := by
      rintro rfl
      exact absurd hletter (by simp [isLetter_bar])
    rw [← Bool.not_eq_true, barOpens_iff hblanks hblank hne, not_or]
    exact ⟨fun hsep => by simp [hsep.1] at hletter, fun h => hname h.2⟩

/-! ### Pairs -/

/-- What is known of the text before an item: inside an absolute value it goes back to the bar
that opened it, which is the last one if only blanks follow it. -/
def Known (before : Text) (marks : List Opened) (lastOpened : Bool) : Option Text → Prop
  | none => marks.head? ≠ some .bar
  | some s => (∃ pre, before = s.reverse ++ '|' :: pre) ∧ (isAllBlank s = true → lastOpened = true)

namespace Known

variable {before : Text} {marks : List Opened} {lastOpened : Bool} {inside : Option Text}

/-- More text follows, and the bars in it are not read unless it has more than blanks. -/
theorem append (h : Known before marks lastOpened inside) (last : Bool) (t : Text)
    (ht : isAllBlank t = true → last = lastOpened) :
    Known (t.reverse ++ before) marks last (inside.map (· ++ t)) := by
  cases inside with
  | none => exact h
  | some s =>
    obtain ⟨⟨pre, rfl⟩, hlast⟩ := h
    refine ⟨⟨pre, by simp⟩, fun hall => ?_⟩
    rw [isAllBlank, List.all_append, Bool.and_eq_true] at hall
    rw [ht hall.2]
    exact hlast hall.1

/-- A bar inside an absolute value opens another one. -/
theorem barOpens (h : Known before marks lastOpened inside)
    (ha : ∀ s ∈ inside, AwaitsOperand (fun c => IsSeparator c ∧ c ≠ '|') s)
    (hm : marks.head? = some .bar) : barOpens before lastOpened = true := by
  cases inside with
  | none => exact absurd hm h
  | some s =>
    obtain ⟨⟨pre, rfl⟩, hlast⟩ := h
    exact (ha s rfl).barOpens hlast

end Known

namespace Markup

/-- The bar read last opened an absolute value, once the items are read. -/
def lastOpens : Markup → Bool → Bool
  | nil, lastOpened => lastOpened
  | plain _ _ _ rest, lastOpened => rest.lastOpens lastOpened
  | group _ body rest, lastOpened => rest.lastOpens (body.lastOpens lastOpened)
  | abs _ rest, _ => rest.lastOpens false

theorem lastOpens_false : ∀ m : Markup, m.lastOpens false = false
  | nil => rfl
  | plain _ _ _ rest => rest.lastOpens_false
  | group _ body rest => by rw [lastOpens, body.lastOpens_false, rest.lastOpens_false]
  | abs _ rest => rest.lastOpens_false

/-- The last bar of items closes an absolute value. -/
theorem lastOpens_of_mem {lastOpened : Bool} : ∀ m : Markup, '|' ∈ m.barred →
    m.lastOpens lastOpened = false
  | nil, h => absurd h List.not_mem_nil
  | plain _ _ hb rest, h => rest.lastOpens_of_mem ((List.mem_cons.mp h).resolve_left hb.symm)
  | group b body rest, h => by
    have ho : '|' ≠ b.opening := by cases b <;> decide
    have hc : '|' ≠ b.closing := by cases b <;> decide
    rw [barred, List.mem_cons, List.mem_append, List.mem_cons] at h
    rw [lastOpens]
    rcases (h.resolve_left ho).imp_right (Or.resolve_left · hc) with h | h
    · rw [body.lastOpens_of_mem h, rest.lastOpens_false]
    · exact rest.lastOpens_of_mem h
  | abs _ rest, _ => rest.lastOpens_false

/-- The bars of legible items pair, whatever pairs in the rest of the text. -/
theorem barsPair : ∀ (m : Markup) {inside : Option Text} {before : Text} {marks : List Opened}
    {lastOpened : Bool} {s t : Text},
    m.Legible (fun c => IsSeparator c ∧ c ≠ '|') inside → Known before marks lastOpened inside →
    BarsPair (m.barred.reverse ++ before) marks (m.lastOpens lastOpened) s t →
    BarsPair before marks lastOpened (m.barred ++ s) (m.bracketed ++ t)
  | nil, _, _, _, _, _, _, _, _, h => h
  | plain c hc hb rest, _, before, marks, lastOpened, s, t, hl, hk, h => by
    have hrest : BarsPair (c :: before) marks lastOpened (rest.barred ++ s) (rest.bracketed ++ t) :=
      barsPair rest hl (hk.append _ [c] fun _ => rfl) (by simpa [barred, lastOpens] using h)
    exact .other hc hb hrest
  | group b body rest, _, before, marks, lastOpened, s, t, hl, hk, h => by
    obtain ⟨hbody, hrest⟩ := hl
    have hblank : isBlank b.opening = false := by cases b <;> decide
    have hk := hk.append (body.lastOpens lastOpened) (b.opening :: (body.barred ++ [b.closing]))
      fun hall => by simp [isAllBlank, hblank] at hall
    rw [show (b.opening :: (body.barred ++ [b.closing])).reverse ++ before =
      b.closing :: (body.barred.reverse ++ b.opening :: before) by simp] at hk
    have hrest := barsPair rest (s := s) (t := t) hrest hk (by simpa [barred, lastOpens] using h)
    have hbody : BarsPair (b.opening :: before) (.bracket b :: marks) lastOpened
        (body.barred ++ b.closing :: (rest.barred ++ s))
        (body.bracketed ++ b.closing :: (rest.bracketed ++ t)) :=
      barsPair body hbody (by simp [Known]) (.closing b hrest)
    simpa [barred, bracketed] using BarsPair.opening b hbody
  | abs body rest, _, before, marks, lastOpened, s, t, hl, hk, h => by
    obtain ⟨hopens, hbody, hends, hrest⟩ := hl
    have hopens := hk.barOpens hopens
    have hblank : isBlank '|' = false := by decide
    have hk := hk.append false ('|' :: (body.barred ++ ['|'])) fun hall => by
      simp [isAllBlank, hblank] at hall
    rw [show ('|' :: (body.barred ++ ['|'])).reverse ++ before =
      '|' :: (body.barred.reverse ++ '|' :: before) by simp] at hk
    have hrest := barsPair rest (s := s) (t := t) hrest hk (by simpa [barred, lastOpens] using h)
    have hbody : BarsPair ('|' :: before) (.bar :: marks) true
        (body.barred ++ '|' :: (rest.barred ++ s))
        (body.bracketed ++ ')' :: (rest.bracketed ++ t)) :=
      barsPair body hbody ⟨⟨before, rfl⟩, fun _ => rfl⟩
        (.closes (hends.barOpens body.lastOpens_of_mem) hrest)
    simpa [barred, bracketed] using BarsPair.opens hopens hbody

/-- Every absolute value of a legible text is read back from its bars. -/
theorem expandBars_barred (m : Markup) (h : m.Legible (fun c => IsSeparator c ∧ c ≠ '|') none) :
    expandBars m.barred = m.bracketed := by
  have hpair : BarsPair [] [] true (m.barred ++ []) (m.bracketed ++ []) :=
    m.barsPair h (by simp [Known]) (.nil _ _)
  rw [List.append_nil, List.append_nil] at hpair
  exact hpair.expandBars

/-! ### Two small texts -/

/-- `|1|` and more items. -/
def absOne (rest : Markup) : Markup :=
  .abs (.plain '1' (by decide) (by decide) .nil) rest

theorem awaitsOperand_nil (separator : Char → Prop) : AwaitsOperand separator [] :=
  ⟨[], [], rfl, rfl, .inl rfl⟩

theorem endsInOperand_one : EndsInOperand ['1'] :=
  ⟨[], '1', [], rfl, rfl, .inr (.inl (.inl (by decide)))⟩

/-- The bars of `||1|+|1||` are read back. -/
theorem expandBars_barred_sum :
    let m := abs (absOne (.plain '+' (by decide) (by decide) (absOne .nil))) .nil
    m.Legible (fun c => IsSeparator c ∧ c ≠ '|') none ∧ m.barred = "||1|+|1||".toList ∧
      m.bracketed = "abs(abs(1)+abs(1))".toList ∧ expandBars m.barred = m.bracketed := by
  have hplus : IsSeparator '+' := ⟨by decide +kernel, by simp [EndsOperand]; decide +kernel⟩
  have h : (abs (absOne (.plain '+' (by decide) (by decide) (absOne .nil))) .nil).Legible
      (fun c => IsSeparator c ∧ c ≠ '|') none := by
    refine ⟨by simp, ⟨?_, trivial, endsInOperand_one, ?_, trivial, endsInOperand_one, trivial⟩, ?_,
      trivial⟩
    · rintro s ⟨⟩
      exact awaitsOperand_nil _
    · rintro s ⟨⟩
      exact ⟨_, [], rfl, rfl, .inr ⟨"|1|".toList, '+', rfl, by decide, .inl ⟨hplus, by decide⟩⟩⟩
    · exact ⟨"|1|+|1".toList, '|', [], rfl, rfl, .inl rfl⟩
  exact ⟨h, by decide, by decide, expandBars_barred _ h⟩

/-- A bar is no letter and no end of an operand, but an absolute value is not read back behind the
closing bar of another one: the bar there closes what is around both. -/
theorem not_expandBars_barred :
    let m := abs (absOne (absOne .nil)) .nil
    m.Legible IsSeparator none ∧ m.barred = "||1||1||".toList ∧
      expandBars m.barred = "abs(abs(1))1||".toList ∧ expandBars m.barred ≠ m.bracketed := by
  have hbar : IsSeparator '|' := ⟨isLetter_bar, by simp [EndsOperand]; decide +kernel⟩
  refine ⟨⟨by simp, ⟨?_, trivial, endsInOperand_one, ?_, trivial, endsInOperand_one, trivial⟩, ?_,
    trivial⟩, by decide, by decide +kernel, by decide +kernel⟩
  · rintro s ⟨⟩
    exact awaitsOperand_nil _
  · rintro s ⟨⟩
    exact ⟨_, [], rfl, rfl, .inr ⟨"|1".toList, '|', rfl, by decide, .inl hbar⟩⟩
  · exact ⟨"|1||1".toList, '|', [], rfl, rfl, .inl rfl⟩

end Markup

end NumericAnswer
