/-
# Marks that stay

Where a stage is stuck it leaves a mark that no later stage takes away, such as
a command whose arguments are missing: a macro that takes an argument with the
mark in it keeps the mark, with the text that makes it one.

Key definitions: `Marked`, `Leftover`, `Durable`.
Key theorems: `Rewrites.marked`, `Durable.sticks_macroArgument`,
`Durable.marked_of_step_pass`.
-/
import NumericAnswer.Proofs.Transparent

namespace NumericAnswer

/-- The character stands in the text, before a text with the property. -/
def Marked (d : Char) (K : Text → Prop) (s : Text) : Prop :=
  ∃ u v, s = u ++ d :: v ∧ K v

section Marked

variable {d : Char} {K : Text → Prop} {s t : Text}

theorem Marked.mem (h : Marked d K s) : d ∈ s := by
  obtain ⟨u, v, rfl, _⟩ := h
  simp

theorem Marked.append_left (h : Marked d K s) (t : Text) : Marked d K (t ++ s) := by
  obtain ⟨u, v, rfl, hv⟩ := h
  exact ⟨t ++ u, v, by simp, hv⟩

theorem Marked.cons (h : Marked d K s) (c : Char) : Marked d K (c :: s) :=
  h.append_left [c]

theorem marked_cons {c : Char} (h : Marked d K (c :: s)) : c = d ∧ K s ∨ Marked d K s := by
  obtain ⟨u, v, hs, hv⟩ := h
  cases u with
  | nil =>
    obtain ⟨rfl, rfl⟩ := List.cons.inj hs
    exact .inl ⟨rfl, hv⟩
  | cons e u =>
    obtain ⟨rfl, rfl⟩ := List.cons.inj hs
    exact .inr ⟨u, v, rfl, hv⟩

/-- A mark is not among the characters that go. -/
theorem Marked.of_append (h : Marked d K (t ++ s)) (hd : d ∉ t) : Marked d K s := by
  induction t with
  | nil => exact h
  | cons c t ih =>
    rcases marked_cons h with ⟨rfl, _⟩ | h
    · exact absurd (List.mem_cons_self ..) hd
    · exact ih h fun hm => hd (List.mem_cons_of_mem _ hm)

theorem Marked.drop {n : Nat} (h : Marked d K s) (hd : d ∉ s.take n) : Marked d K (s.drop n) :=
  of_append (t := s.take n) (by rwa [List.take_append_drop]) hd

variable {strict : Bool} {stage : Stage}

/-- A mark stays if the stage does not replace it, takes it along only where it writes it
again, and what follows it keeps its property. -/
theorem Rewrites.marked (hkeep : ∀ {b v w}, K v → Rewrites strict stage b v w → K w)
    (hstay : ∀ {b v out b' rest}, K v → stage b d v ≠ .step out b' rest)
    (hmove : ∀ {b c s out b' rest}, stage b c s = .step out b' rest → Marked d K s →
      (∀ t, Marked d K (out ++ t)) ∨ Marked d K rest)
    {b : Option Char} (h : Rewrites strict stage b s t) : Marked d K s → Marked d K t := by
  induction h with
  | nil => exact id
  | @keep b c s t _ ht ih =>
    intro hs
    rcases marked_cons hs with ⟨rfl, hk⟩ | hs
    · exact ⟨[], t, rfl, hkeep hk ht⟩
    · exact (ih hs).cons c
  | @move b b' c s out rest t h _ ih =>
    intro hs
    rcases marked_cons hs with ⟨rfl, hk⟩ | hs
    · exact absurd h (hstay hk)
    · exact (hmove h hs).elim (fun hout => hout t) fun hrest => (ih hrest).append_left out
  | @leave b c s t _ _ ht ih =>
    intro hs
    rcases marked_cons hs with ⟨rfl, hk⟩ | hs
    · exact ⟨[], t, rfl, hkeep hk ht⟩
    · exact (ih hs).cons c
  | quit => exact id

/-- What no stage looks at stands at the front of the result. -/
theorem Rewrites.eq_append (hl : stage.Local) : ∀ {l : Text} {b : Option Char} {s t : Text},
    (∀ c ∈ l, c ∉ triggers) → Rewrites strict stage b (l ++ s) t →
      ∃ b' t', t = l ++ t' ∧ Rewrites strict stage b' s t'
  | [], b, _, t, _, h => ⟨b, t, rfl, h⟩
  | c :: l, b, s, t, hp, h => by
    have hn := fun b s => hl.plain b s (hp c (List.mem_cons_self ..))
    cases h with
    | keep _ ht =>
      obtain ⟨b', t', rfl, h'⟩ := ht.eq_append hl fun d hd => hp d (List.mem_cons_of_mem _ hd)
      exact ⟨b', t', rfl, h'⟩
    | move h => rw [hn] at h; cases h
    | leave _ h => rw [hn] at h; cases h
    | quit _ h => rw [hn] at h; cases h

end Marked

/-! ### Commands that lack their arguments -/

/-- After a backslash that stays: one of the names, or nothing, or a bracket
that closes a group. -/
def Leftover (names : List Text) (v : Text) : Prop :=
  (∃ n ∈ names, IsName n ∧ n <+: v) ∨ v = [] ∨ ∃ c r, v = c :: r ∧ c ∈ ['\x7d', ']']

theorem isAsciiLetter_of_mem_groupedWords {w : Text} (h : w ∈ groupedWords) :
    ∀ c ∈ w, isAsciiLetter c = true := by
  have hall : ∀ w ∈ groupedWords, w.all (decide <| isAsciiLetter · = true) = true := by decide
  exact forall_mem_of_all (hall w h)

section Leftover

variable {names : List Text} {v w : Text}

/-- What a stage makes of a leftover is one. -/
theorem Leftover.rewrites {strict : Bool} {stage : Stage} (hl : stage.Local)
    (h : Leftover names v) {b : Option Char} (hr : Rewrites strict stage b v w) :
    Leftover names w := by
  rcases h with ⟨n, hn, hname, r, rfl⟩ | rfl | ⟨c, r, rfl, hc⟩
  · obtain ⟨_, t, rfl, _⟩ := hr.eq_append hl fun c hc =>
      isAsciiLetter_notMem_triggers (hname.2 c hc)
    exact .inl ⟨n, hn, hname, t, rfl⟩
  · exact .inr (.inl hr.eq_nil)
  · have hp : ∀ c ∈ ['\x7d', ']'], c ∉ triggers := by simp [triggers]
    obtain ⟨_, t, rfl, _⟩ := hr.eq_append (l := [c]) hl (by simpa using hp c hc)
    exact .inr (.inr ⟨c, t, rfl, hc⟩)

/-- The letters after a leftover backslash begin with one of the names, or
there are none. -/
theorem Leftover.leadingLetters (h : Leftover names v) :
    leadingLetters v = [] ∨ ∃ n ∈ names, n <+: leadingLetters v := by
  rcases h with ⟨n, hn, hname, r, rfl⟩ | rfl | ⟨c, r, rfl, hc⟩
  · right
    refine ⟨n, hn, ?_⟩
    unfold NumericAnswer.leadingLetters
    rw [List.takeWhile_append_of_pos hname.2]
    exact List.prefix_append _ _
  · exact .inl rfl
  · left
    have : ∀ c ∈ ['\x7d', ']'], isAsciiLetter c = false := forall_mem_of_all (by decide)
    simp [NumericAnswer.leadingLetters, this c hc]

/-- A leftover stays one when the text is cut after its letters and a bracket
closes the first part. -/
theorem Leftover.cut {p q : Text} (h : Leftover names (p ++ q))
    (hp : NumericAnswer.leadingLetters (p ++ q) <+: p) {c : Char} (hc : c ∈ ['\x7d', ']']) (z : Text) :
    Leftover names (p ++ c :: z) := by
  rcases h with ⟨n, hn, hname, r, hr⟩ | he | ⟨d, r, he, hd⟩
  · left
    refine ⟨n, hn, hname, ?_⟩
    have hnl : n <+: NumericAnswer.leadingLetters (p ++ q) := by
      unfold NumericAnswer.leadingLetters
      rw [← hr, List.takeWhile_append_of_pos hname.2]
      exact List.prefix_append _ _
    exact (hnl.trans hp).trans (List.prefix_append _ _)
  · obtain ⟨rfl, rfl⟩ := List.append_eq_nil_iff.mp he
    exact .inr (.inr ⟨c, z, rfl, hc⟩)
  · cases p with
    | nil => exact .inr (.inr ⟨c, z, rfl, hc⟩)
    | cons e p =>
      obtain ⟨rfl, rfl⟩ := List.cons.inj he
      exact .inr (.inr ⟨e, p ++ c :: z, rfl, hd⟩)

end Leftover

/-! ### Marks in arguments -/

/-- Where an argument can end: behind the letters at the front, or where no text without a
bracket that closes goes on. -/
def ArgumentEnds (p q : Text) : Prop :=
  p = leadingLetters (p ++ q) ∨
    ∀ l, (∀ c ∈ l, Bracket.ofClosing? c = none) → l <+: p ++ q → l <+: p

section ArgumentEnds

variable {p q : Text}

theorem ArgumentEnds.leadingLetters_prefix (h : ArgumentEnds p q) : leadingLetters (p ++ q) <+: p :=
  h.elim (fun hp => hp ▸ List.prefix_rfl) fun hp => hp _
    (fun c hc => (noBracket_of_isName isAsciiLetter_of_mem_leadingLetters c hc).2)
    (List.takeWhile_prefix _)

/-- A text without a character ends where the character stands. -/
theorem prefix_of_notMem {c : Char} {l : Text} (hc : c ∉ l) (h : l <+: p ++ c :: q) : l <+: p := by
  have hp : p ++ [c] <+: p ++ c :: q := ⟨q, by simp⟩
  rcases Nat.lt_or_ge p.length l.length with hlt | hle
  · have hpl : p ++ [c] <+: l := List.prefix_of_prefix_length_le hp h (by
      rw [List.length_append, List.length_singleton]
      exact hlt)
    exact absurd (hpl.subset (by simp)) hc
  · exact List.prefix_of_prefix_length_le h (List.prefix_append ..) hle

theorem closing_notMem {l : Text} (hl : ∀ c ∈ l, Bracket.ofClosing? c = none) (b : Bracket) :
    b.closing ∉ l := by
  intro hb
  have hclosing := hl _ hb
  rw [ofClosing?_closing] at hclosing
  cases hclosing

theorem ArgumentEnds.of_closing (b : Bracket) : ArgumentEnds p (b.closing :: q) :=
  .inr fun _ hl => prefix_of_notMem (closing_notMem hl b)

theorem ArgumentEnds.of_closing_mem {b : Bracket} (h : b.closing ∈ p) : ArgumentEnds p q := by
  obtain ⟨p₁, p₂, rfl⟩ := List.append_of_mem h
  refine .inr fun l hl hlq => ?_
  rw [List.append_assoc, List.cons_append] at hlq
  exact (prefix_of_notMem (closing_notMem hl b) hlq).trans (List.prefix_append p₁ _)

end ArgumentEnds

/-- A mark that no macro takes apart. -/
structure Durable (d : Char) (K : Text → Prop) : Prop where
  isBlank : isBlank d = false
  isAlphanumeric : isAlphanumeric d = false
  noBracket : NoBracket d
  ne_point : d ≠ '.'
  /-- It holds where an argument ends. -/
  cut {p q : Text} (h : K (p ++ q)) (hp : ArgumentEnds p q) {c : Char}
    (hc : c ∈ ['\x7d', ']']) (z : Text) : K (p ++ c :: z)
  /-- It is a backslash, or stands before any text. -/
  free (h : d ≠ '\\') (v : Text) : K v

/-- The mark is in an argument, whatever follows its group, or in the text
after the argument. -/
def Sticks (d : Char) (K : Text → Prop) (argument rest : Text) : Prop :=
  (∀ c ∈ ['\x7d', ']'], ∀ z, Marked d K (argument ++ c :: z)) ∨ Marked d K rest

/-- What an argument of a function is: a group, a word with its groups, a
command, or a bare name or number. -/
inductive FunctionArgument : Text → Text → Text → Prop where
  | group {t argument rest : Text} (b : Bracket) (h : spanGroup b 0 t = some (argument, rest)) :
      FunctionArgument (b.opening :: t) argument rest
  | word {t groups rest : Text} (w : Text) (hw : w ∈ groupedWords)
      (h : absorbGroups t = .ok (groups, rest)) : FunctionArgument (w ++ t) (w ++ groups) rest
  | command (t : Text) :
      FunctionArgument ('\\' :: t) ('\\' :: leadingLetters t) (t.dropWhile isAsciiLetter)
  | bare (operand rest : Text)
      (h : ∀ c ∈ operand, isAsciiLetter c = true ∨ isDecimalDigit c = true ∨ c = '.') :
      FunctionArgument (operand ++ rest) operand rest

theorem isDecimalDigit_of_bareNumber {s operand rest : Text}
    (h : bareNumber s = some (operand, rest)) :
    ∀ c ∈ operand, isDecimalDigit c = true ∨ c = '.' := by
  have hall : ∀ (t : Text) (c), c ∈ t.takeWhile isDecimalDigit → isDecimalDigit c = true :=
    fun t => List.all_eq_true.mp List.all_takeWhile
  have hwhole : ∀ {operand' rest' : Text}, (if (s.takeWhile isDecimalDigit).isEmpty then none
      else some (s.takeWhile isDecimalDigit, s.dropWhile isDecimalDigit)) = some (operand', rest') →
      ∀ c ∈ operand', isDecimalDigit c = true ∨ c = '.' := by
    intro operand' rest' h
    split at h
    · cases h
    · obtain ⟨rfl, rfl⟩ := Prod.mk.inj (Option.some.inj h)
      exact fun c hc => .inl (hall s c hc)
  unfold bareNumber at h
  simp only at h
  split at h
  · next afterPoint heq =>
    split at h
    · exact hwhole h
    · obtain ⟨rfl, rfl⟩ := Prod.mk.inj (Option.some.inj h)
      intro c hc
      rcases List.mem_append.mp hc with hc | hc
      · exact .inl (hall s c hc)
      · rcases List.mem_cons.mp hc with rfl | hc
        · exact .inr rfl
        · exact .inl (hall afterPoint c hc)
  · exact hwhole h

theorem functionArgument_cases {s argument rest : Text}
    (h : functionArgument s = .ok (argument, rest)) :
    ∃ t, dropBlanks s = t ∧ FunctionArgument t argument rest := by
  unfold functionArgument at h
  simp only at h
  split at h
  · next hs =>
    cases hd : dropBlanks s with
    | nil => rw [hd] at hs; cases hs
    | cons c t =>
      rw [hd] at h hs
      obtain ⟨b, hb⟩ := Option.isSome_iff_exists.mp hs
      have hb : Bracket.ofOpening? c = some b := hb
      simp only [readGroup, hb] at h
      split at h
      · next group hg =>
        obtain rfl := Except.ok.inj h
        rw [Bracket.ofOpening?_eq_some_iff.mp hb]
        exact ⟨_, rfl, .group b hg⟩
      · cases h
  · split at h
    · cases h
    · next operand rest' ho =>
      have hs := append_of_bareOperand ho
      split at h
      · next hw =>
        obtain ⟨⟨groups, after⟩, ha, he⟩ := exists_of_map_ok h
        obtain ⟨rfl, rfl⟩ := Prod.mk.inj he
        exact ⟨_, hs.symm, .word operand (by simpa using hw) ha⟩
      · obtain ⟨rfl, rfl⟩ := Prod.mk.inj (Except.ok.inj h)
        by_cases hb : (dropBlanks s).head? = some '\\'
        · obtain ⟨t, ht⟩ := List.head?_eq_some_iff.mp hb
          rw [ht] at ho
          simp only [bareOperand] at ho
          split at ho
          · cases ho
          · obtain ⟨rfl, rfl⟩ := Prod.mk.inj (Option.some.inj ho)
            exact ⟨_, ht, .command t⟩
        · refine ⟨_, hs.symm, .bare operand rest' fun c hc => ?_⟩
          rw [bareOperand_eq hb] at ho
          split at ho
          · exact .inr (isDecimalDigit_of_bareNumber ho c hc)
          · obtain ⟨rfl, rfl⟩ := Prod.mk.inj (Option.some.inj ho)
            exact .inl (isAsciiLetter_of_mem_leadingLetters c hc)

section Durable

variable {d : Char} {K : Text → Prop} {s t argument rest : Text}

theorem marked_append (h : Marked d K (s ++ t)) :
    (∃ u p, s = u ++ d :: p ∧ K (p ++ t)) ∨ Marked d K t := by
  induction s with
  | nil => exact .inr h
  | cons c s ih =>
    rcases marked_cons h with ⟨rfl, hk⟩ | h
    · exact .inl ⟨[], s, rfl, hk⟩
    · rcases ih h with ⟨u, p, rfl, hk⟩ | h
      · exact .inl ⟨c :: u, p, rfl, hk⟩
      · exact .inr h

variable (hd : Durable d K)

include hd

theorem Durable.notMem_letters {w : Text} (hw : ∀ c ∈ w, isAsciiLetter c = true) : d ∉ w := by
  intro hm
  have := isAlphanumeric_of_isAsciiLetter (hw d hm)
  rw [hd.isAlphanumeric] at this
  cases this

theorem Durable.notMem_blanks {bl : Text} (hbl : isAllBlank bl = true) : d ∉ bl := by
  intro hm
  have := List.all_eq_true.mp hbl d hm
  rw [hd.isBlank] at this
  cases this

theorem Durable.dropBlanks (h : Marked d K s) : Marked d K (dropBlanks s) := by
  obtain ⟨bl, hbl, hs⟩ := exists_blanks_append s
  exact Marked.of_append (hs ▸ h) (hd.notMem_blanks hbl)

/-- A mark in a group and what follows it. -/
theorem Durable.sticks_group {b : Bracket} {content : Text}
    (h : Marked d K (content ++ b.closing :: rest)) : Sticks d K content rest := by
  rcases marked_append h with ⟨u, p, rfl, hk⟩ | h
  · exact .inl fun c hc z => ⟨u, p ++ c :: z, by simp, hd.cut hk (.of_closing b) hc z⟩
  · rcases marked_cons h with ⟨rfl, _⟩ | h
    · exact absurd hd.noBracket.2 (by simp [ofClosing?_closing])
    · exact .inr h

omit hd in
/-- Groups end with a bracket that closes. -/
theorem getLast?_of_absorbGroups {groups : Text} (h : absorbGroups s = .ok (groups, rest)) :
    groups = [] ∨ ∃ b : Bracket, groups.getLast? = some b.closing := by
  fun_induction absorbGroups s generalizing groups rest with
  | case1 => exact .inl (Prod.mk.inj (Except.ok.inj h)).1.symm
  | case2 => exact .inl (Prod.mk.inj (Except.ok.inj h)).1.symm
  | case3 => exact .inl (Prod.mk.inj (Except.ok.inj h)).1.symm
  | case4 => cases h
  | case5 c t bracket hne hb content rest' hs ih =>
    obtain ⟨⟨more, after⟩, ha, he⟩ := exists_of_map_ok h
    obtain ⟨rfl, rfl⟩ := Prod.mk.inj he
    right
    rcases ih ha with rfl | ⟨b, hlast⟩
    · refine ⟨bracket, ?_⟩
      show (c :: (content ++ [bracket.closing])).getLast? = some bracket.closing
      rw [← List.cons_append, List.getLast?_concat]
    · refine ⟨b, ?_⟩
      show (c :: (content ++ bracket.closing :: more)).getLast? = some b.closing
      simp [List.getLast?_cons, List.getLast?_append, hlast]

theorem Durable.sticks_groups {w groups : Text} (hw : ∀ c ∈ w, isAsciiLetter c = true)
    (ha : absorbGroups t = .ok (groups, rest)) (h : Marked d K (w ++ t)) :
    Sticks d K (w ++ groups) rest := by
  have h := h.of_append (hd.notMem_letters hw)
  rw [← append_of_absorbGroups ha] at h
  rcases marked_append h with ⟨u, p, rfl, hk⟩ | h
  · refine .inl fun c hc z => ⟨w ++ u, p ++ c :: z, by simp, hd.cut hk ?_ hc z⟩
    rcases getLast?_of_absorbGroups ha with he | ⟨b, hlast⟩
    · cases u <;> cases he
    · refine .of_closing_mem (b := b) ?_
      cases p with
      | nil =>
        have hdb : d = b.closing := by simpa using hlast
        have := hd.noBracket.2
        rw [hdb, ofClosing?_closing] at this
        cases this
      | cons e p =>
        refine List.mem_of_getLast? ?_
        simpa [List.getLast?_append] using hlast
  · exact .inr h

/-- A command that holds the mark at its front. -/
theorem Durable.sticks_command (h : Marked d K ('\\' :: t)) :
    Sticks d K ('\\' :: leadingLetters t) (t.dropWhile isAsciiLetter) := by
  have ht := leadingLetters_append_dropWhile t
  rcases marked_cons h with ⟨rfl, hk⟩ | h
  · refine .inl fun c hc z => ⟨[], leadingLetters t ++ c :: z, rfl, ?_⟩
    rw [← ht] at hk
    exact hd.cut hk (.inl (congrArg leadingLetters ht.symm)) hc z
  · rw [← ht] at h
    exact .inr (h.of_append (hd.notMem_letters isAsciiLetter_of_mem_leadingLetters))

/-- Taking an argument of a macro keeps the mark. -/
theorem Durable.sticks_macroArgument (h : macroArgument s = .ok (argument, rest))
    (hm : Marked d K s) : Sticks d K argument rest := by
  have hm := hd.dropBlanks hm
  obtain ⟨t, ht, hcase⟩ := macroArgument_cases h
  rw [ht] at hm
  cases hcase with
  | @group t _ _ hg =>
    rcases marked_cons hm with ⟨rfl, _⟩ | hm
    · exact absurd hd.noBracket.1 (by decide)
    · rw [← append_of_spanGroup hg] at hm
      exact hd.sticks_group hm
  | word w hw ha =>
    exact hd.sticks_groups (isAsciiLetter_of_mem_groupedWords hw) ha hm
  | command t => exact hd.sticks_command hm
  | @character c t ho hc hb =>
    rcases marked_cons hm with ⟨rfl, _⟩ | hm
    · exact .inl fun e he z => ⟨[], e :: z, rfl, hd.free hb _⟩
    · exact .inr hm

theorem Durable.sticks_functionArgument (h : functionArgument s = .ok (argument, rest))
    (hm : Marked d K s) : Sticks d K argument rest := by
  have hm := hd.dropBlanks hm
  obtain ⟨t, ht, hcase⟩ := functionArgument_cases h
  rw [ht] at hm
  cases hcase with
  | @group t _ _ b hg =>
    rcases marked_cons hm with ⟨he, _⟩ | hm
    · exact absurd he.symm (hd.noBracket.ne b).1
    · rw [← append_of_spanGroup hg] at hm
      exact hd.sticks_group hm
  | word w hw ha =>
    exact hd.sticks_groups (isAsciiLetter_of_mem_groupedWords hw) ha hm
  | command t => exact hd.sticks_command hm
  | bare operand _ hop =>
    refine .inr (hm.of_append fun hmem => ?_)
    rcases hop d hmem with hl | hn | hp
    · have := isAlphanumeric_of_isAsciiLetter hl
      rw [hd.isAlphanumeric] at this
      cases this
    · have := isDecimalDigit_of_isAlphanumeric hd.isAlphanumeric
      rw [hn] at this
      cases this
    · exact hd.ne_point hp

/-! ### Marks in what the macros become -/

omit hd in
/-- A mark in an argument or after it stands in the replacement or after it. -/
theorem Sticks.marked {argument rest y : Text} {c : Char} (h : Sticks d K argument rest)
    (hc : c ∈ ['\x7d', ']']) (hy : Marked d K rest → Marked d K y) :
    Marked d K (argument ++ c :: y) :=
  h.elim (fun ha => ha c hc y) fun hr => ((hy hr).cons c).append_left argument

omit hd in
theorem Sticks.inBraces {argument rest y : Text} (h : Sticks d K argument rest)
    (hy : Marked d K rest → Marked d K y) : Marked d K (inBraces argument ++ y) := by
  have := (h.marked (c := '\x7d') (by simp) hy).cons '\x7b'
  simpa [NumericAnswer.inBraces] using this

omit hd in
theorem Sticks.inSquareBrackets {argument rest y : Text} (h : Sticks d K argument rest)
    (hy : Marked d K rest → Marked d K y) : Marked d K (inSquareBrackets argument ++ y) := by
  have := (h.marked (c := ']') (by simp) hy).cons '['
  simpa [NumericAnswer.inSquareBrackets] using this

theorem Durable.marked_buildFraction {replacement : Text}
    (h : buildFraction s = .ok (replacement, rest)) (hm : Marked d K s) (y : Text)
    (hy : Marked d K rest → Marked d K y) : Marked d K (replacement ++ y) := by
  obtain ⟨⟨numerator, after⟩, hn, h⟩ := exists_of_bind_ok h
  obtain ⟨⟨denominator, after'⟩, hden, h⟩ := exists_of_bind_ok h
  obtain ⟨rfl, rfl⟩ := Prod.mk.inj (Except.ok.inj h)
  rw [List.append_assoc, List.append_assoc]
  refine ((hd.sticks_macroArgument hn hm).inBraces fun ha => ?_).append_left _
  exact (hd.sticks_macroArgument hden ha).inBraces hy

theorem Durable.sticks_readGroup (h : readGroup s = .ok (argument, rest)) (hm : Marked d K s) :
    Sticks d K argument rest := by
  obtain ⟨b, rfl⟩ := append_of_readGroup h
  rcases marked_cons hm with ⟨he, _⟩ | hm
  · exact absurd he.symm (hd.noBracket.ne b).1
  · exact hd.sticks_group hm

theorem Durable.marked_buildRoot {replacement : Text}
    (h : buildRoot s = .ok (replacement, rest)) (hm : Marked d K s) (y : Text)
    (hy : Marked d K rest → Marked d K y) : Marked d K (replacement ++ y) := by
  unfold buildRoot at h
  split at h
  · obtain ⟨⟨degree, after⟩, hdeg, h⟩ := exists_of_bind_ok h
    obtain ⟨⟨radicand, after'⟩, hr, h⟩ := exists_of_bind_ok h
    obtain ⟨rfl, rfl⟩ := Prod.mk.inj (Except.ok.inj h)
    rw [List.append_assoc, List.append_assoc]
    refine ((hd.sticks_readGroup hdeg (hd.dropBlanks hm)).inSquareBrackets fun ha => ?_).append_left _
    exact (hd.sticks_macroArgument hr ha).inBraces hy
  · obtain ⟨⟨radicand, after⟩, hr, h⟩ := exists_of_bind_ok h
    obtain ⟨rfl, rfl⟩ := Prod.mk.inj (Except.ok.inj h)
    rw [List.append_assoc]
    exact ((hd.sticks_macroArgument hr hm).inBraces hy).append_left _

theorem Durable.marked_buildLogBase {replacement : Text}
    (h : buildLogBase s = .ok (replacement, rest)) (hm : Marked d K s) (y : Text)
    (hy : Marked d K rest → Marked d K y) : Marked d K (replacement ++ y) := by
  obtain ⟨⟨base, after⟩, hb, h⟩ := exists_of_bind_ok h
  obtain ⟨rfl, rfl⟩ := Prod.mk.inj (Except.ok.inj h)
  rw [List.append_assoc]
  exact ((hd.sticks_macroArgument hb hm).inSquareBrackets hy).append_left _

/-- The argument of the function comes before the power. -/
theorem Durable.marked_buildFunctionPower {f : UnaryFunction} {replacement : Text}
    (h : buildFunctionPower f s = .ok (replacement, rest)) (hm : Marked d K s) (y : Text)
    (hy : Marked d K rest → Marked d K y) : Marked d K (replacement ++ y) := by
  obtain ⟨⟨exponent, after⟩, he, h⟩ := exists_of_bind_ok h
  simp only at h
  split at h
  · cases h
  · obtain ⟨⟨argument, after'⟩, ha, h⟩ := exists_of_bind_ok h
    obtain ⟨rfl, rfl⟩ := Prod.mk.inj (Except.ok.inj h)
    have happ : '(' :: f.name.toList ++ inBraces argument ++ ')' :: '^' :: inBraces exponent ++ y =
        ('(' :: f.name.toList) ++ (inBraces argument ++
          ([')', '^'] ++ (inBraces exponent ++ y))) := by simp
    rw [happ]
    refine Marked.append_left ?_ _
    have hlast : ∀ hx : Marked d K (inBraces exponent ++ y),
        Marked d K (inBraces argument ++ ([')', '^'] ++ (inBraces exponent ++ y))) :=
      fun hx => (hx.append_left _).append_left _
    rcases hd.sticks_macroArgument he hm with hin | hafter
    · exact hlast (@Sticks.inBraces _ _ _ [] _ (.inl hin) fun h => by
        obtain ⟨u, v, hn, _⟩ := h
        simp at hn)
    · refine (hd.sticks_functionArgument ha hafter).inBraces fun hr => ?_
      exact ((hy hr).append_left _).append_left _

omit hd in
/-- Padding does not take a mark away. -/
theorem Durable.marked_padded {replacement : Text} (before after : Option Char)
    (h : ∀ y, (Marked d K rest → Marked d K y) → Marked d K (replacement ++ y)) :
    Marked d K (padded before after replacement ++ rest) := by
  obtain ⟨u, v, _, _, hp⟩ := exists_blanks_padded before after replacement
  rw [hp, List.append_assoc, List.append_assoc]
  exact (h _ fun hr => hr.append_left v).append_left u

end Durable

/-! ### Marks along the stages -/

section Stages

variable {d : Char} {K : Text → Prop} {strict : Bool} {b : Option Char} {s t : Text}

/-- A pass that reads no mark on its way to the arguments moves none away. -/
theorem Durable.marked_of_step_pass {p : Pass} {ended : Char → Text → Bool}
    (hp : ∀ {c s n outcome}, p.site? c s = some ⟨n, outcome⟩ → d ∉ s.take n ∧
      ∀ {r rest}, outcome = .ok (r, rest) → Marked d K (s.drop n) →
        ∀ y, (Marked d K rest → Marked d K y) → Marked d K (r ++ y))
    {b b' : Option Char} {c : Char} {s out rest : Text}
    (h : Stage.pass p ended b c s = .step out b' rest) (hm : Marked d K s) :
    Marked d K rest := by
  unfold Stage.pass at h
  split at h
  · next n r rest' hs =>
    obtain ⟨rfl, rfl, rfl⟩ := Found.step.inj h
    obtain ⟨hd, hr⟩ := hp hs
    exact marked_padded _ _ (hr rfl (hm.drop hd))
  · cases h
  · split at h <;> cases h
  · cases h

theorem Durable.marked_of_command (hd : Durable d K) {p : Pass} {names : List Text}
    {build : Text → Except Refusal (Text × Text)}
    (hp : ∀ c s, p.site? c s = if c = '\\' && names.contains (leadingLetters s) then
      some (siteAt s (leadingLetters s).length build) else none)
    (hb : ∀ {s r rest}, build s = .ok (r, rest) → Marked d K s →
      ∀ y, (Marked d K rest → Marked d K y) → Marked d K (r ++ y))
    {c : Char} {s : Text} {n : Nat} {outcome : Except Refusal (Text × Text)}
    (h : p.site? c s = some ⟨n, outcome⟩) : d ∉ s.take n ∧
      ∀ {r rest}, outcome = .ok (r, rest) → Marked d K (s.drop n) →
        ∀ y, (Marked d K rest → Marked d K y) → Marked d K (r ++ y) := by
  rw [hp] at h
  split at h
  · obtain ⟨rfl, rfl⟩ := Site.mk.inj (Option.some.inj h)
    rw [take_leadingLetters]
    exact ⟨hd.notMem_letters isAsciiLetter_of_mem_leadingLetters, hb⟩
  · cases h

/-- The mark of a site and what stands before it. -/
theorem Durable.notMem_take_of_markLength? (hd : Durable d K) {mark : Char} (hm : d ≠ mark)
    {s : Text} {k : Nat} (h : markLength? mark (s.drop (leadingLetters s).length) = some k) :
    d ∉ s.take ((leadingLetters s).length + k) := by
  obtain ⟨bl, hbl, hs, rfl⟩ := eq_append_of_markLength? h
  rw [List.take_add, take_leadingLetters, hs, List.mem_append, not_or]
  refine ⟨hd.notMem_letters isAsciiLetter_of_mem_leadingLetters, ?_⟩
  rw [List.take_append, List.take_of_length_le (by omega), List.mem_append, not_or]
  refine ⟨hd.notMem_blanks hbl, ?_⟩
  simpa using hm

theorem Durable.marked_of_logBase (hd : Durable d K) (hu : d ≠ '_') {c : Char} {s : Text} {n : Nat}
    {outcome : Except Refusal (Text × Text)} (h : Pass.logBase.site? c s = some ⟨n, outcome⟩) :
    d ∉ s.take n ∧ ∀ {r rest}, outcome = .ok (r, rest) → Marked d K (s.drop n) →
      ∀ y, (Marked d K rest → Marked d K y) → Marked d K (r ++ y) := by
  simp only [Pass.logBase, logBaseSite?] at h
  split at h
  · obtain ⟨k, hk, hs⟩ := Option.map_eq_some_iff.mp h
    obtain ⟨rfl, rfl⟩ := Site.mk.inj hs
    exact ⟨hd.notMem_take_of_markLength? hu hk, hd.marked_buildLogBase⟩
  · cases h

theorem Durable.marked_of_functionPower (hd : Durable d K) (hc : d ≠ '^') {c : Char} {s : Text}
    {n : Nat} {outcome : Except Refusal (Text × Text)}
    (h : Pass.functionPower.site? c s = some ⟨n, outcome⟩) :
    d ∉ s.take n ∧ ∀ {r rest}, outcome = .ok (r, rest) → Marked d K (s.drop n) →
      ∀ y, (Marked d K rest → Marked d K y) → Marked d K (r ++ y) := by
  simp only [Pass.functionPower, functionPowerSite?] at h
  split at h
  · obtain ⟨f, _, h⟩ := Option.bind_eq_some_iff.mp h
    obtain ⟨k, hk, hs⟩ := Option.map_eq_some_iff.mp h
    obtain ⟨rfl, rfl⟩ := Site.mk.inj hs
    exact ⟨hd.notMem_take_of_markLength? hc hk, hd.marked_buildFunctionPower⟩
  · cases h

/-- The rule takes letters only after the character it starts at. -/
def Rule.ReadsLetters (rule : Rule) : Prop :=
  ∀ {c : Char} {s r : Text} {n : Nat}, rule c s = some (r, n) →
    ∀ x ∈ s.take n, isAsciiLetter x = true

theorem marked_of_step_substitution {rule : Option Char → Rule} {ended : Char → Text → Bool}
    (hr : ∀ b, (rule b).ReadsLetters) (hd : isAsciiLetter d = false) {b b' : Option Char} {c : Char}
    {s out rest : Text} (h : Stage.substitution rule ended b c s = .step out b' rest)
    (hm : Marked d K s) : Marked d K rest := by
  unfold Stage.substitution at h
  split at h
  · next r n hs =>
    obtain ⟨rfl, rfl, rfl⟩ := Found.step.inj h
    refine hm.drop fun hmem => ?_
    rw [hr b hs d hmem] at hd
    cases hd
  · split at h <;> cases h

end Stages

end NumericAnswer
