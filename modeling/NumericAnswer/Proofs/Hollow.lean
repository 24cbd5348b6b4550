/-
# Hollow texts

A text is hollow when a bracket opens in it and nothing stands before the bracket
that comes next, which closes. The parser accepts no such text, and no stage fills
it. A macro that takes a single bracket as an argument makes its text hollow; one
that does not keeps the brackets of a well-nested text well nested.

Key definitions: `Hollow`, `HollowGroup`.
Key theorems: `Pass.settles`, `Rewrites.hollow_late`, `Expr.not_hollow_of_parseWithin`.
-/
import NumericAnswer.Proofs.Grouping
import NumericAnswer.Proofs.Transcript

namespace NumericAnswer

/-- The text begins with a closing bracket. -/
def Shut (s : Text) : Prop :=
  ∃ (b : Bracket) (r : Text), s = b.closing :: r

/-- A bracket opens right before one that closes, of any type. -/
def Hollow (s : Text) : Prop :=
  ∃ b : Bracket, Marked b.opening Shut s

/-- In brackets of any types the text is hollow. -/
def HollowGroup (s : Text) : Prop :=
  ∀ o c : Bracket, Hollow (o.opening :: (s ++ [c.closing]))

theorem noBracket_iff {c : Char} :
    NoBracket c ↔ ∀ b : Bracket, c ≠ b.opening ∧ c ≠ b.closing := by
  refine ⟨NoBracket.ne, fun h => ⟨?_, ?_⟩⟩
  · cases ho : Bracket.ofOpening? c with
    | none => rfl
    | some b => exact absurd (Bracket.ofOpening?_eq_some_iff.mp ho) (h b).1
  · cases hc : Bracket.ofClosing? c with
    | none => rfl
    | some b => exact absurd (Bracket.ofClosing?_eq_some_iff.mp hc) (h b).2

theorem opening_ne_closing' (b b' : Bracket) : b.opening ≠ b'.closing := by
  cases b <;> cases b' <;> decide

section Hollow

variable {s t : Text} {c : Char}

theorem Shut.append (h : Shut s) (t : Text) : Shut (s ++ t) := by
  obtain ⟨b, r, rfl⟩ := h
  exact ⟨b, r ++ t, rfl⟩

theorem shut_append (h : Shut (s ++ t)) : s = [] ∧ Shut t ∨ Shut s := by
  obtain ⟨b, r, hr⟩ := h
  cases s with
  | nil => exact .inl ⟨rfl, b, r, hr⟩
  | cons c s => exact .inr ⟨b, s, by rw [(List.cons.inj hr).1]⟩

theorem hollow_cons (h : Hollow (c :: s)) :
    (∃ b : Bracket, c = b.opening) ∧ Shut s ∨ Hollow s := by
  obtain ⟨b, h⟩ := h
  exact (marked_cons h).imp (fun hc => ⟨⟨b, hc.1⟩, hc.2⟩) fun hm => ⟨b, hm⟩

theorem hollow_opening (b : Bracket) (h : Shut s) : Hollow (b.opening :: s) :=
  ⟨b, [], s, rfl, h⟩

theorem Hollow.append_left (h : Hollow s) (t : Text) : Hollow (t ++ s) := by
  obtain ⟨b, h⟩ := h
  exact ⟨b, h.append_left t⟩

theorem Hollow.cons (h : Hollow s) (c : Char) : Hollow (c :: s) :=
  h.append_left [c]

theorem Hollow.append_right (h : Hollow s) (t : Text) : Hollow (s ++ t) := by
  obtain ⟨b, u, v, rfl, hv⟩ := h
  exact ⟨b, u, v ++ t, by simp, hv.append t⟩

theorem hollow_append (h : Hollow (s ++ t)) :
    Hollow s ∨ Hollow t ∨ (∃ b : Bracket, s.getLast? = some b.opening) ∧ Shut t := by
  obtain ⟨b, h⟩ := h
  rcases marked_append h with ⟨u, p, rfl, hp⟩ | hm
  · rcases shut_append hp with ⟨rfl, ht⟩ | hp
    · exact .inr (.inr ⟨⟨b, by simp⟩, ht⟩)
    · exact .inl ⟨b, u, p, rfl, hp⟩
  · exact .inr (.inl ⟨b, hm⟩)

/-- No brackets stand before what is hollow. -/
theorem Hollow.of_append (hs : ∀ c ∈ s, NoBracket c) (h : Hollow (s ++ t)) : Hollow t := by
  rcases hollow_append h with ⟨b, u, v, rfl, _⟩ | h | ⟨⟨b, hb⟩, _⟩
  · exact absurd rfl ((noBracket_iff.mp (hs b.opening (by simp)) b).1)
  · exact h
  · exact absurd rfl ((noBracket_iff.mp (hs b.opening (List.mem_of_getLast? hb)) b).1)

theorem Hollow.dropBlanks (h : Hollow s) : Hollow (dropBlanks s) := by
  obtain ⟨bl, hbl, hs⟩ := exists_blanks_append s
  rw [hs] at h
  exact h.of_append fun c hc => noBracket_of_isBlank (List.all_eq_true.mp hbl c hc)

theorem Hollow.hollowGroup (h : Hollow s) : HollowGroup s :=
  fun o c => (h.append_right [c.closing]).cons o.opening

/-- A hollow group in a text, or something hollow behind it. -/
theorem hollowGroup_or {o k : Bracket} (h : Hollow (o.opening :: (s ++ k.closing :: t))) :
    HollowGroup s ∨ Hollow t := by
  rcases hollow_cons h with ⟨-, hshut⟩ | h
  · refine .inl fun o' k' => hollow_opening o' ?_
    rcases shut_append hshut with ⟨rfl, -⟩ | hs
    · exact ⟨k', [], rfl⟩
    · exact hs.append _
  · rcases hollow_append h with hs | ht | ⟨⟨b, hb⟩, -⟩
    · exact .inl hs.hollowGroup
    · rcases hollow_cons ht with ⟨⟨b, hb⟩, -⟩ | ht
      · exact absurd hb.symm (opening_ne_closing' b k)
      · exact .inr ht
    · obtain ⟨u, rfl⟩ := List.getLast?_eq_some_iff.mp hb
      refine .inl fun o' k' => ?_
      have hlast : Hollow (b.opening :: [k'.closing]) := hollow_opening b ⟨k', [], rfl⟩
      simpa using (hlast.append_left u).cons o'.opening

/-- A single bracket makes a hollow group. -/
theorem hollowGroup_bracket (h : ¬NoBracket c) : HollowGroup [c] := by
  intro o k
  rw [noBracket_iff] at h
  push Not at h
  obtain ⟨b, hb⟩ := h
  by_cases ho : c = b.opening
  · rw [ho]
    exact (hollow_opening b ⟨k, [], rfl⟩).cons _
  · rw [hb ho]
    exact hollow_opening o ⟨b, _, rfl⟩

theorem HollowGroup.inBraces (h : HollowGroup s) : Hollow (inBraces s) :=
  h .curly .curly

theorem HollowGroup.inSquareBrackets (h : HollowGroup s) : Hollow (inSquareBrackets s) :=
  h .square .square

end Hollow

/-! ### Arguments -/

section Arguments

variable {s argument rest : Text}

theorem hollow_absorbGroups {w groups t : Text} (hw : ∀ c ∈ w, NoBracket c)
    (ha : absorbGroups t = .ok (groups, rest)) (h : Hollow (w ++ t)) :
    HollowGroup (w ++ groups) ∨ Hollow rest := by
  have ht := h.of_append hw
  rw [← append_of_absorbGroups ha] at ht
  rcases hollow_append ht with hg | hr | ⟨⟨b, hb⟩, -⟩
  · exact .inl (hg.append_left w).hollowGroup
  · exact .inr hr
  · rcases getLast?_of_absorbGroups ha with rfl | ⟨k, hk⟩
    · cases hb
    · rw [hk] at hb
      exact absurd (Option.some.inj hb).symm (opening_ne_closing' b k)

theorem hollow_command {t : Text} (h : Hollow ('\\' :: t)) :
    Hollow (t.dropWhile isAsciiLetter) := by
  rw [← leadingLetters_append_dropWhile t, ← List.cons_append] at h
  refine h.of_append fun c hc => ?_
  rcases List.mem_cons.mp hc with rfl | hc
  · exact noBracket_backslash
  · exact noBracket_of_isName isAsciiLetter_of_mem_leadingLetters c hc

theorem hollow_spanGroup {b : Bracket} {t : Text} (hg : spanGroup b 0 t = some (argument, rest))
    (h : Hollow (b.opening :: t)) : HollowGroup argument ∨ Hollow rest := by
  rw [← append_of_spanGroup hg] at h
  exact hollowGroup_or h

theorem noBracket_of_mem_groupedWords {w : Text} (hw : w ∈ groupedWords) :
    ∀ c ∈ w, NoBracket c :=
  noBracket_of_isName (isAsciiLetter_of_mem_groupedWords hw)

theorem hollow_macroArgument (h : macroArgument s = .ok (argument, rest)) (hs : Hollow s) :
    HollowGroup argument ∨ Hollow rest := by
  obtain ⟨t, ht, hm⟩ := macroArgument_cases h
  have hs := hs.dropBlanks
  rw [ht] at hs
  cases hm with
  | group hg => exact @hollow_spanGroup _ _ .curly _ hg hs
  | word w hw ha => exact hollow_absorbGroups (noBracket_of_mem_groupedWords hw) ha hs
  | command t => exact .inr (hollow_command hs)
  | @character c t =>
    rcases hollow_cons hs with ⟨⟨b, rfl⟩, -⟩ | ht
    · exact .inl (hollowGroup_bracket fun hn => (hn.ne b).1 rfl)
    · exact .inr ht

theorem noBracket_of_bare {operand : Text}
    (h : ∀ c ∈ operand, isAsciiLetter c = true ∨ isDecimalDigit c = true ∨ c = '.') :
    ∀ c ∈ operand, NoBracket c := by
  refine fun c hc => noBracket_of_lexeme_char ?_
  rcases h c hc with hc | hc | rfl
  · exact .inl hc
  · exact .inr (.inl hc)
  · exact .inr (.inr (by simp))

theorem hollow_functionArgument (h : functionArgument s = .ok (argument, rest)) (hs : Hollow s) :
    HollowGroup argument ∨ Hollow rest := by
  obtain ⟨t, ht, hf⟩ := functionArgument_cases h
  have hs := hs.dropBlanks
  rw [ht] at hs
  cases hf with
  | group b hg => exact hollow_spanGroup hg hs
  | word w hw ha => exact hollow_absorbGroups (noBracket_of_mem_groupedWords hw) ha hs
  | command t => exact .inr (hollow_command hs)
  | bare _ _ hb =>
    exact .inr (hs.of_append (noBracket_of_bare hb))

theorem hollow_readGroup (h : readGroup s = .ok (argument, rest)) (hs : Hollow s) :
    HollowGroup argument ∨ Hollow rest := by
  obtain ⟨b, rfl⟩ := append_of_readGroup h
  exact hollowGroup_or hs

variable {opened out : List Bracket}

/-- An argument of a macro in a well-nested text is well nested, or a single bracket. -/
theorem nested_or_of_macroArgument (h : macroArgument s = .ok (argument, rest))
    (hn : nest opened s = some out) : HollowGroup argument ∨ Nested argument := by
  obtain ⟨t, ht, hm⟩ := macroArgument_cases h
  rw [← followsBrackets_nest.dropBlanks, ht] at hn
  cases hm with
  | group hg =>
    rw [← append_of_spanGroup hg] at hn
    exact .inr (@nested_of_group .curly _ _ _ _ (walk_of_spanGroup hg) hn).1
  | word w hw ha =>
    have hletters := isAsciiLetter_of_mem_groupedWords hw
    rw [nest_noBracket_append (noBracket_of_isName hletters), ← append_of_absorbGroups ha] at hn
    exact .inr (nested_word_append hletters (nested_of_absorbGroups ha hn).1)
  | command t => exact .inr (nested_command t)
  | @character c t =>
    by_cases hc : NoBracket c
    · exact .inr (nested_of_noBracket (by simpa using hc))
    · exact .inl (hollowGroup_bracket hc)

theorem nested_of_functionArgument' (h : functionArgument s = .ok (argument, rest))
    (hn : nest opened s = some out) : Nested argument := by
  obtain ⟨t, ht, hf⟩ := functionArgument_cases h
  rw [← followsBrackets_nest.dropBlanks, ht] at hn
  cases hf with
  | group b hg =>
    rw [← append_of_spanGroup hg] at hn
    exact (nested_of_group (walk_of_spanGroup hg) hn).1
  | word w hw ha =>
    have hletters := isAsciiLetter_of_mem_groupedWords hw
    rw [nest_noBracket_append (noBracket_of_isName hletters), ← append_of_absorbGroups ha] at hn
    exact nested_word_append hletters (nested_of_absorbGroups ha hn).1
  | command t => exact nested_command t
  | bare _ _ hb => exact nested_of_noBracket (noBracket_of_bare hb)

theorem nested_of_readGroup (h : readGroup s = .ok (argument, rest))
    (hn : nest opened s = some out) : Nested argument ∧ nest opened rest = some out := by
  unfold readGroup at h
  split at h
  · cases h
  · split at h
    · cases h
    · next c t _ b hb =>
      obtain rfl := Bracket.ofOpening?_eq_some_iff.mp hb
      split at h
      · next group hg =>
        obtain rfl := Except.ok.inj h
        rw [← append_of_spanGroup hg] at hn
        exact nested_of_group (walk_of_spanGroup hg) hn
      · cases h

end Arguments

/-! ### Macros -/

section Macros

variable {s replacement rest : Text} {opened out : List Bracket}

theorem nest_inBraces (hs : Nested s) (t : Text) : nest opened (inBraces s ++ t) = nest opened t := by
  simpa [inBraces, Bracket.opening, Bracket.closing] using @nest_group .curly s t opened hs

theorem nest_inSquareBrackets (hs : Nested s) (t : Text) :
    nest opened (inSquareBrackets s ++ t) = nest opened t := by
  simpa [inSquareBrackets, Bracket.opening, Bracket.closing] using @nest_group .square s t opened hs

/-- What is made of a text keeps it hollow, and keeps its brackets well nested unless it
is hollow itself. -/
structure Settles (s replacement rest : Text) : Prop where
  hollow : Hollow s → Hollow replacement ∨ Hollow rest
  nest {opened out : List Bracket} : nest opened s = some out →
    Hollow replacement ∨ nest opened (replacement ++ rest) = some out

theorem noBracket_name {w : Text} (hw : w.all isAsciiLetter = true) : ∀ c ∈ w, NoBracket c :=
  noBracket_of_isName (List.all_eq_true.mp hw)

theorem settles_buildFraction (h : buildFraction s = .ok (replacement, rest)) :
    Settles s replacement rest := by
  obtain ⟨⟨numerator, after⟩, hnum, h⟩ := exists_of_bind_ok h
  obtain ⟨⟨denominator, after'⟩, hden, h⟩ := exists_of_bind_ok h
  obtain ⟨rfl, rfl⟩ := Prod.mk.inj (Except.ok.inj h)
  have hnumerator : HollowGroup numerator →
      Hollow ("frac".toList ++ inBraces numerator ++ inBraces denominator) :=
    fun hg => (hg.inBraces.append_left _).append_right _
  have hdenominator : HollowGroup denominator →
      Hollow ("frac".toList ++ inBraces numerator ++ inBraces denominator) :=
    fun hg => hg.inBraces.append_left _
  constructor
  · intro hs
    rcases hollow_macroArgument hnum hs with hg | hs
    · exact .inl (hnumerator hg)
    · exact (hollow_macroArgument hden hs).imp_left hdenominator
  · intro opened out hn
    rcases nested_or_of_macroArgument hnum hn with hg | hg
    · exact .inl (hnumerator hg)
    rw [nest_of_macroArgument hnum hg] at hn
    refine (nested_or_of_macroArgument hden hn).imp hdenominator fun hg' => ?_
    rw [nest_of_macroArgument hden hg'] at hn
    rw [List.append_assoc, List.append_assoc, nest_noBracket_append (noBracket_name (by decide)),
      nest_inBraces hg, nest_inBraces hg', hn]

theorem settles_buildRoot (h : buildRoot s = .ok (replacement, rest)) :
    Settles s replacement rest := by
  unfold buildRoot at h
  split at h
  · obtain ⟨⟨degree, after⟩, hdeg, h⟩ := exists_of_bind_ok h
    obtain ⟨⟨radicand, after'⟩, hrad, h⟩ := exists_of_bind_ok h
    obtain ⟨rfl, rfl⟩ := Prod.mk.inj (Except.ok.inj h)
    have hradicand : HollowGroup radicand →
        Hollow ("nthroot".toList ++ inSquareBrackets degree ++ inBraces radicand) :=
      fun hg => hg.inBraces.append_left _
    constructor
    · intro hs
      rcases hollow_readGroup hdeg hs.dropBlanks with hg | hs
      · exact .inl ((hg.inSquareBrackets.append_left _).append_right _)
      · exact (hollow_macroArgument hrad hs).imp_left hradicand
    · intro opened out hn
      rw [← followsBrackets_nest.dropBlanks] at hn
      obtain ⟨hg, hn⟩ := nested_of_readGroup hdeg hn
      refine (nested_or_of_macroArgument hrad hn).imp hradicand fun hg' => ?_
      rw [nest_of_macroArgument hrad hg'] at hn
      rw [List.append_assoc, List.append_assoc, nest_noBracket_append (noBracket_name (by decide)),
        nest_inSquareBrackets hg, nest_inBraces hg', hn]
  · obtain ⟨⟨radicand, after⟩, hrad, h⟩ := exists_of_bind_ok h
    obtain ⟨rfl, rfl⟩ := Prod.mk.inj (Except.ok.inj h)
    have hradicand : HollowGroup radicand → Hollow ("sqrt".toList ++ inBraces radicand) :=
      fun hg => hg.inBraces.append_left _
    constructor
    · exact fun hs => (hollow_macroArgument hrad hs).imp_left hradicand
    · intro opened out hn
      refine (nested_or_of_macroArgument hrad hn).imp hradicand fun hg => ?_
      rw [nest_of_macroArgument hrad hg] at hn
      rw [List.append_assoc, nest_noBracket_append (noBracket_name (by decide)),
        nest_inBraces hg, hn]

theorem settles_buildLogBase (h : buildLogBase s = .ok (replacement, rest)) :
    Settles s replacement rest := by
  obtain ⟨⟨base, after⟩, hbase, h⟩ := exists_of_bind_ok h
  obtain ⟨rfl, rfl⟩ := Prod.mk.inj (Except.ok.inj h)
  have hhollow : HollowGroup base → Hollow ("logBase".toList ++ inSquareBrackets base) :=
    fun hg => hg.inSquareBrackets.append_left _
  constructor
  · exact fun hs => (hollow_macroArgument hbase hs).imp_left hhollow
  · intro opened out hn
    refine (nested_or_of_macroArgument hbase hn).imp hhollow fun hg => ?_
    rw [nest_of_macroArgument hbase hg] at hn
    rw [List.append_assoc, nest_noBracket_append (noBracket_name (by decide)),
      nest_inSquareBrackets hg, hn]

theorem settles_buildFunctionPower {f : UnaryFunction}
    (h : buildFunctionPower f s = .ok (replacement, rest)) : Settles s replacement rest := by
  obtain ⟨⟨exponent, after⟩, hexp, h⟩ := exists_of_bind_ok h
  simp only at h
  split at h
  · cases h
  obtain ⟨⟨argument, after'⟩, harg, h⟩ := exists_of_bind_ok h
  obtain ⟨rfl, rfl⟩ := Prod.mk.inj (Except.ok.inj h)
  have hexponent : HollowGroup exponent →
      Hollow ('(' :: f.name.toList ++ inBraces argument ++ ')' :: '^' :: inBraces exponent) :=
    fun hg => ((hg.inBraces.cons '^').cons ')').append_left _
  have hargument : HollowGroup argument →
      Hollow ('(' :: f.name.toList ++ inBraces argument ++ ')' :: '^' :: inBraces exponent) :=
    fun hg => (hg.inBraces.append_left _).append_right _
  constructor
  · intro hs
    rcases hollow_macroArgument hexp hs with hg | hs
    · exact .inl (hexponent hg)
    · exact (hollow_functionArgument harg hs).imp_left hargument
  · intro opened out hn
    refine (nested_or_of_macroArgument hexp hn).imp hexponent fun hg => ?_
    rw [nest_of_macroArgument hexp hg] at hn
    have hg' := nested_of_functionArgument' harg hn
    rw [nest_of_functionArgument harg hg'] at hn
    have hcall : Nested (f.name.toList ++ inBraces argument) :=
      nested_word_append f.isName.2 (by
        show nest [] _ = some []
        rw [← List.append_nil (inBraces argument), nest_inBraces hg']
        rfl)
    have happ : '(' :: f.name.toList ++ inBraces argument ++ ')' :: '^' :: inBraces exponent ++
        after' = Bracket.round.opening :: ((f.name.toList ++ inBraces argument) ++
          Bracket.round.closing :: '^' :: (inBraces exponent ++ after')) := by
      simp [Bracket.opening, Bracket.closing]
    rw [happ, nest_group hcall, nest_cons (by decide), nest_inBraces hg, hn]

/-- Each macro settles what it reads. -/
theorem Pass.settles {p : Pass} (hp : p ∈ Canonical.passes) {c : Char} {n : Nat}
    (h : p.site? c s = some ⟨n, .ok (replacement, rest)⟩) : Settles (c :: s) replacement rest := by
  have hbuilds : ∀ {made : Text → Text → Text → Prop}, p.Builds made →
      (∀ {t}, made t replacement rest → Settles t replacement rest) →
      Settles (c :: s) replacement rest := by
    intro made hmade hsettles
    obtain ⟨hc, htake, hbuilt⟩ := hmade h
    have hbefore : ∀ d ∈ c :: s.take n, NoBracket d := List.forall_mem_cons.mpr ⟨hc, htake⟩
    have hsplit : c :: s = (c :: s.take n) ++ s.drop n := by simp
    constructor
    · rw [hsplit]
      exact fun hs => (hsettles hbuilt).hollow (hs.of_append hbefore)
    · intro opened out hn
      rw [hsplit, nest_noBracket_append hbefore] at hn
      exact (hsettles hbuilt).nest hn
  simp only [Canonical.passes, List.mem_cons, List.not_mem_nil, or_false] at hp
  rcases hp with rfl | rfl | rfl | rfl
  · exact hbuilds builds_fraction settles_buildFraction
  · exact hbuilds builds_root settles_buildRoot
  · exact hbuilds builds_logBase settles_buildLogBase
  · exact hbuilds builds_functionPower fun ⟨_, hf⟩ => settles_buildFunctionPower hf

end Macros

/-! ### Stages -/

theorem notMem_triggers_closing (b : Bracket) : b.closing ∉ triggers := by
  cases b <;> decide

theorem Shut.rewrites {strict : Bool} {stage : Stage} (hl : stage.Local) {b : Option Char}
    {s t : Text} (hs : Shut s) (h : Rewrites strict stage b s t) : Shut t := by
  obtain ⟨k, r, rfl⟩ := hs
  obtain ⟨_, t', rfl, _⟩ := h.eq_append (l := [k.closing]) hl
    (List.forall_mem_singleton.mpr (notMem_triggers_closing k))
  exact ⟨k, t', rfl⟩

/-- A stage whose replacements fill no hollow text fills none. -/
theorem Rewrites.hollow {strict : Bool} {stage : Stage} (hl : stage.Local)
    (hmove : ∀ {b c s out b' rest}, stage b c s = .step out b' rest → Hollow (c :: s) → Hollow rest)
    {b : Option Char} {s t : Text} (h : Rewrites strict stage b s t) : Hollow s → Hollow t := by
  have hcons : ∀ {b : Option Char} {c : Char} {s t : Text}, Rewrites strict stage b s t →
      (Hollow s → Hollow t) → Hollow (c :: s) → Hollow (c :: t) := by
    intro b c s t h ih hs
    rcases hollow_cons hs with ⟨⟨k, rfl⟩, hshut⟩ | hs
    · exact hollow_opening k (hshut.rewrites hl h)
    · exact (ih hs).cons c
  induction h with
  | nil => exact id
  | keep _ ht ih => exact hcons ht ih
  | move h _ ih => exact fun hs => (ih (hmove h hs)).append_left _
  | leave _ _ ht ih => exact hcons ht ih
  | quit => exact id

/-- A pass writes nothing and goes on with what it made. -/
theorem Stage.exists_of_step_pass {p : Pass} {ended : Char → Text → Bool} {b b' : Option Char}
    {c : Char} {s out rest : Text} (h : Stage.pass p ended b c s = .step out b' rest) :
    out = [] ∧ b' = b ∧ ∃ n replacement after, p.site? c s = some ⟨n, .ok (replacement, after)⟩ ∧
      rest = padded b after.head? replacement ++ after := by
  unfold Stage.pass at h
  split at h
  · next n replacement after hsite =>
    obtain ⟨rfl, rfl, rfl⟩ := Found.step.inj h
    exact ⟨rfl, rfl, n, replacement, after, hsite, rfl⟩
  · cases h
  · split at h <;> cases h
  · cases h

theorem Hollow.padded {replacement : Text} (h : Hollow replacement) (b a : Option Char) :
    Hollow (padded b a replacement) := by
  obtain ⟨u, v, _, _, hp⟩ := exists_blanks_padded b a replacement
  rw [hp]
  exact (h.append_right v).append_left u

section Passes

variable {p : Pass} (hp : p ∈ Canonical.passes) {ended : Char → Text → Bool} {b b' : Option Char}
  {c : Char} {s t out rest : Text}
include hp

theorem Stage.hollow_of_step_pass (h : Stage.pass p ended b c s = .step out b' rest)
    (hs : Hollow (c :: s)) : Hollow rest := by
  obtain ⟨_, _, _, replacement, after, hsite, rfl⟩ := Stage.exists_of_step_pass h
  rcases (Pass.settles hp hsite).hollow hs with hr | hr
  · exact (hr.padded b after.head?).append_right after
  · exact hr.append_left _

/-- A step of a pass keeps the brackets well nested, or makes the text hollow. -/
theorem Stage.hollow_or_nest_of_step_pass (h : Stage.pass p ended b c s = .step out b' rest)
    {opened last : List Bracket} (hn : nest opened (c :: s) = some last) :
    Hollow rest ∨ nest opened rest = some last := by
  obtain ⟨_, _, _, replacement, after, hsite, rfl⟩ := Stage.exists_of_step_pass h
  refine ((Pass.settles hp hsite).nest hn).imp
    (fun hr => (hr.padded b after.head?).append_right after) fun hn => ?_
  obtain ⟨u, v, hu, hv, hpad⟩ := exists_blanks_padded b after.head? replacement
  rw [hpad, List.append_assoc, List.append_assoc,
    followsBrackets_nest.nested_append (nested_of_isAllBlank hu), nest_append]
  rw [nest_append] at hn
  refine Eq.trans (congrArg _ (funext fun opened => ?_)) hn
  exact followsBrackets_nest.nested_append (nested_of_isAllBlank hv) opened after

end Passes

theorem Stage.hollow_of_step_substitution {rule : Option Char → Rule} (hr : ∀ b, (rule b).Plain)
    {ended : Char → Text → Bool} {b b' : Option Char} {c : Char} {s out rest : Text}
    (h : Stage.substitution rule ended b c s = .step out b' rest) (hs : Hollow (c :: s)) :
    Hollow rest := by
  unfold Stage.substitution at h
  split at h
  · next replacement n hrule =>
    obtain ⟨rfl, rfl, rfl⟩ := Found.step.inj h
    obtain ⟨hc, htake, _⟩ := hr b hrule
    rw [← List.take_append_drop n s, ← List.cons_append] at hs
    exact hs.of_append (List.forall_mem_cons.mpr ⟨hc, htake⟩)
  · split at h <;> cases h

/-- The stages after the cosmetic ones. -/
def Canonical.lateStages : List Stage :=
  passStages ++ wordStages

theorem Rewrites.hollow_late {strict : Bool} {stage : Stage} (hs : stage ∈ Canonical.lateStages)
    {b : Option Char} {s t : Text} (h : Rewrites strict stage b s t) : Hollow s → Hollow t := by
  refine h.hollow (Canonical.local_of_mem_stages stage (List.mem_append_right _ hs))
    fun {b c s out b' rest} hstep => ?_
  simp only [Canonical.lateStages, Canonical.passStages, Canonical.wordStages, List.cons_append,
    List.nil_append, List.mem_cons, List.not_mem_nil, or_false] at hs
  rcases hs with rfl | rfl | rfl | rfl | rfl | rfl | rfl | rfl
  · exact Stage.hollow_of_step_pass (p := .fraction) (by simp [Canonical.passes]) hstep
  · exact Stage.hollow_of_step_pass (p := .root) (by simp [Canonical.passes]) hstep
  · exact Stage.hollow_of_step_pass (p := .logBase) (by simp [Canonical.passes]) hstep
  · exact Stage.hollow_of_step_pass (p := .functionPower) (by simp [Canonical.passes]) hstep
  · exact Stage.hollow_of_step_substitution Rule.plain_functionName.apart hstep
  · exact Stage.hollow_of_step_substitution (fun _ => Rule.plain_sign) hstep
  · exact Stage.hollow_of_step_substitution Rule.plain_pi.apart hstep
  · exact Stage.hollow_of_step_substitution Rule.plain_e.apart hstep

/-! ### Bars, tokens and the parser -/

theorem BarsPair.hollow {before : Text} {marks : List Opened} {last : Bool} {s t : Text}
    (h : BarsPair before marks last s t) : Hollow s → Hollow t := by
  have hshut : ∀ {before : Text} {marks : List Opened} {last : Bool} {s t : Text},
      BarsPair before marks last s t → Shut s → Shut t := by
    rintro before marks last _ t h ⟨b, r, rfl⟩
    generalize hs : b.closing :: r = s at h
    cases h with
    | nil => cases hs
    | opening k => exact absurd (List.cons.inj hs).1.symm (opening_ne_closing' k b)
    | closing k => exact ⟨k, _, rfl⟩
    | opens => exact absurd (List.cons.inj hs).1 (by cases b <;> decide)
    | closes => exact absurd (List.cons.inj hs).1 (by cases b <;> decide)
    | other hc => exact absurd (List.cons.inj hs).1.symm (hc.ne b).2
  induction h with
  | nil => exact id
  | opening b h ih =>
    intro hs
    rcases hollow_cons hs with ⟨-, hs⟩ | hs
    · exact hollow_opening b (hshut h hs)
    · exact (ih hs).cons _
  | closing b h ih =>
    intro hs
    rcases hollow_cons hs with ⟨⟨k, hk⟩, -⟩ | hs
    · exact absurd hk.symm (opening_ne_closing' k b)
    · exact (ih hs).cons _
  | opens _ _ ih =>
    intro hs
    rcases hollow_cons hs with ⟨⟨k, hk⟩, -⟩ | hs
    · exact absurd hk (by cases k <;> decide)
    · exact (ih hs).append_left _
  | closes _ _ ih =>
    intro hs
    rcases hollow_cons hs with ⟨⟨k, hk⟩, -⟩ | hs
    · exact absurd hk (by cases k <;> decide)
    · exact (ih hs).cons _
  | other hc _ _ ih =>
    intro hs
    rcases hollow_cons hs with ⟨⟨k, hk⟩, -⟩ | hs
    · exact absurd hk (hc.ne k).1
    · exact (ih hs).cons _

theorem filled_append_false {vs : List Symbol} (h : ∀ a, filled a vs = false) :
    ∀ (us : List Symbol) (a : Bool), filled a (us ++ vs) = false
  | [], a => h a
  | u :: us, a => by
    have ih := filled_append_false h us
    cases u <;> simp [filled, ih]

/-- The tokens of a hollow text show that it is hollow. -/
theorem Lexes.filled_eq_false {afterNumber : Bool} {s : Text} {us : List (Symbol × Bool)}
    (h : Lexes afterNumber s us) (hb : '\\' ∉ s) (hs : Hollow s) :
    ∀ a, filled a (us.map Prod.fst) = false := by
  have hsign : ∀ b : Bracket, IsSign b.opening ∧ IsSign b.closing := by
    intro b
    cases b <;> exact ⟨by unfold IsSign; decide, by unfold IsSign; decide⟩
  induction h with
  | nil =>
    obtain ⟨b, hm⟩ := hs
    exact absurd hm.mem List.not_mem_nil
  | @blank afterNumber c s us hblank h ih =>
    rcases hollow_cons hs with ⟨⟨k, rfl⟩, -⟩ | hs
    · exact absurd hblank (by cases k <;> decide)
    · exact ih (fun hm => hb (List.mem_cons_of_mem _ hm)) hs
  | @step c s us afterNumber hblank hp h ih =>
    obtain ⟨hc, hb⟩ := List.ne_and_not_mem_of_not_mem_cons hb
    rcases hollow_cons hs with ⟨⟨k, rfl⟩, hshut⟩ | hs
    · -- The opening bracket is a token of its own, and so is the closing one.
      obtain ⟨k', r, rfl⟩ := hshut
      rw [lexeme_sign (hsign k).1] at h ⊢
      obtain ⟨us', rfl, _⟩ := Lexes.of_sign (hsign k').2 h
      have hsymbols : Symbol.ofSign k.opening = .opening k ∧
          Symbol.ofSign k'.closing = .closing k' := by
        constructor
        · cases k <;> rfl
        · cases k' <;> rfl
      intro a
      rw [hsymbols.1, hsymbols.2]
      rfl
    · have htake : ∀ d ∈ s.take (lexeme c s).2, NoBracket d := fun d hd =>
        noBracket_of_lexeme_char (mem_take_lexeme hc.symm s d hd)
      rw [← List.take_append_drop (lexeme c s).2 s] at hs
      intro a
      rw [List.map_append]
      exact filled_append_false (ih (fun hm => hb (List.mem_of_mem_drop hm))
        (hs.of_append htake)) _ a

/-- What the parser accepts comes from a text in which the bars pair. -/
theorem Expr.exists_barsPair_of_parseWithin {calls : Nat} {t : Text} {x : Expr}
    (h : parseWithin calls (collapse (expandBars t)) = .ok x) : ∃ u ts stop,
      BarsPair [] [] true t u ∧ '\\' ∉ u ∧ Lexes false u (ts.map Token.shape) ∧
        sum stop calls ts = .ok (x, []) := by
  obtain ⟨ts, hlexes, hrun, hsum⟩ := exists_lexes_of_parseWithin h
  have hlexes := hlexes.respaced (hlexes.notMem_of_run hrun '\\' (by simp)) (words_collapse _)
  have hno := hlexes.notMem_of_run hrun
  exact ⟨_, ts, _, .of_expandBars (hno '|' (by simp)) (hlexes.nest hrun), hno '\\' (by simp),
    hlexes, hsum⟩

/-- The parser accepts no hollow text. -/
theorem Expr.not_hollow_of_parseWithin {calls : Nat} {t : Text} {x : Expr}
    (h : parseWithin calls (collapse (expandBars t)) = .ok x) : ¬Hollow t := by
  intro hs
  obtain ⟨u, ts, _, hbars, hb, hlexes, hsum⟩ := exists_barsPair_of_parseWithin h
  have hfilled := filled_of_sum hsum
  have hfalse := hlexes.filled_eq_false hb (hbars.hollow hs) false
  rw [List.map_map] at hfalse
  exact absurd (hfilled.symm.trans hfalse) (by decide)

end NumericAnswer
