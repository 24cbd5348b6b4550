/-
# What passes keep

A pass stands at a place in a text. It moves on by a character, or it replaces the
macro there and stays, so that the place does not tell how far it has come; the
weight of the text from there on does. A replacement takes one command away and
brings one word. Whatever else counts, that is all but brackets, blanks and the
marks of exponents and bases, stands in the replacement as often as in the macro.

Key definitions: `contents`, `Becomes`, `Pass.Place`, `Pass.Replaces`,
`Pass.Reaches`.
Key theorems: `contents_of_macroArgument`, `Pass.keepsContents_of_mem`,
`Pass.reaches_runFrom`, `Pass.conserves`.
-/
import Mathlib.Order.WellFounded
import NumericAnswer.Proofs.Regrouped

namespace NumericAnswer

/-! ### What counts -/

/-- The character is no bracket, no blank and no mark of an exponent or a base. -/
def isContent (c : Char) : Bool :=
  decide (NoBracket c) && !isBlank c && c != '^' && c != '_'

/-- The characters of a text that count. -/
def contents (s : Text) : Text :=
  s.filter isContent

theorem contents_append (s t : Text) : contents (s ++ t) = contents s ++ contents t :=
  List.filter_append ..

theorem contents_eq_nil {s : Text} (h : ∀ c ∈ s, isContent c = false) : contents s = [] :=
  List.filter_eq_nil_iff.mpr fun c hc => by simp [h c hc]

theorem contents_eq_self {s : Text} (h : ∀ c ∈ s, isContent c = true) : contents s = s :=
  List.filter_eq_self.mpr h

theorem contents_cons_of_not_isContent {c : Char} (h : isContent c = false) (s : Text) :
    contents (c :: s) = contents s :=
  List.filter_cons_of_neg (by simp [h])

theorem not_isContent_opening (b : Bracket) : isContent b.opening = false := by
  cases b <;> decide

theorem not_isContent_closing (b : Bracket) : isContent b.closing = false := by
  cases b <;> decide

theorem not_isContent_of_isBlank {c : Char} (h : isBlank c = true) : isContent c = false := by
  simp [isContent, h]

theorem isContent_of_isAsciiLetter {c : Char} (h : isAsciiLetter c = true) : isContent c = true := by
  have halphanumeric := isAlphanumeric_of_isAsciiLetter h
  have hblank : isBlank c = false := by
    cases hb : isBlank c with
    | false => rfl
    | true =>
      rw [isAlphanumeric_of_isBlank hb] at halphanumeric
      cases halphanumeric
  have hcaret : c ≠ '^' := by rintro rfl; cases h
  have hunderscore : c ≠ '_' := by rintro rfl; cases h
  simp [isContent, noBracket_of_isAlphanumeric halphanumeric, hblank, hcaret, hunderscore]

theorem contents_letters {s : Text} (h : ∀ c ∈ s, isAsciiLetter c = true) : contents s = s :=
  contents_eq_self fun c hc => isContent_of_isAsciiLetter (h c hc)

theorem contents_blanks {s : Text} (h : isAllBlank s = true) : contents s = [] :=
  contents_eq_nil fun c hc => not_isContent_of_isBlank (List.all_eq_true.mp h c hc)

theorem contents_dropBlanks (s : Text) : contents (dropBlanks s) = contents s := by
  obtain ⟨blanks, hblanks, hs⟩ := exists_blanks_append s
  rw [congrArg contents hs, contents_append, contents_blanks hblanks, List.nil_append]

theorem contents_group (b : Bracket) (s t : Text) :
    contents (b.opening :: (s ++ b.closing :: t)) = contents s ++ contents t := by
  rw [contents_cons_of_not_isContent (not_isContent_opening b), contents_append,
    contents_cons_of_not_isContent (not_isContent_closing b)]

theorem contents_inBraces (s : Text) : contents (inBraces s) = contents s :=
  (contents_group .curly s []).trans (List.append_nil _)

theorem contents_inSquareBrackets (s : Text) : contents (inSquareBrackets s) = contents s :=
  (contents_group .square s []).trans (List.append_nil _)

/-- Padding adds nothing that counts. -/
theorem contents_padded (before after : Option Char) (word : Text) :
    contents (padded before after word) = contents word := by
  have hspace : isContent ' ' = false := by decide
  unfold padded
  simp only
  split <;> split <;> simp [contents, hspace]

/-! ### Arguments are taken out as they are -/

section Arguments

variable {s argument rest : Text}

theorem contents_of_spanGroup {b : Bracket} (h : spanGroup b 0 s = some (argument, rest)) :
    contents (b.opening :: s) = contents argument ++ contents rest := by
  rw [← append_of_spanGroup h, contents_group]

theorem contents_of_readGroup (h : readGroup s = .ok (argument, rest)) :
    contents s = contents argument ++ contents rest := by
  obtain ⟨b, rfl⟩ := append_of_readGroup h
  exact contents_group b argument rest

theorem contents_of_macroArgument (h : macroArgument s = .ok (argument, rest)) :
    contents s = contents argument ++ contents rest := by
  obtain ⟨t, ht, hcase⟩ := macroArgument_cases h
  rw [← contents_dropBlanks, ht]
  cases hcase with
  | group hg => exact @contents_of_spanGroup _ _ _ .curly hg
  | word w _ ha => rw [← contents_append, List.append_assoc, append_of_absorbGroups ha]
  | command t => rw [← contents_append, List.cons_append, leadingLetters_append_dropWhile]
  | @character c _ => exact contents_append [c] rest

theorem contents_of_functionArgument (h : functionArgument s = .ok (argument, rest)) :
    contents s = contents argument ++ contents rest := by
  obtain ⟨t, ht, hcase⟩ := functionArgument_cases h
  rw [← contents_dropBlanks, ht]
  cases hcase with
  | group b hg => exact contents_of_spanGroup hg
  | word w _ ha => rw [← contents_append, List.append_assoc, append_of_absorbGroups ha]
  | command t => rw [← contents_append, List.cons_append, leadingLetters_append_dropWhile]
  | bare => exact contents_append argument rest

end Arguments

/-! ### A macro and its replacement -/

/-- The word that a command goes for. -/
inductive Becomes : Text → Word → Prop where
  | fraction {name : Text} (h : name ∈ fractionCommands) : Becomes name .fraction
  | root : Becomes "sqrt".toList (.unary .sqrt)
  | nthRoot : Becomes "sqrt".toList (.binary .nthroot)
  | logBase : Becomes "log".toList (.binary .logBase)
  | power {f : UnaryFunction} (h : f ∈ UnaryFunction.commands) : Becomes f.name.toList (.unary f)

/-- A word and what counts in the text read count in the replacement and its rest. -/
def Restates (w : Word) (s replacement rest : Text) : Prop :=
  (contents (replacement ++ rest)).Perm (w.text ++ contents s)

section Builds

variable {s replacement rest : Text}

theorem Word.contents_text (w : Word) : contents w.text = w.text :=
  contents_letters w.isAsciiLetter_of_mem_text

theorem restates_buildFraction (h : buildFraction s = .ok (replacement, rest)) :
    Restates .fraction s replacement rest := by
  obtain ⟨⟨numerator, after⟩, hn, h⟩ := exists_of_bind_ok h
  obtain ⟨⟨denominator, after'⟩, hd, h⟩ := exists_of_bind_ok h
  obtain ⟨rfl, rfl⟩ := Prod.mk.inj (Except.ok.inj h)
  have hword : contents "frac".toList = "frac".toList := Word.contents_text .fraction
  refine List.Perm.of_eq ?_
  simp only [contents_append, contents_inBraces, contents_of_macroArgument hn,
    contents_of_macroArgument hd, hword, List.append_assoc]
  rfl

theorem restates_buildRoot (h : buildRoot s = .ok (replacement, rest)) :
    Restates (.unary .sqrt) s replacement rest ∨ Restates (.binary .nthroot) s replacement rest := by
  unfold buildRoot at h
  split at h
  · obtain ⟨⟨degree, after⟩, hd, h⟩ := exists_of_bind_ok h
    obtain ⟨⟨radicand, after'⟩, hr, h⟩ := exists_of_bind_ok h
    obtain ⟨rfl, rfl⟩ := Prod.mk.inj (Except.ok.inj h)
    have hword : contents "nthroot".toList = "nthroot".toList :=
      Word.contents_text (.binary .nthroot)
    have hdegree := contents_of_readGroup hd
    rw [contents_dropBlanks] at hdegree
    refine .inr (List.Perm.of_eq ?_)
    simp only [contents_append, contents_inBraces, contents_inSquareBrackets, hdegree,
      contents_of_macroArgument hr, hword, List.append_assoc]
    rfl
  · obtain ⟨⟨radicand, after⟩, hr, h⟩ := exists_of_bind_ok h
    obtain ⟨rfl, rfl⟩ := Prod.mk.inj (Except.ok.inj h)
    have hword : contents "sqrt".toList = "sqrt".toList := Word.contents_text (.unary .sqrt)
    refine .inl (List.Perm.of_eq ?_)
    simp only [contents_append, contents_inBraces, contents_of_macroArgument hr, hword,
      List.append_assoc]
    rfl

theorem restates_buildLogBase (h : buildLogBase s = .ok (replacement, rest)) :
    Restates (.binary .logBase) s replacement rest := by
  obtain ⟨⟨base, after⟩, hb, h⟩ := exists_of_bind_ok h
  obtain ⟨rfl, rfl⟩ := Prod.mk.inj (Except.ok.inj h)
  have hword : contents "logBase".toList = "logBase".toList := Word.contents_text (.binary .logBase)
  refine List.Perm.of_eq ?_
  simp only [contents_append, contents_inSquareBrackets, contents_of_macroArgument hb, hword,
    List.append_assoc]
  rfl

/-- The argument and the exponent change places. -/
theorem restates_buildFunctionPower {f : UnaryFunction}
    (h : buildFunctionPower f s = .ok (replacement, rest)) :
    Restates (.unary f) s replacement rest := by
  obtain ⟨⟨exponent, after⟩, he, h⟩ := exists_of_bind_ok h
  simp only at h
  split at h
  · cases h
  · obtain ⟨⟨argument, after'⟩, ha, h⟩ := exists_of_bind_ok h
    obtain ⟨rfl, rfl⟩ := Prod.mk.inj (Except.ok.inj h)
    have hword : contents f.name.toList = f.name.toList := Word.contents_text (.unary f)
    have hgroup := contents_group .round (f.name.toList ++ inBraces argument)
      ('^' :: (inBraces exponent ++ after'))
    have hcaret : contents ('^' :: (inBraces exponent ++ after')) =
        contents exponent ++ contents after' := by
      rw [contents_cons_of_not_isContent (by decide), contents_append, contents_inBraces]
    have hmade : contents ('(' :: f.name.toList ++ inBraces argument ++
        ')' :: '^' :: inBraces exponent ++ after') =
          f.name.toList ++ (contents argument ++ (contents exponent ++ contents after')) := by
      rw [hcaret, contents_append, contents_inBraces, hword] at hgroup
      simpa [Bracket.opening, Bracket.closing] using hgroup
    have hread : contents s = contents exponent ++ (contents argument ++ contents after') := by
      rw [contents_of_macroArgument he, contents_of_functionArgument ha]
    show (contents _).Perm (f.name.toList ++ contents s)
    rw [hmade, hread]
    refine List.Perm.append_left _ ?_
    rw [← List.append_assoc, ← List.append_assoc]
    exact List.perm_append_comm.append_right _

end Builds

/-- Each macro that the pass replaces is a command, with a mark after it or not,
that goes for a word. -/
def Pass.KeepsContents (p : Pass) : Prop :=
  ∀ ⦃c : Char⦄ ⦃s : Text⦄ ⦃n : Nat⦄ ⦃replacement rest : Text⦄,
    p.site? c s = some ⟨n, .ok (replacement, rest)⟩ →
      c = '\\' ∧ contents (s.take n) = leadingLetters s ∧
        ∃ w, Becomes (leadingLetters s) w ∧ Restates w (s.drop n) replacement rest

theorem contents_leadingLetters (s : Text) : contents (leadingLetters s) = leadingLetters s :=
  contents_letters isAsciiLetter_of_mem_leadingLetters

/-- A mark after a command does not count. -/
theorem contents_take_mark {mark : Char} (hmark : isContent mark = false) {s : Text} {n : Nat}
    (h : markLength? mark (s.drop (leadingLetters s).length) = some n) :
    contents (s.take ((leadingLetters s).length + n)) = leadingLetters s := by
  obtain ⟨blanks, hblanks, htake⟩ := exists_take_of_markLength? h
  rw [htake, contents_append, contents_append, contents_leadingLetters, contents_blanks hblanks,
    contents_cons_of_not_isContent hmark]
  exact List.append_nil _

namespace Pass

variable {names : List Text} {build : Text → Except Refusal (Text × Text)} {p : Pass}

theorem keepsContents_command (hp : ∀ c s, p.site? c s =
    if c = '\\' && names.contains (leadingLetters s) then
      some (siteAt s (leadingLetters s).length build) else none)
    (hbuild : ∀ {name s replacement rest}, name ∈ names → build s = .ok (replacement, rest) →
      ∃ w, Becomes name w ∧ Restates w s replacement rest) : p.KeepsContents := by
  intro c s n replacement rest h
  rw [hp] at h
  split at h
  · next hc =>
    simp only [Bool.and_eq_true, decide_eq_true_eq, List.contains_iff_mem] at hc
    obtain ⟨rfl, hbuilt⟩ := Site.mk.inj (Option.some.inj h)
    refine ⟨hc.1, ?_, hbuild hc.2 hbuilt⟩
    rw [take_leadingLetters, contents_leadingLetters]
  · cases h

theorem keepsContents_fraction : fraction.KeepsContents :=
  keepsContents_command (fun _ _ => rfl) fun hname h =>
    ⟨.fraction, .fraction hname, restates_buildFraction h⟩

theorem keepsContents_root : root.KeepsContents := by
  refine keepsContents_command Stage.site_root fun hname h => ?_
  obtain rfl := List.mem_singleton.mp hname
  rcases restates_buildRoot h with h | h
  · exact ⟨_, .root, h⟩
  · exact ⟨_, .nthRoot, h⟩

theorem keepsContents_logBase : logBase.KeepsContents := by
  intro c s n replacement rest h
  simp only [logBase, logBaseSite?] at h
  split at h
  · next hc =>
    simp only [Bool.and_eq_true, decide_eq_true_eq] at hc
    obtain ⟨length, hlength, hs⟩ := Option.map_eq_some_iff.mp h
    obtain ⟨rfl, hbuilt⟩ := Site.mk.inj hs
    refine ⟨hc.1, contents_take_mark (by decide) hlength, .binary .logBase, ?_,
      restates_buildLogBase hbuilt⟩
    rw [hc.2]
    exact .logBase
  · cases h

theorem keepsContents_functionPower : functionPower.KeepsContents := by
  intro c s n replacement rest h
  simp only [functionPower, functionPowerSite?] at h
  split at h
  · next hc =>
    obtain ⟨f, hf, hmark⟩ := Option.bind_eq_some_iff.mp h
    obtain ⟨length, hlength, hs⟩ := Option.map_eq_some_iff.mp hmark
    obtain ⟨rfl, hbuilt⟩ := Site.mk.inj hs
    have hname : f.name.toList = leadingLetters s := by simpa using List.find?_some hf
    refine ⟨hc, contents_take_mark (by decide) hlength, .unary f, ?_,
      restates_buildFunctionPower hbuilt⟩
    rw [← hname]
    exact .power (List.mem_of_find?_eq_some hf)
  · cases h

theorem keepsContents_of_mem (hp : p ∈ Canonical.passes) : p.KeepsContents := by
  simp only [Canonical.passes, List.mem_cons, List.not_mem_nil, or_false] at hp
  rcases hp with rfl | rfl | rfl | rfl
  · exact keepsContents_fraction
  · exact keepsContents_root
  · exact keepsContents_logBase
  · exact keepsContents_functionPower

/-! ### Places -/

/-- Where a pass is: the text before it, in reverse, and the text from there on. -/
structure Place where
  done : Text
  left : Text

def Place.text (x : Place) : Text :=
  x.done.reverse ++ x.left

/-- There is no macro here, or one whose arguments are missing. -/
inductive Skips (p : Pass) : Place → Place → Prop where
  | skip {done s : Text} {c : Char}
      (h : ∀ site, p.site? c s = some site → site.outcome = .error .absent) :
      Skips p ⟨done, c :: s⟩ ⟨c :: done, s⟩

/-- The macro here is replaced, and its replacement is read next. -/
inductive Replaces (p : Pass) : Place → Place → Prop where
  | replace {done s replacement rest : Text} {c : Char} {n : Nat}
      (h : p.site? c s = some ⟨n, .ok (replacement, rest)⟩) :
      Replaces p ⟨done, c :: s⟩ ⟨done, padded done.head? rest.head? replacement ++ rest⟩

def Steps (p : Pass) (x y : Place) : Prop :=
  p.Skips x y ∨ p.Replaces x y

/-- The pass comes from a place to another one with `n` replacements. -/
inductive Reaches (p : Pass) : Nat → Place → Place → Prop where
  | refl (x : Place) : Reaches p 0 x x
  | skip {n : Nat} {x y z : Place} (h : p.Skips x y) (hreach : Reaches p n y z) : Reaches p n x z
  | replace {n : Nat} {x y z : Place} (h : p.Replaces x y) (hreach : Reaches p n y z) :
      Reaches p (n + 1) x z

/-- Every step makes the text from the place on lighter. -/
theorem weight_of_steps {x y : Place} (h : p.Steps x y) : weight y.left < weight x.left := by
  rcases h with h | h
  · cases h with
    | skip _ => exact weight_cons_le _ _
  · cases h with
    | @replace done s replacement rest c n h =>
      have hlighter := p.lighter h
      have hpadded := weight_padded_le done.head? rest.head? replacement
      show weight (padded done.head? rest.head? replacement ++ rest) < weight (c :: s)
      rw [weight_append]
      omega

theorem wellFounded_steps (p : Pass) : WellFounded fun y x => p.Steps x y :=
  Subrelation.wf weight_of_steps (measure fun x : Place => weight x.left).wf

/-- A run comes to a place without a step. -/
theorem reaches_runFrom (p : Pass) (done s : Text) :
    ∃ n y, p.Reaches n ⟨done, s⟩ y ∧ (∀ z, ¬p.Steps y z) ∧ (p.runFrom done s).1 = y.text := by
  fun_induction runFrom p done s with
  | case1 done =>
    refine ⟨0, ⟨done, []⟩, .refl _, ?_, (List.append_nil _).symm⟩
    rintro z (h | h) <;> cases h
  | case2 done c s n replacement rest hsite ih =>
    obtain ⟨m, y, hreach, hstop, hrun⟩ := ih
    exact ⟨m + 1, y, .replace (.replace hsite) hreach, hstop, hrun⟩
  | case3 done c s n b hsite =>
    refine ⟨0, ⟨done, c :: s⟩, .refl _, ?_, rfl⟩
    rintro z (h | h)
    · cases h with
      | skip h => cases h _ hsite
    · cases h with
      | replace h => rw [hsite] at h; cases h
  | case4 done c s n hsite ih =>
    obtain ⟨m, y, hreach, hstop, hrun⟩ := ih
    refine ⟨m, y, .skip (.skip fun site h => ?_) hreach, hstop, hrun⟩
    rw [hsite] at h
    rw [← Option.some.inj h]
  | case5 done c s hsite ih =>
    obtain ⟨m, y, hreach, hstop, hrun⟩ := ih
    refine ⟨m, y, .skip (.skip fun site h => ?_) hreach, hstop, hrun⟩
    rw [hsite] at h
    cases h

/-! ### What a replacement keeps -/

/-- The text before the place stays. From there on a command goes for a word, and
`kept` is all else that counts. A backslash weighs 23 more than another character, so
a text that has become lighter without it is at most 22 characters longer. -/
structure Conserves (x y : Place) : Prop where
  done_eq : y.done = x.done
  exists_kept : ∃ s w kept, x.left = '\\' :: s ∧ Becomes (leadingLetters s) w ∧
    contents x.left = '\\' :: leadingLetters s ++ kept ∧
      (contents y.left).Perm (w.text ++ kept)
  count : y.text.count '\\' + 1 = x.text.count '\\'
  length_le : y.text.length ≤ x.text.length + 22

theorem count_contents (s : Text) : (contents s).count '\\' = s.count '\\' :=
  List.count_filter (by decide)

theorem count_of_isAsciiLetter {s : Text} (h : ∀ c ∈ s, isAsciiLetter c = true) :
    s.count '\\' = 0 :=
  List.count_eq_zero.mpr (notMem_backslash_of_letters h)

theorem length_le_of_lighter {s t : Text} (hcount : t.count '\\' + 1 = s.count '\\')
    (hweight : weight t < weight s) : t.length ≤ s.length + 22 := by
  simp only [weight] at hweight
  omega

/-- The backslash of the command is the one that goes. -/
theorem count_of_contents {s t name kept : Text} {w : Word}
    (hname : ∀ c ∈ name, isAsciiLetter c = true) (hs : contents s = '\\' :: name ++ kept)
    (ht : (contents t).Perm (w.text ++ kept)) : t.count '\\' + 1 = s.count '\\' := by
  have hword := count_of_isAsciiLetter w.isAsciiLetter_of_mem_text
  have hletters := count_of_isAsciiLetter hname
  rw [← count_contents t, ← count_contents s, hs, ht.count_eq]
  simp only [List.cons_append, List.count_cons_self, List.count_append, hword, hletters]

theorem conserves_of_replaces (hp : p.KeepsContents) {x y : Place} (h : p.Replaces x y) :
    Conserves x y := by
  have hweight := weight_of_steps (.inr h)
  cases h with
  | @replace done s replacement rest c n h =>
    obtain ⟨rfl, hname, w, hw, hperm⟩ := hp h
    have hx : contents ('\\' :: s) = '\\' :: leadingLetters s ++ contents (s.drop n) := by
      rw [List.cons_append, ← hname, ← contents_append, List.take_append_drop]
      exact List.filter_cons_of_pos (by decide)
    have hy : (contents (padded done.head? rest.head? replacement ++ rest)).Perm
        (w.text ++ contents (s.drop n)) := by
      rw [contents_append, contents_padded, ← contents_append]
      exact hperm
    have hcount := count_of_contents isAsciiLetter_of_mem_leadingLetters hx hy
    refine ⟨rfl, ⟨s, w, _, rfl, hw, hx, hy⟩, ?_, ?_⟩
    · simp only [Place.text, List.count_append, ← hcount]
      omega
    · have hlength := length_le_of_lighter hcount hweight
      simp only [Place.text, List.length_append] at hlength ⊢
      omega

theorem text_of_skips {x y : Place} (h : p.Skips x y) : y.text = x.text := by
  cases h with
  | skip _ => simp [Place.text]

/-- Every replacement takes one backslash, and adds a few characters at most. -/
theorem count_of_reaches (hp : p.KeepsContents) {n : Nat} {x y : Place} (h : p.Reaches n x y) :
    n + y.text.count '\\' = x.text.count '\\' ∧ y.text.length ≤ x.text.length + 22 * n := by
  induction h with
  | refl x => exact ⟨Nat.zero_add _, Nat.le_refl _⟩
  | skip h _ ih =>
    rw [← text_of_skips h]
    exact ih
  | replace h _ ih =>
    have hcount := (conserves_of_replaces hp h).count
    have hlength := (conserves_of_replaces hp h).length_le
    omega

/-- No pass runs forever. A replacement keeps what counts but for the command and the
word that it goes for, so there are at most as many replacements as backslashes. -/
theorem conserves (hp : p ∈ Canonical.passes) :
    (WellFounded fun y x => p.Steps x y) ∧
    (∀ x y, p.Replaces x y → Conserves x y) ∧
    (∀ s n y, p.Reaches n ⟨[], s⟩ y →
      n + y.text.count '\\' = s.count '\\' ∧ y.text.length ≤ s.length + 22 * n) ∧
    ∀ s, ∃ n y, p.Reaches n ⟨[], s⟩ y ∧ (∀ z, ¬p.Steps y z) ∧ (p.run s).1 = y.text :=
  ⟨wellFounded_steps p, fun _ _ h => conserves_of_replaces (keepsContents_of_mem hp) h,
    fun _ _ _ h => count_of_reaches (keepsContents_of_mem hp) h, reaches_runFrom p []⟩

theorem conserves_power :
    functionPower ∈ Canonical.passes ∧
    ∃ n y, functionPower.Reaches n ⟨[], "\\sin^2x".toList⟩ y ∧
      (functionPower.run "\\sin^2x".toList).1 = y.text ∧ n + y.text.count '\\' = 1 := by
  have hp : functionPower ∈ Canonical.passes := by simp [Canonical.passes]
  obtain ⟨_, _, hcount, hrun⟩ := conserves hp
  obtain ⟨n, y, hreach, _, hy⟩ := hrun "\\sin^2x".toList
  exact ⟨hp, n, y, hreach, hy, (hcount _ n y hreach).1⟩

example : (functionPower.run "\\sin^2x".toList).1 = "(sin\x7bx\x7d)^\x7b2\x7d".toList := by
  decide +kernel

end Pass

end NumericAnswer
