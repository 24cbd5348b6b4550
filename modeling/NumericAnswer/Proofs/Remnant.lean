/-
# Macros that are left

A pass declines a macro whose arguments are missing, and gives up at a group that is never
closed; either way the macro is still in the text when the pass is over. No later stage makes
such a text acceptable: the backslash of a fraction or a root stays, the sign of a subscript
stays, and a function stays right before the sign of its power, where the parser wants an
argument. It wants one as well where a group ends right after the function.

Key definitions: `Pass.Occurs`, `Stranded`, `Ahead`.
Key theorems: `Lexes.exists_function_stop`, `Outcome.exists_failure_of_occurs`.
-/
import NumericAnswer.Proofs.Acceptance
import NumericAnswer.Proofs.Literals
import NumericAnswer.Proofs.Stability

namespace NumericAnswer

/-- The pass finds a macro in the text. -/
def Pass.Occurs (pass : Pass) (s : Text) : Prop :=
  ∃ before c rest, s = before ++ c :: rest ∧ (pass.site? c rest).isSome = true

/-! ### Commands and subscripts -/

section Marks

variable {names : List Text} {s v : Text}

theorem Leftover.mono {names' : List Text} (hn : ∀ n ∈ names, n ∈ names') (h : Leftover names v) :
    Leftover names' v :=
  h.imp (fun ⟨n, hmem, hn'⟩ => ⟨n, hn n hmem, hn'⟩) id

theorem Marked.mono_property {d : Char} {K K' : Text → Prop} (h : Marked d K s)
    (hK : ∀ {v}, K v → K' v) : Marked d K' s := by
  obtain ⟨u, v, rfl, hv⟩ := h
  exact ⟨u, v, rfl, hK hv⟩

/-- A command that is left is a leftover. -/
theorem Pass.Occurs.marked {pass : Pass} {build : Text → Except Refusal (Text × Text)}
    (hp : ∀ c s, pass.site? c s = if c = '\\' && names.contains (leadingLetters s) then
      some (siteAt s (leadingLetters s).length build) else none)
    (hn : ∀ n ∈ names, IsName n) (h : pass.Occurs s) : Marked '\\' (Leftover names) s := by
  obtain ⟨before, c, rest, rfl, hsite⟩ := h
  rw [hp] at hsite
  split at hsite
  · next hc =>
    simp only [Bool.and_eq_true, decide_eq_true_eq, List.contains_eq_mem] at hc
    obtain ⟨rfl, hmem⟩ := hc
    exact ⟨before, rest, rfl, .inl ⟨_, hmem, hn _ hmem, List.takeWhile_prefix _⟩⟩
  · cases hsite

theorem Pass.Occurs.marked_subscript (h : Pass.logBase.Occurs s) : Marked '_' (fun _ => True) s := by
  obtain ⟨before, c, rest, rfl, hsite⟩ := h
  simp only [logBase, logBaseSite?] at hsite
  split at hsite
  · obtain ⟨site, hsite⟩ := Option.isSome_iff_exists.mp hsite
    obtain ⟨n, hn, _⟩ := Option.map_eq_some_iff.mp hsite
    obtain ⟨bl, _, hrest, _⟩ := eq_append_of_markLength? hn
    refine ⟨before ++ c :: (leadingLetters rest ++ bl),
      (rest.drop (leadingLetters rest).length).drop n, ?_, trivial⟩
    rw [List.append_assoc, List.cons_append, List.append_assoc, ← hrest,
      leadingLetters_append]
  · cases hsite

end Marks

/-! ### Functions without an argument -/

/-- What shows that a function before it has no argument: the sign of a power, or a bracket
that closes. -/
def stops : List Char :=
  ['^', '\x7d', ']']

/-- The text begins with a function right before the sign of a power or the end of a group. -/
def Stranded (v : Text) : Prop :=
  ∃ (f : UnaryFunction) (bl : Text) (c : Char) (w : Text), f ∈ UnaryFunction.commands ∧
    v = f.name.toList ++ (bl ++ c :: w) ∧ isAllBlank bl = true ∧ c ∈ stops

/-- The text does not end in a letter. -/
def EndsClear (u : Text) : Prop :=
  ∀ c ∈ u.getLast?, isAsciiLetter c = false

theorem EndsClear.of_cons {c : Char} {u : Text} (h : EndsClear (c :: u)) : EndsClear u := by
  intro d hd
  refine h d ?_
  rw [List.getLast?_cons, Option.mem_def.mp hd]
  rfl

theorem EndsClear.of_suffix {u w : Text} (h : EndsClear w) (hu : u <:+ w) : EndsClear u := by
  obtain ⟨p, rfl⟩ := hu
  induction p with
  | nil => exact h
  | cons c p ih => exact ih h.of_cons

theorem EndsClear.append {u w : Text} (h : EndsClear w) (hw : w ≠ []) : EndsClear (u ++ w) := by
  intro c hc
  rw [List.getLast?_append_of_ne_nil _ hw] at hc
  exact h c hc

/-- What starts and ends apart from letters does not lie within letters. -/
theorem EndsClear.length_lt {u v : Text} {n : Nat} (h : EndsClear u) (hu : u ≠ [])
    (hletters : ∀ c ∈ (u ++ v).take n, isAsciiLetter c = true) : n < u.length := by
  by_contra hle
  have hmem : u.getLast hu ∈ (u ++ v).take n := by
    rw [List.take_append]
    refine List.mem_append_left _ ?_
    rw [List.take_of_length_le (by omega)]
    exact List.getLast_mem hu
  have hlast := h _ (List.getLast?_eq_some_getLast hu)
  rw [hletters _ hmem] at hlast
  cases hlast

theorem UnaryFunction.name_letters (f : UnaryFunction) :
    ∃ c d t, f.name.toList = c :: d :: t ∧ isAsciiLetter c = true ∧ isAsciiLetter d = true := by
  cases f <;> exact ⟨_, _, _, rfl, by decide, by decide⟩

theorem Stranded.eq_cons {v : Text} (h : Stranded v) :
    ∃ c d r, v = c :: d :: r ∧ isAsciiLetter c = true ∧ isAsciiLetter d = true := by
  obtain ⟨f, bl, stop, w, -, rfl, -⟩ := h
  obtain ⟨c, d, t, ht, hc, hd⟩ := f.name_letters
  exact ⟨c, d, t ++ (bl ++ stop :: w), by rw [ht]; rfl, hc, hd⟩

/-- A function that is left is right before the sign of its power. -/
theorem Pass.Occurs.marked_stranded {s : Text} (h : Pass.functionPower.Occurs s) :
    Marked '\\' Stranded s := by
  obtain ⟨before, c, rest, rfl, hsite⟩ := h
  simp only [functionPower, functionPowerSite?] at hsite
  split at hsite
  · next hc =>
    subst hc
    obtain ⟨site, hsite⟩ := Option.isSome_iff_exists.mp hsite
    obtain ⟨f, hf, hmark⟩ := Option.bind_eq_some_iff.mp hsite
    obtain ⟨n, hn, _⟩ := Option.map_eq_some_iff.mp hmark
    obtain ⟨bl, hbl, hrest, _⟩ := eq_append_of_markLength? hn
    have hname : f.name.toList = leadingLetters rest := by simpa using List.find?_some hf
    refine ⟨before, rest, rfl, f, bl, '^', (rest.drop (leadingLetters rest).length).drop n,
      List.mem_of_find?_eq_some hf, ?_, hbl, List.mem_cons_self ..⟩
    rw [hname, ← hrest, leadingLetters_append]
  · cases hsite

theorem notMem_triggers_of_stop {bl : Text} (hbl : isAllBlank bl = true) {stop : Char}
    (hstop : stop ∈ stops) : ∀ c ∈ bl ++ [stop], c ∉ triggers := by
  have hstops : ∀ stop ∈ stops, stop ∉ triggers := forall_mem_of_all (by decide)
  simp only [List.mem_append, List.mem_singleton]
  rintro c (hc | rfl)
  · exact notMem_triggers_of_isBlank (List.all_eq_true.mp hbl c hc)
  · exact hstops c hstop

/-- No stage takes apart a function without an argument. -/
theorem Stranded.rewrites {strict : Bool} {stage : Stage} (hl : stage.Local) {b : Option Char}
    {v w : Text} (h : Stranded v) (hr : Rewrites strict stage b v w) : Stranded w := by
  obtain ⟨f, bl, stop, r, hf, rfl, hbl, hstop⟩ := h
  have hplain : ∀ c ∈ f.name.toList ++ (bl ++ [stop]), c ∉ triggers := fun c hc =>
    (List.mem_append.mp hc).elim (f.notMem_triggers c) (notMem_triggers_of_stop hbl hstop c)
  have hv : f.name.toList ++ (bl ++ stop :: r) = (f.name.toList ++ (bl ++ [stop])) ++ r := by simp
  rw [hv] at hr
  obtain ⟨_, t, rfl, _⟩ := hr.eq_append hl hplain
  exact ⟨f, bl, stop, t, hf, by simp, hbl, hstop⟩

/-! ### The function gets its name -/

theorem padded_eq_append {after : Option Char} {word : Text} (before : Option Char)
    (ha : after.any isAlphanumeric = false) (hw : word.head?.any isAlphanumeric = true) :
    ∃ gap, padded before after word = gap ++ word ∧ EndsClear (before.toList ++ gap) := by
  unfold padded
  simp only [ha, hw, Bool.and_true, Bool.false_and, Bool.false_eq_true, if_false]
  cases hb : before.any isAlphanumeric with
  | true => exact ⟨[' '], rfl, .append (by simp [EndsClear, isAsciiLetter]) (by simp)⟩
  | false =>
    refine ⟨[], rfl, ?_⟩
    cases before with
    | none =>
      intro c hc
      cases hc
    | some c =>
      intro d hd
      obtain rfl : c = d := by simpa using hd
      exact isAsciiLetter_of_isAlphanumeric (by simpa using hb)

theorem exists_cons_of_stop {bl w : Text} (hbl : isAllBlank bl = true) {stop : Char}
    (hstop : stop ∈ stops) : ∃ c l, bl ++ stop :: w = c :: l ∧ isAlphanumeric c = false := by
  have hstops : ∀ stop ∈ stops, isAlphanumeric stop = false :=
    forall_mem_of_all (by decide +kernel)
  cases bl with
  | nil => exact ⟨stop, w, rfl, hstops stop hstop⟩
  | cons c bl =>
    simp only [isAllBlank, List.all_cons, Bool.and_eq_true] at hbl
    exact ⟨c, _, rfl, isAlphanumeric_of_isBlank hbl.1⟩

theorem Stage.exists_of_step_substitution {rule : Option Char → Rule}
    {ended : Char → Text → Bool} {b b' : Option Char} {c : Char} {s out rest : Text}
    (h : Stage.substitution rule ended b c s = .step out b' rest) :
    ∃ n, rule b c s = some (out, n) ∧ b' = (c :: s.take n).getLast? ∧ rest = s.drop n := by
  unfold Stage.substitution at h
  split at h
  · next r n hs =>
    obtain ⟨rfl, rfl, rfl⟩ := Found.step.inj h
    exact ⟨n, hs, rfl, rfl⟩
  · split at h <;> cases h

section Name

variable {strict : Bool} {b : Option Char} {s t u v : Text}

theorem local_functionName : (Stage.wording Rule.functionName).Local :=
  Canonical.local_of_mem_wordStages _ (by simp [Canonical.wordStages])

/-- After the command of a function stands a letter, the last of its name. -/
theorem Stage.exists_letter_of_step_functionName {b' : Option Char} {c : Char} {out rest : Text}
    (h : Stage.wording Rule.functionName b c s = .step out b' rest) :
    ∃ d, b' = some d ∧ isAsciiLetter d = true := by
  obtain ⟨n, hrule, hb, -⟩ := exists_of_step_substitution h
  obtain ⟨⟨name, n'⟩, hfound, heq⟩ := Option.map_eq_some_iff.mp hrule
  obtain ⟨-, rfl⟩ := Prod.mk.inj heq
  unfold Rule.functionName at hfound
  split at hfound
  · obtain ⟨f, hf, he⟩ := Option.map_eq_some_iff.mp hfound
    obtain ⟨-, rfl⟩ := Prod.mk.inj he
    have hname : f.name.toList = leadingLetters s := by simpa using List.find?_some hf
    rw [take_leadingLetters, ← hname, List.getLast?_cons_of_ne_nil f.isName.1] at hb
    have hlast := List.getLast?_eq_some_getLast f.isName.1
    exact ⟨_, hb.trans hlast, f.isName.2 _ (List.getLast_mem f.isName.1)⟩
  · cases hfound

/-- The command of a function without an argument becomes its name, apart from a letter
before it. -/
theorem Rewrites.stranded_of_command (h : Rewrites strict (.wording Rule.functionName) b
    ('\\' :: v) t) (hv : Stranded v) :
    ∃ gap v', t = gap ++ v' ∧ EndsClear (b.toList ++ gap) ∧ Stranded v' := by
  obtain ⟨f, bl, stop, w, hf, rfl, hbl, hstop⟩ := hv
  obtain ⟨c, l, hcons, hc⟩ := exists_cons_of_stop (w := w) hbl hstop
  rw [hcons] at h
  obtain ⟨t', rfl, ht'⟩ := h.of_step
    (Stage.step_functionName hf (isAsciiLetter_of_isAlphanumeric hc) b l)
  have hname : f.name.toList.head?.any isAlphanumeric = true := by cases f <;> decide +kernel
  obtain ⟨gap, hgap, hends⟩ := @padded_eq_append (some c) _ b hc hname
  have hsplit : c :: l = (bl ++ [stop]) ++ w := by rw [← hcons]; simp
  rw [hsplit] at ht'
  obtain ⟨_, w', rfl, -⟩ := ht'.eq_append local_functionName (notMem_triggers_of_stop hbl hstop)
  exact ⟨gap, _, by rw [hgap, List.append_assoc], hends, f, bl, stop, w', hf, by simp, hbl, hstop⟩

/-- It does so wherever it stands. -/
theorem Rewrites.stranded_functionName (h : Rewrites strict (.wording Rule.functionName) b s t) :
    Marked '\\' Stranded s →
      ∃ u' v', t = u' ++ v' ∧ EndsClear (b.toList ++ u') ∧ Stranded v' := by
  -- What comes before the command, letter or not, is the end of what stays before its name.
  have hcons : ∀ {b : Option Char} {c : Char} {t : Text},
      (∃ u' v', t = u' ++ v' ∧ EndsClear ([c] ++ u') ∧ Stranded v') →
      ∃ u' v', c :: t = u' ++ v' ∧ EndsClear (b.toList ++ u') ∧ Stranded v' := by
    rintro b c t ⟨u', v', rfl, hu, hv⟩
    exact ⟨c :: u', v', rfl, .append hu (List.cons_ne_nil _ _), hv⟩
  induction h with
  | nil => exact fun hm => absurd hm.mem List.not_mem_nil
  | @keep b c s t hfound ht ih =>
    intro hm
    rcases marked_cons hm with ⟨rfl, hv⟩ | hm
    · exact (Rewrites.keep hfound ht).stranded_of_command hv
    · exact hcons (ih hm)
  | @move b b' c s out rest t hfound ht ih =>
    intro hm
    rcases marked_cons hm with ⟨rfl, hv⟩ | hm
    · exact (Rewrites.move hfound ht).stranded_of_command hv
    · obtain ⟨u', v', rfl, hu, hv⟩ := ih
        (marked_of_step_substitution Rule.readsLetters_functionName.apart (by decide) hfound hm)
      obtain ⟨d, rfl, hd⟩ := Stage.exists_letter_of_step_functionName hfound
      have hne : u' ≠ [] := by
        rintro rfl
        exact absurd (hu d (by simp)) (by simp [hd])
      refine ⟨out ++ u', v', by simp, ?_, hv⟩
      rw [← List.append_assoc]
      exact (hu.of_suffix (List.suffix_append _ _)).append hne
  | @leave b c s t hl hfound ht ih =>
    intro hm
    rcases marked_cons hm with ⟨rfl, hv⟩ | hm
    · exact (Rewrites.leave hl hfound ht).stranded_of_command hv
    · exact hcons (ih hm)
  | quit _ hfound => exact absurd hfound Stage.substitution_ne_unclosed

end Name

/-! ### Signs and constants -/

/-- The rule writes something, takes no name of a function for one of its own and takes in
nothing after a glyph. -/
structure Rule.Parts (rule : Rule) : Prop where
  reads : rule.ReadsLetters
  ne_nil {c : Char} {s out : Text} {n : Nat} (h : rule c s = some (out, n)) : out ≠ []
  command {v : Text} (hv : Stranded v) : rule '\\' v = none
  glyph {c : Char} {s out : Text} {n : Nat} (h : rule c s = some (out, n)) (hc : c ≠ '\\') : n = 0

/-- What the rule writes stays clear of a letter after it. -/
def Rule.Clear (rule : Rule) : Prop :=
  ∀ {c : Char} {s out : Text} {n : Nat}, rule c s = some (out, n) →
    EndsClear out ∨ (s.drop n).head?.any isAsciiLetter = false

/-- A function without an argument in a text, clear of letters. -/
def Ahead (u v : Text) : Prop :=
  EndsClear u ∧ Stranded v

/-- A function without an argument stays clear of letters where the second text is made of
the first one. -/
def KeepsAhead (s t : Text) : Prop :=
  ∀ u v, s = u ++ v → Ahead u v → ∃ u' v', t = u' ++ v' ∧ Ahead u' v' ∧ (u' = [] ↔ u = [])

section KeepsAhead

variable {c : Char} {s t : Text}

theorem KeepsAhead.nil : KeepsAhead [] t := by
  intro u v hs h
  obtain ⟨-, hv⟩ := h
  obtain ⟨c, d, r, rfl, -⟩ := hv.eq_cons
  exact absurd hs (by simp)

theorem KeepsAhead.cons (h : KeepsAhead s t) (hfront : Stranded (c :: s) → Stranded (c :: t)) :
    KeepsAhead (c :: s) (c :: t) := by
  intro u v hs h'
  obtain ⟨hu, hv⟩ := h'
  cases u with
  | nil =>
    rw [List.nil_append] at hs
    subst hs
    exact ⟨[], _, rfl, ⟨hu, hfront hv⟩, Iff.rfl⟩
  | cons d u =>
    rw [List.cons_append] at hs
    obtain ⟨rfl, rfl⟩ := List.cons.inj hs
    obtain ⟨u', v', rfl, ⟨hu', hv'⟩, hnil⟩ := h u v rfl ⟨hu.of_cons, hv⟩
    refine ⟨c :: u', v', rfl, ⟨?_, hv'⟩, by simp⟩
    by_cases hu'' : u' = []
    · rwa [hu'', ← hnil.mp hu'']
    · exact hu'.append (u := [c]) hu''

/-- What stands before the function is replaced, and stays clear of its letters. -/
theorem KeepsAhead.replace {out : Text} {n : Nat} (h : KeepsAhead (s.drop n) t) (hne : out ≠ [])
    (hc : isAsciiLetter c = false) (hn : ∀ {u v}, s = u ++ v → Ahead (c :: u) v → n ≤ u.length)
    (hclear : EndsClear out ∨ (s.drop n).head?.any isAsciiLetter = false) :
    KeepsAhead (c :: s) (out ++ t) := by
  intro u v hs h'
  obtain ⟨hu, hv⟩ := h'
  obtain ⟨d, e, r, hcons, hd, -⟩ := hv.eq_cons
  cases u with
  | nil =>
    rw [List.nil_append, hcons] at hs
    obtain ⟨rfl, -⟩ := List.cons.inj hs
    exact absurd (hd.symm.trans hc) (by decide)
  | cons f u =>
    rw [List.cons_append] at hs
    obtain ⟨rfl, rfl⟩ := List.cons.inj hs
    have hdrop : (u ++ v).drop n = u.drop n ++ v :=
      drop_append_of_length_le (hn rfl ⟨hu, hv⟩) v
    obtain ⟨u', v', rfl, ⟨hu', hv'⟩, hnil⟩ := h _ _ hdrop
      ⟨hu.of_cons.of_suffix (List.drop_suffix n u), hv⟩
    refine ⟨out ++ u', v', by simp, ⟨?_, hv'⟩, by simp [hne]⟩
    by_cases hu'' : u' = []
    · rw [hdrop, hnil.mp hu'', hcons] at hclear
      rw [hu'', List.append_nil]
      exact hclear.resolve_right (by simp [hd])
    · exact hu'.append hu''

end KeepsAhead

/-- A stage of signs or constants leaves a function without an argument clear of letters. -/
theorem Rewrites.keepsAhead {strict : Bool} {rule : Option Char → Rule}
    {ended : Char → Text → Bool} (hl : (Stage.substitution rule ended).Local)
    (hr : ∀ b, (rule b).Parts) (hclear : ∀ b, (rule b).Clear) {b : Option Char} {s t : Text}
    (h : Rewrites strict (.substitution rule ended) b s t) : KeepsAhead s t := by
  induction h with
  | nil => exact .nil
  | keep hfound ht ih => exact ih.cons fun hv => hv.rewrites hl (.keep hfound ht)
  | leave hlenient hfound ht ih => exact ih.cons fun hv => hv.rewrites hl (.leave hlenient hfound ht)
  | @move b b' c s out rest t hfound ht ih =>
    obtain ⟨n, hrule, -, rfl⟩ := Stage.exists_of_step_substitution hfound
    have hc : isAsciiLetter c = false := by
      by_contra hletter
      have hplain := hl.plain b s (isAsciiLetter_notMem_triggers (Bool.not_eq_false _ ▸ hletter))
      exact absurd (hfound.symm.trans hplain) (by simp)
    -- What the rule takes in are letters, and the text before the function ends in none.
    refine ih.replace ((hr b).ne_nil hrule) hc (fun {u v} hs h => ?_) (hclear b hrule)
    subst hs
    cases u with
    | cons e u =>
      exact (h.1.of_cons.length_lt (List.cons_ne_nil e u) ((hr b).reads hrule)).le
    | nil =>
      by_cases hc : c = '\\'
      · subst hc
        exact absurd (((hr b).command h.2).symm.trans hrule) (by simp)
      · exact ((hr b).glyph hrule hc).le
  | quit _ hfound => exact absurd hfound Stage.substitution_ne_unclosed

theorem isAsciiLetter_of_any {a : Option Char} (h : a.any isAlphanumeric = false) :
    a.any isAsciiLetter = false := by
  cases a with
  | none => rfl
  | some c => exact isAsciiLetter_of_isAlphanumeric h

theorem padded_ne_nil {before after : Option Char} {word : Text} (hw : word ≠ []) :
    padded before after word ≠ [] := by
  unfold padded
  simp only
  split <;> split <;> simp [hw]

/-- A word with its space is clear of the letter after it. -/
theorem padded_clear (before after : Option Char) (word : Text) :
    EndsClear (padded before after word) ∨ after.any isAsciiLetter = false := by
  unfold padded
  simp only
  generalize (if before.any isAlphanumeric && word.head?.any isAlphanumeric then
    ' ' :: word else word) = lead
  split
  · exact .inl (.append (by simp [EndsClear, isAsciiLetter]) (by simp))
  · next h =>
    simp only [Bool.and_eq_true, not_and_or, Bool.not_eq_true] at h
    rcases h with h | h
    · exact .inr (isAsciiLetter_of_any h)
    · refine .inl fun c hc => ?_
      rw [Option.mem_def.mp hc] at h
      exact isAsciiLetter_of_isAlphanumeric h

theorem Stranded.leadingLetters {v : Text} (h : Stranded v) :
    ∃ f ∈ UnaryFunction.commands, leadingLetters v = f.name.toList := by
  obtain ⟨f, bl, stop, w, hf, rfl, hbl, hstop⟩ := h
  obtain ⟨c, l, hcons, hc⟩ := exists_cons_of_stop (w := w) hbl hstop
  rw [hcons]
  exact ⟨f, hf, leadingLetters_name_append f.isName (isAsciiLetter_of_isAlphanumeric hc) l⟩

namespace Rule

theorem Parts.apart {rule : Rule} (h : rule.Parts) (b : Option Char) : (rule.apart b).Parts where
  reads := ReadsLetters.apart h.reads b
  ne_nil := by
    intro c s out n hs
    obtain ⟨⟨word, n'⟩, hw, he⟩ := Option.map_eq_some_iff.mp hs
    obtain ⟨rfl, rfl⟩ := Prod.mk.inj he
    exact padded_ne_nil (h.ne_nil hw)
  command hv := by simp [Rule.apart, h.command hv]
  glyph := by
    intro c s out n hs hc
    obtain ⟨⟨word, n'⟩, hw, he⟩ := Option.map_eq_some_iff.mp hs
    obtain ⟨-, rfl⟩ := Prod.mk.inj he
    exact h.glyph hw hc

theorem clear_apart (rule : Rule) (b : Option Char) : (rule.apart b).Clear := by
  intro c s out n hs
  obtain ⟨⟨word, n'⟩, hw, he⟩ := Option.map_eq_some_iff.mp hs
  obtain ⟨rfl, rfl⟩ := Prod.mk.inj he
  exact padded_clear _ _ _

/-- What the rule finds is a glyph or one of four commands, and it writes a sign. -/
theorem cases_sign {c : Char} {s out : Text} {n : Nat} (h : sign c s = some (out, n)) :
    (∃ d ∈ ['*', '/', '-'], out = [d]) ∧ (c ≠ '\\' → n = 0) ∧
      (c = '\\' → leadingLetters s ∈ ["times".toList, "cdot".toList, "ast".toList, "div".toList]) := by
  unfold sign at h
  simp only at h
  split at h
  · next hc =>
    obtain ⟨rfl, rfl⟩ := Prod.mk.inj (Option.some.inj h)
    exact ⟨⟨'*', by simp, rfl⟩, fun _ => rfl, by rintro rfl; exact absurd hc (by decide)⟩
  · split at h
    · next hc =>
      obtain ⟨rfl, rfl⟩ := Prod.mk.inj (Option.some.inj h)
      exact ⟨⟨'/', by simp, rfl⟩, fun _ => rfl, by rintro rfl; exact absurd hc (by decide)⟩
    · split at h
      · next hc =>
        obtain ⟨rfl, rfl⟩ := Prod.mk.inj (Option.some.inj h)
        exact ⟨⟨'-', by simp, rfl⟩, fun _ => rfl, by rintro rfl; exact absurd hc (by decide)⟩
      · split at h
        · next hc =>
          split at h
          · next hname =>
            obtain ⟨rfl, rfl⟩ := Prod.mk.inj (Option.some.inj h)
            refine ⟨⟨'*', by simp, rfl⟩, absurd hc, fun _ => ?_⟩
            simp only [List.contains_eq_mem, decide_eq_true_eq, List.mem_cons, List.not_mem_nil,
              or_false] at hname ⊢
            tauto
          · split at h
            · next hname =>
              obtain ⟨rfl, rfl⟩ := Prod.mk.inj (Option.some.inj h)
              exact ⟨⟨'/', by simp, rfl⟩, absurd hc, fun _ => by simp [hname]⟩
            · cases h
        · cases h

theorem parts_sign : sign.Parts where
  reads := readsLetters_sign
  ne_nil h := by
    obtain ⟨⟨d, -, rfl⟩, -⟩ := cases_sign h
    exact List.cons_ne_nil _ _
  command := by
    intro v hv
    obtain ⟨f, hf, hl⟩ := hv.leadingLetters
    have hforeign : ∀ f ∈ UnaryFunction.commands,
        f.name.toList ∉ ["times".toList, "cdot".toList, "ast".toList, "div".toList] := by decide
    cases hs : sign '\\' v with
    | none => rfl
    | some found => exact absurd (hl ▸ (cases_sign hs).2.2 rfl) (hforeign f hf)
  glyph h := (cases_sign h).2.1

theorem clear_sign : sign.Clear := by
  intro c s out n h
  obtain ⟨⟨d, hd, rfl⟩, -⟩ := cases_sign h
  have hsigns : ∀ d ∈ ['*', '/', '-'], isAsciiLetter d = false := forall_mem_of_all (by decide)
  refine .inl fun e he => ?_
  obtain rfl : d = e := by simpa using he
  exact hsigns d hd

/-- A rule for one command puts a word in its place. -/
theorem parts_command {name word : Text} (hw : word ≠ [])
    (hn : ∀ f ∈ UnaryFunction.commands, f.name.toList ≠ name) :
    (command [name] fun length _ => some (word, length)).Parts where
  reads := readsLetters_command
  ne_nil h := by
    simp only [Rule.command] at h
    split at h
    · obtain ⟨rfl, -⟩ := Prod.mk.inj (Option.some.inj h)
      exact hw
    · cases h
  command := by
    intro v hv
    obtain ⟨f, hf, hl⟩ := hv.leadingLetters
    simp [Rule.command, hl, hn f hf]
  glyph h hc := by simp [Rule.command, hc] at h

theorem parts_e : e.Parts :=
  parts_command (by decide) (by decide)

theorem parts_pi : pi.Parts := by
  have hcommand := @parts_command "pi".toList "pi".toList (by decide) (by decide)
  have hcases : ∀ {c s out n}, pi c s = some (out, n) → c = 'π' ∧ out = "pi".toList ∧ n = 0 ∨
      command ["pi".toList] (fun length _ => some ("pi".toList, length)) c s = some (out, n) := by
    intro c s out n h
    unfold pi at h
    split at h
    · next hc =>
      obtain ⟨rfl, rfl⟩ := Prod.mk.inj (Option.some.inj h)
      exact .inl ⟨hc, rfl, rfl⟩
    · exact .inr h
  exact {
    reads := readsLetters_pi
    ne_nil := fun h => (hcases h).elim (fun h => by simp [h.2.1]) hcommand.ne_nil
    command := fun hv => by rw [pi, if_neg (by decide), hcommand.command hv]
    glyph := fun h hc => (hcases h).elim (fun h => h.2.2) fun h => hcommand.glyph h hc }

end Rule

namespace Canonical

/-- The stages after the names of functions leave a function without an argument clear of
letters. -/
theorem exists_ahead_of_chain {s t : Text} (h : Chain false wordStages s t)
    (hs : Marked '\\' Stranded s) : ∃ u v, t = u ++ v ∧ Ahead u v := by
  have hl := local_of_mem_wordStages
  simp only [wordStages, List.forall_mem_cons] at hl
  obtain ⟨s₁, h₁, s₂, h₂, s₃, h₃, s₄, h₄, rfl⟩ := h
  obtain ⟨u₁, v₁, rfl, hu₁, hv₁⟩ := h₁.stranded_functionName hs
  obtain ⟨u₂, v₂, rfl, ha₂, -⟩ := h₂.keepsAhead hl.2.1 (fun _ => Rule.parts_sign)
    (fun _ => Rule.clear_sign) _ _ rfl ⟨hu₁, hv₁⟩
  obtain ⟨u₃, v₃, rfl, ha₃, -⟩ := h₃.keepsAhead hl.2.2.1 Rule.parts_pi.apart
    (Rule.clear_apart _) _ _ rfl ha₂
  obtain ⟨u₄, v₄, rfl, ha₄, -⟩ := h₄.keepsAhead hl.2.2.2.1 Rule.parts_e.apart
    (Rule.clear_apart _) _ _ rfl ha₃
  exact ⟨u₄, v₄, rfl, ha₄⟩

end Canonical

/-! ### Bars -/

section Bars

variable {before : Text} {marks : List Opened} {lastOpened : Bool} {s t : Text}

theorem Stranded.of_barsPair {v w : Text} (hv : Stranded v)
    (h : BarsPair before marks lastOpened v w) : Stranded w := by
  obtain ⟨f, bl, stop, r, hf, rfl, hbl, hstop⟩ := hv
  have hbar : '|' ∉ f.name.toList ++ (bl ++ [stop]) := by
    simp only [List.mem_append, List.mem_singleton, not_or]
    refine ⟨f.bar_notMem, fun hm => ?_, ?_⟩
    · exact absurd (List.all_eq_true.mp hbl _ hm) (by decide)
    · rintro rfl
      exact absurd hstop (by decide)
  have hsplit : f.name.toList ++ (bl ++ stop :: r) = (f.name.toList ++ (bl ++ [stop])) ++ r := by simp
  rw [hsplit] at h
  obtain ⟨t', rfl⟩ := h.eq_append hbar
  exact ⟨f, bl, stop, t', hf, by simp, hbl, hstop⟩

/-- A function without an argument stays clear of letters when the bars are expanded. -/
theorem BarsPair.keepsAhead (h : BarsPair before marks lastOpened s t) : KeepsAhead s t := by
  induction h with
  | nil => exact .nil
  | opening b h ih => exact ih.cons fun hv => hv.of_barsPair (.opening b h)
  | closing b h ih => exact ih.cons fun hv => hv.of_barsPair (.closing b h)
  | opens hm h ih =>
    exact KeepsAhead.replace (n := 0) ih (by decide) (by decide) (fun _ _ => Nat.zero_le _)
      (.inl (by unfold EndsClear; simp [isAsciiLetter]))
  | closes hb h ih =>
    change KeepsAhead _ ([')'] ++ _)
    exact KeepsAhead.replace (n := 0) ih (by decide) (by decide) (fun _ _ => Nat.zero_le _)
      (.inl (by simp [EndsClear, isAsciiLetter]))
  | other hc hb h ih => exact ih.cons fun hv => hv.of_barsPair (.other hc hb h)

end Bars

/-! ### What the lexer sees -/

section Lexes

variable {u v s : Text}

/-- A lexeme that starts before a function ends before it. -/
theorem Ahead.length_lexeme_le {c : Char} (h : Ahead (c :: u) v) (hc : c ≠ '\\') :
    (lexeme c (u ++ v)).2 ≤ u.length := by
  obtain ⟨hu, hv⟩ := h
  obtain ⟨d, e, r, rfl, hd, he⟩ := hv.eq_cons
  unfold lexeme
  split
  · next literal rest hread =>
    -- Otherwise the literal takes in the first letter of the function, and no second one.
    by_contra hlong
    obtain ⟨m, hm⟩ : ∃ m, literal.text.length - 1 = u.length + (m + 1) :=
      ⟨literal.text.length - 1 - u.length - 1, by omega⟩
    have htext := (Literal.text_eq_cons hread).1
    rw [hm, List.take_length_add_append, List.take_succ_cons] at htext
    obtain ⟨e', q', hq, hletter⟩ :=
      (Literal.formed_of_read? hread).1.not_letter_after (p := c :: u) htext hd
    cases m with
    | zero => cases hq
    | succ m =>
      obtain ⟨rfl, -⟩ := List.cons.inj hq
      exact absurd (he.symm.trans hletter) (by decide)
  · split
    · next hletter =>
      cases u with
      | nil => exact absurd ((hu c rfl).symm.trans hletter) (by decide)
      | cons b u =>
        refine (hu.of_cons.length_lt (v := d :: e :: r) (List.cons_ne_nil b u) ?_).le
        rw [take_length_takeWhile]
        exact List.all_eq_true.mp List.all_takeWhile
    · simp

/-- The function is one of the symbols, right before the one of its stop. -/
theorem Lexes.exists_function_stop {afterNumber : Bool} {us : List (Symbol × Bool)}
    (h : Lexes afterNumber s us) (hs : '\\' ∉ s) :
    ∀ {u v}, s = u ++ v → Ahead u v → ∃ f, ∃ stop ∈ stops, ∃ vs ws,
      us = vs ++ (.word (.unary f), false) :: (.ofSign stop, false) :: ws := by
  have hfront : ∀ {afterNumber : Bool} {v : Text} {us : List (Symbol × Bool)},
      Lexes afterNumber v us → Stranded v → ∃ f, ∃ stop ∈ stops, ∃ vs ws,
        us = vs ++ (.word (.unary f), false) :: (.ofSign stop, false) :: ws := by
    have hsigns : ∀ stop ∈ stops, IsSign stop := forall_mem_of_all (by decide)
    rintro afterNumber _ us h ⟨f, bl, stop, w, -, rfl, hbl, hstop⟩
    obtain ⟨c, l, hcons, hc⟩ := exists_cons_of_stop (w := w) hbl hstop
    obtain ⟨us', rfl, hrest⟩ := Lexes.of_word (.unary f)
      (by rw [hcons]; exact isAsciiLetter_of_isAlphanumeric hc) h
    obtain ⟨ws, rfl, -⟩ := Lexes.of_sign (hsigns stop hstop) (hrest.of_blanks_append hbl)
    exact ⟨f, stop, hstop, [], ws, rfl⟩
  induction h with
  | nil =>
    intro u v hs h
    obtain ⟨c, d, r, rfl, -⟩ := h.2.eq_cons
    exact absurd hs (by simp)
  | @blank afterNumber c s us hb hrest ih =>
    intro u v hv h
    cases u with
    | nil =>
      rw [List.nil_append] at hv
      subst hv
      exact hfront (.blank hb hrest) h.2
    | cons d u =>
      rw [List.cons_append] at hv
      obtain ⟨rfl, rfl⟩ := List.cons.inj hv
      exact ih (fun hm => hs (List.mem_cons_of_mem _ hm)) rfl ⟨h.1.of_cons, h.2⟩
  | @step c s us afterNumber hb hp hrest ih =>
    intro u v hv h
    cases u with
    | nil =>
      rw [List.nil_append] at hv
      subst hv
      exact hfront (.step afterNumber hb hp hrest) h.2
    | cons d u =>
      rw [List.cons_append] at hv
      obtain ⟨rfl, rfl⟩ := List.cons.inj hv
      obtain ⟨hc, hs⟩ := List.ne_and_not_mem_of_not_mem_cons hs
      obtain ⟨f, stop, hstop, vs, ws, rfl⟩ := ih (fun hm => hs (List.mem_of_mem_drop hm))
        (drop_append_of_length_le (h.length_lexeme_le hc.symm) v)
        ⟨h.1.of_cons.of_suffix (List.drop_suffix _ u), h.2⟩
      exact ⟨f, stop, hstop, _ ++ vs, ws, by rw [List.append_assoc]⟩

end Lexes

/-! ### Answers -/

/-- A function right before the sign of a power or the end of a group is not read. -/
theorem Nesting.run_function_stop (n : Nesting) (f : UnaryFunction) {stop : Char}
    (hstop : stop ∈ stops) (vs ws : List Symbol) :
    n.run (vs ++ .word (.unary f) :: .ofSign stop :: ws) = none := by
  have hread : ∀ k : Nesting, (⟨k.opened, true⟩ : Nesting).read (.ofSign stop) = none := by
    simp only [stops, List.mem_cons, List.not_mem_nil, or_false] at hstop
    rcases hstop with rfl | rfl | rfl
    · exact fun _ => rfl
    · exact fun _ => if_neg fun h => Bool.noConfusion h.2
    · exact fun _ => if_neg fun h => Bool.noConfusion h.2
  rw [run_append]
  cases n.run vs with
  | none => rfl
  | some k =>
    rw [Option.bind_some, run_cons]
    show (Nesting.run ⟨k.opened, true⟩ (.ofSign stop :: ws)) = none
    rw [run_cons, hread]
    rfl

/-- What the parser accepts is free of whatever makes sure that it fails. -/
theorem Canonical.not_parse_of_remnant {u t : Text} {calls : Nat} {x : Expr}
    (hwords : Chain false wordStages u t) (h : Expr.parseWithin calls (collapse (expandBars t)) = .ok x) :
    '\\' ∉ t ∧ '_' ∉ t ∧ ¬Marked '\\' Stranded u := by
  obtain ⟨ts, hlexes, hrun, -⟩ := Expr.exists_lexes_of_parseWithin h
  have hlexes := hlexes.respaced (hlexes.notMem_of_run hrun '\\' (by simp)) (words_collapse _)
  have hno := hlexes.notMem_of_run hrun
  have hbars := BarsPair.of_expandBars (hno '|' (by simp)) (hlexes.nest hrun)
  refine ⟨fun hm => hno '\\' (by simp) (hbars.mem (by decide) hm),
    fun hm => hno '_' (by simp) (hbars.mem (by decide) hm), fun hm => ?_⟩
  obtain ⟨u', v', hahead, ha⟩ := exists_ahead_of_chain hwords hm
  obtain ⟨u'', v'', heq, ha, -⟩ := hbars.keepsAhead _ _ hahead ha
  obtain ⟨f, stop, hstop, vs, ws, hus⟩ := hlexes.exists_function_stop (hno '\\' (by simp)) heq ha
  rw [hus, List.map_append, List.map_cons, List.map_cons, Nesting.run_function_stop _ _ hstop] at hrun
  cases hrun

namespace Canonical

variable {s t : Text}

/-- The stages from the bases of logarithms on. -/
theorem chain_late (hwords : Chain false wordStages
    (Pass.functionPower.run (Pass.logBase.run s).1).1 t) :
    Chain false ([.strictPass .logBase, .functionPower] ++ wordStages) s t :=
  Chain.append.mpr ⟨_, ⟨_, rewrites_run _ _ _, _, rewrites_run _ _ _, rfl⟩, hwords⟩

theorem mem_of_occurs_root (h : Pass.root.Occurs s) (hwords : Chain false wordStages
    (Pass.functionPower.run (Pass.logBase.run s).1).1 t) : '\\' ∈ t := by
  have hm : Marked '\\' (Leftover leftoverNames) s :=
    (h.marked Stage.site_root (by decide)).mono_property (Leftover.mono (by decide))

  exact ((chain_late hwords).marked spares_leftover_late hm).mem

theorem mem_of_occurs_fraction (h : Pass.fraction.Occurs s) (hwords : Chain false wordStages
    (Pass.functionPower.run (Pass.logBase.run (Pass.root.run s).1).1).1 t) : '\\' ∈ t := by
  have hm := h.marked (fun _ _ => rfl) (by decide)
  have hm : Marked '\\' (Leftover leftoverNames) _ :=
    (Stage.spares_leftover_root (rewrites_run .root _ s) hm).mono_property
      (Leftover.mono (by decide))
  exact ((chain_late hwords).marked spares_leftover_late hm).mem

theorem mem_of_occurs_logBase (h : Pass.logBase.Occurs s) (hwords : Chain false wordStages
    (Pass.functionPower.run s).1 t) : '_' ∈ t := by
  have hchain : Chain false (.functionPower :: wordStages) s t := ⟨_, rewrites_run _ _ _, hwords⟩
  exact (hchain.marked spares_subscript h.marked_subscript).mem

end Canonical

namespace Outcome

variable [MathLibrary]

/-- An answer has no value if the passes leave a function without an argument, or the stages
after them a backslash or the sign of a subscript. -/
theorem exists_failure_of_remnant {answer : Text} (h : ∀ t, Chain false Canonical.wordStages
      (Canonical.afterPasses Canonical.passes (Canonical.simplified answer)).1 t →
    '\\' ∈ t ∨ '_' ∈ t ∨
      Marked '\\' Stranded (Canonical.afterPasses Canonical.passes (Canonical.simplified answer)).1) :
    ∃ fault expression, ofAnswer (some answer) = failure fault expression := by
  show ∃ fault expression, ofText answer = failure fault expression
  cases hanswer : ofText answer with
  | failure fault expression => exact ⟨fault, expression, rfl⟩
  | success value expression =>
    obtain ⟨_, hvalue⟩ := eq_canonical_of_success hanswer
    obtain ⟨x, hparse⟩ := exists_parse_of_evaluateCanonical hvalue
    obtain ⟨t, hwords, hplain⟩ := Canonical.exists_chain_plain
      (Canonical.afterPasses Canonical.passes (Canonical.simplified answer)).1
    rw [canonical, hplain] at hparse
    obtain ⟨hbackslash, hsubscript, hstranded⟩ := Canonical.not_parse_of_remnant hwords hparse
    rcases h t hwords with hm | hm | hm
    · exact absurd hm hbackslash
    · exact absurd hm hsubscript
    · exact absurd hm hstranded

/-- If a pass ends with one of its macros in the text, declined or behind a group that is never
closed, the answer has no value. -/
theorem exists_failure_of_occurs {answer : Text} {done later : List Pass} {pass : Pass}
    (hp : Canonical.passes = done ++ pass :: later)
    (h : pass.Occurs (Canonical.afterPasses (done ++ [pass]) (Canonical.simplified answer)).1) :
    ∃ fault expression, ofAnswer (some answer) = failure fault expression := by
  refine exists_failure_of_remnant fun t hwords => ?_
  rw [Canonical.afterPasses_eq] at hwords ⊢
  rcases done with _ | ⟨p₁, _ | ⟨p₂, _ | ⟨p₃, _ | ⟨p₄, done⟩⟩⟩⟩ <;>
    simp only [Canonical.passes, List.nil_append, List.cons_append, List.cons.injEq] at hp
  · obtain ⟨rfl, -⟩ := hp
    exact .inl (Canonical.mem_of_occurs_fraction h hwords)
  · obtain ⟨rfl, rfl, -⟩ := hp
    exact .inl (Canonical.mem_of_occurs_root h hwords)
  · obtain ⟨rfl, rfl, rfl, -⟩ := hp
    exact .inr (.inl (Canonical.mem_of_occurs_logBase h hwords))
  · obtain ⟨rfl, rfl, rfl, rfl, -⟩ := hp
    exact .inr (.inr h.marked_stranded)
  · exact absurd hp.2.2.2.2 (by simp)

omit [MathLibrary] in
/-- A negative power between a function and its argument, and a fraction whose denominator is
never closed, with a fraction in it. -/
theorem exists_failure_of_occurs_declined :
    (∃ fault expression, @ofAnswer .native (some "\\sin^\x7b-1\x7d\x7b1\x7d".toList) =
      failure fault expression) ∧
    ∃ fault expression, @ofAnswer .native
      (some "\\frac\x7b1\x7d\x7b2+\\frac\x7b3\x7d\x7b4\x7d".toList) = failure fault expression := by
  constructor
  · refine @exists_failure_of_occurs .native _ [.fraction, .root, .logBase] [] .functionPower rfl
      ⟨[], '\\', "sin^\x7b-1\x7d\x7b1\x7d".toList, ?_, ?_⟩
    all_goals decide +kernel
  · refine @exists_failure_of_occurs .native _ [] [.root, .logBase, .functionPower] .fraction rfl
      ⟨"\\frac\x7b1\x7d\x7b2+".toList, '\\', "frac\x7b3\x7d\x7b4\x7d".toList, ?_, ?_⟩
    all_goals decide +kernel

end Outcome

end NumericAnswer
