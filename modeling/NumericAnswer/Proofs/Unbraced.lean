/-
# Arguments without braces

The argument of a function's power may stand without braces: a group in other brackets, or
a number. The pass for powers moves the exponent behind the argument and puts the argument
in braces, and what it makes stands for the same expression as the power with braces around
the call. Of a number the pass reads less than the lexer does: it stops before a power of ten
and before a point at the end. A group that holds two arguments does not fit in braces.

Key definitions: `Literal.Bare`, `Unbraced`, `Unbraced.ahead`, `Unbraced.braced`.
Key theorems: `Literal.Formed.bareNumber_text`, `Unbraced.reframes_regrouped`,
`Unbraced.parse_raised`.
-/
import NumericAnswer.Proofs.Literals
import NumericAnswer.Proofs.Placement

namespace NumericAnswer

/-! ### Bare numbers -/

namespace Literal

/-- The literal is one that the pass for powers reads whole. -/
structure Bare (l : Literal) : Prop where
  formed : l.Formed
  power : l.power = none
  fraction : l.point = true → l.fraction ≠ []

variable {l : Literal}

/-- The pass reads the digits with the point between them, and no more. -/
theorem Formed.bareNumber_text (h : l.Formed) : bareNumber l.text = some (l.text, []) ↔
    l.power = none ∧ (l.point = true → l.fraction ≠ []) := by
  obtain ⟨whole, point, fraction, power⟩ := l
  obtain ⟨hwhole, hfraction, hpoint, hne, hpower⟩ := h
  simp only at hwhole hfraction hpoint hne hpower
  -- A power of ten begins with a letter, which ends the digits.
  obtain ⟨after, hafter⟩ : ∃ after, after = (power.map Power.text).getD [] := ⟨_, rfl⟩
  have hmark : after.head?.any isDecimalDigit = false ∧ after.head? ≠ some '.' ∧
      (after = [] ↔ power = none) := by
    cases power with
    | none => simp [hafter]
    | some p =>
      rw [hafter]
      rcases (hpower p rfl).mark with hm | hm <;> simp [Power.text, hm] <;> decide
  obtain ⟨hdigit, hnopoint, hnone⟩ := hmark
  have hspan : ∀ {digits r : Text}, (∀ c ∈ digits, isDecimalDigit c = true) →
      r.head?.any isDecimalDigit = false →
      (digits ++ r).takeWhile isDecimalDigit = digits ∧
        (digits ++ r).dropWhile isDecimalDigit = r := fun hd hr =>
    Prod.mk.inj (spanDigits_digits_append hd hr)
  cases point with
  | true =>
    have htext : text ⟨whole, true, fraction, power⟩ = whole ++ '.' :: (fraction ++ after) := by
      simp [text, hafter]
    obtain ⟨htake, hdrop⟩ := hspan (r := '.' :: (fraction ++ after)) hwhole rfl
    obtain ⟨htake', hdrop'⟩ := hspan hfraction hdigit
    rw [htext]
    unfold bareNumber
    simp only [htake, hdrop, htake', hdrop']
    cases fraction with
    | nil => cases whole <;> simp
    | cons d fraction =>
      rw [← hnone]
      cases after <;> simp
  | false =>
    obtain rfl := hpoint rfl
    have htext : text ⟨whole, false, [], power⟩ = whole ++ after := by simp [text, hafter]
    obtain ⟨htake, hdrop⟩ := hspan hwhole hdigit
    have hwhole : whole ≠ [] := by simpa using hne
    rw [htext, bareNumber_eq (by rwa [hdrop]), htake, hdrop, ← hnone]
    cases after <;> simp [hwhole]

namespace Bare

variable (h : l.Bare)

include h

theorem bareNumber_text : bareNumber l.text = some (l.text, []) :=
  h.formed.bareNumber_text.mpr ⟨h.power, h.fraction⟩

theorem read?_text : read? l.text = some (l, []) := by
  have hread := read?_text_append h.formed (r := []) ⟨rfl, fun _ => rfl, fun _ _ => by simp⟩
  rwa [List.append_nil] at hread

theorem mem {c : Char} (hc : c ∈ l.text) : isDecimalDigit c = true ∨ c = '.' :=
  isDecimalDigit_of_bareNumber h.bareNumber_text c hc

theorem ne {c : Char} (hc : c ∈ l.text) {d : Char} (hd : isDecimalDigit d = false ∧ d ≠ '.') :
    c ≠ d := by
  rintro rfl
  rcases h.mem hc with h | h
  · rw [hd.1] at h
    cases h
  · exact hd.2 h

theorem notMem_triggers {c : Char} (hc : c ∈ l.text) : c ∉ triggers := by
  have hall : ∀ d ∈ triggers, isDecimalDigit d = false ∧ d ≠ '.' := forall_mem_of_all (by decide)
  exact fun hm => h.ne hc (hall c hm) rfl

theorem noBracket {c : Char} (hc : c ∈ l.text) : NoBracket c :=
  noBracket_iff.mpr fun b => by
    have hb : (isDecimalDigit b.opening = false ∧ b.opening ≠ '.') ∧
        isDecimalDigit b.closing = false ∧ b.closing ≠ '.' := by cases b <;> decide
    exact ⟨h.ne hc hb.1, h.ne hc hb.2⟩

theorem isBlank {c : Char} (hc : c ∈ l.text) : isBlank c = false :=
  isBlank_of_lexeme_char (.inr ((h.mem hc).imp_right fun hpoint => by simp [hpoint]))

/-- The argument of a function ends where the number ends. -/
theorem functionArgument_text : functionArgument (' ' :: l.text) = .ok (l.text, []) := by
  obtain ⟨c, t, ht⟩ := List.exists_cons_of_ne_nil (text_ne_nil h.read?_text)
  have hc : c ∈ l.text := ht ▸ List.mem_cons_self ..
  have hletter : isAsciiLetter c = false := by
    by_contra hl
    rcases h.mem hc with hdigit | rfl
    · rw [isDecimalDigit_of_isAsciiLetter (by simpa using hl)] at hdigit
      cases hdigit
    · exact hl (by decide)
  have hblanks : dropBlanks (' ' :: l.text) = l.text := by
    have hdrop := dropBlanks_cons_of_not_isBlank (h.isBlank hc) t
    rw [← ht] at hdrop
    exact hdrop
  have hopening : l.text.head?.bind Bracket.ofOpening? = none := by
    rw [ht]
    exact (h.noBracket hc).1
  have hoperand : bareOperand l.text = some (l.text, []) := by
    have hbackslash : l.text.head? ≠ some '\\' := by
      rw [ht]
      simpa using h.ne hc (by decide)
    rw [bareOperand_eq hbackslash, h.bareNumber_text]
    simp [ht, leadingLetters, hletter]
  have hword : l.text ∉ groupedWords := fun hm => by
    rw [isAsciiLetter_of_mem_groupedWords hm c hc] at hletter
    cases hletter
  unfold functionArgument
  simp [hblanks, hopening, hoperand, hword]

end Bare
end Literal

/-! ### Two ways to write a power -/

/-- What a power of a function has for its argument. -/
inductive Unbraced where
  | group (b : Bracket)
  | number (l : Literal)
  deriving DecidableEq, Repr

namespace Unbraced

/-- The pass for powers reads the argument whole. -/
def Whole : Unbraced → Prop
  | group _ => True
  | number l => l.Bare

/-- What the argument stands for, if its group holds the expression. -/
def value (x : Expr) : Unbraced → Expr
  | group _ => x
  | number l => .number l.value

section Forms

variable (f : UnaryFunction)

/-- The power with the exponent ahead of the argument. The first answer is the exponent, the
second one stands in the group. -/
def ahead : Unbraced → Form
  | group b => .two (Placement.ahead.front f) ['\x7d', ' ', b.opening] [b.closing]
  | number l => .one (Placement.ahead.front f) ('\x7d' :: ' ' :: l.text)

/-- What the pass for powers makes of it. -/
def regrouped : Unbraced → Form
  | group _ => .swapped (Placement.ahead.opening f) ('\x7d' :: Placement.ahead.middle) "\x7d".toList
  | number l =>
    .one (Placement.ahead.opening f ++ (l.text ++ '\x7d' :: Placement.ahead.middle)) "\x7d".toList

/-- What follows the function, up to its group or the exponent. -/
def after : Unbraced → Text
  | group b => [' ', b.opening]
  | number l => ' ' :: (l.text ++ "\x7d^\x7b".toList)

/-- A power of what the text begins and the argument ends. -/
def enclosing (front : Text) : Unbraced → Form
  | group b => .swapped (front ++ (group b).after) (b.closing :: "\x7d^\x7b".toList) "\x7d".toList
  | number l => .one (front ++ (number l).after) "\x7d".toList

/-- The power with braces around the call. -/
def braced (o : Unbraced) : Form :=
  o.enclosing ('\x7b' :: '\\' :: f.name.toList)

/-- What the stages make of it. -/
def named (o : Unbraced) : Form :=
  o.enclosing ('\x7b' :: f.name.toList)

/-- The shapes of what the argument holds. -/
def contentShapes (vs : List (Symbol × Bool)) : Unbraced → List (Symbol × Bool)
  | group _ => vs
  | number l => [lone (.number l)]

def regroupedShapes (o : Unbraced) (us vs : List (Symbol × Bool)) : List (Symbol × Bool) :=
  Placement.ahead.openingShapes f ++ (o.contentShapes vs ++
    (Placement.ahead.middleShapes ++ (us ++ [lone (.closing .curly)])))

def callShapes (vs : List (Symbol × Bool)) : Unbraced → List (Symbol × Bool)
  | group b => lone (.word (.unary f)) :: grouped b vs
  | number l => [lone (.word (.unary f)), lone (.number l)]

def namedShapes (o : Unbraced) (us vs : List (Symbol × Bool)) : List (Symbol × Bool) :=
  grouped .curly (o.callShapes f vs) ++ lone (.operator .caret) :: grouped .curly us

end Forms

variable {o : Unbraced} {f : UnaryFunction}

/-! #### Pieces -/

theorem exists_after (ho : o.Whole) :
    ∃ c r, o.after = ' ' :: c :: r ∧ isBlank c = false ∧ c ≠ '_' ∧ c ≠ '^' := by
  cases o with
  | group b => exact ⟨b.opening, [], rfl, by cases b <;> decide⟩
  | number l =>
    have hl : l.Bare := ho
    obtain ⟨c, t, ht⟩ := List.exists_cons_of_ne_nil (Literal.text_ne_nil hl.read?_text)
    have hc : c ∈ l.text := ht ▸ List.mem_cons_self ..
    exact ⟨c, t ++ "\x7d^\x7b".toList, by simp [after, ht], hl.isBlank hc, hl.ne hc (by decide),
      hl.ne hc (by decide)⟩

theorem plainPiece_after (ho : o.Whole) : PlainPiece o.after := by
  cases o with
  | group b => cases b <;> decide +kernel
  | number l =>
    have hl : l.Bare := ho
    have hnumber : PlainPiece (l.text ++ "\x7d^\x7b".toList) :=
      .append (fun c hc => hl.notMem_triggers hc) (by decide +kernel)
    exact .append (p := [' ']) (List.forall_mem_singleton.mpr (by decide)) hnumber

theorem plainPiece_closing (b : Bracket) : PlainPiece (b.closing :: "\x7d^\x7b".toList) := by
  cases b <;> decide +kernel

theorem closed_enclosing (front : Text) : (o.enclosing front).Closed := by
  have hbrace : Closer "\x7d".toList := Composition.closer_brace
  cases o with
  | group b =>
    have hclosing : Closer (b.closing :: "\x7d^\x7b".toList) := by
      cases b <;> exact closer_cons (by decide) _
    simpa [Form.Closed, Form.pieces, enclosing, Form.swapped] using ⟨hclosing, hbrace⟩
  | number l => simpa [Form.Closed, Form.pieces, enclosing, Form.one] using hbrace

/-- A stage that keeps the first piece keeps them all. -/
theorem keepsForm_enclosing {stage : Stage} (hl : stage.Local) {front : Text}
    (hk : stage.Keeps (front ++ o.after)) : stage.KeepsForm (o.enclosing front) := by
  have hlast : stage.MakesLast "\x7d".toList "\x7d".toList :=
    Stage.makesLast_plain hl (List.forall_mem_singleton.mpr (by decide))
  cases o with
  | group b =>
    have hclosing := plainPiece_closing b
    refine ⟨?_, hlast⟩
    simpa [enclosing, Form.swapped] using ⟨hk, Stage.keeps_plain hl hclosing.1 hclosing.2⟩
  | number l => exact ⟨by simpa [enclosing, Form.one] using hk, hlast⟩

theorem uses_named (ho : o.Whole) : (o.named f).Uses [] := by
  have hbrace : ∀ c ∈ "\x7d".toList, c ∉ triggers := List.forall_mem_singleton.mpr (by decide)
  have hfront : PlainPiece (('\x7b' :: f.name.toList) ++ o.after) :=
    .append (p := ['\x7b']) (List.forall_mem_singleton.mpr (by decide))
      (.append f.notMem_triggers (plainPiece_after ho))
  refine ⟨closed_enclosing _, ?_, ?_⟩
  · cases o with
    | group b =>
      simpa [named, enclosing, Form.swapped] using
        ⟨PieceOf.plain hfront, PieceOf.plain (plainPiece_closing b)⟩
    | number l => simpa [named, enclosing, Form.one] using PieceOf.plain hfront
  · cases o <;> exact hbrace

theorem uses_regrouped (ho : o.Whole) : (o.regrouped f).Uses [] := by
  have hopening := Placement.ahead.plainPiece_opening f
  have hmiddle : PlainPiece ('\x7d' :: Placement.ahead.middle) := by decide +kernel
  have hbrace : PlainPiece "\x7d".toList := by decide +kernel
  cases o with
  | group b =>
    exact .swapped (closer_cons (by decide) _) (closer_cons (by decide) _) (.plain hopening)
      (.plain hmiddle) hbrace
  | number l =>
    have hl : l.Bare := ho
    refine .one (closer_cons (by decide) _) (.plain (.append hopening.1 ?_)) hbrace
    exact .append (fun c hc => hl.notMem_triggers hc) hmiddle

/-- The command stands before the sign of the power. -/
theorem uses_ahead (ho : o.Whole) : (o.ahead f).Uses [(f.name.toList, '^')] := by
  have hfront : PieceOf [(f.name.toList, '^')] (Placement.ahead.front f) :=
    .command f.isName (by simp) (.plain (by decide +kernel))
  cases o with
  | group b =>
    exact .two (closer_cons (by decide) _) (by cases b <;> exact closer_cons (by decide) _) hfront
      (.plain (by cases b <;> decide +kernel)) (by cases b <;> decide +kernel)
  | number l =>
    have hl : l.Bare := ho
    refine ⟨?_, by simpa [ahead, Form.one] using hfront, ?_⟩
    · have hbrace : Closer ('\x7d' :: ' ' :: l.text) := closer_cons (by decide) _
      simpa [Form.Closed, Form.pieces, ahead, Form.one] using hbrace
    · have hspace : '\x7d' ∉ triggers ∧ ' ' ∉ triggers := by decide
      simpa [ahead, Form.one] using ⟨hspace.1, hspace.2, fun c hc => hl.notMem_triggers hc⟩

/-! #### What the stages make of it -/

variable (hf : f ∈ UnaryFunction.commands)

include hf in
theorem reframes_ahead (P : Text → Text → Prop) (ho : o.Whole) {stages : List Stage}
    (hs : ∀ stage ∈ stages, stage ∈ Canonical.cosmeticStages ++
      [.strictPass .fraction, .strictPass .root, .strictPass .logBase])
    (hl : ∀ stage ∈ stages, stage.Local) : Reframes P stages (o.ahead f) (o.ahead f) := by
  refine .of_uses (uses_ahead ho) hl fun stage h => ?_
  have hi : stage.Ignores f.name.toList '^' := fun b s =>
    Stage.eq_nothing_of_early hf (by decide) (markLength?_cons (by decide) (by decide) s) stage
      (hs stage h) b
  simpa using hi

include hf in
/-- The pass moves the exponent behind the argument and puts the argument in braces. -/
theorem reframes_regrouped (ho : o.Whole) :
    Reframes ExponentReady [.functionPower] (o.ahead f) (o.regrouped f) := by
  have hl := Stage.local_functionPower
  refine .of_step hl (uses_regrouped ho).closed ((uses_regrouped ho).keeps hl (by simp)) ?_
  cases o with
  | group b =>
    rintro x y _ ⟨⟨hx, hy⟩, hminus⟩
      ⟨bl, bl₁, _, hbl, hbl₁, ⟨bl₂, bl₃, _, hbl₂, hbl₃, ⟨bl₄, hbl₄, rfl⟩, rfl⟩, rfl⟩
    rw [← strip_blanks hbl₁ hbl₂] at hminus
    have hargument := @functionArgument_group b [' '] _ rfl (hy.blanks hbl₃ hbl₄ b) []
    have hb := buildFunctionPower_eq (hx.blanks hbl₁ hbl₂ .curly) f hminus hargument
    refine ⟨bl, '\\', _, _, hbl, ?_,
      ⟨[], bl₃, _, rfl, hbl₃, ⟨bl₄, bl₁, _, hbl₄, hbl₁, ⟨bl₂, hbl₂, rfl⟩, rfl⟩, rfl⟩,
      fun b _ => (Stage.step_functionPower hf hb b).trans ?_⟩
    · simp [ahead, Form.two, Placement.front]
    · simp [regrouped, Form.swapped, Placement.opening, Placement.middle, inBraces]
  | number l =>
    have hbare : l.Bare := ho
    rintro x y _ ⟨⟨hx, -⟩, hminus⟩ ⟨bl, bl₁, _, hbl, hbl₁, ⟨bl₂, hbl₂, rfl⟩, rfl⟩
    rw [← strip_blanks hbl₁ hbl₂] at hminus
    have hb := buildFunctionPower_eq (hx.blanks hbl₁ hbl₂ .curly) f hminus
      hbare.functionArgument_text
    refine ⟨bl, '\\', _, _, hbl, ?_, ⟨[], bl₁, _, rfl, hbl₁, ⟨bl₂, hbl₂, rfl⟩, rfl⟩,
      fun b _ => (Stage.step_functionPower hf hb b).trans ?_⟩
    · simp [ahead, Form.one, Placement.front]
    · simp [regrouped, Form.one, Placement.opening, Placement.middle, inBraces]

include hf in
/-- No stage before the names of functions looks at a command before its argument. -/
theorem reframes_braced (P : Text → Text → Prop) (ho : o.Whole) {stages : List Stage}
    (hs : ∀ stage ∈ stages, stage ∈ Canonical.cosmeticStages ++ Canonical.passStages)
    (hl : ∀ stage ∈ stages, stage.Local) : Reframes P stages (o.braced f) (o.braced f) := by
  obtain ⟨c, r, hafter, hblank, hsubscript, hcaret⟩ := exists_after ho
  have hmark : ∀ {mark : Char} {s : Text}, c ≠ mark →
      markLength? mark (' ' :: c :: s) = none := fun hm => by
    have hdrop := dropBlanks_cons_of_not_isBlank hblank
    have hspace : ∀ s, dropBlanks (' ' :: s) = dropBlanks s := fun s => rfl
    simp [markLength?, hspace, hdrop, hm]
  have hnothing : ∀ stage ∈ Canonical.cosmeticStages ++ Canonical.passStages, ∀ b s,
      stage b '\\' (f.name.toList ++ (o.after ++ s)) = .nothing := by
    intro stage h b s
    rw [hafter, List.cons_append, List.cons_append]
    have hpasses : Canonical.cosmeticStages ++ Canonical.passStages = (Canonical.cosmeticStages ++
        [.strictPass .fraction, .strictPass .root, .strictPass .logBase]) ++ [.functionPower] := rfl
    rw [hpasses] at h
    rcases List.mem_append.mp h with h | h
    · exact Stage.eq_nothing_of_early hf (by decide) (hmark hsubscript) stage h b
    · obtain rfl := List.mem_singleton.mp h
      exact Stage.functionPower_eq_nothing f.isName (by decide) (hmark hcaret) b
  refine .of_keeps hl (closed_enclosing _) fun stage h => keepsForm_enclosing (hl stage h) ?_
  obtain ⟨hplain, hends⟩ := plainPiece_after ho
  have hkeeps := Stage.keeps_plain (hl stage h) hplain hends
  intro b s t hst
  have hcommand := Rewrites.keep (hnothing stage (hs stage h) (some '\x7b') s)
    (rewrites_plain_append (hl stage h) f.notMem_triggers (hkeeps _ s t hst))
  have hbrace := Rewrites.keep ((hl stage h).plain b ('\\' :: (f.name.toList ++ (o.after ++ s)))
    (c := '\x7b') (by decide)) hcommand
  simpa using hbrace

include hf in
/-- The command becomes the name. -/
theorem reframes_named (P : Text → Text → Prop) (ho : o.Whole) :
    Reframes P [.wording Rule.functionName] (o.braced f) (o.named f) := by
  have hl := Composition.local_functionName
  obtain ⟨c, r, hafter, -⟩ := exists_after ho
  have hplain := plainPiece_after ho
  have hkeeps : ∀ {l : Text}, PlainPiece l → (Stage.wording Rule.functionName).Makes l l :=
    fun h => (Stage.keeps_plain hl h.1 h.2).makes
  have hmakes : (Stage.wording Rule.functionName).Makes ('\\' :: (f.name.toList ++ o.after))
      (f.name.toList ++ o.after) := by
    rw [hafter] at hplain ⊢
    exact Stage.makes_functionName hf (by decide +kernel) fun s t =>
      Stage.keeps_plain hl hplain.1 hplain.2 _ s t
  have hbrace : Apart (some '\x7b') := by
    have hsign : isAlphanumeric '\x7b' = false := by decide +kernel
    simpa [Apart] using hsign
  have hfront : (Stage.wording Rule.functionName).Makes
      (('\x7b' :: '\\' :: f.name.toList) ++ o.after) (('\x7b' :: f.name.toList) ++ o.after) :=
    fun b s t _ hst => .keep (hl.plain b _ (by decide)) (hmakes _ s t hbrace hst)
  have hlast : PlainPiece "\x7d".toList := by decide +kernel
  cases o with
  | group b =>
    exact .of_makes hl (closed_enclosing _)
      (.cons ⟨hfront, rfl⟩ (.cons ⟨hkeeps (plainPiece_closing b), rfl⟩ .nil)) (hkeeps hlast)
  | number l =>
    exact .of_makes hl (closed_enclosing _) (.cons ⟨hfront, rfl⟩ .nil) (hkeeps hlast)

include hf in
theorem reframes_late (ho : o.Whole) :
    Reframes NestedPower.ReadyLater (Canonical.passStages ++ Canonical.wordStages) (o.ahead f)
      (o.regrouped f) := by
  have hlocal : ∀ stage ∈ Placement.earlyStages ++ Placement.laterStages, stage.Local :=
    fun stage h => Stage.local_of_late h
  obtain ⟨hearly, hlater⟩ := List.forall_mem_append.mp hlocal
  have hkeeps : Reframes NestedPower.ReadyLater Placement.earlyStages (o.ahead f) (o.ahead f) :=
    reframes_ahead hf _ ho (fun stage h => List.mem_append_right _ h) hearly
  have hwords : Reframes (fun _ _ => True) Canonical.wordStages (o.regrouped f) (o.regrouped f) :=
    .of_plain (uses_regrouped ho) fun stage h => hlater stage (List.mem_cons_of_mem _ h)
  exact hkeeps.append NestedPower.ReadyLater.exponentReady
    ((reframes_regrouped hf ho).append (fun _ _ _ _ _ _ _ => trivial) hwords)

include hf in
theorem reframes_words (ho : o.Whole) :
    Reframes NestedPower.ReadyLater (Canonical.passStages ++ Canonical.wordStages) (o.braced f)
      (o.named f) := by
  have hlocal : ∀ stage ∈ Canonical.passStages ++ Canonical.wordStages, stage.Local :=
    fun stage h => Stage.local_of_late h
  obtain ⟨hpasses, hwords⟩ := List.forall_mem_append.mp hlocal
  have hkeeps : Reframes NestedPower.ReadyLater Canonical.passStages (o.braced f) (o.braced f) :=
    reframes_braced hf _ ho (fun stage h => List.mem_append_right _ h) hpasses
  have hlast : Reframes (fun _ _ => True) [.always Rule.sign, .wording Rule.pi, .wording Rule.e]
      (o.named f) (o.named f) :=
    .of_plain (uses_named ho) fun stage h => hwords stage (List.mem_cons_of_mem _ h)
  exact hkeeps.append (fun _ _ _ _ _ _ _ => trivial)
    ((reframes_named hf (fun _ _ => True) ho).append (fun _ _ _ _ _ _ _ => trivial) hlast)

/-! #### What the lexer and the parser make of it -/

theorem barless_regrouped (ho : o.Whole) : (o.regrouped f).Barless := by
  have hbar := f.bar_notMem
  have hname := f.nest_name_append
  cases o with
  | group b =>
    refine ⟨by simp [regrouped, Form.pieces, Form.swapped, Placement.opening, Placement.middle, hbar],
      ?_⟩
    simp only [Nested, regrouped, Form.pieces, Form.swapped, Placement.opening, List.map_cons,
      List.map_nil, List.flatten_cons, List.cons_append, List.append_assoc]
    exact (nest_opening .round _ _).trans ((hname _ _).trans (by decide))
  | number l =>
    have hl : l.Bare := ho
    have hdigits : '|' ∉ l.text := fun h => hl.ne h (by decide) rfl
    refine ⟨by simp [regrouped, Form.pieces, Form.one, Placement.opening, Placement.middle, hbar,
      hdigits], ?_⟩
    simp only [Nested, regrouped, Form.pieces, Form.one, Placement.opening, List.map_cons,
      List.map_nil, List.flatten_cons, List.cons_append, List.append_assoc]
    refine (nest_opening .round _ _).trans ((hname _ _).trans ((nest_opening .curly _ _).trans ?_))
    exact (nest_noBracket_append (fun c hc => hl.noBracket hc) _ _).trans (by decide)

theorem barless_named (ho : o.Whole) : (o.named f).Barless := by
  have hbar := f.bar_notMem
  have hname := f.nest_name_append
  cases o with
  | group b =>
    refine ⟨by cases b <;> simp [named, enclosing, after, Form.pieces, Form.swapped, hbar,
      Bracket.opening, Bracket.closing], ?_⟩
    simp only [Nested, named, enclosing, Form.pieces, Form.swapped, List.map_cons, List.map_nil,
      List.flatten_cons, List.cons_append, List.append_assoc]
    refine (nest_opening .curly _ _).trans ((hname _ _).trans ?_)
    cases b <;> decide
  | number l =>
    have hl : l.Bare := ho
    have hdigits : '|' ∉ l.text := fun h => hl.ne h (by decide) rfl
    refine ⟨by simp [named, enclosing, after, Form.pieces, Form.one, hbar, hdigits], ?_⟩
    simp only [Nested, named, enclosing, after, Form.pieces, Form.one, List.map_cons,
      List.map_nil, List.flatten_cons, List.cons_append, List.append_assoc]
    refine (nest_opening .curly _ _).trans ((hname _ _).trans ((nest_cons (by decide) _ _).trans ?_))
    exact (nest_noBracket_append (fun c hc => hl.noBracket hc) _ _).trans (by decide)

section Lexes

variable {x y : Text} {us vs : List (Symbol × Bool)}

/-- A number between two pieces. -/
theorem pieceLexes_number {l : Literal} (hl : l.Bare) {front rest : Text} {c : Char}
    {ps qs : List (Symbol × Bool)} (hfront : PieceLexes front ps) (hc : IsSign c)
    (hrest : PieceLexes (c :: rest) qs) :
    PieceLexes (front ++ (l.text ++ c :: rest)) (ps ++ lone (.number l) :: qs) := by
  intro afterNumber s us h
  have hnumber := Spells.number hl.read?_text (c :: (rest ++ s)) (qs ++ us) (.cons hc _)
    fun afterNumber => hrest afterNumber s us h
  simpa [lone, plainShapes] using hfront afterNumber _ _ hnumber

theorem frameLexes_regrouped (ho : o.Whole) (hx : Lexes false x us) (hbx : '\\' ∉ x)
    (hy : Lexes false y vs) (hby : '\\' ∉ y) :
    FrameLexes ((o.regrouped f).frame x y) (o.regrouped f).last (o.regroupedShapes f us vs) := by
  obtain ⟨hopening, hmiddle, hclosing⟩ := Placement.ahead.pieceLexes f
  cases o with
  | group b => exact .swapped ⟨hx, hbx⟩ ⟨hy, hby⟩ hopening hmiddle hclosing rfl
  | number l =>
    exact .one ⟨hx, hbx⟩ (pieceLexes_number ho hopening (by decide) hmiddle) hclosing
      (by simp [regroupedShapes, contentShapes])

theorem frameLexes_named (ho : o.Whole) (hx : Lexes false x us) (hbx : '\\' ∉ x)
    (hy : Lexes false y vs) (hby : '\\' ∉ y) :
    FrameLexes ((o.named f).frame x y) (o.named f).last (o.namedShapes f us vs) := by
  have hcurly := pieceLexes_closing .curly
  have hexponent := hcurly.append ((pieceLexes_operator .caret).append (pieceLexes_opening .curly))
  have hname := (pieceLexes_opening .curly).append (pieceLexes_wordBlank (.unary f))
  cases o with
  | group b =>
    have hopening := hname.append (pieceLexes_opening b)
    exact .swapped ⟨hx, hbx⟩ ⟨hy, hby⟩
      (by simpa [Word.text, Word.name, Bracket.opening, after] using hopening)
      ((pieceLexes_closing b).append hexponent) hcurly
      (by simp [namedShapes, callShapes, grouped])
  | number l =>
    have hopening := pieceLexes_number ho hname (by decide) hexponent
    exact .one ⟨hx, hbx⟩ (by simpa [Word.text, Word.name, Bracket.opening, Bracket.closing,
      Operator.sign, after] using hopening) hcurly (by simp [namedShapes, callShapes, grouped])

end Lexes

section Fills

variable {stop calls : Nat} {us vs : List (Symbol × Bool)} {x y : Expr}

theorem fills_content (h : Fills stop .sum calls vs y) :
    Fills stop .sum (calls + 6) (o.contentShapes vs) (o.value y) := by
  cases o with
  | group b => exact h.mono (by omega)
  | number l => exact ((Fills.number l).signed_of_factor rfl).sum_of_signed.mono (by omega)

theorem fills_call (h : Fills stop .sum calls vs y) :
    Fills stop .raised (calls + 9) (o.callShapes f vs) ((o.value y).call f) := by
  cases o with
  | group b =>
    have hcall := h.call f b
    exact (Fills.raised_of_factor (hcall.weaken fun hb => hb.mono (by decide))).mono (by omega)
  | number l =>
    have hnumber : Fills stop .signed 4 [lone (.number l)] (.number l.value) :=
      (Fills.number l).signed_of_factor rfl
    exact (hnumber.bareCall (.inr ⟨l, rfl⟩) f).mono (by omega)

theorem fills_regrouped (hx : Fills stop .sum calls us x) (hy : Fills stop .sum calls vs y) :
    Fills stop .sum (calls + 22) (o.regroupedShapes f us vs) (((o.value y).call f).power x) :=
  Placement.ahead.fills_plain hx (fills_content hy) (by omega)
    (by simp only [Placement.depth]; omega)

theorem fills_named (hx : Fills stop .sum calls us x) (hy : Fills stop .sum calls vs y) :
    Fills stop .sum (calls + 22) (o.namedShapes f us vs) (((o.value y).call f).power x) := by
  have hbegins : Fills.BeginsFactor (o.callShapes f vs) := by cases o <;> exact rfl
  have hsum : Fills stop .sum (calls + 12) (o.callShapes f vs) ((o.value y).call f) :=
    ((fills_call hy).signed_of_raised hbegins).sum_of_signed
  have hexponent : Fills stop .signed (calls + 5) (grouped .curly us) x :=
    (hx.factor_group .curly).signed_of_factor rfl
  have hpower : Fills stop .raised (calls + 16) (o.namedShapes f us vs)
      (((o.value y).call f).power x) :=
    Fills.power (hsum.factor_group .curly).postfixed_of_factor (hexponent.mono (by omega))
  exact (hpower.signed_of_raised rfl).sum_of_signed.mono (by omega)

end Fills

/-! #### The notations -/

theorem unwrapped_ahead (ho : o.Whole) : (o.ahead f).Unwrapped := by
  obtain ⟨hshown, hlast, hdollar⟩ := f.undisplayed
  have hfront : Undisplayed (Placement.ahead.front f) ∧
      (Placement.ahead.front f).getLast? ≠ some '\\' :=
    hshown.append_notMem hlast (t := ['^', '\x7b']) (by decide)
  cases o with
  | group b =>
    refine ⟨by cases b <;> simp [ahead, Form.pieces, Form.two, Placement.front, hdollar,
      Bracket.opening, Bracket.closing], ?_, rfl, by cases b <;> rfl⟩
    simp only [ahead, Form.pieces, Form.two, List.map_cons, List.map_nil, List.forall_mem_cons,
      List.cons_append, List.nil_append]
    exact ⟨hfront, by cases b <;> decide, by cases b <;> decide, by simp⟩
  | number l =>
    have hl : l.Bare := ho
    have hmem : ∀ {d : Char}, isDecimalDigit d = false ∧ d ≠ '.' → d ∉ l.text :=
      fun hd hm => hl.ne hm hd rfl
    obtain ⟨c, hc⟩ : ∃ c, l.text.getLast? = some c :=
      ⟨_, List.getLast?_eq_some_getLast (Literal.text_ne_nil hl.read?_text)⟩
    have hlastc : (['\x7d', ' '] ++ l.text).getLast? = some c := by
      rw [List.getLast?_append, hc]
      rfl
    have hcmem : c ∈ l.text := List.mem_of_getLast? hc
    refine ⟨by simp [ahead, Form.pieces, Form.one, Placement.front, hdollar, hmem (d := '$')
      (by decide)], ?_, rfl, ?_⟩
    · simp only [ahead, Form.pieces, Form.one, List.map_cons, List.map_nil, List.forall_mem_cons,
        List.cons_append, List.nil_append]
      refine ⟨hfront, Undisplayed.append_notMem (s := ['\x7d', ' ']) (by decide) (by decide) ?_,
        by simp⟩
      exact hmem (by decide)
    · show ((['\x7d', ' '] ++ l.text).getLast?).any _ = true
      rw [hlastc]
      simpa using hl.isBlank hcmem

theorem unwrapped_braced (ho : o.Whole) : (o.braced f).Unwrapped := by
  obtain ⟨hshown, hlast, hdollar⟩ := f.undisplayed
  have hafter : '\\' ∉ o.after ∧ '$' ∉ o.after := by
    cases o with
    | group b => cases b <;> decide
    | number l =>
      have hl : l.Bare := ho
      have hmem : ∀ {d : Char}, isDecimalDigit d = false ∧ d ≠ '.' → d ∉ l.text :=
        fun hd hm => hl.ne hm hd rfl
      simpa [after] using ⟨hmem (d := '\\') (by decide), hmem (d := '$') (by decide)⟩
  have hfront : Undisplayed (('\x7b' :: '\\' :: f.name.toList) ++ o.after) ∧
      (('\x7b' :: '\\' :: f.name.toList) ++ o.after).getLast? ≠ some '\\' := by
    have hcommand : Undisplayed ('\x7b' :: '\\' :: f.name.toList) :=
      hshown.cons_cons fun hc => absurd hc (by decide)
    exact hcommand.append_notMem hlast hafter.1
  cases o with
  | group b =>
    refine ⟨by cases b <;> simp [braced, enclosing, after, Form.pieces, Form.swapped, hdollar,
      Bracket.opening, Bracket.closing], ?_, rfl, rfl⟩
    simp only [braced, enclosing, Form.pieces, Form.swapped, List.map_cons, List.map_nil,
      List.forall_mem_cons, List.cons_append, List.nil_append]
    exact ⟨by simpa using hfront, by cases b <;> decide, by decide, by simp⟩
  | number l =>
    refine ⟨?_, ?_, rfl, rfl⟩
    · have hno := hafter.2
      simp [braced, enclosing, Form.pieces, Form.one, hdollar, hno]
    · simp only [braced, enclosing, Form.pieces, Form.one, List.map_cons, List.map_nil,
        List.forall_mem_cons, List.cons_append, List.nil_append]
      exact ⟨by simpa using hfront, by decide, by simp⟩

/-- The power with the exponent ahead. -/
def aheadRendering (ho : o.Whole) : Rendering NestedPower.ReadyLater where
  written := o.ahead f
  plain := o.regrouped f
  expanded := o.regrouped f
  shapes := o.regroupedShapes f
  unwrapped := unwrapped_ahead ho
  cosmetic := reframes_ahead hf _ ho (fun _ h => List.mem_append_left _ h)
    Canonical.local_of_mem_cosmeticStages
  late := reframes_late hf ho
  uses := uses_regrouped ho
  bars := (barless_regrouped ho).framePairs
  lexes := frameLexes_regrouped ho

/-- The power with braces around the call. -/
def bracedRendering (ho : o.Whole) : Rendering NestedPower.ReadyLater where
  written := o.braced f
  plain := o.named f
  expanded := o.named f
  shapes := o.namedShapes f
  unwrapped := unwrapped_braced ho
  cosmetic := reframes_braced hf _ ho (fun _ h => List.mem_append_left _ h)
    Canonical.local_of_mem_cosmeticStages
  late := reframes_words hf ho
  uses := uses_named ho
  bars := (barless_named ho).framePairs
  lexes := frameLexes_named ho

/-- **The exponent may stand ahead of an argument without braces.** A power of a function of a
group in brackets, or of a number that has no power of ten and does not end in a point, stands
for the same expression as the power with braces around the call: first the function is
applied, then the result is raised. -/
theorem parse_raised (o : Unbraced) (ho : o.Whole) {f : UnaryFunction}
    (hf : f ∈ UnaryFunction.commands) {calls : Nat} {N X : Text} {n x : Expr}
    (hN : Accepted calls N n) (hX : Accepted calls X x) (hminus : (canonical N).head? ≠ some '-')
    (hcalls : calls + 22 ≤ Expr.callLimit) :
    Expr.parse (canonical ((o.ahead f).text N X)) = .ok (((o.value x).call f).power n) ∧
      Expr.parse (canonical ((o.braced f).text N X)) = .ok (((o.value x).call f).power n) := by
  have hready := NestedPower.readyLater_simplified hN hX hminus
  exact ⟨(aheadRendering hf ho).parseWithin_text hN hX hready fun h h' =>
      (fills_regrouped h h').mono hcalls,
    (bracedRendering hf ho).parseWithin_text hN hX hready fun h h' =>
      (fills_named h h').mono hcalls⟩

/-- The square of the sine of a decimal number and of a sum in round brackets. -/
theorem parse_raised_sine : ∃ n x, Accepted 900 ['2'] n ∧ Accepted 900 "1+2".toList x ∧
    (Expr.parse (canonical "\\sin^\x7b2\x7d 1.5".toList) =
        .ok (((Expr.number (Literal.value ⟨['1'], true, ['5'], none⟩)).call .sin).power n) ∧
      Expr.parse (canonical "\x7b\\sin 1.5\x7d^\x7b2\x7d".toList) =
        .ok (((Expr.number (Literal.value ⟨['1'], true, ['5'], none⟩)).call .sin).power n)) ∧
    Expr.parse (canonical "\\sin^\x7b2\x7d (1+2)".toList) = .ok ((x.call .sin).power n) ∧
    Expr.parse (canonical "\x7b\\sin (1+2)\x7d^\x7b2\x7d".toList) =
      .ok ((x.call .sin).power n) := by
  obtain ⟨n, hn⟩ := Accepted.exists_of_isOk 900 ['2'] (by decide +kernel) (by decide +kernel)
  obtain ⟨x, hx⟩ := Accepted.exists_of_isOk 900 "1+2".toList (by decide +kernel) (by decide +kernel)
  have hminus : (canonical ['2']).head? ≠ some '-' := by decide +kernel
  have hbare : (number ⟨['1'], true, ['5'], none⟩).Whole := by
    refine ⟨⟨?_, ?_, nofun, .inl (by simp), by simp⟩, rfl, by simp⟩ <;>
      exact List.forall_mem_singleton.mpr (by decide)
  have hnumber := parse_raised _ hbare (f := .sin) (by decide) hn hx hminus (by decide)
  have hgroup := parse_raised (group .round) trivial (f := .sin) (by decide) hn hx hminus (by decide)
  have htexts :
      ((number ⟨['1'], true, ['5'], none⟩).ahead .sin).text ['2'] "1+2".toList =
        "\\sin^\x7b2\x7d 1.5".toList ∧
      ((number ⟨['1'], true, ['5'], none⟩).braced .sin).text ['2'] "1+2".toList =
        "\x7b\\sin 1.5\x7d^\x7b2\x7d".toList ∧
      ((group .round).ahead .sin).text ['2'] "1+2".toList = "\\sin^\x7b2\x7d (1+2)".toList ∧
      ((group .round).braced .sin).text ['2'] "1+2".toList =
        "\x7b\\sin (1+2)\x7d^\x7b2\x7d".toList := by
    decide +kernel
  rw [htexts.1, htexts.2.1] at hnumber
  rw [htexts.2.2.1, htexts.2.2.2] at hgroup
  exact ⟨n, x, hn, hx, hnumber, hgroup⟩

/-- A number with a power of ten is cut in two, -/
example : canonical "\\sin^\x7b2\x7d 1e3".toList = "(sin\x7b1\x7d)^\x7b2\x7de3".toList ∧
    canonical "\x7b\\sin 1e3\x7d^\x7b2\x7d".toList = "\x7bsin 1e3\x7d^\x7b2\x7d".toList := by
  decide +kernel

/-- and a logarithm loses the brackets that hold its base. -/
example : (Expr.parse (canonical "\\log^\x7b2\x7d (8,2)".toList)).isOk = false ∧
    (Expr.parse (canonical "\x7b\\log (8,2)\x7d^\x7b2\x7d".toList)).isOk = true := by
  decide +kernel

end Unbraced

end NumericAnswer
