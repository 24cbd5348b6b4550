/-
# Glyphs and their commands

The glyphs of pi and of multiplication and division stand for commands. A command is longer than
its glyph, and a blank, or the end of a group, keeps it apart from the letters behind it; so texts
that spell the glyphs differently differ in blanks as well, but only where nothing is read across
them. What stands at the front of such texts is the same, up to spellings.

Key definitions: `glyphName?`, `Spelling`, `Glossed`.
Key theorems: `Glossed.front`, `Glossed.span`, `Glossed.append_closer`.
-/
import NumericAnswer.Proofs.Regrouped

namespace NumericAnswer

/-! ### Spellings -/

/-- The name of the command for a glyph. -/
def glyphName? (c : Char) : Option Text :=
  if c = 'π' then some "pi".toList
  else if c = '×' then some "times".toList
  else if c = '·' then some "cdot".toList
  else if c = '÷' then some "div".toList
  else none

/-- What ends the command for a glyph: a blank, or a bracket that closes a group. -/
def endsName (c : Char) : Bool :=
  isBlank c || c = '\x7d' || c = ']'

/-- The text is a spelling of a glyph, before the text `rest`. -/
inductive Spelling (g : Char) (name rest : Text) : Text → Prop
  | glyph : Spelling g name rest [g]
  | command (hrest : rest.head?.all endsName = true) : Spelling g name rest ('\\' :: name)

/-- The four glyphs with the names of their commands. -/
theorem glyphName_cases {g : Char} {name : Text} (hg : glyphName? g = some name) :
    (g = 'π' ∧ name = "pi".toList) ∨ (g = '×' ∧ name = "times".toList) ∨
      (g = '·' ∧ name = "cdot".toList) ∨ (g = '÷' ∧ name = "div".toList) := by
  unfold glyphName? at hg
  split at hg
  · next h => exact .inl ⟨h, (Option.some.inj hg).symm⟩
  · split at hg
    · next h => exact .inr (.inl ⟨h, (Option.some.inj hg).symm⟩)
    · split at hg
      · next h => exact .inr (.inr (.inl ⟨h, (Option.some.inj hg).symm⟩))
      · split at hg
        · next h => exact .inr (.inr (.inr ⟨h, (Option.some.inj hg).symm⟩))
        · cases hg

/-- What is true of the four glyphs. -/
theorem glyph_all {p : Char → Bool} {g : Char} (hg : (glyphName? g).isSome = true)
    (hp : ['π', '×', '·', '÷'].all p = true) : p g = true := by
  have hall := List.all_eq_true.mp hp
  obtain ⟨name, hg⟩ := Option.isSome_iff_exists.mp hg
  rcases glyphName_cases hg with ⟨rfl, -⟩ | ⟨rfl, -⟩ | ⟨rfl, -⟩ | ⟨rfl, -⟩ <;>
    exact hall _ (by simp)

/-- What is true of the names of their four commands. -/
theorem glyphName_all {p : Text → Bool} {g : Char} {name : Text} (hg : glyphName? g = some name)
    (hp : ["pi".toList, "times".toList, "cdot".toList, "div".toList].all p = true) :
    p name = true := by
  have hall := List.all_eq_true.mp hp
  rcases glyphName_cases hg with ⟨-, rfl⟩ | ⟨-, rfl⟩ | ⟨-, rfl⟩ | ⟨-, rfl⟩ <;>
    exact hall _ (by simp)

theorem isName_of_glyphName {g : Char} {name : Text} (hg : glyphName? g = some name) :
    name ≠ [] ∧ ∀ c ∈ name, isAsciiLetter c = true := by
  have h := glyphName_all (p := fun name => !name.isEmpty && name.all isAsciiLetter) hg (by decide)
  simp only [Bool.and_eq_true, Bool.not_eq_true', List.isEmpty_eq_false_iff] at h
  exact ⟨h.1, List.all_eq_true.mp h.2⟩

theorem isSome_of_glyphName {g : Char} {name : Text} (hg : glyphName? g = some name) :
    (glyphName? g).isSome = true := by
  rw [hg]
  rfl

theorem isAsciiLetter_of_endsName {c : Char} (hc : endsName c = true) : isAsciiLetter c = false := by
  simp only [endsName, Bool.or_eq_true, decide_eq_true_eq] at hc
  rcases hc with (hc | rfl) | rfl
  · exact isAsciiLetter_of_isAlphanumeric (isAlphanumeric_of_isBlank hc)
  · decide
  · decide

theorem ne_backslash_of_endsName {c : Char} (hc : endsName c = true) : c ≠ '\\' := by
  rintro rfl
  cases hc

theorem head?_any_of_endsName {s : Text} (hs : s.head?.all endsName = true) :
    s.head?.any isAsciiLetter = false := by
  cases s with
  | nil => rfl
  | cons c s => exact isAsciiLetter_of_endsName hs

namespace Spelling

variable {g : Char} {name rest rest' x : Text}

theorem ne_nil (h : Spelling g name rest x) : x ≠ [] := by
  cases h <;> exact List.cons_ne_nil _ _

/-- Another text may follow, if it ends a name too. -/
theorem before (h : Spelling g name rest x)
    (hrest : rest.head?.all endsName = true → rest'.head?.all endsName = true) :
    Spelling g name rest' x := by
  cases h with
  | glyph => exact .glyph
  | command h => exact .command (hrest h)

/-- No spelling begins with a character of a kind to which glyphs and backslashes do not belong. -/
theorem head?_any {p : Char → Bool} (h : Spelling g name rest x) (hg : glyphName? g = some name)
    (hp : ['π', '×', '·', '÷', '\\'].all (fun c => !p c) = true) (s : Text) :
    (x ++ s).head?.any p = false := by
  have hp' : ['π', '×', '·', '÷'].all (fun c => !p c) = true :=
    List.all_eq_true.mpr fun c hc => List.all_eq_true.mp hp c (by
      simp only [List.mem_cons, List.not_mem_nil, or_false] at hc ⊢
      tauto)
  cases h with
  | glyph => simpa using glyph_all (p := fun c => !p c) (isSome_of_glyphName hg) hp'
  | command => simpa using List.all_eq_true.mp hp '\\' (by simp)

theorem mem (h : Spelling g name rest x) : ∀ c ∈ x, c = g ∨ c = '\\' ∨ c ∈ name := by
  intro c hc
  cases h with
  | glyph => exact .inl (List.mem_singleton.mp hc)
  | command => exact .inr (List.mem_cons.mp hc)

/-- What is true of all glyphs, of backslashes and of letters is true of a spelling. -/
theorem forall_mem {p : Char → Prop} [DecidablePred p] (h : Spelling g name rest x)
    (hg : glyphName? g = some name) (hp : ['π', '×', '·', '÷'].all (fun c => p c) = true)
    (hbackslash : p '\\') (hletter : ∀ c, isAsciiLetter c = true → p c) : ∀ c ∈ x, p c := by
  intro c hc
  rcases h.mem c hc with rfl | rfl | hc
  · simpa using glyph_all (isSome_of_glyphName hg) hp
  · exact hbackslash
  · exact hletter c ((isName_of_glyphName hg).2 c hc)

theorem dropBlanks_append (h : Spelling g name rest x) (hg : glyphName? g = some name) (s : Text) :
    dropBlanks (x ++ s) = x ++ s := by
  have hhead := h.head?_any (p := isBlank) hg (by decide) s
  cases hx : x ++ s with
  | nil => rfl
  | cons c u =>
    rw [hx] at hhead
    exact dropBlanks_cons_of_not_isBlank hhead u

end Spelling

/-! ### Texts that differ in their spellings -/

/-- Behind the character blanks mean nothing: behind blanks, and behind the brackets that close
groups, once the macros have their arguments in groups. -/
def frees (grouped : Bool) (c : Char) : Bool :=
  isBlank c || grouped && (c = '\x7d' || c = ']')

/-- The texts differ in the spellings of glyphs, and in blanks behind glyphs and behind characters
that free them. Blanks may also differ at the front if it is free. -/
inductive Glossed (grouped : Bool) : Bool → Text → Text → Prop
  | nil {free : Bool} : Glossed grouped free [] []
  | char {free : Bool} {c : Char} {s t : Text} (hc : glyphName? c = none)
      (h : Glossed grouped (frees grouped c) s t) : Glossed grouped free (c :: s) (c :: t)
  | glyph {free : Bool} {g : Char} {name x y s t : Text} (hg : glyphName? g = some name)
      (hx : Spelling g name s x) (hy : Spelling g name t y) (h : Glossed grouped true s t) :
      Glossed grouped free (x ++ s) (y ++ t)
  | left {e : Char} {s t : Text} (he : isBlank e = true) (h : Glossed grouped true s t) :
      Glossed grouped true (e :: s) t
  | right {e : Char} {s t : Text} (he : isBlank e = true) (h : Glossed grouped true s t) :
      Glossed grouped true s (e :: t)

namespace Glossed

variable {grouped free : Bool} {c : Char} {a a' r r' s t w : Text} {p : Char → Bool}

theorem frees_of_isBlank (hc : isBlank c = true) : frees grouped c = true := by
  simp [frees, hc]

theorem symm (h : Glossed grouped free s t) : Glossed grouped free t s := by
  induction h with
  | nil => exact .nil
  | char hc _ ih => exact .char hc ih
  | glyph hg hx hy _ ih => exact .glyph hg hy hx ih
  | left he _ ih => exact .right he ih
  | right he _ ih => exact .left he ih

theorem freed (h : Glossed grouped free s t) : Glossed grouped true s t := by
  cases h with
  | nil => exact .nil
  | char hc h => exact .char hc h
  | glyph hg hx hy h => exact .glyph hg hx hy h
  | left he h => exact .left he h
  | right he h => exact .right he h

/-- Texts without differences at the front have none there that matter. -/
theorem loosened (h : Glossed grouped false s t) : Glossed grouped free s t := by
  cases h with
  | nil => exact .nil
  | char hc h => exact .char hc h
  | glyph hg hx hy h => exact .glyph hg hx hy h

theorem grouped_of_plain (h : Glossed false free s t) : Glossed true free s t := by
  induction h with
  | nil => exact .nil
  | @char _ c s t hc _ ih =>
    refine .char hc ?_
    cases hfree : frees false c with
    | true =>
      rw [hfree] at ih
      have hblank : isBlank c = true := by simpa [frees] using hfree
      rwa [frees_of_isBlank hblank]
    | false =>
      rw [hfree] at ih
      exact ih.loosened
  | glyph hg hx hy _ ih => exact .glyph hg hx hy ih
  | left he _ ih => exact .left he ih
  | right he _ ih => exact .right he ih

/-- The same characters may stand before both texts. -/
theorem same_append (h : Glossed grouped false s t) : ∀ (w : Text) {free : Bool},
    Glossed grouped free (w ++ s) (w ++ t)
  | [], _ => h.loosened
  | c :: w, _ => by
    have hrest : ∀ {free : Bool}, Glossed grouped free (w ++ s) (w ++ t) := h.same_append w
    cases hg : glyphName? c with
    | none => exact .char hg hrest
    | some name => exact .glyph (x := [c]) (y := [c]) hg .glyph .glyph hrest

theorem refl (s : Text) : Glossed grouped free s s := by
  have h : Glossed grouped free (s ++ []) (s ++ []) := Glossed.nil.same_append s
  rwa [List.append_nil] at h

/-! ### The front of a text -/

/-- Without the blanks at their fronts the texts have no differences there. -/
theorem front (h : Glossed grouped free s t) :
    Glossed grouped false (dropBlanks s) (dropBlanks t) := by
  induction h with
  | nil => exact .nil
  | @char _ c s t hc h ih =>
    cases hb : isBlank c with
    | true => simpa [dropBlanks, hb] using ih
    | false =>
      rw [dropBlanks_cons_of_not_isBlank hb, dropBlanks_cons_of_not_isBlank hb]
      exact .char hc h
  | glyph hg hx hy h =>
    rw [hx.dropBlanks_append hg, hy.dropBlanks_append hg]
    exact .glyph hg hx hy h
  | left he _ ih => simpa [dropBlanks, he] using ih
  | right he _ ih => simpa [dropBlanks, he] using ih

theorem head?_any (h : Glossed grouped false s t)
    (hp : ['π', '×', '·', '÷', '\\'].all (fun c => !p c) = true) :
    s.head?.any p = t.head?.any p := by
  cases h with
  | nil => rfl
  | char => rfl
  | glyph hg hx hy => rw [hx.head?_any hg hp, hy.head?_any hg hp]

/-- The texts begin with the same character if one of them begins with a plain one. -/
theorem head?_eq_iff (h : Glossed grouped false s t)
    (hc : c ∉ ['π', '×', '·', '÷', '\\']) : s.head? = some c ↔ t.head? = some c := by
  have hany : ∀ s : Text, s.head?.any (fun d => d = c) = true ↔ s.head? = some c := by
    intro s
    cases s <;> simp
  have hp : ['π', '×', '·', '÷', '\\'].all (fun d => !decide (d = c)) = true := by
    refine List.all_eq_true.mpr fun d hd => ?_
    have hne : d ≠ c := fun h => hc (h ▸ hd)
    simp [hne]
  rw [← hany, ← hany, h.head?_any hp]

/-- A text that begins with a plain character. -/
theorem of_cons (h : Glossed grouped false (c :: s) t) (hc : c ∉ ['π', '×', '·', '÷', '\\']) :
    ∃ t', t = c :: t' ∧ Glossed grouped (frees grouped c) s t' := by
  generalize hx : c :: s = x at h
  cases h with
  | nil => cases hx
  | char _ h =>
    obtain ⟨rfl, rfl⟩ := List.cons.inj hx
    exact ⟨_, rfl, h⟩
  | @glyph _ g name x y s' t' hg hspells hy h =>
    have hhead := hspells.head?_any (p := fun d => d = c) hg
      (List.all_eq_true.mpr fun d hd => by
        have hne : d ≠ c := fun h => hc (h ▸ hd)
        simp [hne]) s'
    rw [← hx] at hhead
    simp at hhead

theorem eq_nil (h : Glossed grouped false [] t) : t = [] := by
  generalize hx : ([] : Text) = x at h
  cases h with
  | nil => rfl
  | char => cases hx
  | glyph _ hspells => exact absurd (List.append_eq_nil_iff.mp hx.symm).1 hspells.ne_nil

/-! ### Runs of characters -/

/-- A property of characters that stand within words and numbers, before which there are no
blanks that differ. -/
structure Inner (grouped : Bool) (p : Char → Bool) : Prop where
  glyphs : ['π', '×', '·', '÷', '\\'].all (fun c => !p c) = true
  tight {c : Char} (hc : p c = true) : frees grouped c = false

theorem frees_of_isAlphanumeric (hc : isAlphanumeric c = true) : frees grouped c = false := by
  have hblank : isBlank c = false := by
    cases hb : isBlank c with
    | false => rfl
    | true => exact absurd (hc.symm.trans (isAlphanumeric_of_isBlank hb)) (by decide)
  have hopens := noBracket_of_isAlphanumeric hc
  have hcurly : c ≠ '\x7d' := (hopens.ne .curly).2
  have hsquare : c ≠ ']' := (hopens.ne .square).2
  simp [frees, hblank, hcurly, hsquare]

theorem inner_isAsciiLetter : Inner grouped isAsciiLetter where
  glyphs := by decide
  tight hc := frees_of_isAlphanumeric (isAlphanumeric_of_isAsciiLetter hc)

theorem inner_isDecimalDigit : Inner grouped isDecimalDigit where
  glyphs := by decide +kernel
  tight hc := frees_of_isAlphanumeric (by simp [isAlphanumeric, isDigit, hc])

/-- The texts begin with the same run of characters, and differ in spellings behind it. -/
theorem span (hp : Inner grouped p) (h : Glossed grouped false s t) :
    s.takeWhile p = t.takeWhile p ∧ Glossed grouped false (s.dropWhile p) (t.dropWhile p) := by
  generalize hfree : false = free at h
  induction h with
  | nil => exact ⟨rfl, .nil⟩
  | @char _ c s t hc h ih =>
    cases hpc : p c with
    | true =>
      have hrest := ih (hp.tight hpc).symm
      rw [hp.tight hpc] at hrest
      simp only [List.takeWhile_cons, List.dropWhile_cons, hpc, if_true]
      exact ⟨congrArg _ hrest.1, hrest.2.loosened⟩
    | false =>
      simp only [List.takeWhile_cons, List.dropWhile_cons, hpc, Bool.false_eq_true, if_false]
      exact ⟨trivial, .char hc h⟩
  | @glyph _ g name x y s t hg hx hy h =>
    have hstop : ∀ {x rest : Text}, Spelling g name rest x →
        (x ++ rest).takeWhile p = [] ∧ (x ++ rest).dropWhile p = x ++ rest := by
      intro x rest hx
      have hhead := hx.head?_any hg hp.glyphs rest
      have htake := takeWhile_append_of_head hhead []
      have hdrop := dropWhile_append_of_head hhead []
      rw [List.nil_append] at htake hdrop
      exact ⟨htake, hdrop⟩
    rw [(hstop hx).1, (hstop hx).2, (hstop hy).1, (hstop hy).2]
    exact ⟨rfl, .glyph hg hx hy h⟩
  | left | right => cases hfree

theorem leadingLetters_eq (h : Glossed grouped false s t) : leadingLetters s = leadingLetters t :=
  (h.span inner_isAsciiLetter).1

theorem drop_leadingLetters (h : Glossed grouped false s t) :
    Glossed grouped false (s.drop (leadingLetters s).length)
      (t.drop (leadingLetters t).length) := by
  rw [leadingLetters, leadingLetters, drop_length_takeWhile, drop_length_takeWhile]
  exact (h.span inner_isAsciiLetter).2

/-! ### The end of a text -/

/-- A bracket that closes a group ends the names of commands. -/
theorem append_closer (hc : c = '\x7d' ∨ c = ']') (h : Glossed grouped free a a')
    (hr : Glossed grouped (frees grouped c) r r') :
    Glossed grouped free (a ++ c :: r) (a' ++ c :: r') := by
  have hname : glyphName? c = none := by rcases hc with rfl | rfl <;> decide
  have hends : endsName c = true := by rcases hc with rfl | rfl <;> decide
  have hstop : ∀ {s r : Text}, s.head?.all endsName = true →
      (s ++ c :: r).head?.all endsName = true := by
    intro s r hs
    cases s with
    | nil => exact hends
    | cons d s => exact hs
  induction h with
  | nil => exact .char hname hr
  | char hd _ ih => exact .char hd ih
  | glyph hg hx hy _ ih =>
    rw [List.append_assoc, List.append_assoc]
    exact .glyph hg (hx.before hstop) (hy.before hstop) ih
  | left he _ ih => exact .left he ih
  | right he _ ih => exact .right he ih

end Glossed
end NumericAnswer
