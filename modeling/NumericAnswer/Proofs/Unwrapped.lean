/-
# Texts without wrappers

An answer without dollar signs and display brackets has no wrapper to drop, and
neither has a text that a form makes of such answers, if none of them ends in a
backslash. An answer that the cosmetic stages rewrite without a hitch does not.

Key definitions: `Undisplayed`, `Form.Unwrapped`.
Key theorems: `unwrapped_eq_strip`, `unwrapped_wrapped`, `Canonical.getLast?_ne_of_chain`,
`Form.unwrapped_text`.
-/
import Mathlib.Data.List.Chain
import NumericAnswer.Proofs.Acceptance
import NumericAnswer.Proofs.Form
import NumericAnswer.Proofs.Stability

namespace NumericAnswer

/-! ### Texts that do not end in a backslash -/

/-- A strict run that looks behind backslashes finds none at the end. -/
theorem Rewrites.getLast?_ne {rule : Rule} (hr : rule.LeavesBackslash) {b : Option Char}
    {s t : Text} (h : Rewrites true (.escape rule) b s t) : s.getLast? ≠ some '\\' := by
  induction h with
  | nil => simp
  | @keep b c s t h _ ih =>
    cases s with
    | nil =>
      rintro hc
      obtain rfl : c = '\\' := by simpa using hc
      simp [Stage.escape, Stage.substitution, hr.1] at h
    | cons d s => simpa using ih
  | @move b b' c s out rest t h _ ih =>
    unfold Stage.escape Stage.substitution at h
    split at h
    · next r n hrule =>
      obtain ⟨rfl, rfl, rfl⟩ := Found.step.inj h
      intro hlast
      cases s with
      | nil =>
        obtain rfl : c = '\\' := by simpa using hlast
        exact absurd (hr.1.symm.trans hrule) (by simp)
      | cons d s =>
        rw [List.getLast?_cons_cons] at hlast
        by_cases hn : n < (d :: s).length
        · rw [List.getLast?_drop, if_neg (by omega)] at ih
          exact ih hlast
        · have htake := hr.2 hrule
          rw [List.take_of_length_le (by omega)] at htake
          exact htake hlast
    · split at h <;> cases h
  | leave hs => cases hs
  | quit hs => cases hs

namespace Rule

theorem backslash_notMem_take_blanks (s : Text) : '\\' ∉ s.take (blankLength s) := by
  unfold blankLength
  rw [take_length_takeWhile]
  exact notMem_backslash_of_isAllBlank List.all_takeWhile

/-- A command that goes with text after it in which there is no backslash. -/
theorem takesNoBackslash_command {names : List Text} {length : Text → Nat}
    (hlength : ∀ s : Text, '\\' ∉ s.take (length s)) :
    (command names fun n rest => some ([], n + length rest)).TakesNoBackslash := by
  intro c s r n h hmem
  simp only [command] at h
  split at h
  · obtain ⟨rfl, rfl⟩ := Prod.mk.inj (Option.some.inj h)
    rw [List.take_add, List.mem_append, take_leadingLetters] at hmem
    rcases hmem with hmem | hmem
    · exact backslash_notMem_leadingLetters s hmem
    · exact hlength _ hmem
  · cases h

theorem takesNoBackslash_style : style.TakesNoBackslash :=
  takesNoBackslash_command backslash_notMem_take_blanks

theorem takesNoBackslash_sizing : sizing.TakesNoBackslash := by
  have heq : sizing = command sizingNames fun n rest => some ([], n + (blankLength rest +
      if (dropBlanks rest).head? = some '.' then 1 else 0)) := by
    simp only [sizing_eq, Nat.add_assoc]
  rw [heq]
  refine takesNoBackslash_command fun s hmem => ?_
  rw [List.take_add, List.mem_append, drop_blankLength] at hmem
  rcases hmem with hmem | hmem
  · exact backslash_notMem_take_blanks s hmem
  · split at hmem
    · next hp =>
      obtain ⟨t, ht⟩ := List.head?_eq_some_iff.mp hp
      rw [ht] at hmem
      simp at hmem
    · cases hmem

theorem takesNoBackslash_spacing : spacing.TakesNoBackslash := by
  intro c s r n h
  unfold spacing at h
  split at h
  · obtain ⟨rfl, rfl⟩ := Prod.mk.inj (Option.some.inj h)
    simp
  · split at h
    · next hc =>
      obtain ⟨rfl, rfl⟩ := Prod.mk.inj (Option.some.inj h)
      simp only [Bool.and_eq_true, decide_eq_true_eq] at hc
      cases s with
      | nil => simp
      | cons d s =>
        have hd : d ∈ spacingSigns := by simpa using hc.2
        have hsigns : '\\' ∉ spacingSigns := by decide
        have hne : '\\' ≠ d := fun he => hsigns (he ▸ hd)
        simpa using hne
    · simp only [command] at h
      split at h
      · obtain ⟨rfl, rfl⟩ := Prod.mk.inj (Option.some.inj h)
        rw [take_leadingLetters]
        exact backslash_notMem_leadingLetters s
      · cases h

end Rule


namespace Canonical

/-- An answer that the cosmetic stages rewrite without a hitch does not end in a
backslash. -/
theorem getLast?_ne_of_chain {s t : Text} (h : Chain true cosmeticStages s t) :
    s.getLast? ≠ some '\\' := by
  obtain ⟨s₁, h₁, s₂, h₂, s₃, h₃, -⟩ := h
  intro hlast
  have hm₁ := Stage.spares_backslash (Rule.takesNoBackslash_style.leavesBackslash (by decide))
    h₁.lenient (marked_nil_iff.mpr hlast)
  have hm₂ := Stage.spares_backslash (Rule.takesNoBackslash_sizing.leavesBackslash (by decide))
    h₂.lenient hm₁
  exact h₃.getLast?_ne (Rule.takesNoBackslash_spacing.leavesBackslash (by decide))
    (marked_nil_iff.mp hm₂)

end Canonical

/-- So does the text with blanks around it. -/
theorem getLast?_ne_of_strip {c : Char} (hc : isBlank c = false) {s : Text}
    (h : (strip s).getLast? ≠ some c) : s.getLast? ≠ some c := by
  obtain ⟨u, v, hu, hv, hs⟩ := exists_blanks_strip s
  have hblank : ∀ {bl : Text}, isAllBlank bl = true → bl.getLast? ≠ some c := by
    intro bl hbl hlast
    have hb := List.all_eq_true.mp hbl c (List.mem_of_getLast? hlast)
    rw [hc] at hb
    cases hb
  rw [hs, List.getLast?_append, List.getLast?_append, Ne, Option.or_eq_some_iff,
    Option.or_eq_some_iff]
  rintro ((hlast | ⟨_, hlast⟩) | ⟨_, hlast⟩)
  · exact hblank hv hlast
  · exact h hlast
  · exact hblank hu hlast

/-! ### Wrappers -/

/-- The brackets that open or close a display after a backslash. -/
def displayBrackets : List Char :=
  ['(', ')', '[', ']']

/-- No bracket of a display stands in the text. -/
def Undisplayed (s : Text) : Prop :=
  s.IsChain fun c d => c = '\\' → d ∉ displayBrackets

instance (s : Text) : Decidable (Undisplayed s) :=
  inferInstanceAs (Decidable (s.IsChain _))

theorem Undisplayed.of_notMem : ∀ {s : Text}, '\\' ∉ s → Undisplayed s
  | [], _ => .nil
  | [c], _ => .singleton c
  | c :: d :: s, h => by
    obtain ⟨hc, htail⟩ := List.ne_and_not_mem_of_not_mem_cons h
    exact .cons_cons (fun heq => absurd heq.symm hc) (of_notMem htail)

theorem Undisplayed.append {s t : Text} (hs : Undisplayed s) (ht : Undisplayed t)
    (hlast : s.getLast? ≠ some '\\') : Undisplayed (s ++ t) := by
  refine List.isChain_append.mpr ⟨hs, ht, ?_⟩
  rintro c hc d _ rfl
  exact absurd hc hlast

/-- A text without backslashes may follow. -/
theorem Undisplayed.append_notMem {s t : Text} (hs : Undisplayed s) (hlast : s.getLast? ≠ some '\\')
    (ht : '\\' ∉ t) : Undisplayed (s ++ t) ∧ (s ++ t).getLast? ≠ some '\\' := by
  refine ⟨hs.append (.of_notMem ht) hlast, ?_⟩
  rw [List.getLast?_append]
  cases h : t.getLast? with
  | none => exact hlast
  | some c =>
    intro hc
    obtain rfl := Option.some.inj hc
    exact ht (List.mem_of_getLast? h)

theorem UnaryFunction.undisplayed (f : UnaryFunction) : Undisplayed ('\\' :: f.name.toList) ∧
    ('\\' :: f.name.toList).getLast? ≠ some '\\' ∧ '$' ∉ f.name.toList := by
  cases f <;> decide

theorem Undisplayed.of_infix {s t : Text} (h : Undisplayed t) (hs : s <:+: t) : Undisplayed s :=
  List.IsChain.infix h hs

theorem Undisplayed.strip {s : Text} (h : Undisplayed s) : Undisplayed (strip s) := by
  obtain ⟨u, v, -, -, hs⟩ := exists_blanks_strip s
  refine h.of_infix ⟨u, v, ?_⟩
  rw [List.append_assoc]
  exact hs.symm

theorem Undisplayed.dropDisplayOpening_eq {s : Text} (h : Undisplayed s) :
    dropDisplayOpening s = s := by
  unfold dropDisplayOpening
  split
  · simp [Undisplayed, displayBrackets] at h
  · simp [Undisplayed, displayBrackets] at h
  · rfl

theorem Undisplayed.dropDisplayClosing_eq {s : Text} (h : Undisplayed s) :
    dropDisplayClosing s = s := by
  have hs : s.reverse.IsChain fun c d => d = '\\' → c ∉ displayBrackets :=
    List.isChain_reverse.mpr h
  unfold dropDisplayClosing
  split
  · next heq => simp [heq, displayBrackets] at hs
  · next heq => simp [heq, displayBrackets] at hs
  · rfl

theorem dropBlanks_strip (s : Text) : dropBlanks (strip s) = strip s := by
  have hp : strip s <+: dropBlanks s := by
    have hsuffix := List.dropWhile_suffix (l := (dropBlanks s).reverse) isBlank
    rw [← List.reverse_prefix, List.reverse_reverse] at hsuffix
    exact hsuffix
  cases hs : strip s with
  | nil => rfl
  | cons c t =>
    obtain ⟨r, hr⟩ := hp
    rw [hs, List.cons_append] at hr
    exact dropBlanks_cons_of_not_isBlank (not_isBlank_of_dropBlanks hr.symm) t

theorem strip_strip (s : Text) : strip (strip s) = strip s := by
  conv_lhs => rw [strip, dropBlanks_strip, strip, List.reverse_reverse, dropBlanks_dropBlanks]
  rfl

/-- An answer without dollar signs loses a display and the blanks around it. -/
theorem unwrapped_of_notMem {s : Text} (hdollar : '$' ∉ s) :
    unwrapped s = strip (dropDisplayClosing (dropDisplayOpening (strip s))) := by
  have hdollar : '$' ∉ strip s := by
    obtain ⟨u, v, -, -, hs⟩ := exists_blanks_strip s
    intro hm
    exact hdollar (hs ▸ List.mem_append_right _ (List.mem_append_left _ hm))
  rw [unwrapped, stripDollars_eq_self hdollar, strip_strip]

/-- An answer without wrappers loses the blanks around it only. -/
theorem unwrapped_eq_strip {s : Text} (hdollar : '$' ∉ s) (h : Undisplayed s) :
    unwrapped s = strip s := by
  rw [unwrapped_of_notMem hdollar, h.strip.dropDisplayOpening_eq, h.strip.dropDisplayClosing_eq,
    strip_strip]

section Displays

variable {s : Text}

theorem dropDisplayOpening_cons {d : Char} (hd : d ≠ '\\') (s : Text) :
    dropDisplayOpening (d :: s) = d :: s := by
  unfold dropDisplayOpening
  split
  · next h => exact absurd (List.cons.inj h).1 hd
  · next h => exact absurd (List.cons.inj h).1 hd
  · rfl

theorem dropDisplayOpening_escape (d : Char) (s : Text) : dropDisplayOpening ('\\' :: d :: s) =
    if d = '[' ∨ d = '(' then s else '\\' :: d :: s := by
  unfold dropDisplayOpening
  split <;> simp_all

theorem dropDisplayClosing_escape (s : Text) (d e : Char) : dropDisplayClosing (s ++ [d, e]) =
    if d = '\\' ∧ (e = ']' ∨ e = ')') then s else s ++ [d, e] := by
  unfold dropDisplayClosing
  rw [List.reverse_append]
  split
  · next r heq =>
    obtain ⟨rfl, rfl, rfl⟩ : e = ']' ∧ d = '\\' ∧ s.reverse = r := by simpa using heq
    simp
  · next r heq =>
    obtain ⟨rfl, rfl, rfl⟩ : e = ')' ∧ d = '\\' ∧ s.reverse = r := by simpa using heq
    simp
  · next hsquare hround =>
    rw [if_neg]
    rintro ⟨rfl, rfl | rfl⟩
    · exact hsquare s.reverse rfl
    · exact hround s.reverse rfl

theorem dropDisplayClosing_of_notMem {s : Text} (h : '\\' ∉ s) : dropDisplayClosing s = s :=
  (Undisplayed.of_notMem h).dropDisplayClosing_eq

/-- A bracket that closes a display stands behind a character that is no backslash. -/
theorem dropDisplayClosing_append {c : Char} (hc : c ≠ '\\') {x b : Text}
    (hlast : b = [] → x.getLast? = some '\\' → c ≠ ']' ∧ c ≠ ')') :
    dropDisplayClosing (x ++ c :: b) = x ++ c :: dropDisplayClosing b := by
  rcases List.eq_nil_or_concat b with rfl | ⟨b, e, rfl⟩
  · have hnil : dropDisplayClosing [] = [] := rfl
    rw [hnil]
    rcases List.eq_nil_or_concat x with rfl | ⟨x, d, rfl⟩
    · exact dropDisplayClosing_of_notMem (by simpa using hc.symm)
    · rw [List.concat_eq_append] at hlast ⊢
      rw [List.append_assoc, List.singleton_append, dropDisplayClosing_escape, if_neg]
      rintro ⟨rfl, hclosing⟩
      have hne := hlast rfl (by simp)
      exact hclosing.elim hne.1 hne.2
  · rw [List.concat_eq_append]
    rcases List.eq_nil_or_concat b with rfl | ⟨b, d, rfl⟩
    · have hone : dropDisplayClosing [e] = [e] := by simp [dropDisplayClosing]
      have hpair := dropDisplayClosing_escape x c e
      rw [if_neg fun h => hc h.1] at hpair
      simpa [hone] using hpair
    · have hsplit : x ++ c :: ((b ++ [d]) ++ [e]) = (x ++ c :: b) ++ [d, e] := by simp
      have hsplit' : (b ++ [d]) ++ [e] = b ++ [d, e] := by simp
      rw [List.concat_eq_append, hsplit, dropDisplayClosing_escape, hsplit',
        dropDisplayClosing_escape]
      split <;> simp

/-- A display that is opened, or nothing. -/
def displayOpenings : List Text :=
  [[], ['\\', '['], ['\\', '(']]

/-- A display that is closed, or nothing. -/
def displayClosings : List Text :=
  [[], ['\\', ']'], ['\\', ')']]

theorem exists_displayOpening (s : Text) : ∃ p ∈ displayOpenings, s = p ++ dropDisplayOpening s := by
  unfold dropDisplayOpening
  split
  · exact ⟨['\\', '['], by simp [displayOpenings], rfl⟩
  · exact ⟨['\\', '('], by simp [displayOpenings], rfl⟩
  · exact ⟨[], by simp [displayOpenings], rfl⟩

theorem exists_displayClosing (s : Text) : ∃ q ∈ displayClosings, s = dropDisplayClosing s ++ q := by
  unfold dropDisplayClosing
  split
  · next r heq =>
    exact ⟨['\\', ']'], by simp [displayClosings], by rw [← List.reverse_reverse s, heq]; simp⟩
  · next r heq =>
    exact ⟨['\\', ')'], by simp [displayClosings], by rw [← List.reverse_reverse s, heq]; simp⟩
  · exact ⟨[], by simp [displayClosings], (List.append_nil s).symm⟩

theorem Undisplayed.dropDisplayOpening_append {e : Char} (h : Undisplayed s) (he : e = ']' ∨ e = ')') :
    dropDisplayOpening (s ++ ['\\', e]) = s ++ ['\\', e] := by
  have hkeep : ∀ {d : Char} {x : Text}, d ∉ ['[', '('] →
      dropDisplayOpening ('\\' :: d :: x) = '\\' :: d :: x := by
    intro d x hd
    rw [dropDisplayOpening_escape, if_neg (by simpa using hd)]
  cases s with
  | nil => exact hkeep (by rcases he with rfl | rfl <;> decide)
  | cons c s =>
    by_cases hc : c = '\\'
    · subst hc
      cases s with
      | nil => exact hkeep (by decide)
      | cons d s =>
        have hd : d ∉ displayBrackets := (List.isChain_cons_cons.mp h).1 rfl
        refine hkeep fun hm => hd ?_
        simp only [List.mem_cons, List.not_mem_nil, or_false] at hm
        rcases hm with rfl | rfl <;> decide
    · exact dropDisplayOpening_cons hc _

/-- A text that shows no brackets of a display is what is left when it loses wrappers. -/
theorem unwrapped_wrapped {p q : Text} (hp : p ∈ displayOpenings) (hq : q ∈ displayClosings)
    (hs : Undisplayed s) (hdollar : '$' ∉ s) : unwrapped (p ++ (s ++ q)) = strip s := by
  have hdollars : '$' ∉ p ++ (s ++ q) := by
    have hall : ∀ w ∈ displayOpenings ++ displayClosings, '$' ∉ w := by decide
    simp only [List.mem_append, not_or]
    exact ⟨hall p (List.mem_append_left _ hp), hdollar, hall q (List.mem_append_right _ hq)⟩
  -- A display bracket ends what is stripped.
  have hclosed : ∀ {e : Char} (x : Text), isBlank e = false →
      ((x ++ ['\\', e]).reverse.dropWhile isBlank).reverse = x ++ ['\\', e] := by
    intro e x he
    have happend := reverse_dropWhile_reverse_append he (x ++ ['\\']) []
    simpa using happend
  have hopened : ∀ {f : Char} (x : Text), isBlank f = false →
      strip ('\\' :: f :: x) = '\\' :: f :: (x.reverse.dropWhile isBlank).reverse := by
    intro f x hf
    have happend := reverse_dropWhile_reverse_append hf ['\\'] x
    rw [strip, dropBlanks_cons_of_not_isBlank (by decide)]
    exact happend
  have hend : s = (s.reverse.dropWhile isBlank).reverse ++ (s.reverse.takeWhile isBlank).reverse := by
    rw [← List.reverse_append, List.takeWhile_append_dropWhile, List.reverse_reverse]
  have hopening : p = [] ∨ ∃ f, p = ['\\', f] ∧ (f = '[' ∨ f = '(') ∧ isBlank f = false := by
    simp only [displayOpenings, List.mem_cons, List.not_mem_nil, or_false] at hp
    rcases hp with rfl | rfl | rfl
    exacts [.inl rfl, .inr ⟨_, rfl, .inl rfl, rfl⟩, .inr ⟨_, rfl, .inr rfl, rfl⟩]
  have hclosing : q = [] ∨ ∃ e, q = ['\\', e] ∧ (e = ']' ∨ e = ')') ∧ isBlank e = false := by
    simp only [displayClosings, List.mem_cons, List.not_mem_nil, or_false] at hq
    rcases hq with rfl | rfl | rfl
    exacts [.inl rfl, .inr ⟨_, rfl, .inl rfl, rfl⟩, .inr ⟨_, rfl, .inr rfl, rfl⟩]
  rcases hopening with rfl | ⟨f, rfl, hf, hblank⟩ <;> rcases hclosing with rfl | ⟨e, rfl, he, hblank'⟩
  · rw [List.nil_append, List.append_nil]
    exact unwrapped_eq_strip hdollar hs
  · have hfront : dropBlanks (s ++ ['\\', e]) = dropBlanks s ++ ['\\', e] := by
      by_cases hnil : dropBlanks s = []
      · rw [hnil, dropBlanks_of_isAllBlank (dropBlanks_eq_nil_iff.mp hnil)]
        rfl
      · exact dropBlanks_append hnil _
    have hstrip : strip (s ++ ['\\', e]) = dropBlanks s ++ ['\\', e] := by
      rw [strip, hfront]
      exact hclosed (dropBlanks s) hblank'
    have hsuffix : dropBlanks s <:+ s := List.dropWhile_suffix _
    rw [unwrapped_of_notMem hdollars, List.nil_append, hstrip,
      (hs.of_infix (List.IsSuffix.isInfix hsuffix)).dropDisplayOpening_append he,
      dropDisplayClosing_escape, if_pos ⟨rfl, he⟩, strip, dropBlanks_dropBlanks]
    rfl
  · rw [unwrapped_of_notMem hdollars, List.append_nil, List.cons_append, List.singleton_append,
      hopened s hblank, dropDisplayOpening_escape, if_pos hf]
    have hfront : (s.reverse.dropWhile isBlank).reverse <+: s := ⟨_, hend.symm⟩
    have hblanks : isAllBlank (s.reverse.takeWhile isBlank).reverse = true := by
      rw [isAllBlank, List.all_reverse]
      exact List.all_takeWhile
    rw [(hs.of_infix (List.IsPrefix.isInfix hfront)).dropDisplayClosing_eq]
    conv_rhs => rw [hend]
    exact (strip_blanks (show isAllBlank [] = true from rfl) hblanks _).symm
  · rw [unwrapped_of_notMem hdollars, List.cons_append, List.singleton_append, hopened _ hblank,
      hclosed s hblank', dropDisplayOpening_escape, if_pos hf, dropDisplayClosing_escape,
      if_pos ⟨rfl, he⟩]

end Displays

/-! ### Forms without wrappers -/

theorem undisplayed_flatten : ∀ {parts : List Text},
    (∀ part ∈ parts, Undisplayed part ∧ part.getLast? ≠ some '\\') → Undisplayed parts.flatten
  | [], _ => .nil
  | part :: parts, h => by
    obtain ⟨hpart, hlast⟩ := h part (List.mem_cons_self ..)
    exact hpart.append (undisplayed_flatten fun p hp => h p (List.mem_cons_of_mem _ hp)) hlast

namespace Form

variable {F : Form} {x y : Text}

/-- The pieces and the answers in their order. -/
def parts (F : Form) (x y : Text) : List Text :=
  (F.frame x y).flatMap (fun part => [part.1, part.2]) ++ [F.last]

theorem text_eq_flatten : F.text x y = (F.parts x y).flatten := by
  unfold text parts
  induction F.frame x y with
  | nil => simp
  | cons part fs ih => simpa using ih

theorem mem_parts {part : Text} (h : part ∈ F.parts x y) :
    part ∈ F.pieces ∨ part = x ∨ part = y := by
  unfold parts frame at h
  rcases List.mem_append.mp h with h | h
  · obtain ⟨_, hframe, h⟩ := List.mem_flatMap.mp h
    obtain ⟨mark, hmark, rfl⟩ := List.mem_map.mp hframe
    simp only [List.mem_cons, List.not_mem_nil, or_false] at h
    rcases h with rfl | rfl
    · exact .inl (List.mem_append_left _ (List.mem_map_of_mem hmark))
    · cases mark.2 with
      | first => exact .inr (.inl rfl)
      | second => exact .inr (.inr rfl)
  · exact .inl (List.mem_append_right _ h)

/-- What the form puts around the answers is no wrapper, and no blanks. -/
structure Unwrapped (F : Form) : Prop where
  dollar : '$' ∉ F.pieces.flatten
  display : ∀ l ∈ F.pieces, Undisplayed l ∧ l.getLast? ≠ some '\\'
  first : (F.pieces.head?.bind List.head?).any (fun c => !isBlank c) = true
  last : F.last.getLast?.any (fun c => !isBlank c) = true

instance (F : Form) : Decidable F.Unwrapped :=
  decidable_of_iff ('$' ∉ F.pieces.flatten ∧
      (∀ l ∈ F.pieces, Undisplayed l ∧ l.getLast? ≠ some '\\') ∧
      (F.pieces.head?.bind List.head?).any (fun c => !isBlank c) = true ∧
      F.last.getLast?.any (fun c => !isBlank c) = true)
    ⟨fun ⟨h₁, h₂, h₃, h₄⟩ => ⟨h₁, h₂, h₃, h₄⟩, fun ⟨h₁, h₂, h₃, h₄⟩ => ⟨h₁, h₂, h₃, h₄⟩⟩

theorem head?_text (h : (F.pieces.head?.bind List.head?).any (fun c => !isBlank c) = true) :
    (F.text x y).head?.any isBlank = false := by
  have hhead : (F.text x y).head? = F.pieces.head?.bind List.head? := by
    obtain ⟨_ | ⟨⟨l, place⟩, marks⟩, last⟩ := F
    · rfl
    · cases l with
      | nil => simp [pieces] at h
      | cons c l => rfl
  rw [hhead]
  cases hc : F.pieces.head?.bind List.head? with
  | none => rfl
  | some c => simpa [hc] using h

theorem getLast?_text (h : F.last.getLast?.any (fun c => !isBlank c) = true) :
    (F.text x y).getLast?.any isBlank = false := by
  cases hc : F.last.getLast? with
  | none => simp [hc] at h
  | some c =>
    rw [text, List.getLast?_append, hc]
    simpa [hc] using h

/-- The text of such a form loses nothing, if the answers have no wrappers and
do not end in a backslash. -/
theorem unwrapped_text (h : F.Unwrapped) (hx : '$' ∉ x ∧ Undisplayed x ∧ x.getLast? ≠ some '\\')
    (hy : '$' ∉ y ∧ Undisplayed y ∧ y.getLast? ≠ some '\\') :
    unwrapped (F.text x y) = F.text x y := by
  have hdollar : '$' ∉ F.text x y := by
    rw [text_eq_flatten]
    intro hm
    obtain ⟨part, hpart, hd⟩ := List.mem_flatten.mp hm
    rcases mem_parts hpart with hpart | rfl | rfl
    · exact h.dollar (List.mem_flatten.mpr ⟨part, hpart, hd⟩)
    · exact hx.1 hd
    · exact hy.1 hd
  have hdisplay : Undisplayed (F.text x y) := by
    rw [text_eq_flatten]
    refine undisplayed_flatten fun part hpart => ?_
    rcases mem_parts hpart with hpart | rfl | rfl
    · exact h.display part hpart
    · exact hx.2
    · exact hy.2
  rw [unwrapped_eq_strip hdollar hdisplay]
  exact strip_eq_self (head?_text h.first) (getLast?_text h.last)

end Form

end NumericAnswer
