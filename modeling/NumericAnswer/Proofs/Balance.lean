/-
# Nested brackets

Two ways to follow the brackets of a text: `nest` keeps the open ones of every
type, so that a bracket closes the one opened last; `walk` counts those of one
type. The groups of macros are found by counting.

Key definitions: `nest`, `Nested`, `walk`, `FollowsBrackets`.
Key theorems: `walk_of_nest`, `spanGroup_of_walk`, `walk_of_spanGroup_eq_none`,
`walks_of_macroArgument`.
-/
import NumericAnswer.Proofs.Text

namespace NumericAnswer

/-- The brackets that are open after a text, the last one first, when those in
`opened` are before it. Every bracket has to close one of its own type. -/
def nest (opened : List Bracket) : Text → Option (List Bracket)
  | [] => some opened
  | c :: s =>
    match Bracket.ofOpening? c, Bracket.ofClosing? c with
    | some b, _ => nest (b :: opened) s
    | none, some b => if opened.head? = some b then nest opened.tail s else none
    | none, none => nest opened s

/-- All brackets are well nested. -/
def Nested (s : Text) : Prop :=
  nest [] s = some []

instance (s : Text) : Decidable (Nested s) :=
  inferInstanceAs (Decidable (nest [] s = some []))

/-- The number of open brackets of one type after a text, when `depth` are open
before it. -/
def walk (b : Bracket) : Nat → Text → Option Nat
  | depth, [] => some depth
  | depth, c :: s =>
    if c = b.opening then walk b (depth + 1) s
    else if c = b.closing then
      match depth with
      | 0 => none
      | depth + 1 => walk b depth s
    else walk b depth s

/-! ### Nesting -/

theorem nest_append (opened : List Bracket) (s t : Text) :
    nest opened (s ++ t) = (nest opened s).bind fun opened => nest opened t := by
  induction s generalizing opened with
  | nil => rfl
  | cons c s ih =>
    simp only [List.cons_append, nest]
    split
    · exact ih _
    · split
      · exact ih _
      · rfl
    · exact ih _

/-- The character is no bracket. -/
def NoBracket (c : Char) : Prop :=
  Bracket.ofOpening? c = none ∧ Bracket.ofClosing? c = none

instance (c : Char) : Decidable (NoBracket c) :=
  inferInstanceAs (Decidable (_ ∧ _))

theorem nest_cons {c : Char} (h : NoBracket c) (opened : List Bracket) (s : Text) :
    nest opened (c :: s) = nest opened s := by
  simp [nest, h.1, h.2]

theorem nest_noBracket_append {s : Text} (h : ∀ c ∈ s, NoBracket c) (opened : List Bracket)
    (t : Text) : nest opened (s ++ t) = nest opened t := by
  induction s with
  | nil => rfl
  | cons c s ih =>
    rw [List.cons_append, nest_cons (h c (List.mem_cons_self ..))]
    exact ih fun d hd => h d (List.mem_cons_of_mem _ hd)

theorem nest_opening (b : Bracket) (opened : List Bracket) (s : Text) :
    nest opened (b.opening :: s) = nest (b :: opened) s := by
  cases b <;> rfl

theorem ofOpening?_closing (b : Bracket) : Bracket.ofOpening? b.closing = none := by
  cases b <;> rfl

theorem ofClosing?_closing (b : Bracket) : Bracket.ofClosing? b.closing = some b := by
  cases b <;> rfl

theorem nest_closing (b : Bracket) (opened : List Bracket) (s : Text) :
    nest opened (b.closing :: s) = if opened.head? = some b then nest opened.tail s else none := by
  simp only [nest, ofOpening?_closing, ofClosing?_closing]

/-- A closing bracket is well placed where its own kind is the innermost one open. -/
theorem nest_closing_eq_some_iff {b : Bracket} {opened out : List Bracket} {s : Text} :
    nest opened (b.closing :: s) = some out ↔
      ∃ outer, opened = b :: outer ∧ nest outer s = some out := by
  rw [nest_closing]
  constructor
  · intro h
    split at h
    · next hhead =>
      obtain ⟨outer, rfl⟩ := List.head?_eq_some_iff.mp hhead
      exact ⟨outer, rfl, h⟩
    · cases h
  · rintro ⟨outer, rfl, h⟩
    rwa [List.head?_cons, if_pos rfl]

/-- A class without brackets. -/
theorem noBracket_of_class {p : Char → Bool}
    (hp : ∀ b : Bracket, p b.opening = false ∧ p b.closing = false) {c : Char} (h : p c = true) :
    NoBracket c := by
  constructor
  · cases ho : Bracket.ofOpening? c with
    | none => rfl
    | some b =>
      rw [Bracket.ofOpening?_eq_some_iff.mp ho, (hp b).1] at h
      cases h
  · cases hc : Bracket.ofClosing? c with
    | none => rfl
    | some b =>
      rw [Bracket.ofClosing?_eq_some_iff.mp hc, (hp b).2] at h
      cases h

theorem noBracket_of_isAlphanumeric {c : Char} (h : isAlphanumeric c = true) : NoBracket c :=
  noBracket_of_class (fun b => by cases b <;> decide +kernel) h

theorem noBracket_of_isBlank {c : Char} (h : isBlank c = true) : NoBracket c :=
  noBracket_of_class (fun b => by cases b <;> decide +kernel) h

theorem isAlphanumeric_of_isAsciiLetter {c : Char} (h : isAsciiLetter c = true) :
    isAlphanumeric c = true :=
  isAlphanumeric_of_isLetter (isLetter_of_isAsciiLetter h)

/-! ### Counting -/

theorem walk_append (b : Bracket) (depth : Nat) (s t : Text) :
    walk b depth (s ++ t) = (walk b depth s).bind fun depth => walk b depth t := by
  induction s generalizing depth with
  | nil => rfl
  | cons c s ih =>
    simp only [List.cons_append, walk]
    split
    · exact ih _
    · split
      · cases depth with
        | zero => rfl
        | succ depth => exact ih depth
      · exact ih _

theorem opening_ne_closing (b : Bracket) : b.closing ≠ b.opening := by
  cases b <;> decide

theorem walk_opening (b : Bracket) (depth : Nat) (s : Text) :
    walk b depth (b.opening :: s) = walk b (depth + 1) s := by
  simp [walk]

theorem walk_closing (b : Bracket) (depth : Nat) (s : Text) :
    walk b (depth + 1) (b.closing :: s) = walk b depth s := by
  simp [walk, opening_ne_closing]

theorem walk_cons {b : Bracket} {c : Char} (ho : c ≠ b.opening) (hc : c ≠ b.closing) (depth : Nat)
    (s : Text) : walk b depth (c :: s) = walk b depth s := by
  simp [walk, ho, hc]

theorem NoBracket.ne {c : Char} (h : NoBracket c) (b : Bracket) :
    c ≠ b.opening ∧ c ≠ b.closing := by
  constructor
  · rintro rfl
    have := Bracket.ofOpening?_eq_some_iff.mpr (rfl : b.opening = b.opening)
    rw [h.1] at this
    cases this
  · rintro rfl
    have := ofClosing?_closing b
    rw [h.2] at this
    cases this

theorem walk_noBracket_append {s : Text} (h : ∀ c ∈ s, NoBracket c) (b : Bracket) (depth : Nat)
    (t : Text) : walk b depth (s ++ t) = walk b depth t := by
  induction s with
  | nil => rfl
  | cons c s ih =>
    obtain ⟨ho, hc⟩ := (h c (List.mem_cons_self ..)).ne b
    rw [List.cons_append, walk_cons ho hc]
    exact ih fun d hd => h d (List.mem_cons_of_mem _ hd)

/-- More open brackets before a text stay open. -/
theorem walk_add {b : Bracket} : ∀ {s : Text} {depth e : Nat}, walk b depth s = some e →
    ∀ k, walk b (depth + k) s = some (e + k)
  | [], depth, e, h, k => by
    obtain rfl := Option.some.inj h
    rfl
  | c :: s, depth, e, h, k => by
    by_cases ho : c = b.opening
    · rw [ho, walk_opening] at h ⊢
      rw [Nat.add_right_comm]
      exact walk_add h k
    · by_cases hc : c = b.closing
      · subst hc
        cases depth with
        | zero => simp [walk, opening_ne_closing] at h
        | succ depth =>
          rw [walk_closing] at h
          rw [Nat.add_right_comm, walk_closing]
          exact walk_add h k
      · rw [walk_cons ho hc] at h ⊢
        exact walk_add h k

theorem walk_opening_other {b b' : Bracket} (h : b' ≠ b) (depth : Nat) (s : Text) :
    walk b depth (b'.opening :: s) = walk b depth s := by
  refine walk_cons ?_ ?_ depth s <;> revert h <;> cases b <;> cases b' <;> decide

theorem walk_closing_other {b b' : Bracket} (h : b' ≠ b) (depth : Nat) (s : Text) :
    walk b depth (b'.closing :: s) = walk b depth s := by
  refine walk_cons ?_ ?_ depth s <;> revert h <;> cases b <;> cases b' <;> decide

/-- Counting follows nesting. -/
theorem walk_of_nest (b : Bracket) : ∀ {s : Text} {opened opened' : List Bracket},
    nest opened s = some opened' → walk b (opened.count b) s = some (opened'.count b)
  | [], opened, opened', h => by
    obtain rfl := Option.some.inj h
    rfl
  | c :: s, opened, opened', h => by
    cases ho : Bracket.ofOpening? c with
    | some b' =>
      obtain rfl := Bracket.ofOpening?_eq_some_iff.mp ho
      rw [nest_opening] at h
      have hw := walk_of_nest b h
      by_cases hb : b' = b
      · subst hb
        rw [walk_opening]
        rwa [List.count_cons_self] at hw
      · rw [walk_opening_other hb]
        rwa [List.count_cons_of_ne hb] at hw
    | none =>
      cases hc : Bracket.ofClosing? c with
      | some b' =>
        obtain rfl := Bracket.ofClosing?_eq_some_iff.mp hc
        obtain ⟨outer, rfl, hrest⟩ := nest_closing_eq_some_iff.mp h
        have hw := walk_of_nest b hrest
        by_cases hb : b' = b
        · subst hb
          rwa [List.count_cons_self, walk_closing]
        · rwa [List.count_cons_of_ne hb, walk_closing_other hb]
      | none =>
        obtain ⟨ho', hc'⟩ := NoBracket.ne ⟨ho, hc⟩ b
        rw [nest_cons ⟨ho, hc⟩] at h
        rw [walk_cons ho' hc']
        exact walk_of_nest b h

theorem walk_of_nested {s : Text} (h : Nested s) (b : Bracket) : walk b 0 s = some 0 :=
  walk_of_nest b h

/-! ### Groups -/

/-- A group that is counted out ends at the bracket after it. -/
theorem spanGroup_of_walk {b : Bracket} : ∀ {s : Text} {depth : Nat}, walk b depth s = some 0 →
    ∀ rest, spanGroup b depth (s ++ b.closing :: rest) = some (s, rest)
  | [], depth, h, rest => by
    obtain rfl := Option.some.inj h
    simp [spanGroup, opening_ne_closing]
  | c :: s, depth, h, rest => by
    rw [List.cons_append]
    unfold spanGroup
    by_cases ho : c = b.opening
    · rw [ho, walk_opening] at h
      rw [if_pos ho, spanGroup_of_walk h]
      rfl
    · rw [if_neg ho]
      by_cases hc : c = b.closing
      · rw [if_pos hc]
        cases depth with
        | zero => simp [walk, hc, opening_ne_closing] at h
        | succ depth =>
          rw [hc, walk_closing] at h
          simp only [spanGroup_of_walk h]
          rfl
      · rw [walk_cons ho hc] at h
        rw [if_neg hc, spanGroup_of_walk h]
        rfl

/-- What a span holds is counted out. -/
theorem walk_of_spanGroup {b : Bracket} : ∀ {s : Text} {depth : Nat} {content rest : Text},
    spanGroup b depth s = some (content, rest) → walk b depth content = some 0
  | [], _, _, _, h => by simp [spanGroup] at h
  | c :: s, depth, content, rest, h => by
    unfold spanGroup at h
    split at h
    · next ho =>
      obtain ⟨⟨content', rest'⟩, hs, he⟩ := Option.map_eq_some_iff.mp h
      obtain ⟨rfl, rfl⟩ := Prod.mk.inj he
      rw [ho, walk_opening]
      exact walk_of_spanGroup hs
    · next ho =>
      split at h
      · next hc =>
        split at h
        · obtain ⟨rfl, rfl⟩ := Prod.mk.inj (Option.some.inj h)
          rfl
        · obtain ⟨⟨content', rest'⟩, hs, he⟩ := Option.map_eq_some_iff.mp h
          obtain ⟨rfl, rfl⟩ := Prod.mk.inj he
          rw [hc, walk_closing]
          exact walk_of_spanGroup hs
      · next hc =>
        obtain ⟨⟨content', rest'⟩, hs, he⟩ := Option.map_eq_some_iff.mp h
        obtain ⟨rfl, rfl⟩ := Prod.mk.inj he
        rw [walk_cons ho hc]
        exact walk_of_spanGroup hs

/-- A group that is never closed leaves its bracket open. -/
theorem walk_of_spanGroup_eq_none {b : Bracket} : ∀ {s : Text} {depth : Nat},
    spanGroup b depth s = none → ∃ e, walk b (depth + 1) s = some (e + 1)
  | [], depth, _ => ⟨depth, rfl⟩
  | c :: s, depth, hs => by
    unfold spanGroup at hs
    split at hs
    · next ho =>
      rw [ho, walk_opening]
      exact walk_of_spanGroup_eq_none (Option.map_eq_none_iff.mp hs)
    · next ho =>
      split at hs
      · next hc =>
        split at hs
        · cases hs
        · rw [hc, walk_closing]
          exact walk_of_spanGroup_eq_none (Option.map_eq_none_iff.mp hs)
      · next hc =>
        rw [walk_cons ho hc]
        exact walk_of_spanGroup_eq_none (Option.map_eq_none_iff.mp hs)

/-- Counting in a text means counting in its parts. -/
def Walks (b : Bracket) (depth : Nat) (s t : Text) (e : Nat) : Prop :=
  ∃ m, walk b depth s = some m ∧ walk b m t = some e

theorem walks_of_append {b : Bracket} {depth e : Nat} {s t : Text}
    (h : walk b depth (s ++ t) = some e) : Walks b depth s t e := by
  rw [walk_append] at h
  exact Option.bind_eq_some_iff.mp h

/-- The brackets of a group do not count. -/
theorem walks_of_group {b b' : Bracket} {depth e : Nat} {s t : Text} (hs : walk b' 0 s = some 0)
    (h : walk b depth (b'.opening :: (s ++ b'.closing :: t)) = some e) : Walks b depth s t e := by
  by_cases hb : b' = b
  · subst hb
    have hd := walk_add hs depth
    rw [Nat.zero_add] at hd
    rw [walk_opening, walk_append, walk_add hd 1, Option.bind_some, walk_closing] at h
    exact ⟨depth, hd, h⟩
  · rw [walk_opening_other hb, walk_append] at h
    obtain ⟨m, hm, ht⟩ := Option.bind_eq_some_iff.mp h
    rw [walk_closing_other hb] at ht
    exact ⟨m, hm, ht⟩

/-- A text may be put into brackets. -/
theorem walk_group_of_walks {b : Bracket} (b' : Bracket) {depth e : Nat} {s t : Text}
    (h : Walks b depth s t e) :
    walk b depth (b'.opening :: (s ++ b'.closing :: t)) = some e := by
  obtain ⟨m, hm, ht⟩ := h
  by_cases hb : b' = b
  · subst hb
    rw [walk_opening, walk_append, walk_add hm 1, Option.bind_some, walk_closing]
    exact ht
  · rw [walk_opening_other hb, walk_append, hm, Option.bind_some, walk_closing_other hb]
    exact ht

/-! ### Well-nested parts -/

theorem nested_of_noBracket {s : Text} (h : ∀ c ∈ s, NoBracket c) : Nested s := by
  have hs := nest_noBracket_append h [] []
  rw [List.append_nil] at hs
  exact hs

theorem nested_of_isAllBlank {s : Text} (h : isAllBlank s = true) : Nested s :=
  nested_of_noBracket fun c hc => noBracket_of_isBlank (List.all_eq_true.mp h c hc)

/-- Brackets that are open before a text do not matter if it closes none of them. -/
theorem nest_append_opened : ∀ {s : Text} {opened opened' : List Bracket},
    nest opened s = some opened' → ∀ more, nest (opened ++ more) s = some (opened' ++ more)
  | [], opened, opened', h, more => by
    obtain rfl := Option.some.inj h
    rfl
  | c :: s, opened, opened', h, more => by
    cases ho : Bracket.ofOpening? c with
    | some b =>
      obtain rfl := Bracket.ofOpening?_eq_some_iff.mp ho
      rw [nest_opening] at h ⊢
      exact nest_append_opened h more
    | none =>
      cases hc : Bracket.ofClosing? c with
      | some b =>
        obtain rfl := Bracket.ofClosing?_eq_some_iff.mp hc
        obtain ⟨outer, rfl, hrest⟩ := nest_closing_eq_some_iff.mp h
        rw [List.cons_append]
        exact nest_closing_eq_some_iff.mpr ⟨_, rfl, nest_append_opened hrest more⟩
      | none =>
        rw [nest_cons ⟨ho, hc⟩] at h ⊢
        exact nest_append_opened h more

theorem nest_of_nested {s : Text} (h : Nested s) (opened : List Bracket) :
    nest opened s = some opened :=
  nest_append_opened h opened

/-- A scan from left to right that comes out of a well-nested part as it went in. -/
structure FollowsBrackets {σ : Type} (scan : σ → Text → Option σ) : Prop where
  append : ∀ x s t, scan x (s ++ t) = (scan x s).bind fun y => scan y t
  nested : ∀ {s : Text}, Nested s → ∀ x, scan x s = some x

theorem followsBrackets_nest : FollowsBrackets nest where
  append := nest_append
  nested := nest_of_nested

theorem followsBrackets_walk (b : Bracket) : FollowsBrackets (walk b) where
  append := walk_append b
  nested h depth := by
    have hw := walk_add (walk_of_nested h b) depth
    rwa [Nat.zero_add] at hw

namespace FollowsBrackets

variable {σ : Type} {scan : σ → Text → Option σ} (hscan : FollowsBrackets scan)
include hscan

theorem nested_append {s : Text} (hs : Nested s) (x : σ) (t : Text) :
    scan x (s ++ t) = scan x t := by
  rw [hscan.append, hscan.nested hs, Option.bind_some]

theorem append_nested {t : Text} (ht : Nested t) (x : σ) (s : Text) :
    scan x (s ++ t) = scan x s := by
  rw [hscan.append]
  simp only [hscan.nested ht]
  cases scan x s <;> rfl

theorem cons {c : Char} (hc : NoBracket c) (x : σ) (s : Text) : scan x (c :: s) = scan x s :=
  hscan.nested_append (s := [c]) (nested_of_noBracket (by simpa using hc)) x s

theorem dropBlanks (x : σ) (s : Text) : scan x (dropBlanks s) = scan x s := by
  obtain ⟨blanks, hblanks, hs⟩ := exists_blanks_append s
  exact ((congrArg (scan x) hs).trans (hscan.nested_append (nested_of_isAllBlank hblanks) x _)).symm

theorem strip (x : σ) (s : Text) : scan x (strip s) = scan x s := by
  obtain ⟨u, v, hu, hv, hs⟩ := exists_blanks_strip s
  calc scan x (NumericAnswer.strip s)
      = scan x (NumericAnswer.strip s ++ v) := (hscan.append_nested (nested_of_isAllBlank hv) x _).symm
    _ = scan x (u ++ (NumericAnswer.strip s ++ v)) :=
        (hscan.nested_append (nested_of_isAllBlank hu) x _).symm
    _ = scan x s := (congrArg (scan x) hs).symm

end FollowsBrackets

/-! ### Groups in a well-nested text -/

section Nest

variable {b : Bracket} {s rest : Text} {opened out : List Bracket}

/-- A text that closes no more brackets of a type than it opens reaches none that
is open below one of this type. The brackets open above that one are `inner`. -/
theorem nest_above : ∀ {s : Text} {inner : List Bracket} {e : Nat},
    walk b (inner.count b) s = some e → nest (inner ++ b :: opened) s = some out →
      ∃ above, nest inner s = some above ∧ out = above ++ b :: opened
  | [], inner, e, _, hn => ⟨inner, rfl, (Option.some.inj hn).symm⟩
  | c :: s, inner, e, hw, hn => by
    cases ho : Bracket.ofOpening? c with
    | some b' =>
      obtain rfl := Bracket.ofOpening?_eq_some_iff.mp ho
      rw [nest_opening] at hn ⊢
      refine @nest_above s (b' :: inner) e ?_ hn
      by_cases hb : b' = b
      · subst hb
        rwa [walk_opening, ← List.count_cons_self] at hw
      · rwa [walk_opening_other hb, ← List.count_cons_of_ne hb] at hw
    | none =>
      cases hc : Bracket.ofClosing? c with
      | some b' =>
        obtain rfl := Bracket.ofClosing?_eq_some_iff.mp hc
        rw [nest_closing] at hn ⊢
        split at hn
        · next hh =>
          cases inner with
          | nil =>
            -- The text would close one bracket more than it opens.
            obtain rfl : b = b' := by simpa using hh
            simp [walk, opening_ne_closing] at hw
          | cons b'' inner =>
            obtain rfl : b'' = b' := by simpa using hh
            rw [List.head?_cons, if_pos rfl]
            refine @nest_above s inner e ?_ hn
            by_cases hb : b'' = b
            · subst hb
              rwa [List.count_cons_self, walk_closing] at hw
            · rwa [List.count_cons_of_ne hb, walk_closing_other hb] at hw
        · cases hn
      | none =>
        rw [nest_cons ⟨ho, hc⟩] at hn ⊢
        obtain ⟨ho', hc'⟩ := NoBracket.ne ⟨ho, hc⟩ b
        rw [walk_cons ho' hc'] at hw
        exact nest_above hw hn

/-- What is counted out up to a closing bracket is well nested. -/
theorem nested_of_closing (hw : walk b 0 s = some 0)
    (hn : nest (b :: opened) (s ++ b.closing :: rest) = some out) :
    Nested s ∧ nest opened rest = some out := by
  rw [nest_append] at hn
  obtain ⟨middle, hmiddle, hn⟩ := Option.bind_eq_some_iff.mp hn
  obtain ⟨above, habove, rfl⟩ := @nest_above b opened middle s [] 0 hw hmiddle
  have hcount : above.count b = 0 := by
    have hwalk := walk_of_nest b habove
    rw [List.count_nil, hw] at hwalk
    exact (Option.some.inj hwalk).symm
  rw [nest_closing] at hn
  cases above with
  | nil => exact ⟨habove, by simpa using hn⟩
  | cons b' above =>
    have hne : b' ≠ b := by
      rintro rfl
      simp at hcount
    simp [hne] at hn

/-- In a well-nested text a group that is counted out is well nested. -/
theorem nested_of_group (hw : walk b 0 s = some 0)
    (hn : nest opened (b.opening :: (s ++ b.closing :: rest)) = some out) :
    Nested s ∧ nest opened rest = some out := by
  rw [nest_opening] at hn
  exact nested_of_closing hw hn

theorem nest_group (hs : Nested s) :
    nest opened (b.opening :: (s ++ b.closing :: rest)) = nest opened rest := by
  rw [nest_opening, followsBrackets_nest.nested_append hs, nest_closing]
  simp

end Nest

/-! ### Arguments -/

theorem noBracket_of_isName {s : Text} (h : ∀ c ∈ s, isAsciiLetter c = true) :
    ∀ c ∈ s, NoBracket c :=
  fun c hc => noBracket_of_isAlphanumeric (isAlphanumeric_of_isAsciiLetter (h c hc))

theorem walk_dropBlanks (b : Bracket) (depth : Nat) (s : Text) :
    walk b depth (dropBlanks s) = walk b depth s :=
  (followsBrackets_walk b).dropBlanks depth s

/-- What an argument of a macro is: a group in braces, a word with its groups,
a command, or a character. -/
inductive MacroArgument : Text → Text → Text → Prop where
  | group {t argument rest : Text} (h : spanGroup .curly 0 t = some (argument, rest)) :
      MacroArgument ('\x7b' :: t) argument rest
  | word {t groups rest : Text} (w : Text) (hw : w ∈ groupedWords)
      (h : absorbGroups t = .ok (groups, rest)) : MacroArgument (w ++ t) (w ++ groups) rest
  | command (t : Text) :
      MacroArgument ('\\' :: t) ('\\' :: leadingLetters t) (t.dropWhile isAsciiLetter)
  | character {c : Char} (t : Text) (ho : c ≠ '\x7b') (hc : c ≠ '\x7d') (hb : c ≠ '\\') :
      MacroArgument (c :: t) [c] t

theorem macroArgument_cases {s argument rest : Text} (h : macroArgument s = .ok (argument, rest)) :
    ∃ t, dropBlanks s = t ∧ MacroArgument t argument rest := by
  unfold macroArgument at h
  simp only at h
  split at h
  · next hs =>
    obtain ⟨t, ht⟩ := List.head?_eq_some_iff.mp hs
    have ho : Bracket.ofOpening? '\x7b' = some .curly := rfl
    simp only [ht, readGroup, ho] at h
    split at h
    · next group hg =>
      obtain rfl := Except.ok.inj h
      exact ⟨_, ht, .group hg⟩
    · cases h
  · split at h
    · next hw =>
      obtain ⟨⟨groups, after⟩, ha, he⟩ := exists_of_map_ok h
      obtain ⟨rfl, rfl⟩ := Prod.mk.inj he
      exact ⟨_, (leadingLetters_append _).symm, .word _ (by simpa using hw) ha⟩
    · cases hs : dropBlanks s with
      | nil => rw [hs] at h; cases h
      | cons c t =>
        rw [hs] at h
        simp only [singleToken] at h
        split at h
        · cases h
        · next hc =>
          simp only [Bool.or_eq_true, decide_eq_true_eq, not_or] at hc
          split at h
          · next hb =>
            obtain ⟨rfl, rfl⟩ := Prod.mk.inj (Except.ok.inj h)
            rw [hb]
            exact ⟨_, rfl, .command t⟩
          · next hb =>
            obtain ⟨rfl, rfl⟩ := Prod.mk.inj (Except.ok.inj h)
            exact ⟨_, rfl, .character t hc.1 hc.2 hb⟩

/-- Taking out an argument of a macro leaves the brackets that count in place. -/
theorem walks_of_macroArgument {b : Bracket} {depth e : Nat} {s argument rest : Text}
    (h : macroArgument s = .ok (argument, rest)) (hw : walk b depth s = some e) :
    Walks b depth argument rest e := by
  rw [← walk_dropBlanks] at hw
  obtain ⟨t, ht, hm⟩ := macroArgument_cases h
  rw [ht] at hw
  cases hm with
  | group hg =>
    rw [← append_of_spanGroup hg] at hw
    exact @walks_of_group _ .curly _ _ _ _ (walk_of_spanGroup hg) hw
  | word w _ ha =>
    rw [← append_of_absorbGroups ha, ← List.append_assoc] at hw
    exact walks_of_append hw
  | command t =>
    rw [← leadingLetters_append_dropWhile t, ← List.cons_append] at hw
    exact walks_of_append hw
  | @character c t => exact walks_of_append (s := [c]) hw

end NumericAnswer
