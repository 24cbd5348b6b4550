/-
# Arguments in respaced texts

A macro takes the same arguments from texts that differ in their blanks, with one exception: a
canonical word that is taken as an argument takes along the groups right behind it, and a blank
before one of them ends the row. A word that is followed by blanks and another group is torn;
where no macro takes a torn word, the passes make respaced texts of respaced texts.

Key definitions: `Taken`, `BuildsAlike`, `Pass.Steady`, `Pass.RunsAlike`, `Canonical.untorn`.
Key theorems: `taken_macroArgument`, `taken_functionArgument`, `Pass.runsAlike_step`,
`Pass.runsAlike`, `Canonical.respaced_afterPasses`.
-/
import NumericAnswer.Proofs.Grouping
import NumericAnswer.Proofs.Respaced
import NumericAnswer.Proofs.Shapes

namespace NumericAnswer

/-- A letter, as it stands behind the backslash of a command. -/
def IsLetter (d : Char) : Prop :=
  isAsciiLetter d = true

theorem IsLetter.ne_backslash {d : Char} (hd : IsLetter d) : d ≠ '\\' := by
  rintro rfl
  cases hd

/-- The character opens a group of a row. -/
def opensRow (c : Char) : Bool :=
  c = '\x7b' || c = '['

/-- The groups at the front of the text are followed by blanks and another group. -/
def tornGroups (s : Text) : Bool :=
  match absorbGroups s with
  | .ok (_, rest) =>
    rest.head?.any isBlank && (dropBlanks rest).head?.any opensRow
  | .error _ => false

/-- The argument at the front is a canonical word whose row of groups is torn. -/
def tornArgument (s : Text) : Bool :=
  let word := leadingLetters (dropBlanks s)
  groupedWords.contains word && tornGroups ((dropBlanks s).drop word.length)

/-- Both texts have a group or an argument at the front, or neither has one for the same
reason. -/
inductive Taken (loose : Bool) : Except Refusal (Text × Text) → Except Refusal (Text × Text) → Prop
  | ok {a a' r r' : Text} (ha : Respaced loose IsLetter a a') (hr : Respaced loose IsLetter r r') :
      Taken loose (.ok (a, r)) (.ok (a', r'))
  | error (refusal : Refusal) : Taken loose (.error refusal) (.error refusal)

/-- The same of a span. -/
inductive Spanned (loose : Bool) : Option (Text × Text) → Option (Text × Text) → Prop
  | some {a a' r r' : Text} (ha : Respaced loose IsLetter a a') (hr : Respaced loose IsLetter r r') :
      Spanned loose (some (a, r)) (some (a', r'))
  | none : Spanned loose none none

section Taken

variable {loose : Bool} {x y : Except Refusal (Text × Text)}

theorem Taken.bind {k k' : Text × Text → Except Refusal (Text × Text)} (h : Taken loose x y)
    (hk : ∀ {a a' r r'}, x = .ok (a, r) → y = .ok (a', r') → Respaced loose IsLetter a a' →
      Respaced loose IsLetter r r' → Taken loose (k (a, r)) (k' (a', r'))) :
    Taken loose (x >>= k) (y >>= k') := by
  cases h with
  | ok ha hr => exact hk rfl rfl ha hr
  | error refusal => exact .error refusal

theorem Taken.map {f g : Text → Text} (h : Taken loose x y)
    (hf : ∀ {a a'}, Respaced loose IsLetter a a' → Respaced loose IsLetter (f a) (g a')) :
    Taken loose (x.map fun p => (f p.1, p.2)) (y.map fun p => (g p.1, p.2)) := by
  cases h with
  | ok ha hr => exact .ok (hf ha) hr
  | error refusal => exact .error refusal

theorem Spanned.map {x y : Option (Text × Text)} {f g : Text → Text} (h : Spanned loose x y)
    (hf : ∀ {a a'}, Respaced loose IsLetter a a' → Respaced loose IsLetter (f a) (g a')) :
    Spanned loose (x.map fun p => (f p.1, p.2)) (y.map fun p => (g p.1, p.2)) := by
  cases h with
  | some ha hr => exact .some (hf ha) hr
  | none => exact .none

end Taken

/-! ### Groups -/

section Groups

variable {loose : Bool} {s t : Text} {bracket : Bracket}

theorem spanGroup_cons (bracket : Bracket) (depth : Nat) (c : Char) (s : Text) :
    spanGroup bracket depth (c :: s) =
      if c = bracket.opening then (spanGroup bracket (depth + 1) s).map fun p => (c :: p.1, p.2)
      else if c = bracket.closing then
        match depth with
        | 0 => some ([], s)
        | depth + 1 => (spanGroup bracket depth s).map fun p => (c :: p.1, p.2)
      else (spanGroup bracket depth s).map fun p => (c :: p.1, p.2) := by
  cases depth <;> rfl

theorem spanGroup_noBracket_append {w : Text} (hw : ∀ c ∈ w, NoBracket c) (depth : Nat) (s : Text) :
    spanGroup bracket depth (w ++ s) =
      (spanGroup bracket depth s).map fun p => (w ++ p.1, p.2) := by
  induction w with
  | nil => simp
  | cons c w ih =>
    obtain ⟨ho, hc⟩ := (hw c (List.mem_cons_self ..)).ne bracket
    rw [List.cons_append, spanGroup_cons, if_neg ho, if_neg hc,
      ih fun d hd => hw d (List.mem_cons_of_mem _ hd), Option.map_map]
    rfl

theorem noBracket_of_isAllBlank {b : Text} (hb : isAllBlank b = true) : ∀ c ∈ b, NoBracket c :=
  fun c hc => noBracket_of_isBlank (List.all_eq_true.mp hb c hc)

/-- A group ends at the same bracket. -/
theorem spanned_spanGroup (h : Respaced loose IsLetter s t) : ∀ depth,
    Spanned loose (spanGroup bracket depth s) (spanGroup bracket depth t) := by
  induction h with
  | @ends b b' hb =>
    intro depth
    have hnone : ∀ {b : Text}, isAllBlank b = true → spanGroup bracket depth b = none := by
      intro b hb
      rw [← List.append_nil b, spanGroup_noBracket_append (noBracket_of_isAllBlank hb)]
      rfl
    rw [hnone hb.left, hnone hb.right]
    exact .none
  | @char b b' c s t hb hblank hc h ih =>
    intro depth
    rw [spanGroup_noBracket_append (noBracket_of_isAllBlank hb.left),
      spanGroup_noBracket_append (noBracket_of_isAllBlank hb.right), spanGroup_cons, spanGroup_cons]
    have hgo : ∀ depth, Spanned loose
        (((spanGroup bracket depth s).map fun p => (c :: p.1, p.2)).map fun p => (b ++ p.1, p.2))
        (((spanGroup bracket depth t).map fun p => (c :: p.1, p.2)).map fun p => (b' ++ p.1, p.2)) := by
      intro depth
      rw [Option.map_map, Option.map_map]
      exact (ih depth).map fun ha => .char hb hblank hc ha
    split
    · exact hgo (depth + 1)
    · split
      · next hclose =>
        cases depth with
        | zero =>
          have hopens : opens c = false := by rw [hclose]; cases bracket <;> rfl
          refine .some ?_ h
          rw [List.append_nil, List.append_nil]
          exact .ends (hb.rows hopens)
        | succ depth => exact hgo depth
      · exact hgo depth
  | @command b b' d s t hb hd h ih =>
    intro depth
    have hw : ∀ {b : Text}, isAllBlank b = true → ∀ c ∈ b ++ ['\\', d], NoBracket c := by
      intro b hb c hc
      simp only [List.mem_append, List.mem_cons, List.not_mem_nil, or_false] at hc
      rcases hc with hc | rfl | rfl
      · exact noBracket_of_isAllBlank hb c hc
      · exact noBracket_backslash
      · exact noBracket_of_isAlphanumeric (isAlphanumeric_of_isAsciiLetter hd)
    rw [List.append_cons, List.append_cons b', List.append_cons, List.append_cons (b' ++ _),
      List.append_assoc b, List.append_assoc b', List.singleton_append,
      spanGroup_noBracket_append (hw hb.left), spanGroup_noBracket_append (hw hb.right)]
    refine (ih depth).map fun ha => ?_
    rw [List.append_assoc, List.append_assoc]
    exact .command hb hd ha

theorem taken_readGroup (h : Respaced loose IsLetter s t) (c : Char) :
    Taken loose (readGroup (c :: s)) (readGroup (c :: t)) := by
  cases hb : Bracket.ofOpening? c with
  | none =>
    simp only [readGroup, hb]
    exact .error .absent
  | some bracket =>
    have hspan := @spanned_spanGroup loose s t bracket h 0
    simp only [readGroup, hb]
    generalize spanGroup bracket 0 s = x, spanGroup bracket 0 t = y at hspan
    cases hspan with
    | some ha hr => exact .ok ha hr
    | none => exact .error (.unclosed bracket)

theorem opens_of_opensRow {c : Char} (h : opensRow c = true) : opens c = true := by
  simp only [opensRow, Bool.or_eq_true, decide_eq_true_eq] at h
  rcases h with rfl | rfl <;> rfl

theorem opensRow_of_ofOpening? {c : Char} (hb : Bracket.ofOpening? c = some bracket)
    (hround : bracket ≠ .round) : opensRow c = true := by
  obtain rfl := Bracket.ofOpening?_eq_some_iff.mp hb
  cases bracket with
  | round => exact absurd rfl hround
  | square | curly => rfl

theorem opensRow_eq_false {c : Char}
    (h : Bracket.ofOpening? c = none ∨ Bracket.ofOpening? c = some .round) : opensRow c = false := by
  cases hc : opensRow c with
  | false => rfl
  | true =>
    simp only [opensRow, Bool.or_eq_true, decide_eq_true_eq] at hc
    rcases hc with rfl | rfl <;> simp [Bracket.ofOpening?] at h

theorem absorbGroups_of_head (h : s.head?.any opensRow = false) : absorbGroups s = .ok ([], s) := by
  cases s with
  | nil => rw [absorbGroups]
  | cons c s =>
    rw [absorbGroups]
    cases hb : Bracket.ofOpening? c with
    | none => rfl
    | some bracket =>
      cases bracket with
      | round => rfl
      | square | curly =>
        obtain rfl := Bracket.ofOpening?_eq_some_iff.mp hb
        cases h

theorem tornGroups_blanks_append {b : Text} {c : Char} (hb : isAllBlank b = true) (hne : b ≠ [])
    (hc : opensRow c = true) (s : Text) : tornGroups (b ++ c :: s) = true := by
  obtain ⟨e, b, rfl⟩ := List.exists_cons_of_ne_nil hne
  have he : isBlank e = true := by
    simp only [isAllBlank, List.all_cons, Bool.and_eq_true] at hb
    exact hb.1
  have hrow : opensRow e = false := opensRow_eq_false (.inl (noBracket_of_isBlank he).1)
  have hblank : isBlank c = false := not_isBlank_of_opens (opens_of_opensRow hc)
  rw [tornGroups, absorbGroups_of_head (by simpa using hrow)]
  simp only
  rw [dropBlanks_of_isAllBlank hb, dropBlanks_cons_of_not_isBlank hblank]
  simpa [he] using hc

/-- Blanks before a group of a row are in both texts or in none. -/
theorem Gap.eq_nil_of_untorn {b : Text} {c : Char} (h : Gap loose c [] b) (hc : opensRow c = true)
    (htorn : loose = true → tornGroups (b ++ c :: s) = false) : b = [] := by
  rcases h with h | ⟨hloose, -, -, hb⟩
  · exact h.nil_iff.mp rfl
  · by_contra hne
    exact absurd ((htorn hloose).symm.trans (tornGroups_blanks_append hb hne hc s)) (by decide)

theorem tornGroups_cons {c : Char} {content rest : Text} (hb : Bracket.ofOpening? c = some bracket)
    (hround : bracket ≠ .round) (hspan : spanGroup bracket 0 s = some (content, rest)) :
    tornGroups (c :: s) = tornGroups rest := by
  rw [tornGroups, absorbGroups_cons hb hround hspan, tornGroups]
  cases absorbGroups rest <;> rfl

theorem absorbGroups_unclosed {c : Char} (hb : Bracket.ofOpening? c = some bracket)
    (hround : bracket ≠ .round) (hspan : spanGroup bracket 0 s = none) :
    absorbGroups (c :: s) = .error (.unclosed bracket) := by
  rw [absorbGroups, hb]
  cases bracket with
  | round => exact absurd rfl hround
  | square | curly => simp only; split <;> simp_all

/-- A row of groups that is torn in neither text. -/
theorem taken_absorbGroups (h : Respaced loose IsLetter s t)
    (htorn : loose = true → tornGroups s = false ∧ tornGroups t = false) :
    Taken loose (absorbGroups s) (absorbGroups t) := by
  have hnothing : ∀ {s t : Text}, Respaced loose IsLetter s t → s.head?.any opensRow = false →
      (loose = true → tornGroups s = false) → absorbGroups t = .ok ([], t) := by
    intro s t h hs htorn
    refine absorbGroups_of_head ?_
    cases t with
    | nil => rfl
    | cons c t =>
      cases hc : opensRow c with
      | false => exact hc
      | true =>
        have hopens := opens_of_opensRow hc
        obtain ⟨b, s', rfl, hgap, -⟩ := h.symm.of_cons (not_isBlank_of_opens hopens)
          (ne_backslash_of_opens hopens)
        obtain rfl := hgap.eq_nil_of_untorn hc htorn
        exact absurd (hs.symm.trans hc) (by decide)
  have hgroup : ∀ {c : Char} {s t : Text} {bracket : Bracket}, Respaced loose IsLetter (c :: s) t →
      Bracket.ofOpening? c = some bracket → bracket ≠ .round →
      (loose = true → tornGroups t = false) → ∃ t', t = c :: t' ∧ Respaced loose IsLetter s t' := by
    intro c s t bracket h hb hround htorn
    have hc := opensRow_of_ofOpening? hb hround
    have hopens := opens_of_opensRow hc
    obtain ⟨b, t', rfl, hgap, hrest⟩ := h.of_cons (not_isBlank_of_opens hopens)
      (ne_backslash_of_opens hopens)
    obtain rfl := hgap.eq_nil_of_untorn hc htorn
    exact ⟨t', rfl, hrest⟩
  fun_induction absorbGroups s generalizing t with
  | case1 =>
    obtain rfl := h.eq_nil
    rw [absorbGroups]
    exact .ok .nil .nil
  | case2 c s hc =>
    rw [hnothing h (opensRow_eq_false (.inl hc)) fun hl => (htorn hl).1]
    exact .ok .nil h
  | case3 c s hc =>
    rw [hnothing h (opensRow_eq_false (.inr hc)) fun hl => (htorn hl).1]
    exact .ok .nil h
  | case4 c s bracket hround hb hspan =>
    obtain ⟨t, rfl, hrest⟩ := hgroup h hb hround fun hl => (htorn hl).2
    have hspans := @spanned_spanGroup loose s t bracket hrest 0
    rw [hspan] at hspans
    generalize hspan' : spanGroup bracket 0 t = y at hspans
    cases hspans
    rw [absorbGroups_unclosed hb hround hspan']
    exact .error _
  | case5 c s bracket hround hb content rest hspan ih =>
    obtain ⟨t, rfl, hrest⟩ := hgroup h hb hround fun hl => (htorn hl).2
    have hspans := @spanned_spanGroup loose s t bracket hrest 0
    rw [hspan] at hspans
    generalize hspan' : spanGroup bracket 0 t = y at hspans
    cases hspans with
    | @some _ content' _ rest' ha hr =>
      rw [absorbGroups_cons hb hround hspan']
      rw [tornGroups_cons hb hround hspan, tornGroups_cons hb hround hspan'] at htorn
      have hopens : opens c = true := by rw [opens, hb]; rfl
      refine (ih hr htorn).map fun hgroups => Respaced.cons (not_isBlank_of_opens hopens)
        (ne_backslash_of_opens hopens) (ha.append (hgroups.cons ?_ ?_)) <;> cases bracket <;> decide

end Groups
/-! ### Arguments -/

section Arguments

variable {loose : Bool} {s t : Text}

theorem notMem_backslash_of_letters {w : Text} (hw : ∀ c ∈ w, isAsciiLetter c = true) : '\\' ∉ w :=
  fun hm => absurd (hw _ hm) (by decide)

theorem commanded_command {w : Text} (hw : ∀ c ∈ w, isAsciiLetter c = true) (hne : w ≠ []) :
    Commanded IsLetter ('\\' :: w) := by
  obtain ⟨d, w, rfl⟩ := List.exists_cons_of_ne_nil hne
  refine .escape (hw d (List.mem_cons_self ..)) (commanded_of_notMem ?_)
  exact notMem_backslash_of_letters fun c hc => hw c (List.mem_cons_of_mem _ hc)

theorem taken_singleToken (h : Respaced.Front loose IsLetter s t) :
    Taken loose (singleToken s) (singleToken t) := by
  cases h with
  | ends => exact .error .absent
  | @char c s t hblank hc h =>
    have htoken : ∀ s, singleToken (c :: s) =
        if c = '\x7b' || c = '\x7d' then .error .absent else .ok ([c], s) := by
      intro s
      simp [singleToken, hc]
    rw [htoken, htoken]
    split
    · exact .error .absent
    · exact .ok (Respaced.nil.cons hblank hc) h
  | @command d s t hd h =>
    have hword := h.cons (isBlank_of_lexeme_char (.inl hd)) (IsLetter.ne_backslash hd)
    obtain ⟨hletters, hrest⟩ := hword.span solid_isAsciiLetter
    have hs : singleToken ('\\' :: d :: s) = .ok ('\\' :: leadingLetters (d :: s),
      (d :: s).dropWhile isAsciiLetter) := rfl
    have ht : singleToken ('\\' :: d :: t) = .ok ('\\' :: leadingLetters (d :: t),
      (d :: t).dropWhile isAsciiLetter) := rfl
    rw [hs, ht, hword.leadingLetters_eq]
    refine .ok (commanded_command isAsciiLetter_of_mem_leadingLetters ?_).respaced hrest
    simp only [leadingLetters, List.takeWhile_cons, show isAsciiLetter d = true from hd, if_true]
    exact List.cons_ne_nil _ _

theorem taken_macroArgument (h : Respaced loose IsLetter s t)
    (htorn : loose = true → tornArgument s = false ∧ tornArgument t = false) :
    Taken loose (macroArgument s) (macroArgument t) := by
  have hfront := h.front
  unfold tornArgument at htorn
  unfold macroArgument
  generalize dropBlanks s = u, dropBlanks t = v at hfront htorn
  have hrespaced := hfront.respaced
  have hletters := hrespaced.leadingLetters_eq
  have hhead : u.head? = v.head? := by cases hfront <;> rfl
  simp only at htorn ⊢
  rw [hhead, hletters]
  split
  · cases hfront with
    | ends => exact .error .absent
    | char hblank hc h => exact taken_readGroup h _
    | command hd h => exact .error .absent
  · split
    · next hword =>
      have hgroups := hrespaced.drop_leadingLetters
      rw [hletters] at hgroups htorn
      simp only [hword, Bool.true_and] at htorn
      exact (taken_absorbGroups hgroups htorn).map fun ha =>
        ha.plain_append (notMem_backslash_of_letters isAsciiLetter_of_mem_leadingLetters)
    · exact taken_singleToken hfront

/-- Both texts have the same word at the front, or neither has one. -/
inductive SameWord (loose : Bool) : Option (Text × Text) → Option (Text × Text) → Prop
  | some (w : Text) {r r' : Text} (hr : Respaced loose IsLetter r r') :
      SameWord loose (some (w, r)) (some (w, r'))
  | none : SameWord loose none none

theorem sameWord_bareNumber (h : Respaced loose IsLetter s t) :
    SameWord loose (bareNumber s) (bareNumber t) := by
  obtain ⟨hwhole, hafter⟩ := h.span solid_isDecimalDigit
  by_cases hpoint : (s.dropWhile isDecimalDigit).head? = some '.'
  · obtain ⟨u, hu⟩ := List.head?_eq_some_iff.mp hpoint
    rw [hu] at hafter
    obtain ⟨v, hv, hrest⟩ := hafter.exists_cons (by decide) (by decide) (by decide)
    obtain ⟨hfraction, hlast⟩ := hrest.span solid_isDecimalDigit
    unfold bareNumber
    simp only [hu, hv, hwhole, hfraction]
    split
    · split
      · exact .none
      · exact .some _ (hrest.cons (by decide) (by decide))
    · exact .some _ hlast
  · have hpoint' : (t.dropWhile isDecimalDigit).head? ≠ some '.' := by
      intro hp
      obtain ⟨v, hv⟩ := List.head?_eq_some_iff.mp hp
      rw [hv] at hafter
      obtain ⟨u, hu, -⟩ := hafter.symm.exists_cons (by decide) (by decide) (by decide)
      exact hpoint (by rw [hu]; rfl)
    rw [bareNumber_eq hpoint, bareNumber_eq hpoint', hwhole]
    split
    · exact .none
    · exact .some _ hafter

theorem sameWord_bareOperand (h : Respaced.Front loose IsLetter s t) :
    SameWord loose (bareOperand s) (bareOperand t) := by
  have hplain : ∀ {s t : Text}, s.head? ≠ some '\\' → t.head? ≠ some '\\' →
      Respaced loose IsLetter s t → SameWord loose (bareOperand s) (bareOperand t) := by
    intro s t hs ht h
    rw [bareOperand_eq hs, bareOperand_eq ht, h.leadingLetters_eq]
    split
    · exact sameWord_bareNumber h
    · exact .some _ (h.span solid_isAsciiLetter).2
  cases h with
  | ends => exact hplain (by decide) (by decide) .nil
  | char hblank hc h => exact hplain (by simpa using hc) (by simpa using hc) (h.cons hblank hc)
  | @command d s t hd h =>
    have hword := h.cons (isBlank_of_lexeme_char (.inl hd)) (IsLetter.ne_backslash hd)
    simp only [bareOperand, hword.leadingLetters_eq]
    split
    · exact .none
    · exact .some _ (hword.span solid_isAsciiLetter).2

theorem commanded_of_bareOperand {w rest : Text} (h : bareOperand s = some (w, rest)) :
    Commanded IsLetter w := by
  by_cases hs : s.head? = some '\\'
  · obtain ⟨t, rfl⟩ := List.head?_eq_some_iff.mp hs
    simp only [bareOperand] at h
    split at h
    · cases h
    · next hne =>
      obtain ⟨rfl, -⟩ := Prod.mk.inj (Option.some.inj h)
      exact commanded_command isAsciiLetter_of_mem_leadingLetters (by simpa using hne)
  · rw [bareOperand_eq hs] at h
    refine commanded_of_notMem ?_
    split at h
    · intro hm
      rcases isDecimalDigit_of_bareNumber h _ hm with hm | hm <;> exact absurd hm (by decide)
    · obtain ⟨rfl, -⟩ := Prod.mk.inj (Option.some.inj h)
      exact notMem_backslash_of_letters isAsciiLetter_of_mem_leadingLetters

/-- A canonical word that is a bare operand is all letters that begin the text. -/
theorem leadingLetters_of_bareOperand {w rest : Text} (h : bareOperand s = some (w, rest))
    (hw : w ∈ groupedWords) : leadingLetters s = w ∧ s.drop w.length = rest := by
  have hletters := isAsciiLetter_of_mem_groupedWords hw
  have happend := append_of_bareOperand h
  have hne : w ≠ [] := by
    rintro rfl
    exact absurd hw (by decide)
  obtain ⟨d, w, rfl⟩ := List.exists_cons_of_ne_nil hne
  have hd := hletters d (List.mem_cons_self ..)
  have hhead : s.head? ≠ some '\\' := by
    rw [← happend]
    intro hd'
    rw [Option.some.inj hd'] at hd
    cases hd
  rw [bareOperand_eq hhead] at h
  split at h
  · next hempty =>
    rw [← happend] at hempty
    simp [leadingLetters, hd] at hempty
  · obtain ⟨hw, -⟩ := Prod.mk.inj (Option.some.inj h)
    refine ⟨hw, ?_⟩
    rw [← happend]
    exact List.drop_left

theorem taken_functionArgument (h : Respaced loose IsLetter s t)
    (htorn : loose = true → tornArgument s = false ∧ tornArgument t = false) :
    Taken loose (functionArgument s) (functionArgument t) := by
  have hfront := h.front
  unfold tornArgument at htorn
  unfold functionArgument
  generalize dropBlanks s = u, dropBlanks t = v at hfront htorn
  have hhead : u.head? = v.head? := by cases hfront <;> rfl
  have hoperand := sameWord_bareOperand hfront
  simp only at htorn ⊢
  rw [hhead]
  split
  · cases hfront with
    | ends => exact .error .absent
    | char hblank hc h => exact taken_readGroup h _
    | command hd h => exact .error .absent
  · generalize hx : bareOperand u = x, hy : bareOperand v = y at hoperand
    cases hoperand with
    | none => exact .error .absent
    | @some w r r' hr =>
      simp only
      split
      · next hword =>
        have hgrouped : w ∈ groupedWords := by simpa using hword
        obtain ⟨hu, hru⟩ := leadingLetters_of_bareOperand hx hgrouped
        obtain ⟨hv, hrv⟩ := leadingLetters_of_bareOperand hy hgrouped
        rw [hu, hv, hru, hrv] at htorn
        simp only [hword, Bool.true_and] at htorn
        exact (taken_absorbGroups hr htorn).map fun ha => ha.plain_append
          (notMem_backslash_of_letters (isAsciiLetter_of_mem_groupedWords hgrouped))
      · refine .ok (commanded_of_bareOperand hx).respaced hr

end Arguments
/-! ### Macros -/

/-- No argument of a fraction is torn. -/
def untornFraction (s : Text) : Bool :=
  !tornArgument s &&
    match macroArgument s with
    | .ok (_, rest) => !tornArgument rest
    | .error _ => true

/-- The radicand is not torn. -/
def untornRoot (s : Text) : Bool :=
  if (dropBlanks s).head? = some '[' then
    match readGroup (dropBlanks s) with
    | .ok (_, rest) => !tornArgument rest
    | .error _ => true
  else !tornArgument s

/-- The base is not torn. -/
def untornLogBase (s : Text) : Bool :=
  !tornArgument s

/-- Neither the exponent nor the argument of the function is torn. -/
def untornFunctionPower (s : Text) : Bool :=
  !tornArgument s &&
    match macroArgument s with
    | .ok (exponent, rest) => (strip exponent).head? = some '-' || !tornArgument rest
    | .error _ => true

/-- What a macro is built from differs in its blanks only, if no row of groups is torn. -/
structure BuildsAlike (build : Text → Except Refusal (Text × Text)) (untorn : Text → Bool) : Prop where
  taken {loose : Bool} {s t : Text} (h : Respaced loose IsLetter s t)
    (hs : loose = true → untorn s = true ∧ untorn t = true) : Taken loose (build s) (build t)
  last {s w r : Text} (h : build s = .ok (w, r)) : w.getLast?.any isAlphanumeric = false

section Macros

variable {loose : Bool} {s t : Text}

theorem respaced_word_append {w : Text} (hw : ∀ c ∈ w, isAsciiLetter c = true)
    (h : Respaced loose IsLetter s t) : Respaced loose IsLetter (w ++ s) (w ++ t) :=
  h.plain_append (notMem_backslash_of_letters hw)

theorem respaced_inBraces (h : Respaced loose IsLetter s t) :
    Respaced loose IsLetter (inBraces s) (inBraces t) :=
  (h.append (Respaced.nil.cons (c := '\x7d') (by decide) (by decide))).cons (by decide) (by decide)

theorem respaced_inSquareBrackets (h : Respaced loose IsLetter s t) :
    Respaced loose IsLetter (inSquareBrackets s) (inSquareBrackets t) :=
  (h.append (Respaced.nil.cons (c := ']') (by decide) (by decide))).cons (by decide) (by decide)

theorem getLast?_inBraces (w s : Text) : (w ++ inBraces s).getLast?.any isAlphanumeric = false := by
  rw [inBraces, List.cons_append, List.append_cons, ← List.append_assoc, List.getLast?_concat]
  decide +kernel

theorem untornFraction_iff : untornFraction s = true ↔ tornArgument s = false ∧
    ∀ a r, macroArgument s = .ok (a, r) → tornArgument r = false := by
  unfold untornFraction
  rcases macroArgument s with refusal | ⟨a, r⟩ <;> simp

theorem untornRoot_iff : untornRoot s = true ↔
    ((dropBlanks s).head? = some '[' → ∀ a r, readGroup (dropBlanks s) = .ok (a, r) →
      tornArgument r = false) ∧ ((dropBlanks s).head? ≠ some '[' → tornArgument s = false) := by
  unfold untornRoot
  by_cases h : (dropBlanks s).head? = some '['
  · rcases readGroup (dropBlanks s) with refusal | ⟨a, r⟩ <;> simp [h]
  · simp [h]

theorem untornFunctionPower_iff : untornFunctionPower s = true ↔ tornArgument s = false ∧
    ∀ a r, macroArgument s = .ok (a, r) → (strip a).head? = some '-' ∨ tornArgument r = false := by
  unfold untornFunctionPower
  rcases macroArgument s with refusal | ⟨a, r⟩ <;> simp

theorem buildsAlike_buildFraction : BuildsAlike buildFraction untornFraction where
  taken {loose s t} h hs := by
    simp only [untornFraction_iff] at hs
    have hnumerator := taken_macroArgument h fun hl => ⟨(hs hl).1.1, (hs hl).2.1⟩
    refine hnumerator.bind fun hx hy hn hr => ?_
    have hdenominator := taken_macroArgument hr fun hl => ⟨(hs hl).1.2 _ _ hx, (hs hl).2.2 _ _ hy⟩
    refine hdenominator.bind fun _ _ hd hr => .ok ?_ hr
    exact (respaced_word_append (w := "frac".toList) (forall_mem_of_all (by decide))
      (respaced_inBraces hn)).append (respaced_inBraces hd)
  last h := by
    obtain ⟨_, -, h⟩ := exists_of_bind_ok h
    obtain ⟨_, -, h⟩ := exists_of_bind_ok h
    obtain ⟨rfl, -⟩ := Prod.mk.inj (Except.ok.inj h)
    exact getLast?_inBraces _ _

theorem buildsAlike_buildRoot : BuildsAlike buildRoot untornRoot where
  taken {loose s t} h hs := by
    simp only [untornRoot_iff] at hs
    have hhead := h.head?_dropBlanks
    unfold buildRoot
    rw [hhead] at hs ⊢
    split
    · next hsquare =>
      have hdegree : Taken loose (readGroup (dropBlanks s)) (readGroup (dropBlanks t)) := by
        have hfront := h.front
        generalize dropBlanks s = u, dropBlanks t = v at hfront
        cases hfront with
        | ends => exact .error .absent
        | char hblank hc h => exact taken_readGroup h _
        | command hd h => exact .error .absent
      refine hdegree.bind fun hx hy hn hr => ?_
      have hradicand := taken_macroArgument hr fun hl =>
        ⟨(hs hl).1.1 hsquare _ _ hx, (hs hl).2.1 hsquare _ _ hy⟩
      refine hradicand.bind fun _ _ hd hr => .ok ?_ hr
      exact (respaced_word_append (w := "nthroot".toList) (forall_mem_of_all (by decide))
        (respaced_inSquareBrackets hn)).append (respaced_inBraces hd)
    · next hsquare =>
      have hradicand := taken_macroArgument h fun hl => ⟨(hs hl).1.2 hsquare, (hs hl).2.2 hsquare⟩
      exact hradicand.bind fun _ _ hd hr =>
        .ok (respaced_word_append (w := "sqrt".toList) (forall_mem_of_all (by decide))
          (respaced_inBraces hd)) hr
  last h := by
    unfold buildRoot at h
    split at h
    · obtain ⟨_, -, h⟩ := exists_of_bind_ok h
      obtain ⟨_, -, h⟩ := exists_of_bind_ok h
      obtain ⟨rfl, -⟩ := Prod.mk.inj (Except.ok.inj h)
      exact getLast?_inBraces _ _
    · obtain ⟨_, -, h⟩ := exists_of_bind_ok h
      obtain ⟨rfl, -⟩ := Prod.mk.inj (Except.ok.inj h)
      exact getLast?_inBraces _ _

theorem buildsAlike_buildLogBase : BuildsAlike buildLogBase untornLogBase where
  taken {loose s t} h hs := by
    simp only [untornLogBase, Bool.not_eq_true'] at hs
    exact (taken_macroArgument h hs).bind fun _ _ hb hr =>
      .ok (respaced_word_append (w := "logBase".toList) (forall_mem_of_all (by decide))
        (respaced_inSquareBrackets hb)) hr
  last h := by
    obtain ⟨⟨base, _⟩, -, h⟩ := exists_of_bind_ok h
    obtain ⟨rfl, -⟩ := Prod.mk.inj (Except.ok.inj h)
    rw [inSquareBrackets, List.cons_append, List.append_cons, ← List.append_assoc, List.getLast?_concat]
    decide +kernel

theorem buildsAlike_buildFunctionPower (f : UnaryFunction) :
    BuildsAlike (buildFunctionPower f) untornFunctionPower where
  taken {loose s t} h hs := by
    simp only [untornFunctionPower_iff] at hs
    have hexponent := taken_macroArgument h fun hl => ⟨(hs hl).1.1, (hs hl).2.1⟩
    refine hexponent.bind fun hx hy he hr => ?_
    have hminus := he.head?_dropBlanks
    rw [← head?_strip, ← head?_strip] at hminus
    simp only [hminus]
    split
    · exact .error .absent
    · next hne =>
      have hargument := taken_functionArgument hr fun hl =>
        ⟨((hs hl).1.2 _ _ hx).resolve_left (hminus ▸ hne), ((hs hl).2.2 _ _ hy).resolve_left hne⟩
      refine hargument.bind fun _ _ ha hr => .ok ?_ hr
      have hname := respaced_word_append f.isName.2 (respaced_inBraces ha)
      exact ((hname.append (respaced_inBraces he |>.plain_append (w := [')', '^']) (by decide))).cons
        (c := '(') (by decide) (by decide))
  last h := by
    obtain ⟨_, -, h⟩ := exists_of_bind_ok h
    simp only at h
    split at h
    · cases h
    · obtain ⟨_, -, h⟩ := exists_of_bind_ok h
      obtain ⟨rfl, -⟩ := Prod.mk.inj (Except.ok.inj h)
      rw [List.append_cons, List.append_cons _ '^']
      exact getLast?_inBraces _ _

end Macros
/-! ### Passes -/

/-- In respaced texts the pass finds the same macros, and builds them from what differs in its
blanks only. -/
structure Pass.Steady (p : Pass) (untorn : Text → Bool) : Prop where
  plain {c : Char} (hc : c ≠ '\\') (s : Text) : p.site? c s = none
  site {loose : Bool} {s t : Text} (h : Respaced loose IsLetter s t) :
    (p.site? '\\' s = none ∧ p.site? '\\' t = none) ∨
      ∃ n m build, p.site? '\\' s = some (siteAt s n build) ∧
        p.site? '\\' t = some (siteAt t m build) ∧
        Respaced loose IsLetter (s.drop n) (t.drop m) ∧ BuildsAlike build untorn

section Passes

variable {loose : Bool} {s t : Text}

theorem steady_command {p : Pass} {names : List Text} {build : Text → Except Refusal (Text × Text)}
    {untorn : Text → Bool} (hp : ∀ c s, p.site? c s =
      if c = '\\' && names.contains (leadingLetters s) then
        some (siteAt s (leadingLetters s).length build) else none) (hb : BuildsAlike build untorn) :
    p.Steady untorn where
  plain hc s := by rw [hp]; simp [hc]
  site {loose s t} h := by
    rw [hp, hp, h.leadingLetters_eq]
    split
    · refine .inr ⟨_, _, build, rfl, rfl, ?_, hb⟩
      have hrest := h.drop_leadingLetters
      rwa [h.leadingLetters_eq] at hrest
    · exact .inl ⟨rfl, rfl⟩

/-- A mark stands behind blanks in both texts. -/
theorem respaced_markLength? {mark : Char} (hb : mark ≠ '\\')
    (h : Respaced loose IsLetter s t) :
    (markLength? mark s = none ∧ markLength? mark t = none) ∨
      ∃ n m, markLength? mark s = some n ∧ markLength? mark t = some m ∧
        Respaced loose IsLetter (s.drop n) (t.drop m) := by
  have hdrop : ∀ s : Text, s.drop ((s.takeWhile isBlank).length + 1) = (dropBlanks s).drop 1 := by
    intro s
    rw [← List.drop_drop, drop_length_takeWhile]
    rfl
  have hhead := h.head?_dropBlanks
  have hfront := h.front
  unfold markLength?
  rw [hhead]
  split
  · next ht =>
    refine .inr ⟨_, _, rfl, rfl, ?_⟩
    rw [hdrop, hdrop]
    generalize dropBlanks s = u, dropBlanks t = v at hfront ht
    cases hfront with
    | ends => exact .nil
    | char hblank hc h => exact h
    | command hd h => exact absurd (Option.some.inj ht).symm hb
  · exact .inl ⟨rfl, rfl⟩

theorem Pass.steady_fraction : Pass.fraction.Steady untornFraction :=
  steady_command (fun _ _ => rfl) buildsAlike_buildFraction

theorem Pass.steady_root : Pass.root.Steady untornRoot :=
  steady_command Stage.site_root buildsAlike_buildRoot

theorem Pass.site_logBase (s : Text) : Pass.logBase.site? '\\' s =
    if leadingLetters s = "log".toList then
      (markLength? '_' (s.drop (leadingLetters s).length)).map fun length =>
        siteAt s ((leadingLetters s).length + length) buildLogBase
    else none := by
  simp [Pass.logBase, logBaseSite?]

theorem Pass.site_functionPower (s : Text) : Pass.functionPower.site? '\\' s =
    (UnaryFunction.ofCommand? (leadingLetters s)).bind fun f =>
      (markLength? '^' (s.drop (leadingLetters s).length)).map fun length =>
        siteAt s ((leadingLetters s).length + length) (buildFunctionPower f) := by
  simp [Pass.functionPower, functionPowerSite?]

theorem Pass.steady_logBase : Pass.logBase.Steady untornLogBase where
  plain hc s := by simp [Pass.logBase, logBaseSite?, hc]
  site {loose s t} h := by
    rw [site_logBase, site_logBase, h.leadingLetters_eq]
    split
    · have hrest := h.drop_leadingLetters
      rw [h.leadingLetters_eq] at hrest
      rcases respaced_markLength? (by decide : '_' ≠ '\\') hrest with
        ⟨hs, ht⟩ | ⟨n, m, hs, ht, hdrop⟩
      · rw [hs, ht]
        exact .inl ⟨rfl, rfl⟩
      · rw [hs, ht]
        rw [List.drop_drop, List.drop_drop] at hdrop
        exact .inr ⟨_, _, _, rfl, rfl, hdrop, buildsAlike_buildLogBase⟩
    · exact .inl ⟨rfl, rfl⟩

theorem Pass.steady_functionPower : Pass.functionPower.Steady untornFunctionPower where
  plain hc s := by simp [Pass.functionPower, functionPowerSite?, hc]
  site {loose s t} h := by
    rw [site_functionPower, site_functionPower, h.leadingLetters_eq]
    cases UnaryFunction.ofCommand? (leadingLetters t) with
    | none => exact .inl ⟨rfl, rfl⟩
    | some f =>
      have hrest := h.drop_leadingLetters
      rw [h.leadingLetters_eq] at hrest
      rcases respaced_markLength? (by decide : '^' ≠ '\\') hrest with
        ⟨hs, ht⟩ | ⟨n, m, hs, ht, hdrop⟩
      · rw [Option.bind_some, Option.bind_some, hs, ht]
        exact .inl ⟨rfl, rfl⟩
      · rw [Option.bind_some, Option.bind_some, hs, ht]
        rw [List.drop_drop, List.drop_drop] at hdrop
        exact .inr ⟨_, _, _, rfl, rfl, hdrop, buildsAlike_buildFunctionPower f⟩

/-- At every macro that the pass comes to, the condition holds of the text behind its command. -/
def Pass.meets (p : Pass) (condition : Text → Bool) (done s : Text) : Bool :=
  match s with
  | [] => true
  | c :: s =>
    match _site : p.site? c s with
    | some ⟨length, .ok (replacement, rest)⟩ =>
      condition (s.drop length) &&
        p.meets condition done (padded done.head? rest.head? replacement ++ rest)
    | some ⟨length, .error (.unclosed _)⟩ => condition (s.drop length)
    | some ⟨length, .error .absent⟩ =>
      condition (s.drop length) && p.meets condition (c :: done) s
    | none => p.meets condition (c :: done) s
termination_by weight s
decreasing_by
  · have := p.lighter _site
    have := weight_padded_le done.head? rest.head? replacement
    rw [weight_append]
    omega
  all_goals exact weight_cons_le c s

section Run

variable {p : Pass} {untorn : Text → Bool} {done : Text} {c : Char} {w : Text}

theorem Pass.runFrom_of_none (h : p.site? c s = none) :
    p.runFrom done (c :: s) = p.runFrom (c :: done) s := by
  rw [runFrom]
  split <;> simp_all

theorem Pass.runFrom_of_absent {n : Nat} (h : p.site? c s = some ⟨n, .error .absent⟩) :
    p.runFrom done (c :: s) = p.runFrom (c :: done) s := by
  rw [runFrom]
  split <;> simp_all

theorem Pass.runFrom_of_ok {n : Nat} {r : Text} (h : p.site? c s = some ⟨n, .ok (w, r)⟩) :
    p.runFrom done (c :: s) = p.runFrom done (padded done.head? r.head? w ++ r) := by
  rw [runFrom]
  split <;> simp_all

theorem Pass.runFrom_of_unclosed {n : Nat} {b : Bracket}
    (h : p.site? c s = some ⟨n, .error (.unclosed b)⟩) :
    p.runFrom done (c :: s) = (done.reverse ++ c :: s, some ⟨b, c :: s.take n, done.length⟩) := by
  rw [runFrom]
  split <;> simp_all

theorem Pass.runFrom_skip (hp : ∀ {c : Char}, c ≠ '\\' → ∀ s, p.site? c s = none) :
    ∀ {w : Text}, '\\' ∉ w → ∀ done,
    p.runFrom done (w ++ s) = p.runFrom (w.reverse ++ done) s
  | [], _, _ => rfl
  | c :: w, hw, done => by
    obtain ⟨hc, hw⟩ := List.ne_and_not_mem_of_not_mem_cons hw
    rw [List.cons_append, runFrom_of_none (hp hc.symm _), runFrom_skip hp hw]
    simp

theorem Pass.meets_of_none (h : p.site? c s = none) :
    p.meets untorn done (c :: s) = p.meets untorn (c :: done) s := by
  rw [meets]
  split <;> simp_all

theorem Pass.meets_of_absent {n : Nat} (h : p.site? c s = some ⟨n, .error .absent⟩) :
    p.meets untorn done (c :: s) = (untorn (s.drop n) && p.meets untorn (c :: done) s) := by
  rw [meets]
  split <;> simp_all

theorem Pass.meets_of_ok {n : Nat} {r : Text} (h : p.site? c s = some ⟨n, .ok (w, r)⟩) :
    p.meets untorn done (c :: s) =
      (untorn (s.drop n) && p.meets untorn done (padded done.head? r.head? w ++ r)) := by
  rw [meets]
  split <;> simp_all

theorem Pass.meets_of_unclosed {n : Nat} {b : Bracket}
    (h : p.site? c s = some ⟨n, .error (.unclosed b)⟩) :
    p.meets untorn done (c :: s) = untorn (s.drop n) := by
  rw [meets]
  split <;> simp_all

/-- The condition holds behind the first macro. -/
theorem Pass.meets_drop {site : Site} (h : p.meets untorn done (c :: s) = true)
    (hs : p.site? c s = some site) : untorn (s.drop site.length) = true := by
  obtain ⟨n, refusal | ⟨w, r⟩⟩ := site
  · cases refusal with
    | absent =>
      rw [meets_of_absent hs, Bool.and_eq_true] at h
      exact h.1
    | unclosed bracket =>
      rwa [meets_of_unclosed hs] at h
  · rw [meets_of_ok hs, Bool.and_eq_true] at h
    exact h.1

theorem Pass.meets_skip (hp : ∀ {c : Char}, c ≠ '\\' → ∀ s, p.site? c s = none) :
    ∀ {w : Text}, '\\' ∉ w → ∀ done,
    p.meets untorn done (w ++ s) = p.meets untorn (w.reverse ++ done) s
  | [], _, _ => rfl
  | c :: w, hw, done => by
    obtain ⟨hc, hw⟩ := List.ne_and_not_mem_of_not_mem_cons hw
    rw [List.cons_append, meets_of_none (hp hc.symm _), meets_skip hp hw]
    simp

end Run

/-- A word that ends in no letter or digit is padded in front only. -/
theorem padded_of_last {before after : Option Char} {w : Text}
    (hl : w.getLast?.any isAlphanumeric = false) : padded before after w =
      if before.any isAlphanumeric && w.head?.any isAlphanumeric then ' ' :: w else w := by
  unfold padded
  split
  · have hlast : (' ' :: w).getLast?.any isAlphanumeric = false := by
      cases w with
      | nil => decide +kernel
      | cons c w => exact hl
    simp only [hlast, Bool.and_false, Bool.false_eq_true, if_false]
  · simp only [hl, Bool.and_false, Bool.false_eq_true, if_false]

/-- A word that ends in no letter or digit is padded in front, in both texts or in none. -/
theorem respaced_padded {before before' after after' : Option Char} {w w' : Text}
    (hb : before.any isAlphanumeric = before'.any isAlphanumeric)
    (h : Respaced loose IsLetter w w') (hl : w.getLast?.any isAlphanumeric = false)
    (hl' : w'.getLast?.any isAlphanumeric = false) :
    Respaced loose IsLetter (padded before after w) (padded before' after' w') := by
  rw [padded_of_last hl, padded_of_last hl', hb, h.head_any solid_isAlphanumeric]
  split
  · exact h.rows_append (.refl (b := [' ']) (by decide))
  · exact h

/-- Rows of blanks leave alike what stands before the text behind them. -/
theorem Rows.head?_reverse_append {b b' done done' : Text} (hb : Rows b b')
    (hside : done.head?.any isAlphanumeric = done'.head?.any isAlphanumeric) :
    (b.reverse ++ done).head?.any isAlphanumeric = (b'.reverse ++ done').head?.any isAlphanumeric := by
  have hblank : ∀ {b done : Text}, isAllBlank b = true → b ≠ [] →
      (b.reverse ++ done).head?.any isAlphanumeric = false := by
    intro b done hb hne
    obtain ⟨b, e, rfl⟩ := List.eq_nil_or_concat b |>.resolve_left hne
    rw [List.concat_eq_append, List.reverse_append]
    exact isAlphanumeric_of_isBlank (List.all_eq_true.mp hb e (by simp))
  by_cases hnil : b = []
  · obtain rfl := hnil
    obtain rfl : b' = [] := hb.nil_iff.mp rfl
    exact hside
  · rw [hblank hb.left hnil, hblank hb.right fun h => hnil (hb.nil_iff.mpr h)]

/-- What the pass makes of two texts, behind what it has done, is respaced. -/
def Pass.RunsAlike (p : Pass) (loose : Bool) (done done' s t : Text) : Prop :=
  ∃ u v, (p.runFrom done s).1 = done.reverse ++ u ∧ (p.runFrom done' t).1 = done'.reverse ++ v ∧
    Respaced loose IsLetter u v

/-- What a step is to carry over to lighter texts: they are respaced, the same sort of character
stands before them, and no argument in them is torn. -/
structure Pass.Fit (p : Pass) (untorn : Text → Bool) (loose : Bool) (done done' s t : Text) :
    Prop where
  respaced : Respaced loose IsLetter s t
  side : done.head?.any isAlphanumeric = done'.head?.any isAlphanumeric
  meets : loose = true → p.meets untorn done s = true ∧ p.meets untorn done' t = true

section Run

variable {p : Pass} {untorn : Text → Bool}

/-- **A step respaces.** A pass makes respaced texts of a macro and what is behind it, if it makes
respaced texts of lighter ones. -/
theorem Pass.runsAlike_step (hp : p.Steady untorn) {d : Char} {done done' : Text} (hd : IsLetter d)
    (h : Respaced loose IsLetter s t)
    (hfit : p.Fit untorn loose done done' ('\\' :: d :: s) ('\\' :: d :: t))
    (ih : ∀ {done done' x y : Text}, weight x < weight ('\\' :: d :: s) →
      p.Fit untorn loose done done' x y → p.RunsAlike loose done done' x y) :
    p.RunsAlike loose done done' ('\\' :: d :: s) ('\\' :: d :: t) := by
  obtain ⟨-, hside, hmeets⟩ := hfit
  have hdne := IsLetter.ne_backslash hd
  have hword := h.cons (isBlank_of_lexeme_char (.inl hd)) hdne
  -- The pass leaves the command where it is, and goes on behind it.
  have hstay : (loose = true → p.meets untorn ('\\' :: done) (d :: s) = true ∧
        p.meets untorn ('\\' :: done') (d :: t) = true) →
      ∃ u v, (p.runFrom ('\\' :: done) (d :: s)).1 = done.reverse ++ u ∧
        (p.runFrom ('\\' :: done') (d :: t)).1 = done'.reverse ++ v ∧
        Respaced loose IsLetter u v := by
    intro hmeets
    rw [Pass.meets_of_none (hp.plain hdne s), Pass.meets_of_none (hp.plain hdne t)] at hmeets
    rw [Pass.runFrom_of_none (hp.plain hdne s), Pass.runFrom_of_none (hp.plain hdne t)]
    have hlight : weight s < weight ('\\' :: d :: s) := by
      have := weight_cons_le d s
      have := weight_cons_le '\\' (d :: s)
      omega
    obtain ⟨u, v, hu, hv, huv⟩ := ih hlight ⟨h, by simp, hmeets⟩
    exact ⟨'\\' :: d :: u, '\\' :: d :: v, by simp [hu], by simp [hv], huv.escape hd⟩
  rcases hp.site hword with ⟨hs, ht⟩ | ⟨n, m, build, hs, ht, hdrop, hbuild⟩
  · rw [Pass.RunsAlike, Pass.runFrom_of_none hs, Pass.runFrom_of_none ht]
    rw [Pass.meets_of_none hs, Pass.meets_of_none ht] at hmeets
    exact hstay hmeets
  · have htaken := hbuild.taken hdrop fun hl =>
      ⟨Pass.meets_drop (hmeets hl).1 hs, Pass.meets_drop (hmeets hl).2 ht⟩
    have hlast := @hbuild.last ((d :: s).drop n)
    have hlast' := @hbuild.last ((d :: t).drop m)
    rw [siteAt] at hs ht
    generalize build ((d :: s).drop n) = x, build ((d :: t).drop m) = y at htaken hs ht hlast hlast'
    cases htaken with
    | @ok w w' r r' hw hr =>
      rw [Pass.RunsAlike, Pass.runFrom_of_ok hs, Pass.runFrom_of_ok ht]
      rw [Pass.meets_of_ok hs, Pass.meets_of_ok ht] at hmeets
      simp only [Bool.and_eq_true] at hmeets
      have hlight : weight (padded done.head? r.head? w ++ r) < weight ('\\' :: d :: s) := by
        have := p.lighter hs
        have := weight_padded_le done.head? r.head? w
        rw [weight_append]
        omega
      exact ih hlight ⟨(respaced_padded hside hw (hlast rfl) (hlast' rfl)).append hr, hside,
        fun hl => ⟨(hmeets hl).1.2, (hmeets hl).2.2⟩⟩
    | error refusal =>
      cases refusal with
      | absent =>
        rw [Pass.RunsAlike, Pass.runFrom_of_absent hs, Pass.runFrom_of_absent ht]
        rw [Pass.meets_of_absent hs, Pass.meets_of_absent ht] at hmeets
        simp only [Bool.and_eq_true] at hmeets
        exact hstay fun hl => ⟨(hmeets hl).1.2, (hmeets hl).2.2⟩
      | unclosed bracket =>
        rw [Pass.RunsAlike, Pass.runFrom_of_unclosed hs, Pass.runFrom_of_unclosed ht]
        exact ⟨_, _, rfl, rfl, h.escape hd⟩

/-- **A pass respaces.** It makes respaced texts of respaced texts, if no argument is torn. -/
theorem Pass.runsAlike (hp : p.Steady untorn) {done done' : Text}
    (hfit : p.Fit untorn loose done done' s t) : p.RunsAlike loose done done' s t := by
  have hend : ∀ {b done : Text}, isAllBlank b = true → (p.runFrom done b).1 = done.reverse ++ b := by
    intro b done hb
    have hskip := p.runFrom_skip (s := []) hp.plain (notMem_backslash_of_isAllBlank hb) done
    rw [List.append_nil] at hskip
    rw [hskip, Pass.runFrom, List.reverse_append, List.reverse_reverse]
  induction hw : weight s using Nat.strong_induction_on generalizing s t done done' with
  | _ k ih =>
  subst hw
  obtain ⟨h, hside, hmeets⟩ := hfit
  cases h with
  | ends hb => exact ⟨s, t, hend hb.left, hend hb.right, .ends hb⟩
  | @char b b' c s t hb hblank hc h =>
    have hplain : ∀ {b : Text}, isAllBlank b = true → '\\' ∉ b ++ [c] := by
      intro b hb hm
      rcases List.mem_append.mp hm with hm | hm
      · exact notMem_backslash_of_isAllBlank hb hm
      · exact hc (List.mem_singleton.mp hm).symm
    rw [Pass.RunsAlike, List.append_cons b, List.append_cons b', p.runFrom_skip hp.plain (hplain hb.left),
      p.runFrom_skip hp.plain (hplain hb.right)]
    rw [List.append_cons b, List.append_cons b', p.meets_skip hp.plain (hplain hb.left),
      p.meets_skip hp.plain (hplain hb.right)] at hmeets
    have hlight : weight s < weight (b ++ c :: s) := by
      have := weight_cons_le c s
      rw [weight_append]
      omega
    obtain ⟨u, v, hu, hv, huv⟩ := ih _ hlight ⟨h, by simp, hmeets⟩ rfl
    refine ⟨b ++ c :: u, b' ++ c :: v, ?_, ?_, .char hb hblank hc huv⟩
    · rw [hu]
      simp
    · rw [hv]
      simp
  | @command b b' d s t hb hd h =>
    rw [Pass.RunsAlike, p.runFrom_skip hp.plain (notMem_backslash_of_isAllBlank hb.left),
      p.runFrom_skip hp.plain (notMem_backslash_of_isAllBlank hb.right)]
    rw [p.meets_skip hp.plain (notMem_backslash_of_isAllBlank hb.left),
      p.meets_skip hp.plain (notMem_backslash_of_isAllBlank hb.right)] at hmeets
    have hweight : weight ('\\' :: d :: s) ≤ weight (b ++ '\\' :: d :: s) := by
      rw [weight_append]
      omega
    -- The rows stand before what the pass makes of the macro and of the text behind it.
    obtain ⟨u, v, hu, hv, huv⟩ := Pass.runsAlike_step hp hd h
      ⟨h.escape hd, hb.head?_reverse_append hside, hmeets⟩ fun hlight hfit =>
        ih _ (by omega) hfit rfl
    exact ⟨b ++ u, b' ++ v, by simp [hu], by simp [hv], huv.rows_append hb⟩

end Run

theorem Pass.Steady.respaced_run {p : Pass} {untorn : Text → Bool} (hp : p.Steady untorn)
    (h : Respaced loose IsLetter s t)
    (hmeets : loose = true → p.meets untorn [] s = true ∧ p.meets untorn [] t = true) :
    Respaced loose IsLetter (p.run s).1 (p.run t).1 := by
  obtain ⟨u, v, hu, hv, huv⟩ := Pass.runsAlike hp ⟨h, rfl, hmeets⟩
  rw [run, run, hu, hv]
  exact huv

end Passes

namespace Canonical

/-- The passes, each with what an untorn macro of it has behind its command. -/
def untornPasses : List (Pass × (Text → Bool)) :=
  [(.fraction, untornFraction), (.root, untornRoot), (.logBase, untornLogBase),
    (.functionPower, untornFunctionPower)]

/-- The passes come to no macro with a torn argument, each in what those before it leave. -/
def untornIn : List (Pass × (Text → Bool)) → Text → Bool
  | [], _ => true
  | (pass, untorn) :: later, s => pass.meets untorn [] s && untornIn later (pass.run s).1

/-- No macro of the answer takes a canonical word as an argument that blanks separate from a
group behind it. -/
def untorn (answer : Text) : Bool :=
  untornIn untornPasses (simplified answer)

theorem respaced_foldl {loose : Bool} : ∀ {pairs : List (Pass × (Text → Bool))} {s t : Text},
    (∀ pair ∈ pairs, pair.1.Steady pair.2) → Respaced loose IsLetter s t →
      (loose = true → untornIn pairs s = true ∧ untornIn pairs t = true) →
      Respaced loose IsLetter ((pairs.map Prod.fst).foldl (fun s pass => (pass.run s).1) s)
        ((pairs.map Prod.fst).foldl (fun s pass => (pass.run s).1) t)
  | [], _, _, _, h, _ => h
  | (pass, untorn) :: pairs, s, t, hp, h, huntorn => by
    simp only [untornIn, Bool.and_eq_true] at huntorn
    have hfirst := (hp _ (List.mem_cons_self ..)).respaced_run h fun hl =>
      ⟨(huntorn hl).1.1, (huntorn hl).2.1⟩
    exact @respaced_foldl loose pairs _ _ (fun pair hpair => hp pair (List.mem_cons_of_mem _ hpair))
      hfirst fun hl => ⟨(huntorn hl).1.2, (huntorn hl).2.2⟩

/-- The passes leave respaced texts respaced, where no argument is torn. -/
theorem respaced_afterPasses {loose : Bool} {s t : Text} (h : Respaced loose IsLetter s t)
    (huntorn : loose = true →
      untornIn untornPasses s = true ∧ untornIn untornPasses t = true) :
    Respaced loose IsLetter (afterPasses passes s).1 (afterPasses passes t).1 := by
  have hsteady : ∀ pair ∈ untornPasses, pair.1.Steady pair.2 := by
    simp only [untornPasses, List.forall_mem_cons]
    exact ⟨Pass.steady_fraction, Pass.steady_root, Pass.steady_logBase, Pass.steady_functionPower,
      fun _ h => absurd h List.not_mem_nil⟩
  exact respaced_foldl hsteady h huntorn

end Canonical
end NumericAnswer
