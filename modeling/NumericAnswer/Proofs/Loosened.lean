/-
# Blanks before brackets

Blanks before a bracket that opens a group do not change the value of an answer, unless a macro
takes a canonical word as an argument and they part the groups behind the word from it. Respaced
texts have their bars paired alike and become the same symbols, so one of them is accepted if the
other one is.

Key definitions: `Behind`, `Inserted`.
Key theorems: `BarsPair.respaced`, `Lexes.loosened`, `Outcome.value_spaced`.
-/
import NumericAnswer.Proofs.Compositional
import NumericAnswer.Proofs.Hollow
import NumericAnswer.Proofs.Ornament
import NumericAnswer.Proofs.Reworded
import NumericAnswer.Proofs.Spread

namespace NumericAnswer

/-! ### Bars -/

/-- Two texts in reverse begin with the same letters, which follow a backslash in both or in
none. -/
structure SameRun (before before' : Text) : Prop where
  letters : before.takeWhile isLetter = before'.takeWhile isLetter
  backslash : (before.dropWhile isLetter).head? = some '\\' ↔
    (before'.dropWhile isLetter).head? = some '\\'

/-- Two texts in reverse end alike, as far as it settles which way a bar goes that follows them. -/
structure Behind (before before' : Text) : Prop where
  last : (dropBlanks before).head? = (dropBlanks before').head?
  run : SameRun before before'
  word : SameRun (dropBlanks before) (dropBlanks before')

namespace Behind

variable {before before' b b' : Text} {c : Char}

theorem nil : Behind [] [] :=
  ⟨rfl, ⟨rfl, Iff.rfl⟩, ⟨rfl, Iff.rfl⟩⟩

theorem sameRun_of_head {before before' : Text} (h : before.head?.any isLetter = false)
    (h' : before'.head?.any isLetter = false) (hb : before.head? ≠ some '\\')
    (hb' : before'.head? ≠ some '\\') : SameRun before before' := by
  have hstop : ∀ {s : Text}, s.head?.any isLetter = false →
      s.takeWhile isLetter = [] ∧ s.dropWhile isLetter = s := by
    intro s hs
    cases s with
    | nil => exact ⟨rfl, rfl⟩
    | cons c s => simp [show isLetter c = false from hs]
  rw [← (hstop h).2] at hb
  rw [← (hstop h').2] at hb'
  exact ⟨(hstop h).1.trans (hstop h').1.symm, iff_of_false hb hb'⟩

/-- The same character follows both texts. -/
theorem sameRun_cons (h : isLetter c = true → SameRun before before') :
    SameRun (c :: before) (c :: before') := by
  cases hc : isLetter c with
  | false => exact ⟨by simp [hc], by simp [hc]⟩
  | true =>
    have h := h hc
    exact ⟨by simp [hc, h.letters], by simpa [hc] using h.backslash⟩

theorem cons (h : Behind before before') (c : Char) : Behind (c :: before) (c :: before') := by
  have hrun := sameRun_cons (c := c) fun _ => h.run
  cases hc : isBlank c with
  | true =>
    have hdrop : ∀ s : Text, dropBlanks (c :: s) = dropBlanks s := by
      intro s
      simp [dropBlanks, hc]
    refine ⟨?_, hrun, ?_⟩
    · rw [hdrop, hdrop]
      exact h.last
    · rw [hdrop, hdrop]
      exact h.word
  | false =>
    refine ⟨?_, hrun, ?_⟩
    · rw [dropBlanks_cons_of_not_isBlank hc, dropBlanks_cons_of_not_isBlank hc]
      rfl
    · rw [dropBlanks_cons_of_not_isBlank hc, dropBlanks_cons_of_not_isBlank hc]
      exact hrun

theorem rows (h : Behind before before') (hb : Rows b b') :
    Behind (b.reverse ++ before) (b'.reverse ++ before') := by
  by_cases hnil : b = []
  · obtain rfl := hnil
    obtain rfl := hb.nil_iff.mp rfl
    exact h
  · have hblank : ∀ {b before : Text}, isAllBlank b = true → b ≠ [] →
        dropBlanks (b.reverse ++ before) = dropBlanks before ∧
        ∃ e, isBlank e = true ∧ (b.reverse ++ before).head? = some e := by
      intro b before hb hne
      obtain ⟨b, e, rfl⟩ := List.eq_nil_or_concat b |>.resolve_left hne
      rw [List.concat_eq_append] at hb ⊢
      refine ⟨dropBlanks_of_isAllBlank ?_ before, e, List.all_eq_true.mp hb e (by simp), by simp⟩
      rwa [isAllBlank, List.all_reverse]
    obtain ⟨hdrop, e, he, hhead⟩ := @hblank b before hb.left hnil
    obtain ⟨hdrop', e', he', hhead'⟩ := @hblank b' before' hb.right fun h => hnil (hb.nil_iff.mpr h)
    have hletter : ∀ {e}, isBlank e = true → isLetter e = false ∧ e ≠ '\\' := fun he =>
      ⟨isLetter_of_isAlphanumeric (isAlphanumeric_of_isBlank he), by rintro rfl; cases he⟩
    refine ⟨by rw [hdrop, hdrop', h.last], ?_, by rw [hdrop, hdrop']; exact h.word⟩
    refine sameRun_of_head ?_ ?_ ?_ ?_
    · rw [hhead]
      exact (hletter he).1
    · rw [hhead']
      exact (hletter he').1
    · rw [hhead]
      simpa using (hletter he).2
    · rw [hhead']
      simpa using (hletter he').2

/-- The texts behind a character need not end alike, but for the letters that a letter goes on
with. -/
theorem of_sameRun (hblank : isBlank c = false) (h : isLetter c = true → SameRun before before') :
    Behind (c :: before) (c :: before') := by
  have hrun := sameRun_cons h
  refine ⟨?_, hrun, ?_⟩
  · rw [dropBlanks_cons_of_not_isBlank hblank, dropBlanks_cons_of_not_isBlank hblank]
    rfl
  · rwa [dropBlanks_cons_of_not_isBlank hblank, dropBlanks_cons_of_not_isBlank hblank]

theorem of_not_isLetter (hc : isLetter c = false) (hblank : isBlank c = false) (before before' : Text) :
    Behind (c :: before) (c :: before') :=
  of_sameRun hblank fun h => absurd (hc.symm.trans h) (by decide)

/-- Which way a bar goes is settled by the last word before it. -/
theorem barOpens_eq (hlast : (dropBlanks before).head? = (dropBlanks before').head?)
    (hword : SameRun (dropBlanks before) (dropBlanks before')) (lastOpened : Bool) :
    NumericAnswer.barOpens before lastOpened = NumericAnswer.barOpens before' lastOpened := by
  unfold NumericAnswer.barOpens
  generalize dropBlanks before = u, dropBlanks before' = v at hlast hword
  cases u with
  | nil =>
    cases v with
    | nil => rfl
    | cons => cases hlast
  | cons c u =>
    cases v with
    | nil => cases hlast
    | cons d v =>
      obtain rfl := Option.some.inj hlast
      have hfunction : endsInFunction (c :: u) = endsInFunction (c :: v) := by
        unfold endsInFunction
        simp only
        rw [drop_length_takeWhile, drop_length_takeWhile, hword.letters]
        congr 1
        exact decide_eq_decide.mpr hword.backslash
      simp only [hfunction]

theorem barOpens (h : Behind before before') (lastOpened : Bool) :
    barOpens before lastOpened = NumericAnswer.barOpens before' lastOpened :=
  barOpens_eq h.last h.word lastOpened

end Behind

section Bars

variable {loose : Bool} {before before' : Text} {marks : List Opened} {lastOpened : Bool}
  {s t u x : Text}

/-- Characters that are no brackets and no bars stay as they are. -/
theorem BarsPair.plain_append_iff {b : Text} (hb : ∀ c ∈ b, NoBracket c ∧ c ≠ '|') :
    BarsPair before marks lastOpened (b ++ s) x ↔
      ∃ y, x = b ++ y ∧ BarsPair (b.reverse ++ before) marks lastOpened s y := by
  induction b generalizing before x with
  | nil => simp
  | cons c b ih =>
    obtain ⟨hc, hbar⟩ := hb c (List.mem_cons_self ..)
    have ih := fun {x} => @ih (c :: before) x fun d hd => hb d (List.mem_cons_of_mem _ hd)
    rw [List.reverse_cons, List.append_assoc, List.singleton_append]
    constructor
    · intro h
      cases h with
      | opening b => exact absurd rfl (hc.ne b).1
      | closing b => exact absurd rfl (hc.ne b).2
      | opens => exact absurd rfl hbar
      | closes => exact absurd rfl hbar
      | other _ _ h =>
        obtain ⟨y, rfl, hy⟩ := ih.mp h
        exact ⟨y, rfl, hy⟩
    · rintro ⟨y, rfl, hy⟩
      exact .other hc hbar (ih.mpr ⟨y, rfl, hy⟩)

theorem noBar_of_isAllBlank {b : Text} (hb : isAllBlank b = true) : ∀ c ∈ b, NoBracket c ∧ c ≠ '|' :=
  fun c hc => ⟨noBracket_of_isAllBlank hb c hc, by
    rintro rfl
    exact absurd (List.all_eq_true.mp hb _ hc) (by decide)⟩

/-- **Respaced texts have their bars paired alike.** -/
theorem BarsPair.respaced (hr : Respaced loose IsLetter s t) :
    ∀ {before before' : Text} {marks : List Opened} {lastOpened : Bool} {x : Text},
      BarsPair before marks lastOpened s x → Behind before before' →
      ∃ y, BarsPair before' marks lastOpened t y ∧ Respaced loose IsLetter x y := by
  induction hr with
  | @ends b b' hb =>
    intro before before' marks lastOpened x h hbehind
    rw [← List.append_nil b, plain_append_iff (noBar_of_isAllBlank hb.left)] at h
    obtain ⟨y, rfl, h⟩ := h
    cases h
    refine ⟨b', ?_, by rw [List.append_nil]; exact .ends hb⟩
    rw [← List.append_nil b', plain_append_iff (noBar_of_isAllBlank hb.right)]
    exact ⟨[], rfl, .nil _ _⟩
  | @char b b' c s t hb hblank hne hr ih =>
    intro before before' marks lastOpened x h hbehind
    rw [plain_append_iff (noBar_of_isAllBlank hb.left)] at h
    obtain ⟨x, rfl, h⟩ := h
    have hbehind' : Behind (c :: (b.reverse ++ before)) (c :: (b'.reverse ++ before')) := by
      cases ho : NumericAnswer.opens c with
      | false => exact (hbehind.rows (hb.rows ho)).cons c
      | true =>
        exact .of_not_isLetter (isLetter_of_isAlphanumeric (solid_isAlphanumeric.opening ho)) hblank _ _
    have hrows : NumericAnswer.opens c = false → barOpens (b.reverse ++ before) lastOpened =
        barOpens (b'.reverse ++ before') lastOpened :=
      fun ho => (hbehind.rows (hb.rows ho)).barOpens lastOpened
    have hbefore : ∀ {y}, BarsPair (b'.reverse ++ before') marks lastOpened (c :: t) y →
        BarsPair before' marks lastOpened (b' ++ c :: t) (b' ++ y) := fun h =>
      (plain_append_iff (noBar_of_isAllBlank hb.right)).mpr ⟨_, rfl, h⟩
    cases h with
    | opening bracket h =>
      obtain ⟨y, hy, hxy⟩ := ih h hbehind'
      exact ⟨_, hbefore (.opening bracket hy), .char hb hblank hne hxy⟩
    | closing bracket h =>
      obtain ⟨y, hy, hxy⟩ := ih h hbehind'
      exact ⟨_, hbefore (.closing bracket hy), .char hb hblank hne hxy⟩
    | other hc hbar h =>
      obtain ⟨y, hy, hxy⟩ := ih h hbehind'
      exact ⟨_, hbefore (.other hc hbar hy), .char hb hblank hne hxy⟩
    | opens hm h =>
      obtain ⟨y, hy, hxy⟩ := ih h hbehind'
      exact ⟨_, hbefore (.opens (fun hmarks => (hrows rfl).symm.trans (hm hmarks)) hy),
        (hxy.plain_append (by decide)).rows_append (hb.rows rfl)⟩
    | closes hcloses h =>
      obtain ⟨y, hy, hxy⟩ := ih h hbehind'
      exact ⟨_, hbefore (.closes ((hrows rfl).symm.trans hcloses) hy),
        (hxy.cons (c := ')') (by decide) (by decide)).rows_append (hb.rows rfl)⟩
  | @command b b' d s t hb hd hr ih =>
    intro before before' marks lastOpened x h hbehind
    have hplain : ∀ {b : Text}, isAllBlank b = true →
        ∀ c ∈ b ++ ['\\', d], NoBracket c ∧ c ≠ '|' := by
      intro b hb c hc
      simp only [List.mem_append, List.mem_cons, List.not_mem_nil, or_false] at hc
      rcases hc with hc | rfl | rfl
      · exact noBar_of_isAllBlank hb c hc
      · exact ⟨noBracket_backslash, by decide⟩
      · refine ⟨noBracket_of_isAlphanumeric (isAlphanumeric_of_isAsciiLetter hd), ?_⟩
        rintro rfl
        cases hd
    have hsplit : ∀ b s : Text, b ++ '\\' :: d :: s = (b ++ ['\\', d]) ++ s := by simp
    have hreverse : ∀ b before : Text,
        (b ++ ['\\', d]).reverse ++ before = d :: '\\' :: (b.reverse ++ before) := by simp
    rw [hsplit, plain_append_iff (hplain hb.left), hreverse] at h
    obtain ⟨x, rfl, h⟩ := h
    obtain ⟨y, hy, hxy⟩ := ih h (((hbehind.rows hb).cons '\\').cons d)
    refine ⟨b' ++ '\\' :: d :: y, ?_, ?_⟩
    · rw [hsplit b' t, hsplit b' y, plain_append_iff (hplain hb.right), hreverse]
      exact ⟨y, rfl, hy⟩
    · rw [← hsplit]
      exact .command hb hd hxy

end Bars

/-! ### Symbols -/

section Symbols

variable {loose afterNumber : Bool} {escaped : Char → Prop} {s t w : Text} {us : List (Symbol × Bool)}

theorem InLexeme.plain {c : Char} (h : InLexeme c) :
    isBlank c = false ∧ opens c = false ∧ c ≠ '\\' := by
  refine ⟨isBlank_of_lexeme_char h, ?_, ?_⟩
  · have hsigns : ∀ c ∈ ['.', '+', '-'], opens c = false := forall_mem_of_all (by decide)
    rcases h with h | h | h
    · by_contra ho
      exact absurd (h.symm.trans (solid_isAsciiLetter.opening (by simpa using ho))) (by decide)
    · by_contra ho
      exact absurd (h.symm.trans (solid_isDecimalDigit.opening (by simpa using ho))) (by decide)
    · exact hsigns c h
  · rintro rfl
    rcases h with h | h | h
    · cases h
    · cases h
    · exact absurd h (by decide)

/-- Letters and numbers stand at the front of both texts. -/
theorem Respaced.of_lexeme_append (h : Respaced loose escaped (w ++ s) t) (hw : ∀ c ∈ w, InLexeme c) :
    ∃ t', t = w ++ t' ∧ Respaced loose escaped s t' := by
  induction w generalizing t with
  | nil => exact ⟨t, rfl, h⟩
  | cons c w ih =>
    obtain ⟨hblank, hopens, hne⟩ := (hw c (List.mem_cons_self ..)).plain
    obtain ⟨t, rfl, hrest⟩ := h.exists_cons hblank hne hopens
    obtain ⟨t', rfl, hlater⟩ := ih hrest fun d hd => hw d (List.mem_cons_of_mem _ hd)
    exact ⟨t', rfl, hlater⟩

theorem Respaced.loosened (h : Respaced loose escaped s t) : Loose t s := by
  rintro w hw ⟨t, rfl⟩
  obtain ⟨s, rfl, -⟩ := h.symm.of_lexeme_append hw
  exact List.prefix_append w s

theorem inLexeme_of_mem_take_lexeme {c : Char} (hc : isAsciiLetter c = false) (hne : c ≠ '\\')
    (s : Text) : ∀ d ∈ s.take (lexeme c s).2, InLexeme d := by
  intro d hd
  cases hread : Literal.read? (c :: s) with
  | some found =>
    obtain ⟨l, rest⟩ := found
    have hlexeme : lexeme c s = ([.number l], l.text.length - 1) := by rw [lexeme, hread]
    rw [hlexeme] at hd
    exact Literal.mem_text_of_read? hread d
      ((Literal.text_eq_cons hread).1 ▸ List.mem_cons_of_mem _ hd)
  | none =>
    have hlexeme : lexeme c s = ([.ofSign c], 0) := by simp [lexeme, hread, hc, hne]
    rw [hlexeme] at hd
    exact absurd hd List.not_mem_nil

/-- **Respaced texts become the same symbols.** -/
theorem Lexes.loosened (hs : '\\' ∉ s) (h : Lexes afterNumber s us)
    (hr : Respaced loose escaped s t) : Lexes afterNumber t us := by
  induction hn : s.length using Nat.strong_induction_on generalizing s t afterNumber us with
  | _ n ih =>
  subst hn
  cases hr with
  | ends hb =>
    rw [h.eq_nil hb.left]
    exact lexes_nil_of_isAllBlank hb.right afterNumber
  | command hb hd hr => exact absurd (by simp) hs
  | @char b b' c s t hb hblank hne hr =>
    refine Lexes.blanks_append ?_ hb.right
    have h := h.of_blanks_append hb.left
    have hs : '\\' ∉ s := fun hm => hs (by simp [hm])
    have hlight : s.length < (b ++ c :: s).length := by
      simp only [List.length_append, List.length_cons]
      omega
    cases hc : isAsciiLetter c with
    | true =>
      rw [lexes_leadingLetters_iff hc] at h ⊢
      obtain ⟨vs, rfl, hvs⟩ := h
      rw [← hr.leadingLetters_eq]
      have hlater : (s.drop (leadingLetters s).length).length ≤ s.length :=
        (List.drop_sublist _ s).length_le
      refine ⟨vs, rfl, ih _ (hlater.trans_lt hlight) (fun hm => hs (List.mem_of_mem_drop hm)) hvs ?_
        rfl⟩
      have hdrop := hr.drop_leadingLetters
      rwa [← hr.leadingLetters_eq] at hdrop
    | false =>
      cases h with
      | blank hb => exact absurd (hblank.symm.trans hb) (by decide)
      | @step _ _ us _ _ hp hlater =>
        have hlexeme := inLexeme_of_mem_take_lexeme hc hne s
        rw [← List.take_append_drop (lexeme c s).2 s] at hr
        obtain ⟨t, rfl, hrest⟩ := hr.of_lexeme_append hlexeme
        have hsame := lexeme_of_loose hc hrest.loosened fun h => absurd h hne
        have hdrop : (s.take (lexeme c s).2 ++ t).drop (lexeme c s).2 = t :=
          List.drop_left' (length_take_lexeme c s)
        have hstep := @Lexes.step c (s.take (lexeme c s).2 ++ t) us afterNumber hblank
        rw [hsame, hdrop] at hstep
        refine hstep (repeatsPoint_of_loose hrest.loosened.numerals hp) (ih _ ?_ ?_ hlater hrest rfl)
        · exact (List.drop_sublist _ s).length_le.trans_lt hlight
        · exact fun hm => hs (List.mem_of_mem_drop hm)

/-- The same characters stand in both texts, but for blanks. -/
theorem Respaced.mem {c : Char} (h : Respaced loose escaped s t) (hc : isBlank c = false)
    (hm : c ∈ s) : c ∈ t := by
  have hblank : ∀ {b : Text}, isAllBlank b = true → c ∉ b := fun hb hm =>
    absurd (hc.symm.trans (List.all_eq_true.mp hb c hm)) (by decide)
  induction h with
  | ends hb => exact absurd hm (hblank hb.left)
  | char hb _ _ _ ih =>
    simp only [List.mem_append, List.mem_cons, hblank hb.left, false_or] at hm ⊢
    exact .inr (hm.imp_right ih)
  | command hb _ _ ih =>
    simp only [List.mem_append, List.mem_cons, hblank hb.left, false_or] at hm ⊢
    exact .inr (hm.imp_right (Or.imp_right ih))

/-- A text that becomes the symbols of an expression is read as it. -/
theorem Expr.parseWithin_of_lexes {calls stop : Nat} {x : Expr} {v : Text} {ts : List Token}
    (hbars : BarsPair [] [] true t v) (hv : '\\' ∉ v) (hlexes : Lexes false v (ts.map Token.shape))
    (hsum : sum stop calls ts = .ok (x, [])) :
    parseWithin calls (collapse (expandBars t)) = .ok x := by
  obtain ⟨us, hus, hshape⟩ := (hlexes.respaced hv (words_collapse v).symm).exists_tokensFrom 0
  rw [hbars.expandBars]
  refine parseWithin_of_sum hus ?_
  have halike := (alikeAll stop (collapse v).length calls).sum (SameShapes.twins hshape)
  rw [hsum] at halike
  generalize sum (collapse v).length calls us = r at halike ⊢
  cases halike with
  | ok _ h => cases h; rfl

/-- **Respaced texts are read alike.** -/
theorem Expr.parseWithin_loosened {calls : Nat} {x : Expr} (hr : Respaced loose IsLetter s t)
    (h : parseWithin calls (collapse (expandBars s)) = .ok x) :
    parseWithin calls (collapse (expandBars t)) = .ok x := by
  obtain ⟨u, ts, stop, hbars, hu, hlexes, hsum⟩ := exists_barsPair_of_parseWithin h
  obtain ⟨v, hbars', huv⟩ := hbars.respaced hr .nil
  exact parseWithin_of_lexes hbars' (fun hm => hu (huv.symm.mem (by decide) hm))
    (hlexes.loosened hu huv) hsum

end Symbols

/-! ### Wrappers -/

/-- The second text has blanks before an opening bracket of the first one that no backslash
escapes, or the texts are the same. -/
inductive Inserted (c : Char) (blanks : Text) : Text → Text → Prop
  | same (s : Text) : Inserted c blanks s s
  | before (a b : Text) (ha : a.getLast? ≠ some '\\') :
      Inserted c blanks (a ++ c :: b) (a ++ (blanks ++ c :: b))

namespace Inserted

variable {c : Char} {blanks s t : Text} {p : Char → Bool}

theorem dropEnd (h : Inserted c blanks s t) (hc : p c = false) :
    Inserted c blanks (s.reverse.dropWhile p).reverse (t.reverse.dropWhile p).reverse := by
  cases h with
  | same => exact .same _
  | before a b ha =>
    rw [← List.append_assoc, reverse_dropWhile_reverse_append hc,
      reverse_dropWhile_reverse_append hc, List.append_assoc]
    exact .before a _ ha

/-- What is dropped at the front stands before the bracket. -/
theorem dropFront (h : Inserted c blanks s t) (hc : p c = false)
    (hblanks : blanks.dropWhile p = [] ∨ blanks.dropWhile p = blanks) :
    Inserted c blanks (s.dropWhile p) (t.dropWhile p) := by
  cases h with
  | same => exact .same _
  | before a b ha =>
    have hstop : ∀ b, (c :: b).dropWhile p = c :: b := fun b => by simp [hc]
    rw [List.dropWhile_append, List.dropWhile_append]
    split
    · rw [hstop, List.dropWhile_append]
      rcases hblanks with hnil | hself
      · rw [hnil, List.isEmpty_nil, if_pos rfl, hstop]
        exact .same _
      · rw [hself]
        split
        · next hnil =>
          rw [hstop]
          exact .same _
        · exact .before [] b (by simp)
    · next hne =>
      refine .before _ b fun hlast => ha ?_
      have happend := List.takeWhile_append_dropWhile (p := p) (l := a)
      rw [← happend, List.getLast?_append, hlast]
      rfl

theorem strip (h : Inserted c blanks s t) (hc : isBlank c = false) (hblanks : isAllBlank blanks = true) :
    Inserted c blanks (strip s) (strip t) :=
  (h.dropFront hc (.inl (dropBlanks_eq_nil_iff.mpr hblanks))).dropEnd hc

theorem stripDollars (h : Inserted c blanks s t) (hc : c ≠ '$') (hblanks : isAllBlank blanks = true) :
    Inserted c blanks (stripDollars s) (stripDollars t) := by
  have hc : decide (c = '$') = false := decide_eq_false hc
  refine (h.dropFront hc (.inr ?_)).dropEnd hc
  cases blanks with
  | nil => rfl
  | cons e blanks =>
    have he : isBlank e = true := by
      simp only [isAllBlank, List.all_cons, Bool.and_eq_true] at hblanks
      exact hblanks.1
    have hdollar : e ≠ '$' := by
      rintro rfl
      cases he
    simp [hdollar]

theorem dropDisplayOpening (h : Inserted c blanks s t) (hc : c ≠ '\\')
    (hblanks : isAllBlank blanks = true) :
    Inserted c blanks (dropDisplayOpening s) (dropDisplayOpening t) := by
  cases h with
  | same => exact .same _
  | before a b ha =>
    cases a with
    | nil =>
      have hfront : NumericAnswer.dropDisplayOpening (blanks ++ c :: b) = blanks ++ c :: b := by
        cases blanks with
        | nil => exact dropDisplayOpening_cons hc b
        | cons e blanks =>
          refine dropDisplayOpening_cons ?_ _
          rintro rfl
          exact absurd (List.all_eq_true.mp hblanks _ (List.mem_cons_self ..)) (by decide)
      rw [List.nil_append, List.nil_append, dropDisplayOpening_cons hc, hfront]
      exact .before [] b (by simp)
    | cons d a =>
      by_cases hd : d = '\\'
      · subst hd
        cases a with
        | nil => exact absurd rfl ha
        | cons e a =>
          rw [List.cons_append, List.cons_append, List.cons_append, List.cons_append,
            dropDisplayOpening_escape, dropDisplayOpening_escape]
          split
          · refine .before a b fun hlast => ha ?_
            rw [List.getLast?_cons_cons, List.getLast?_cons, hlast]
            rfl
          · exact .before ('\\' :: e :: a) b ha
      · rw [List.cons_append, List.cons_append, dropDisplayOpening_cons hd, dropDisplayOpening_cons hd]
        exact .before (d :: a) b ha

theorem dropDisplayClosing (h : Inserted c blanks s t) (hc : opens c = true) :
    Inserted c blanks (dropDisplayClosing s) (dropDisplayClosing t) := by
  cases h with
  | same => exact .same _
  | before a b ha =>
    have hbackslash := ne_backslash_of_opens hc
    have hclosing : c ≠ ']' ∧ c ≠ ')' := by
      constructor <;> (rintro rfl; cases hc)
    rw [← List.append_assoc, dropDisplayClosing_append hbackslash fun _ _ => hclosing,
      dropDisplayClosing_append hbackslash fun _ _ => hclosing, List.append_assoc]
    exact .before a _ ha

/-- The blanks are still there when the wrappers are gone, or they have gone with them. -/
theorem unwrapped (h : Inserted c blanks s t) (hc : opens c = true) (hblanks : isAllBlank blanks = true) :
    Inserted c blanks (unwrapped s) (unwrapped t) := by
  have hblank := not_isBlank_of_opens hc
  have hdollar : c ≠ '$' := by
    rintro rfl
    cases hc
  have hbackslash := ne_backslash_of_opens hc
  have hstripped := ((h.strip hblank hblanks).stripDollars hdollar hblanks).strip hblank hblanks
  exact ((hstripped.dropDisplayOpening hbackslash hblanks).dropDisplayClosing hc).strip hblank hblanks

end Inserted

/-! ### Values -/

section Values

variable [MathLibrary] {loose : Bool} {answer answer' : Text}

/-- Canonical texts that stand for the same expressions have the same value, or none. -/
theorem Outcome.value?_of_parse
    (hto : ∀ x, Expr.parse (canonical answer) = .ok x → Expr.parse (canonical answer') = .ok x)
    (hfrom : ∀ x, Expr.parse (canonical answer') = .ok x → Expr.parse (canonical answer) = .ok x) :
    (ofText answer').value? = (ofText answer).value? := by
  rw [value?_ofText, value?_ofText]
  unfold evaluateCanonical
  cases hs : Expr.parse (canonical answer) with
  | ok x => rw [hto x hs]
  | error f =>
    cases ht : Expr.parse (canonical answer') with
    | ok x => exact absurd (hs.symm.trans (hfrom x ht)) (by simp)
    | error g => rfl

/-- **Respaced answers have the same value, or none.** -/
theorem Outcome.value_respaced
    (h : Respaced loose Escapable (unwrapped answer) (unwrapped answer'))
    (hsealed : Rule.upright.isSealed (Canonical.beforeUpright (unwrapped answer)) = true)
    (huntorn : loose = true → Canonical.untorn answer = true ∧ Canonical.untorn answer' = true) :
    (ofText answer').value? = (ofText answer).value? := by
  have hwords := Canonical.respaced_worded
    (Canonical.respaced_afterPasses (Canonical.respaced_simplified h hsealed) huntorn)
  exact value?_of_parse (fun _ => Expr.parseWithin_loosened hwords)
    fun _ => Expr.parseWithin_loosened hwords.symm

/-- **Blanks before an opening bracket leave the value of an answer**, or leave it without one, if no
backslash escapes the bracket. Behind the backslashes of the answer stand letters, braces or signs
for spaces, no name in upright letters ends in a backslash, and no macro takes a word as its argument
that blanks part from its groups. -/
theorem Outcome.value_spaced {a b blanks : Text} {c : Char} (hc : opens c = true)
    (ha : a.getLast? ≠ some '\\') (hblanks : isAllBlank blanks = true)
    (hcommands : Commanded Escapable (unwrapped (a ++ c :: b)))
    (hsealed : Rule.upright.isSealed (Canonical.beforeUpright (unwrapped (a ++ c :: b))) = true)
    (huntorn : Canonical.untorn (a ++ c :: b) = true)
    (huntorn' : Canonical.untorn (a ++ (blanks ++ c :: b)) = true) :
    (ofText (a ++ (blanks ++ c :: b))).value? = (ofText (a ++ c :: b)).value? := by
  have hinserted : Inserted c blanks (unwrapped (a ++ c :: b))
      (unwrapped (a ++ (blanks ++ c :: b))) :=
    (Inserted.before a b ha).unwrapped hc hblanks
  refine @value_respaced _ true _ _ ?_ hsealed fun _ => ⟨huntorn, huntorn'⟩
  generalize unwrapped (a ++ c :: b) = s, unwrapped (a ++ (blanks ++ c :: b)) = t at hinserted hcommands
  cases hinserted with
  | same => exact hcommands.respaced
  | before a b ha =>
    obtain ⟨ha', hb⟩ := hcommands.split (ne_backslash_of_opens hc) ha
    exact respaced_insert ha' hb hc hblanks

end Values

/-- Blanks before the denominator of a fraction. -/
theorem Outcome.value_spaced_fraction :
    (@ofText .native "$\\frac{1}  {3}$".toList).value? =
      (@ofText .native "$\\frac{1}{3}$".toList).value? := by
  have hunwrapped : unwrapped "$\\frac{1}{3}$".toList = "\\frac{1}{3}".toList := by
    decide +kernel
  have hcommands : Commanded Escapable (unwrapped "$\\frac{1}{3}$".toList) := by
    rw [hunwrapped]
    decide +kernel
  exact @value_spaced .native "$\\frac{1}".toList "3\x7d$".toList "  ".toList '\x7b' (by decide)
    (by decide) (by decide) hcommands (by decide +kernel) (by decide +kernel) (by decide +kernel)

/-- The argument of a logarithm that is the argument of a sine: blanks before the group part it
from the word, which is left without its argument. -/
theorem Expr.parse_parted :
    Canonical.untorn "\\sin^2\\log_2 {8}".toList = false ∧
      (parse (canonical "\\sin^2\\log_2{8}".toList)).toOption.isSome = true ∧
      (parse (canonical "\\sin^2\\log_2 {8}".toList)).toOption.isSome = false := by
  have hrow : canonical "\\sin^2\\log_2{8}".toList = "(sin{logBase[2]{8}})^{2}".toList := by
    decide +kernel
  have hparted : canonical "\\sin^2\\log_2 {8}".toList = "(sin{logBase[2]})^{2} {8}".toList := by
    decide +kernel
  rw [hrow, hparted]
  exact ⟨by decide +kernel, by decide +kernel, by decide +kernel⟩

end NumericAnswer
