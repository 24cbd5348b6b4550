/-
# Reading brackets back

What stands in brackets in a text that is accepted is accepted on its own: its bars pair
in it, its tokens are those that it has alone, and the parser reads all of them as a sum
with fewer calls.

Key definitions: `Sums`, `PieceShows`.
Key theorems: `BarsPair.split`, `Lexes.nest_eq`, `Expr.exists_of_group`,
`Expr.exists_of_factor_call`, `Expr.exists_of_signed_group`.
-/
import NumericAnswer.Proofs.Composed
import NumericAnswer.Proofs.Enclosed

namespace NumericAnswer

/-- The text, its bars in pairs, is a sum with this expression, within so many calls. -/
def Sums (calls : Nat) (t : Text) (x : Expr) : Prop :=
  ∃ u us, BarsPair [] [] true t u ∧ '\\' ∉ u ∧ Lexes false u us ∧ ∀ stop, Fills stop .sum calls us x

/-! ### Bars -/

namespace BarsPair

variable {before : Text} {marks : List Opened} {last : Bool} {s t : Text}

/-- The brackets of the expanded text nest, with those that are open. -/
theorem nest_expanded (h : BarsPair before marks last s t) :
    NumericAnswer.nest (marks.map Opened.expanded) t = some [] := by
  induction h with
  | nil => rfl
  | opening b _ ih => rwa [nest_opening]
  | closing b _ ih =>
    rw [nest_closing]
    exact (if_pos rfl).trans ih
  | @opens before marks last s t _ _ ih =>
    have hletters : ∀ c ∈ ['a', 'b', 's'], NoBracket c := by
      simp only [List.forall_mem_cons, NoBracket]
      exact ⟨by decide, by decide, by decide, by simp⟩
    have hword : "abs(".toList ++ t = ['a', 'b', 's'] ++ Bracket.round.opening :: t := by
      cases t <;> rfl
    rw [hword, nest_noBracket_append hletters, nest_opening]
    exact ih
  | closes _ _ ih =>
    refine (nest_closing .round _ _).trans ?_
    exact (if_pos rfl).trans ih
  | other hc _ _ ih => rwa [nest_cons hc]

/-- A piece without bars stands in the expanded text as it is. -/
theorem of_barless : ∀ {l : Text} {opened out : List Bracket} {before : Text} {last : Bool} {t : Text},
    '|' ∉ l → NumericAnswer.nest opened l = some out →
    BarsPair before (opened.map .bracket) last (l ++ s) t →
      ∃ before' t', t = l ++ t' ∧ BarsPair before' (out.map .bracket) last s t'
  | [], opened, _, _, _, t, _, hn, h => by
    obtain rfl := Option.some.inj hn
    exact ⟨_, t, rfl, h⟩
  | c :: l, opened, out, _, _, _, hl, hn, h => by
    obtain ⟨hc, htail⟩ := List.ne_and_not_mem_of_not_mem_cons hl
    generalize hm : opened.map Opened.bracket = marks at h
    cases h with
    | opening b h =>
      rw [nest_opening] at hn
      rw [← hm] at h
      obtain ⟨before', t', rfl, h'⟩ := @of_barless l (b :: opened) out _ _ _ htail hn h
      exact ⟨before', t', rfl, h'⟩
    | closing b h =>
      obtain ⟨b', opened, rfl, hb, rfl⟩ := List.map_eq_cons_iff.mp hm
      obtain rfl := Opened.bracket.inj hb
      rw [nest_closing, List.head?_cons, if_pos rfl] at hn
      obtain ⟨before', t', rfl, h'⟩ := @of_barless l opened out _ _ _ htail hn h
      exact ⟨before', t', rfl, h'⟩
    | opens => exact absurd rfl hc
    | closes => exact absurd rfl hc
    | other hb _ h =>
      rw [nest_cons hb] at hn
      rw [← hm] at h
      obtain ⟨before', t', rfl, h'⟩ := of_barless htail hn h
      exact ⟨before', t', rfl, h'⟩

/-- What nests up to a closing bracket has its bars in pairs on its own. -/
theorem split {b : Bracket} {pre : Text} {outer : List Opened} {w : Text} :
    ∀ {s before : Text} {marks : List Opened} {last last' : Bool} {t : Text},
    NumericAnswer.nest (marks.filterMap Opened.bracket?) s = some [] →
    (.bar ∈ marks → '|' ∈ before) → ('|' ∈ before → last' = last) →
    BarsPair (before ++ pre) (marks ++ .bracket b :: outer) last' (s ++ b.closing :: w) t →
      ∃ u v before' last'', t = u ++ v ∧ BarsPair before marks last s u ∧
        BarsPair before' (.bracket b :: outer) last'' (b.closing :: w) v
  | [], before, marks, last, last', t, hn, _, _, h => by
    cases marks with
    | nil => exact ⟨[], t, _, _, rfl, .nil _ _, h⟩
    | cons m marks =>
      -- A bar that is open there would not close before the bracket.
      cases m with
      | bracket k => simp [Opened.bracket?, NumericAnswer.nest] at hn
      | bar =>
        generalize hs : [] ++ b.closing :: w = s at h
        cases h with
        | opening k => exact absurd (List.cons.inj hs).1.symm (opening_ne_closing' k b)
        | opens => exact absurd (List.cons.inj hs).1 (by cases b <;> decide)
        | closes => exact absurd (List.cons.inj hs).1 (by cases b <;> decide)
        | other hc => exact absurd (List.cons.inj hs).1.symm (hc.ne b).2
  | c :: s, before, marks, last, last', t, hn, hmarks, hlast, h => by
    have hmem : ∀ {d : Char}, d ≠ '|' → '|' ∈ d :: before → '|' ∈ before := fun hd hm =>
      (List.mem_cons.mp hm).resolve_left fun heq => hd heq.symm
    generalize hm : marks ++ .bracket b :: outer = all at h
    cases h with
    | opening k h =>
      have hk : k.opening ≠ '|' := by cases k <;> decide
      rw [nest_opening] at hn
      rw [← hm] at h
      obtain ⟨u, v, before', last'', rfl, hu, hv⟩ := @split b pre outer w s
        (k.opening :: before) (.bracket k :: marks) last last' _ hn
        (fun hbar => List.mem_cons_of_mem _ (hmarks (by simpa using hbar)))
        (fun hbar => hlast (hmem hk hbar)) h
      exact ⟨_, v, before', last'', rfl, .opening k hu, hv⟩
    | closing k h =>
      have hk : k.closing ≠ '|' := by cases k <;> decide
      cases marks with
      | nil =>
        rw [nest_closing] at hn
        cases hn
      | cons m marks =>
        obtain ⟨rfl, rfl⟩ := List.cons.inj hm
        rw [nest_closing] at hn
        obtain ⟨u, v, before', last'', rfl, hu, hv⟩ := @split b pre outer w s
          (k.closing :: before) marks last last' _ (by simpa [Opened.bracket?] using hn)
          (fun hbar => List.mem_cons_of_mem _ (hmarks (List.mem_cons_of_mem _ hbar)))
          (fun hbar => hlast (hmem hk hbar)) h
        exact ⟨_, v, before', last'', rfl, .closing k hu, hv⟩
    | opens hopens h =>
      rw [nest_cons ⟨rfl, rfl⟩] at hn
      rw [← hm] at h
      obtain ⟨u, v, before', last'', rfl, hu, hv⟩ := @split b pre outer w s
        ('|' :: before) (.bar :: marks) true true _ hn (fun _ => List.mem_cons_self ..)
        (fun _ => rfl) h
      refine ⟨_, v, before', last'', (List.append_assoc ..).symm, .opens (fun hh => ?_) hu, hv⟩
      cases marks with
      | nil => cases hh
      | cons m marks =>
        obtain rfl : m = .bar := by simpa using hh
        have hbar := hmarks (List.mem_cons_self ..)
        rw [← hlast hbar, ← barOpens_append hbar]
        exact hopens (by rw [← hm]; rfl)
    | closes hcloses h =>
      rw [nest_cons ⟨rfl, rfl⟩] at hn
      cases marks with
      | nil => cases hm
      | cons m marks =>
        obtain ⟨rfl, rfl⟩ := List.cons.inj hm
        have hbar := hmarks (List.mem_cons_self ..)
        obtain ⟨u, v, before', last'', rfl, hu, hv⟩ := @split b pre outer w s
          ('|' :: before) marks false false _ hn (fun _ => List.mem_cons_self ..) (fun _ => rfl) h
        refine ⟨_, v, before', last'', rfl, .closes ?_ hu, hv⟩
        rwa [← hlast hbar, ← barOpens_append hbar]
    | other hc hb h =>
      rw [nest_cons hc] at hn
      rw [← hm] at h
      obtain ⟨u, v, before', last'', rfl, hu, hv⟩ := @split b pre outer w s
        (c :: before) marks last last' _ hn (fun hbar => List.mem_cons_of_mem _ (hmarks hbar)) (fun hbar => hlast (hmem hb hbar)) h
      exact ⟨_, v, before', last'', rfl, .other hc hb hu, hv⟩

end BarsPair

/-! ### Tokens -/

section Tokens

variable {afterNumber : Bool} {s l k : Text} {us ps qs : List (Symbol × Bool)}

/-- The tokens of any text that begins with the piece begin with these shapes. -/
def PieceShows (l : Text) (ps : List (Symbol × Bool)) : Prop :=
  ∀ ⦃afterNumber : Bool⦄ ⦃s : Text⦄ ⦃us : List (Symbol × Bool)⦄, Lexes afterNumber (l ++ s) us →
    ∃ us', us = ps ++ us' ∧ Lexes false s us'

theorem PieceShows.append (h : PieceShows l ps) (h' : PieceShows k qs) :
    PieceShows (l ++ k) (ps ++ qs) := by
  intro afterNumber s us hs
  rw [List.append_assoc] at hs
  obtain ⟨us, rfl, hk⟩ := h hs
  obtain ⟨us, rfl, hrest⟩ := h' hk
  exact ⟨us, (List.append_assoc ..).symm, hrest⟩

theorem isSign_bracket (b : Bracket) : IsSign b.opening ∧ IsSign b.closing := by
  cases b <;> exact ⟨by unfold IsSign; decide, by unfold IsSign; decide⟩

theorem ofSign_bracket (b : Bracket) :
    Symbol.ofSign b.opening = .opening b ∧ Symbol.ofSign b.closing = .closing b := by
  cases b <;> exact ⟨rfl, rfl⟩

theorem pieceShows_opening (b : Bracket) : PieceShows [b.opening] [lone (.opening b)] := by
  intro afterNumber s us h
  rw [← (ofSign_bracket b).1]
  exact h.of_sign (isSign_bracket b).1

theorem pieceShows_closing (b : Bracket) : PieceShows [b.closing] [lone (.closing b)] := by
  intro afterNumber s us h
  rw [← (ofSign_bracket b).2]
  exact h.of_sign (isSign_bracket b).2

theorem pieceShows_caret : PieceShows ['^'] [lone (.operator .caret)] :=
  fun _ _ _ h => h.of_sign (by unfold IsSign; decide)

theorem pieceShows_wordOpening (w : Word) (b : Bracket) :
    PieceShows (w.text ++ [b.opening]) [lone (.word w), lone (.opening b)] := by
  intro afterNumber s us h
  have hletter : ([b.opening] ++ s).head?.any isAsciiLetter = false := (isSign_bracket b).1.2.1
  rw [List.append_assoc] at h
  obtain ⟨us, rfl, hword⟩ := h.of_word w hletter
  obtain ⟨us, rfl, hrest⟩ := pieceShows_opening b hword
  exact ⟨us, rfl, hrest⟩

theorem bracketsOf_append (us vs : List Symbol) :
    bracketsOf (us ++ vs) = bracketsOf us ++ bracketsOf vs :=
  List.flatMap_append

/-- Symbols whose texts hold no brackets are none. -/
theorem bracketsOf_eq_nil {symbols : List Symbol}
    (h : ∀ c ∈ symbols.flatMap Symbol.text, NoBracket c) : bracketsOf symbols = [] := by
  refine List.flatMap_eq_nil_iff.mpr fun symbol hs => ?_
  have hbracket : ∀ c ∈ symbol.text, NoBracket c :=
    fun c hc => h c (List.mem_flatMap.mpr ⟨symbol, hs, hc⟩)
  cases symbol with
  | opening b => exact absurd rfl ((hbracket _ (List.mem_singleton.mpr rfl)).ne b).1
  | closing b => exact absurd rfl ((hbracket _ (List.mem_singleton.mpr rfl)).ne b).2
  | _ => rfl

/-- The brackets of a text are those of its tokens. -/
theorem Lexes.nest_eq (h : Lexes afterNumber s us) (hb : '\\' ∉ s) (opened : List Bracket) :
    NumericAnswer.nest opened s = NumericAnswer.nest opened (bracketsOf (us.map Prod.fst)) := by
  induction h generalizing opened with
  | nil => rfl
  | blank hblank _ ih =>
    rw [nest_cons (noBracket_of_isBlank hblank)]
    exact ih (fun hm => hb (List.mem_cons_of_mem _ hm)) opened
  | @step c s us afterNumber hblank _ h ih =>
    obtain ⟨hc, hb⟩ := List.ne_and_not_mem_of_not_mem_cons hb
    have ih := ih fun hm => hb (List.mem_of_mem_drop hm)
    have htake : ∀ d ∈ s.take (lexeme c s).2, NoBracket d := fun d hd =>
      noBracket_of_lexeme_char (mem_take_lexeme hc.symm s d hd)
    have hsymbols : (shapesOf afterNumber (lexeme c s).1 ++ us).map Prod.fst =
        (lexeme c s).1 ++ us.map Prod.fst := by
      rw [List.map_append, map_fst_shapesOf]
    have htail : NumericAnswer.nest opened (c :: s) =
        NumericAnswer.nest opened ([c] ++ s.drop (lexeme c s).2) := by
      conv_lhs => rw [← List.take_append_drop (lexeme c s).2 s]
      rw [← List.singleton_append, nest_append, nest_append]
      congr 1
      funext middle
      exact nest_noBracket_append htake middle _
    rw [htail, hsymbols, bracketsOf_append, nest_append, nest_append]
    by_cases hbracket : NoBracket c
    · have hnil : bracketsOf (lexeme c s).1 = [] := by
        refine bracketsOf_eq_nil fun d hd => ?_
        rw [text_lexeme] at hd
        rcases List.mem_cons.mp hd with rfl | hd
        · exact hbracket
        · exact htake d hd
      rw [hnil, nest_cons hbracket]
      exact ih opened
    · obtain ⟨b, rfl | rfl⟩ : ∃ b : Bracket, c = b.opening ∨ c = b.closing := by
        rw [noBracket_iff] at hbracket
        push Not at hbracket
        obtain ⟨b, hb⟩ := hbracket
        exact ⟨b, or_iff_not_imp_left.mpr hb⟩
      · rw [lexeme_sign (isSign_bracket b).1, (ofSign_bracket b).1] at ih ⊢
        congr 1
        exact funext ih
      · rw [lexeme_sign (isSign_bracket b).2, (ofSign_bracket b).2] at ih ⊢
        congr 1
        exact funext ih

end Tokens

/-! ### Groups -/

section Groups

variable {us vs rest w : List Token} {token token' : Token} {b b' : Bracket}

/-- The brackets of the tokens nest. -/
def NestedTokens (ts : List Token) : Prop :=
  Nested (bracketsOf (symbolsOf ts))

theorem nestedTokens_append (h : NestedTokens us) :
    NestedTokens (us ++ vs) ↔ NestedTokens vs := by
  have happ : bracketsOf (symbolsOf (us ++ vs)) =
      bracketsOf (symbolsOf us) ++ bracketsOf (symbolsOf vs) := by
    unfold symbolsOf
    rw [List.map_append, bracketsOf_append]
  unfold NestedTokens
  rw [happ]
  show nest [] _ = some [] ↔ nest [] _ = some []
  rw [followsBrackets_nest.nested_append h]

theorem not_nestedTokens_closing (h : token.symbol = .closing b) :
    ¬NestedTokens (token :: us) := by
  unfold NestedTokens symbolsOf
  rw [List.map_cons, h]
  show ¬nest [] (b.closing :: bracketsOf (us.map Token.symbol)) = some []
  rw [nest_closing]
  simp

/-- Two splits of the same tokens at a closing bracket after nested ones are the same. -/
theorem eq_of_nestedTokens (hu : NestedTokens us) (hv : NestedTokens vs)
    (ht : token.symbol = .closing b) (ht' : token'.symbol = .closing b')
    (h : us ++ token :: rest = vs ++ token' :: w) : token = token' ∧ rest = w := by
  rcases List.append_eq_append_iff.mp h with ⟨ts, rfl, hts⟩ | ⟨ts, rfl, hts⟩
  · cases ts with
    | nil => exact List.cons.inj hts
    | cons t ts =>
      obtain ⟨rfl, -⟩ := List.cons.inj hts
      exact absurd ((nestedTokens_append hu).mp hv) (not_nestedTokens_closing ht)
  · cases ts with
    | nil => exact (List.cons.inj hts).imp Eq.symm Eq.symm
    | cons t ts =>
      obtain ⟨rfl, -⟩ := List.cons.inj hts
      exact absurd ((nestedTokens_append hv).mp hu) (not_nestedTokens_closing ht')

end Groups

namespace Expr

variable {stop calls : Nat} {ts us vs w rest : List Token} {token : Token} {x : Expr} {b : Bracket}

theorem nestedTokens_of_reads (h : Reads Operand stop ts (.ok (x, rest))) :
    ∃ used, ts = used ++ rest ∧ NestedTokens used := by
  cases h with
  | ok _ hts hp => exact ⟨_, hts, nest_bracketsOf (hp.2 [] false)⟩

/-- What a group in brackets holds is a sum. -/
theorem exists_of_group {opening : Token} {k : Bracket} (ho : opening.symbol = .opening k)
    (hn : NestedTokens us) (ht : token.symbol = .closing b)
    (h : group stop calls (opening :: (us ++ token :: w)) = .ok (x, rest)) :
    ∃ calls', calls = calls' + 1 ∧ rest = w ∧
      sum stop calls' (us ++ token :: w) = .ok (x, token :: w) := by
  cases calls with
  | zero => cases h
  | succ calls =>
    obtain ⟨_, position, afterNumber⟩ := opening
    obtain rfl : _ = Symbol.opening k := ho
    obtain ⟨⟨y, after⟩, hsum, h⟩ := exists_of_bind_ok h
    obtain ⟨rest', hclosing, h⟩ := exists_of_bind_ok h
    obtain ⟨rfl, rfl⟩ := Prod.mk.inj (Except.ok.inj h)
    obtain ⟨closing, rfl, hc⟩ := exists_closing hclosing
    have hreads := (readsAll stop calls).sum (us ++ token :: w)
    rw [hsum] at hreads
    obtain ⟨used, hused, hnested⟩ := nestedTokens_of_reads hreads
    obtain ⟨rfl, rfl⟩ := eq_of_nestedTokens hnested hn hc ht hused.symm
    exact ⟨calls, rfl, rfl, hsum⟩

theorem exists_of_factor_group {opening : Token} {k : Bracket} (ho : opening.symbol = .opening k)
    (hn : NestedTokens us) (ht : token.symbol = .closing b)
    (h : factor stop calls (opening :: (us ++ token :: w)) = .ok (x, rest)) :
    ∃ calls', calls = calls' + 2 ∧ rest = w ∧
      sum stop calls' (us ++ token :: w) = .ok (x, token :: w) := by
  cases calls with
  | zero => cases h
  | succ calls =>
    simp only [factor, ho] at h
    obtain ⟨calls', rfl, hsum⟩ := exists_of_group ho hn ht h
    exact ⟨calls', rfl, hsum⟩

/-- The argument of a function in braces is a sum. -/
theorem exists_of_factor_call {f : UnaryFunction} {opening : Token} (hw : token.symbol = .word (.unary f))
    (ho : opening.symbol = .opening .curly) {closing : Token} (hn : NestedTokens us)
    (hc : closing.symbol = .closing b)
    (h : factor stop calls (token :: opening :: (us ++ closing :: w)) = .ok (x, rest)) :
    ∃ calls' y, calls = calls' + 4 ∧ rest = w ∧
      sum stop calls' (us ++ closing :: w) = .ok (y, closing :: w) := by
  obtain ⟨_, position, afterNumber⟩ := opening
  obtain rfl : _ = Symbol.opening .curly := ho
  rcases calls with _ | _ | calls
  · cases h
  · simp only [factor, hw, worded] at h
    cases h
  · have hargument : ∃ y, argument stop calls (.unary f)
        (⟨.opening .curly, position, afterNumber⟩ :: (us ++ closing :: w)) = .ok (y, rest) := by
      simp only [factor, hw] at h
      have hworded : worded stop (calls + 1) (.unary f)
          (⟨.opening .curly, position, afterNumber⟩ :: (us ++ closing :: w)) =
          (argument stop calls (.unary f)
            (⟨.opening .curly, position, afterNumber⟩ :: (us ++ closing :: w)) >>= fun p =>
              .ok (p.1.call f, p.2)) := by
        cases f <;> rfl
      rw [hworded] at h
      obtain ⟨⟨y, after⟩, harg, h⟩ := exists_of_bind_ok h
      obtain ⟨-, rfl⟩ := Prod.mk.inj (Except.ok.inj h)
      exact ⟨y, harg⟩
    obtain ⟨y, hargument⟩ := hargument
    cases calls with
    | zero => cases hargument
    | succ calls =>
      obtain ⟨calls', rfl, hrest, hsum⟩ := exists_of_group rfl hn hc hargument
      exact ⟨calls', y, rfl, hrest, hsum⟩

/-! ### Powers -/

theorem exists_factor_of_raised (h : raised stop calls ts = .ok (x, rest)) :
    ∃ calls' y after, calls = calls' + 2 ∧ factor stop calls' ts = .ok (y, after) ∧
      ∀ caret us, after = caret :: us → caret.symbol = .operator .caret →
        ∃ z, signed stop (calls' + 1) us = .ok (z, rest) := by
  rcases calls with _ | _ | calls
  · cases h
  · cases h
  · obtain ⟨⟨y, after⟩, hpostfixed, h⟩ := exists_of_bind_ok h
    obtain ⟨⟨y', after'⟩, hfactor, hextend⟩ := exists_of_bind_ok hpostfixed
    refine ⟨calls, y', after', rfl, hfactor, ?_⟩
    rintro ⟨_, position, afterNumber⟩ us rfl hcaret
    obtain rfl : _ = Symbol.operator .caret := hcaret
    -- No factorial sign goes on with the base.
    have hnone : postfixStep y' (⟨.operator .caret, position, afterNumber⟩ :: us) = none := rfl
    replace hextend : extend postfixStep _ _ _ = Except.ok (y, after) := hextend
    rw [extend_of_none hnone] at hextend
    obtain ⟨rfl, rfl⟩ := Prod.mk.inj (Except.ok.inj hextend)
    obtain ⟨⟨z, after⟩, hsigned, h⟩ := exists_of_bind_ok h
    obtain ⟨-, rfl⟩ := Prod.mk.inj (Except.ok.inj h)
    exact ⟨z, hsigned⟩

theorem raised_of_signed (hb : token.symbol.beginsFactor = true)
    (h : signed stop calls (token :: ts) = .ok (x, rest)) :
    ∃ calls', calls = calls' + 1 ∧ raised stop calls' (token :: ts) = .ok (x, rest) := by
  cases calls with
  | zero => cases h
  | succ calls =>
    refine ⟨calls, rfl, ?_⟩
    obtain ⟨symbol, position, afterNumber⟩ := token
    cases symbol with
    | number | word | opening => exact h
    | _ => cases hb

/-- A sum begins with a power if it begins with no sign. -/
theorem exists_raised_of_sum (hb : token.symbol.beginsFactor = true)
    (h : sum stop calls (token :: ts) = .ok (x, rest)) :
    ∃ calls' y after, calls = calls' + 3 ∧ raised stop calls' (token :: ts) = .ok (y, after) := by
  rcases calls with _ | _ | calls
  · cases h
  · cases h
  · obtain ⟨⟨y, after⟩, hterm, -⟩ := exists_of_bind_ok h
    obtain ⟨⟨y', after'⟩, hsigned, -⟩ := exists_of_bind_ok hterm
    obtain ⟨calls', rfl, hraised⟩ := raised_of_signed hb hsigned
    exact ⟨calls', y', after', rfl, hraised⟩

/-- The exponent in brackets is a sum. -/
theorem exists_of_signed_group {opening : Token} {k : Bracket} (ho : opening.symbol = .opening k)
    (hn : NestedTokens us) (ht : token.symbol = .closing b)
    (h : signed stop calls (opening :: (us ++ token :: w)) = .ok (x, rest)) :
    ∃ calls' y, calls = calls' + 5 ∧
      sum stop calls' (us ++ token :: w) = .ok (y, token :: w) := by
  obtain ⟨_, rfl, hraised⟩ := raised_of_signed (by rw [ho]; rfl) h
  obtain ⟨_, y, _, rfl, hfactor, -⟩ := exists_factor_of_raised hraised
  obtain ⟨calls', rfl, -, hsum⟩ := exists_of_factor_group ho hn ht hfactor
  exact ⟨calls', y, rfl, hsum⟩

end Expr

/-! ### Two texts between pieces -/

section Enclosed

variable {l m x y x' y' u : Text} {opened outer : List Bracket}

/-- The brackets of the pieces: each opens a brace at its end, which is closed. -/
structure Braces (l m : Text) (opened outer : List Bracket) : Prop where
  first : nest [] l = some (.curly :: opened)
  second : nest (.curly :: opened) ('\x7d' :: m) = some (.curly :: outer)
  last : outer = []
  barless : '|' ∉ l ∧ '|' ∉ m

theorem BarsPair.of_enclosed (hb : Braces l m opened outer) (hx : Nested x) (hy : Nested y)
    (h : BarsPair [] [] true (enclosed l x m y) u) :
    ∃ x' y', u = enclosed l x' m y' ∧ BarsPair [] [] true x x' ∧ BarsPair [] [] true y y' := by
  obtain ⟨hfirst, hsecond, rfl, hl, hm⟩ := hb
  have hm : '|' ∉ '\x7d' :: m := List.not_mem_cons_of_ne_of_not_mem (by decide) hm
  obtain ⟨_, u₁, rfl, h₁⟩ := @of_barless _ l [] _ _ _ _ hl hfirst h
  obtain ⟨x', u₂, _, _, rfl, hxs, h₂⟩ :=
    @split .curly _ (opened.map .bracket) _ x [] [] true _ _ hx (by simp) (by simp) h₁
  obtain ⟨_, u₃, rfl, h₃⟩ := @of_barless _ ('\x7d' :: m) (.curly :: opened) _ _ _ _ hm hsecond h₂
  obtain ⟨y', u₄, _, _, rfl, hys, h₄⟩ :=
    @split .curly _ [] _ y [] [] true _ _ hy (by simp) (by simp) h₃
  obtain ⟨_, u₅, rfl, h₅⟩ := @of_barless [] ['\x7d'] [.curly] [] _ _ _ (by decide) rfl h₄
  cases h₅
  exact ⟨x', y', rfl, hxs, hys⟩

theorem BarsPair.enclosed (hb : Braces l m opened outer) (hx : BarsPair [] [] true x x')
    (hy : BarsPair [] [] true y y') :
    BarsPair [] [] true (enclosed l x m y) (enclosed l x' m y') := by
  obtain ⟨hfirst, hsecond, rfl, hl, hm⟩ := hb
  have hm : '|' ∉ '\x7d' :: m := List.not_mem_cons_of_ne_of_not_mem (by decide) hm
  have hpieces := ((PiecePairs.of_nest hl hfirst []).append (PiecePairs.block hx (by simp))).append
    ((PiecePairs.of_nest hm hsecond []).append (PiecePairs.block hy (by simp)))
  have hlast := PiecePairs.of_nest (l := ['\x7d']) (by decide) (show NumericAnswer.nest [.curly] _ = some [] from rfl) []
  have hall := (hpieces.append hlast) BarsPair.nil [] true
  simpa [NumericAnswer.enclosed] using hall

variable {ps qs rs us vs ws : List (Symbol × Bool)}

theorem Lexes.of_enclosed {afterNumber : Bool} (hl : PieceShows l ps) (hm : PieceShows ('\x7d' :: m) qs)
    (hr : PieceShows ['\x7d'] rs) (hx : '\\' ∉ x) (hy : '\\' ∉ y)
    (h : Lexes afterNumber (enclosed l x m y) ws) :
    ∃ us vs, ws = ps ++ (us ++ (qs ++ (vs ++ rs))) ∧ Lexes false x us ∧ Lexes false y vs := by
  have hseparates : ∀ s : Text, Separates ('\x7d' :: s) := fun s => (closes_brace s).separates
  obtain ⟨ws, rfl, h₁⟩ := hl h
  obtain ⟨us, ws, _, rfl, hus, h₂⟩ := h₁.of_append hx (hseparates _)
  obtain ⟨ws, rfl, h₃⟩ := hm h₂
  obtain ⟨vs, ws, _, rfl, hvs, h₄⟩ := h₃.of_append hy (hseparates _)
  obtain ⟨ws, rfl, h₅⟩ := hr h₄
  cases h₅
  exact ⟨us, vs, by rw [List.append_nil], hus, hvs⟩

theorem Lexes.enclosed (hl : PieceLexes l ps) (hm : PieceLexes ('\x7d' :: m) qs)
    (hr : PieceLexes ['\x7d'] rs) (hx : Lexes false x us ∧ '\\' ∉ x) (hy : Lexes false y vs ∧ '\\' ∉ y)
    (afterNumber : Bool) :
    Lexes afterNumber (enclosed l x m y) (ps ++ (us ++ (qs ++ (vs ++ rs)))) := by
  have hseparates : ∀ s : Text, Separates ('\x7d' :: s) := fun s => (closes_brace s).separates
  have hlast : ∀ afterNumber, Lexes afterNumber ['\x7d'] rs := hr.lexes
  have hsecond := hy.1.append hy.2 (hseparates []) hlast
  have hfirst := hx.1.append hx.2 (hseparates _) fun afterNumber => hm afterNumber _ _ hsecond
  exact hl afterNumber _ _ hfirst

end Enclosed

end NumericAnswer
