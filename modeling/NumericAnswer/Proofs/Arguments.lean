/-
# Glyphs as arguments

A macro takes a glyph as its argument as it takes the command for the glyph, and it reads the same
groups in texts that differ in spellings. There are two exceptions. A function whose power stands
before its argument does not take a glyph, but the command; and the blank that ends a command may
tear a row of groups.

Key definitions: `Parted`, `Respelt`.
Key theorems: `Glossed.macroArgument`, `Glossed.functionArgument`.
-/
import NumericAnswer.Proofs.Undressed

namespace NumericAnswer

/-- The two parts of a text, after which blanks may differ. -/
def Parted (free : Bool) (p q : Text × Text) : Prop :=
  Glossed true free p.1 q.1 ∧ Glossed true true p.2 q.2

/-- Both texts have a group or an argument at the front, or neither has one for the same reason. -/
inductive Respelt : Except Refusal (Text × Text) → Except Refusal (Text × Text) → Prop
  | ok {p q : Text × Text} (h : Parted false p q) : Respelt (.ok p) (.ok q)
  | error (refusal : Refusal) : Respelt (.error refusal) (.error refusal)

section Respelt

variable {x y : Except Refusal (Text × Text)}

theorem Respelt.map {f g : Text → Text} (h : Respelt x y)
    (hf : ∀ {a a'}, Glossed true false a a' → Glossed true false (f a) (g a')) :
    Respelt (x.map fun p => (f p.1, p.2)) (y.map fun p => (g p.1, p.2)) := by
  cases h with
  | ok h => exact .ok ⟨hf h.1, h.2⟩
  | error refusal => exact .error refusal

end Respelt

/-! ### Groups -/

section Groups

variable {free : Bool} {s t : Text} {c : Char}

theorem Parted.map {f g : Text → Text} {free' : Bool} {x y : Option (Text × Text)}
    (h : Option.Rel (Parted free) x y)
    (hf : ∀ {a a' r r'}, x = some (a, r) → y = some (a', r') → Glossed true free a a' →
      Glossed true free' (f a) (g a')) :
    Option.Rel (Parted free') (x.map fun p => (f p.1, p.2)) (y.map fun p => (g p.1, p.2)) := by
  cases h with
  | some h => exact .some ⟨hf rfl rfl h.1, h.2⟩
  | none => exact .none

theorem Spelling.noBracket {g : Char} {name rest x : Text} (h : Spelling g name rest x)
    (hg : glyphName? g = some name) : ∀ c ∈ x, NoBracket c := by
  intro c hc
  rcases h.mem c hc with rfl | rfl | hc
  · exact of_decide_eq_true
      (glyph_all (p := fun c => decide (NoBracket c)) (isSome_of_glyphName hg) (by decide))
  · exact noBracket_backslash
  · exact noBracket_of_isAlphanumeric
      (isAlphanumeric_of_isAsciiLetter ((isName_of_glyphName hg).2 c hc))

/-- A group ends at the same bracket. -/
theorem Glossed.spanGroup (h : Glossed true free s t) (bracket : Bracket) : ∀ depth,
    Option.Rel (Parted free) (spanGroup bracket depth s) (spanGroup bracket depth t) := by
  have hbefore : ∀ {g : Char} {name s x a r : Text} {depth : Nat}, Spelling g name s x →
      NumericAnswer.spanGroup bracket depth s = some (a, r) → Spelling g name a x := by
    intro g name s x a r depth hx hs
    refine hx.before fun hends => ?_
    rw [← append_of_spanGroup hs] at hends
    cases a with
    | nil => rfl
    | cons c a => exact hends
  have hblank : ∀ {e : Char} {depth : Nat} {s : Text}, isBlank e = true →
      NumericAnswer.spanGroup bracket depth (e :: s) =
        (NumericAnswer.spanGroup bracket depth s).map fun p => (e :: p.1, p.2) := fun he =>
    spanGroup_noBracket_append (w := [_]) (by simpa using noBracket_of_isBlank he) _ _
  induction h with
  | nil => exact fun _ => .none
  | @char free c s t hc h ih =>
    intro depth
    have hgo : ∀ depth, Option.Rel (Parted free)
        ((NumericAnswer.spanGroup bracket depth s).map fun p => (c :: p.1, p.2))
        ((NumericAnswer.spanGroup bracket depth t).map fun p => (c :: p.1, p.2)) :=
      fun depth => Parted.map (ih depth) fun _ _ h => .char hc h
    rw [spanGroup_cons, spanGroup_cons]
    split
    · exact hgo (depth + 1)
    · split
      · cases depth with
        | zero => exact .some ⟨.nil, h.freed⟩
        | succ depth => exact hgo depth
      · exact hgo depth
  | glyph hg hx hy _ ih =>
    intro depth
    rw [spanGroup_noBracket_append (hx.noBracket hg), spanGroup_noBracket_append (hy.noBracket hg)]
    exact Parted.map (ih depth) fun hs ht h => .glyph hg (hbefore hx hs) (hbefore hy ht) h
  | @left e s t he _ ih =>
    intro depth
    have hmap := Parted.map (f := fun a => e :: a) (g := fun a => a) (ih depth)
      fun _ _ h => .left he h
    rw [hblank he]
    simpa using hmap
  | @right e s t he _ ih =>
    intro depth
    have hmap := Parted.map (f := fun a => a) (g := fun a => e :: a) (ih depth)
      fun _ _ h => .right he h
    rw [hblank he]
    simpa using hmap

theorem Glossed.readGroup (h : Glossed true false s t) (c : Char) :
    Respelt (readGroup (c :: s)) (readGroup (c :: t)) := by
  cases hb : Bracket.ofOpening? c with
  | none =>
    simp only [NumericAnswer.readGroup, hb]
    exact .error .absent
  | some bracket =>
    have hspan := h.spanGroup bracket 0
    simp only [NumericAnswer.readGroup, hb]
    generalize NumericAnswer.spanGroup bracket 0 s = x,
      NumericAnswer.spanGroup bracket 0 t = y at hspan
    cases hspan with
    | some hpq => exact .ok hpq
    | none => exact .error (.unclosed bracket)

theorem opens_plain (hc : opens c = true) :
    c ∉ ['π', '×', '·', '÷', '\\'] ∧ frees true c = false ∧ isBlank c = false := by
  obtain ⟨bracket, hb⟩ := Option.isSome_iff_exists.mp hc
  obtain rfl := Bracket.ofOpening?_eq_some_iff.mp hb
  cases bracket <;> decide

/-- A group of a row stands at the fronts of both texts, if blanks do not tear it off. -/
theorem Glossed.of_opensRow (h : Glossed true free (c :: s) t) (hc : opensRow c = true)
    (ht : tornGroups t = false) : ∃ t', t = c :: t' ∧ Glossed true false s t' := by
  obtain ⟨hplain, hfrees, hblank⟩ := opens_plain (opens_of_opensRow hc)
  have hfront := h.front
  rw [dropBlanks_cons_of_not_isBlank hblank] at hfront
  obtain ⟨t', hdrop, hrest⟩ := hfront.of_cons hplain
  rw [hfrees] at hrest
  obtain ⟨b, hb, hsplit⟩ := exists_blanks_append t
  rw [hdrop] at hsplit
  refine ⟨t', ?_, hrest⟩
  by_cases hnil : b = []
  · rw [hsplit, hnil]
    rfl
  · rw [hsplit, tornGroups_blanks_append hb hnil hc] at ht
    cases ht

/-- A row of groups that is torn in neither text. -/
theorem Glossed.absorbGroups (h : Glossed true free s t) (hs : tornGroups s = false)
    (ht : tornGroups t = false) : Respelt (absorbGroups s) (absorbGroups t) := by
  have hnothing : ∀ {free : Bool} {s t : Text}, Glossed true free s t → tornGroups s = false →
      s.head?.any opensRow = false → Respelt (.ok ([], s)) (NumericAnswer.absorbGroups t) := by
    intro free s t h hs hhead
    rw [absorbGroups_of_head]
    · exact .ok ⟨.nil, h.freed⟩
    · cases t with
      | nil => rfl
      | cons c t =>
        by_contra hc
        obtain ⟨s', rfl, -⟩ := h.symm.of_opensRow (by simpa using hc) hs
        exact hc hhead
  fun_induction NumericAnswer.absorbGroups s generalizing t free with
  | case1 => exact hnothing h hs rfl
  | case2 c s hc => exact hnothing h hs (opensRow_eq_false (.inl hc))
  | case3 c s hc => exact hnothing h hs (opensRow_eq_false (.inr hc))
  | case4 c s bracket hround hb hspan =>
    obtain ⟨t, rfl, hrest⟩ := h.of_opensRow (opensRow_of_ofOpening? hb hround) ht
    have hspans := hrest.spanGroup bracket 0
    rw [hspan] at hspans
    generalize hspan' : NumericAnswer.spanGroup bracket 0 t = y at hspans
    cases hspans
    rw [absorbGroups_unclosed hb hround hspan']
    exact .error _
  | case5 c s bracket hround hb content rest hspan ih =>
    have hrow := opensRow_of_ofOpening? hb hround
    obtain ⟨t, rfl, hrest⟩ := h.of_opensRow hrow ht
    have hspans := hrest.spanGroup bracket 0
    rw [hspan] at hspans
    generalize hspan' : NumericAnswer.spanGroup bracket 0 t = y at hspans
    cases hspans with
    | @some _ q hpq =>
      obtain ⟨content', rest'⟩ := q
      rw [absorbGroups_cons hb hround hspan']
      rw [tornGroups_cons hb hround hspan] at hs
      rw [tornGroups_cons hb hround hspan'] at ht
      have hcloses : bracket.closing = '\x7d' ∨ bracket.closing = ']' := by
        cases bracket with
        | round => exact absurd rfl hround
        | square => exact .inr rfl
        | curly => exact .inl rfl
      have hname : glyphName? c = none := by
        cases hg : glyphName? c with
        | none => rfl
        | some name =>
          have hno := glyph_all (p := fun c => !opensRow c) (isSome_of_glyphName hg) (by decide)
          simp [hrow] at hno
      rw [← (opens_plain (opens_of_opensRow hrow)).2.1] at hpq
      exact Respelt.map (f := fun groups => c :: (content ++ bracket.closing :: groups))
        (g := fun groups => c :: (content' ++ bracket.closing :: groups)) (ih hpq.2 hs ht)
        fun hgroups => .char hname (hpq.1.append_closer hcloses hgroups.loosened)

end Groups

/-! ### Arguments -/

/-- A glyph stands at the front, behind blanks. -/
def startsWithGlyph (s : Text) : Bool :=
  (dropBlanks s).head?.any fun c => (glyphName? c).isSome

section Arguments

variable {free : Bool} {g : Char} {name s t x : Text}

theorem dropWhile_glyphName (hg : glyphName? g = some name) (hs : s.head?.all endsName = true) :
    (name ++ s).dropWhile isAsciiLetter = s := by
  rw [dropWhile_append_of_head (head?_any_of_endsName hs),
    List.dropWhile_eq_nil_iff.mpr (isName_of_glyphName hg).2]
  rfl

/-- A spelling is one token. -/
theorem Spelling.singleToken (hx : Spelling g name s x) (hg : glyphName? g = some name) :
    singleToken (x ++ s) = .ok (x, s) := by
  cases hx with
  | glyph =>
    have hplain := glyph_all (p := fun c => c ≠ '\x7b' && c ≠ '\x7d' && c ≠ '\\')
      (isSome_of_glyphName hg) (by decide)
    simp only [Bool.and_eq_true, decide_eq_true_eq] at hplain
    simp [NumericAnswer.singleToken, hplain]
  | command hs =>
    have htoken : ∀ s, NumericAnswer.singleToken ('\\' :: s) =
        .ok ('\\' :: leadingLetters s, s.dropWhile isAsciiLetter) := fun _ => rfl
    rw [List.cons_append, htoken, Rule.leadingLetters_glyphName hg hs, dropWhile_glyphName hg hs]

theorem Spelling.nil (hx : Spelling g name s x) : Spelling g name [] x :=
  hx.before fun _ => rfl

namespace Glossed

theorem singleToken (h : Glossed true false s t) : Respelt (singleToken s) (singleToken t) := by
  cases h with
  | nil => exact .error .absent
  | @char _ c s t hc h =>
    by_cases hbackslash : c = '\\'
    · subst hbackslash
      obtain ⟨hletters, hrest⟩ := h.span inner_isAsciiLetter
      have htoken : ∀ s, NumericAnswer.singleToken ('\\' :: s) =
          .ok ('\\' :: leadingLetters s, s.dropWhile isAsciiLetter) := fun _ => rfl
      rw [htoken, htoken, leadingLetters, leadingLetters, hletters]
      exact .ok ⟨.refl _, hrest.freed⟩
    · have htoken : ∀ s, NumericAnswer.singleToken (c :: s) =
          if c = '\x7b' || c = '\x7d' then .error .absent else .ok ([c], s) := by
        intro s
        simp [NumericAnswer.singleToken, hbackslash]
      rw [htoken, htoken]
      split
      · exact .error .absent
      · exact .ok ⟨.refl _, h.freed⟩
  | @glyph _ g name x y s t hg hx hy h =>
    rw [hx.singleToken hg, hy.singleToken hg]
    have hxy : Glossed true false (x ++ []) (y ++ []) := .glyph hg hx.nil hy.nil .nil
    rw [List.append_nil, List.append_nil] at hxy
    exact .ok ⟨hxy, h⟩

/-- The opening bracket of a group stands at the fronts of both texts. -/
theorem readGroup_of_head {c : Char} (h : Glossed true false s t)
    (hc : c ∉ ['π', '×', '·', '÷', '\\']) (hfrees : frees true c = false) (hs : s.head? = some c) :
    Respelt (NumericAnswer.readGroup s) (NumericAnswer.readGroup t) := by
  obtain ⟨u, rfl⟩ := List.head?_eq_some_iff.mp hs
  obtain ⟨v, rfl, hrest⟩ := h.of_cons hc
  rw [hfrees] at hrest
  exact hrest.readGroup c

theorem macroArgument (h : Glossed true free s t) (hs : tornArgument s = false)
    (ht : tornArgument t = false) : Respelt (macroArgument s) (macroArgument t) := by
  have hfront := h.front
  unfold tornArgument at hs ht
  unfold NumericAnswer.macroArgument
  generalize dropBlanks s = u, dropBlanks t = v at hfront hs ht
  have hletters := hfront.leadingLetters_eq
  simp only at hs ht ⊢
  by_cases hopen : u.head? = some '\x7b'
  · rw [if_pos hopen, if_pos ((hfront.head?_eq_iff (by decide)).mp hopen)]
    exact hfront.readGroup_of_head (by decide) (by decide) hopen
  · rw [if_neg hopen, if_neg fun h => hopen ((hfront.head?_eq_iff (by decide)).mpr h), hletters]
    split
    · next hword =>
      have hgroups := hfront.drop_leadingLetters
      rw [hletters] at hgroups hs
      simp only [hword, Bool.true_and] at hs ht
      exact (hgroups.absorbGroups hs ht).map fun ha => ha.same_append _
    · exact hfront.singleToken

/-- The same number stands at the fronts of both texts, or none. -/
theorem bareNumber (h : Glossed true false s t) :
    Option.Rel (fun p q => p.1 = q.1 ∧ Glossed true true p.2 q.2) (bareNumber s) (bareNumber t) := by
  obtain ⟨hwhole, hafter⟩ := h.span inner_isDecimalDigit
  by_cases hpoint : (s.dropWhile isDecimalDigit).head? = some '.'
  · obtain ⟨u, hu⟩ := List.head?_eq_some_iff.mp hpoint
    rw [hu] at hafter
    obtain ⟨v, hv, hrest⟩ := hafter.of_cons (by decide)
    have hrest : Glossed true false u v := hrest
    obtain ⟨hfraction, hlast⟩ := hrest.span inner_isDecimalDigit
    unfold NumericAnswer.bareNumber
    simp only [hu, hv, hwhole, hfraction]
    split
    · split
      · exact .none
      · exact .some ⟨rfl, .char (by decide) hrest⟩
    · exact .some ⟨rfl, hlast.freed⟩
  · have hpoint' : (t.dropWhile isDecimalDigit).head? ≠ some '.' := fun h =>
      hpoint ((hafter.head?_eq_iff (by decide)).mpr h)
    rw [bareNumber_eq hpoint, bareNumber_eq hpoint', hwhole]
    split
    · exact .none
    · exact .some ⟨rfl, hafter.freed⟩

/-- The same operand stands at the fronts of both texts, or none. A glyph is no operand. -/
theorem bareOperand (h : Glossed true false s t)
    (hs : s.head?.any (fun c => (glyphName? c).isSome) = false)
    (ht : t.head?.any (fun c => (glyphName? c).isSome) = false) :
    Option.Rel (fun p q => p.1 = q.1 ∧ Glossed true true p.2 q.2) (bareOperand s)
      (bareOperand t) := by
  cases h with
  | nil => exact .none
  | @char _ c s t hc h =>
    by_cases hbackslash : c = '\\'
    · subst hbackslash
      have hrest : Glossed true false s t := h
      simp only [NumericAnswer.bareOperand, hrest.leadingLetters_eq]
      split
      · exact .none
      · exact .some ⟨rfl, (hrest.span inner_isAsciiLetter).2.freed⟩
    · have hfront : Glossed true false (c :: s) (c :: t) := .char hc h
      rw [bareOperand_eq (by simpa using hbackslash), bareOperand_eq (by simpa using hbackslash),
        hfront.leadingLetters_eq]
      split
      · exact hfront.bareNumber
      · exact .some ⟨rfl, (hfront.span inner_isAsciiLetter).2.freed⟩
  | @glyph _ g name x y s t hg hx hy h =>
    cases hx with
    | glyph => simp [hg] at hs
    | command hends =>
      cases hy with
      | glyph => simp [hg] at ht
      | command hends' =>
        have hoperand : ∀ {s : Text}, s.head?.all endsName = true →
            NumericAnswer.bareOperand ('\\' :: (name ++ s)) = some ('\\' :: name, s) := by
          intro s hs
          have hne : name.isEmpty = false := by simpa using (isName_of_glyphName hg).1
          simp [NumericAnswer.bareOperand, Rule.leadingLetters_glyphName hg hs, hne,
            dropWhile_glyphName hg hs]
        rw [List.cons_append, List.cons_append, hoperand hends, hoperand hends']
        exact .some ⟨rfl, h⟩

theorem functionArgument (h : Glossed true free s t) (hs : tornArgument s = false)
    (ht : tornArgument t = false) (hglyph : startsWithGlyph s = false)
    (hglyph' : startsWithGlyph t = false) :
    Respelt (functionArgument s) (functionArgument t) := by
  have hfront := h.front
  unfold tornArgument at hs ht
  unfold startsWithGlyph at hglyph hglyph'
  unfold NumericAnswer.functionArgument
  generalize dropBlanks s = u, dropBlanks t = v at hfront hs ht hglyph hglyph'
  have hoperand := hfront.bareOperand hglyph hglyph'
  have hopens := hfront.head?_any (p := fun c => (Bracket.ofOpening? c).isSome) (by decide)
  have hbracket : ∀ s : Text, (s.head?.bind Bracket.ofOpening?).isSome =
      s.head?.any fun c => (Bracket.ofOpening? c).isSome := by
    intro s
    cases s <;> rfl
  simp only at hs ht ⊢
  rw [hbracket, hbracket, ← hopens]
  split
  · next hopen =>
    cases u with
    | nil => cases hopen
    | cons c u =>
      obtain ⟨hplain, hfrees, -⟩ := opens_plain hopen
      exact hfront.readGroup_of_head hplain hfrees rfl
  · generalize hx : NumericAnswer.bareOperand u = x,
      hy : NumericAnswer.bareOperand v = y at hoperand
    cases hoperand with
    | none => exact .error .absent
    | @some p q hpq =>
      obtain ⟨w, r⟩ := p
      obtain ⟨w', r'⟩ := q
      obtain ⟨rfl, hr⟩ := hpq
      simp only
      split
      · next hword =>
        have hgrouped : w ∈ groupedWords := by simpa using hword
        obtain ⟨hu, hru⟩ := leadingLetters_of_bareOperand hx hgrouped
        obtain ⟨hv, hrv⟩ := leadingLetters_of_bareOperand hy hgrouped
        rw [hu, hru] at hs
        rw [hv, hrv] at ht
        simp only [hword, Bool.true_and] at hs ht
        exact (hr.absorbGroups hs ht).map fun ha => ha.same_append _
      · exact .ok ⟨.refl _, hr⟩

end Glossed
end Arguments
end NumericAnswer
