/-
# Hints read back

The fraction or the multiple of π that a hint shows is an answer. In its canonical form the glyph is
a word, with a space before it behind a factor. It is read as the quotient that was written: the
sign binds to the factor, the factor to π, and all that is divided. So it denotes what the hint
shows, with the numerals as doubles.

Key definitions: `piGap`, `Expr.piMultiple`, `Multiple.text`.
Key theorems: `canonical_glyph`, `Display.parse_canonical_pi`, `Display.parse_canonical_fraction`,
`Multiple.reads_back`.
-/
import NumericAnswer.Proofs.Multiples

namespace NumericAnswer

open Binary Double

/-! ### The canonical form of a multiple of π -/

namespace Canonical

/-- The stages before the one for the glyph. -/
def glyphlessStages : List Stage :=
  cosmeticStages ++ passStages ++ [.wording Rule.functionName, .always Rule.sign]

theorem stages_eq : stages = glyphlessStages ++ [.wording Rule.pi, .wording Rule.e] :=
  rfl

theorem nothing_at_pi : ∀ stage ∈ glyphlessStages, ∀ b s, stage b 'π' s = .nothing := by
  simp only [glyphlessStages, cosmeticStages, passStages, List.forall_mem_append,
    List.forall_mem_cons]
  refine ⟨⟨⟨?_, ?_, ?_, ?_, ?_, ?_, ?_, by simp⟩, ?_, ?_, ?_, ?_, by simp⟩, ?_, ?_, by simp⟩ <;>
    intro b s <;> rfl

end Canonical

section Glyph

variable {u v : Text}

theorem rewrites_glyph {stage : Stage} (hl : stage.Local) (hu : ∀ c ∈ u, c ∉ triggers)
    (hv : ∀ c ∈ v, c ∉ triggers) (hpi : ∀ b s, stage b 'π' s = .nothing) :
    Rewrites true stage none (u ++ 'π' :: v) (u ++ 'π' :: v) := by
  have htail : Rewrites true stage (some 'π') (v ++ []) (v ++ []) :=
    rewrites_plain_append hl hv (.nil _)
  rw [List.append_nil] at htail
  exact rewrites_plain_append hl hu (.keep (hpi _ _) htail)

/-- The glyph becomes a word, with a space before it if a digit stands there. -/
theorem rewrites_pi (hu : ∀ c ∈ u, c ∉ triggers) (hv : ∀ c ∈ v, c ∉ triggers) :
    Rewrites true (.wording Rule.pi) none (u ++ 'π' :: v)
      (u ++ (padded u.getLast? v.head? "pi".toList ++ v)) := by
  have hl : (Stage.wording Rule.pi).Local :=
    Canonical.local_of_mem_stages _ (by simp [Canonical.stages_eq])
  have htail : Rewrites true (.wording Rule.pi) (some 'π') (v ++ []) (v ++ []) :=
    rewrites_plain_append hl hv (.nil _)
  rw [List.append_nil] at htail
  refine rewrites_plain_append hl hu (.move ?_ htail)
  rw [Option.or_none]
  rfl

theorem isBlank_of_isPlain {c : Char} (h : isPlain c = true) : isBlank c = false := by
  have hsigns : ∀ c ∈ plainSigns, isBlank c = false := forall_mem_of_all (by decide)
  simp only [isPlain, Bool.or_eq_true, List.contains_iff_mem] at h
  rcases h with (h | h) | h
  · exact isBlank_of_lexeme_char (.inr (.inl h))
  · exact isBlank_of_lexeme_char (.inl h)
  · exact hsigns c h

/-- The space before the word that the glyph becomes. It stands behind a letter or a digit. -/
def piGap (u : Text) : Text :=
  if u.getLast?.any isAlphanumeric then [' '] else []

theorem collapse_piGap (hu : ∀ c ∈ u, isBlank c = false) (hv : ∀ c ∈ v, isBlank c = false) :
    collapse (u ++ (piGap u ++ ("pi".toList ++ v))) = u ++ (piGap u ++ ("pi".toList ++ v)) := by
  have hword : ∀ c ∈ "pi".toList ++ v, isBlank c = false := by
    rw [List.forall_mem_append]
    exact ⟨forall_mem_of_all (by decide), hv⟩
  have hword_ne : "pi".toList ++ v ≠ [] := List.append_ne_nil_of_left_ne_nil (by decide) v
  unfold piGap
  split
  case isTrue h =>
    have hne : u ≠ [] := by
      rintro rfl
      cases h
    have hwords : ∀ w ∈ [u, "pi".toList ++ v], w ≠ [] ∧ ∀ c ∈ w, isBlank c = false := by
      simp only [List.forall_mem_cons]
      exact ⟨⟨hne, hu⟩, ⟨hword_ne, hword⟩, by simp⟩
    have htext : [' '].intercalate [u, "pi".toList ++ v] = u ++ ([' '] ++ ("pi".toList ++ v)) := by
      simp [List.intercalate_cons_cons]
    rw [← htext, collapse, words_intercalate hwords]
  case isFalse =>
    refine collapse_eq_self (List.append_ne_nil_of_right_ne_nil u hword_ne) ?_
    simp only [List.nil_append, List.forall_mem_append] at hword ⊢
    exact ⟨hu, hword⟩

theorem padded_pi (hnext : v.head?.any isAlphanumeric = false) :
    padded u.getLast? v.head? "pi".toList = piGap u ++ "pi".toList := by
  have hletter : ("pi".toList).head?.any isAlphanumeric = true := by decide
  unfold padded piGap
  simp only [hnext, Bool.false_and, Bool.false_eq_true, if_false, hletter, Bool.and_true]
  split <;> rfl

section Plain

variable (hu : ∀ c ∈ u, isPlain c = true) (hv : ∀ c ∈ v, isPlain c = true)

include hu hv

theorem isPlain_or_of_mem {c : Char} (hc : c ∈ u ++ (piGap u ++ ("pi".toList ++ v))) :
    isPlain c = true ∨ c = ' ' := by
  have hword : ∀ c ∈ "pi".toList, isPlain c = true := forall_mem_of_all (by decide)
  simp only [List.mem_append] at hc
  rcases hc with hc | hc | hc | hc
  · exact .inl (hu c hc)
  · unfold piGap at hc
    split at hc
    · exact .inr (List.mem_singleton.mp hc)
    · cases hc
  · exact .inl (hword c hc)
  · exact .inl (hv c hc)

/-- Nothing is unwrapped. -/
theorem unwrapped_glyph : unwrapped (u ++ 'π' :: v) = u ++ 'π' :: v := by
  have hno : ∀ {c}, isPlain c = false → c ≠ 'π' → c ∉ u ++ 'π' :: v := by
    intro c hc hpi hmem
    rcases List.mem_append.mp hmem with h | h
    · exact absurd (hu c h) (by simp [hc])
    · rcases List.mem_cons.mp h with h | h
      · exact hpi h
      · exact absurd (hv c h) (by simp [hc])
  refine unwrapped_eq_self (hno (by decide) (by decide)) (hno (by decide) (by decide))
    (collapse_eq_self (by simp) ?_)
  simp only [List.forall_mem_append, List.forall_mem_cons]
  exact ⟨fun c hc => isBlank_of_isPlain (hu c hc), by decide, fun c hc => isBlank_of_isPlain (hv c hc)⟩

/-- **The canonical form of a text with the glyph π** between plain characters. -/
theorem canonical_glyph (hnext : v.head?.any isAlphanumeric = false) :
    canonical (u ++ 'π' :: v) = u ++ (piGap u ++ ("pi".toList ++ v)) := by
  have hut : ∀ c ∈ u, c ∉ triggers := fun c hc => notMem_triggers_of_isPlain (hu c hc)
  have hvt : ∀ c ∈ v, c ∉ triggers := fun c hc => notMem_triggers_of_isPlain (hv c hc)
  set t := u ++ (piGap u ++ ("pi".toList ++ v))
  have httriggers : ∀ c ∈ t, c ∉ triggers := by
    intro c hc
    rcases isPlain_or_of_mem hu hv hc with h | rfl
    · exact notMem_triggers_of_isPlain h
    · decide
  have hbar : '|' ∉ t := by
    intro h
    rcases isPlain_or_of_mem hu hv h with h | h <;> exact absurd h (by decide)
  have hlocal := Canonical.local_of_mem_stages
  rw [Canonical.stages_eq, List.forall_mem_append] at hlocal
  -- Only the stage for π finds anything, and what it leaves is plain.
  have hchain : Chain true Canonical.stages (unwrapped (u ++ 'π' :: v)) t := by
    rw [unwrapped_glyph hu hv, Canonical.stages_eq, Chain.append]
    refine ⟨_, chain_of_rewrites fun stage hstage =>
      rewrites_glyph (hlocal.1 stage hstage) hut hvt (Canonical.nothing_at_pi stage hstage),
      u ++ (padded u.getLast? v.head? "pi".toList ++ v), rewrites_pi hut hvt, ?_⟩
    rw [padded_pi hnext, List.append_assoc]
    exact chain_refl httriggers fun stage hstage => hlocal.2 stage (List.mem_cons_of_mem _ hstage)
  rw [canonical_eq_of_chain hchain, expandBars_eq_self hbar,
    collapse_piGap (fun c hc => isBlank_of_isPlain (hu c hc)) fun c hc => isBlank_of_isPlain (hv c hc)]

end Plain

end Glyph
/-! ### Reading a multiple of π -/

/-- A number, the word for π and what stands after it. -/
theorem Spells.number_word {l : Literal} (hl : Literal.read? l.text = some (l, [])) (w : Word)
    {s : Text} {us : List Symbol} (hs : s.head?.any isAsciiLetter = false) (h : Spells s us) :
    Spells (l.text ++ ' ' :: (w.text ++ s)) (.number l :: .word w :: us) := by
  intro rest vs hrest hvs
  have hbreaks : Breaks (' ' :: (w.text ++ (s ++ rest))) := by
    intro c hc
    obtain rfl := Option.some.inj hc
    exact ⟨by decide, by decide, by decide⟩
  have hfront : (s ++ rest).head?.any isAsciiLetter = false := by
    cases s with
    | nil => exact hrest.head_isAsciiLetter
    | cons c s => exact hs
  have hword := Spells.number hl _ _ hbreaks fun afterNumber =>
    .blank isBlank_space (.word w hfront (h rest vs hrest hvs))
  simpa [plainShapes] using hword

namespace Expr

/-- An expression with a minus in front or none. -/
def signedBy (negative : Bool) (x : Expr) : Expr :=
  if negative then .neg x else x

/-- A product by π, with its factor if it is written. -/
def piProduct (negative : Bool) : Option Literal → Expr
  | none => signedBy negative (.constant .pi)
  | some l => .binary .multiply (signedBy negative (.number l.value)) (.constant .pi)

/-- A quotient, with its divisor if it is written. -/
def dividedBy (x : Expr) : Option Literal → Expr
  | none => x
  | some l => .binary .divide x (.number l.value)

/-- A multiple of π. -/
def piMultiple (negative : Bool) (factor divisor : Option Literal) : Expr :=
  dividedBy (piProduct negative factor) divisor

/-- Its symbols. -/
def piSymbols (negative : Bool) (factor divisor : Option Literal) : List Symbol :=
  (if negative then [.operator .minus] else []) ++ (factor.toList.map .number ++
    .word (.constant .pi) :: divisor.toList.flatMap fun l => [.operator .divide, .number l])

/-- The sign binds to the factor, the product to the word for π, and the quotient is of all that. -/
theorem sum_piSymbols {negative : Bool} {factor divisor : Option Literal} {stop : ℕ} {ts : List Token}
    (h : symbolsOf ts = piSymbols negative factor divisor) :
    sum stop callLimit ts = .ok (piMultiple negative factor divisor, []) := by
  -- At most five tokens. Once they are taken apart, the parser runs.
  cases negative <;> cases factor <;> cases divisor
  all_goals
    repeat
      obtain ⟨⟨_, _, _⟩, _, hts, rfl, hrest⟩ := ReadsAs.exists_cons h
      clear h
      subst hts
      rename' hrest => h
    obtain rfl := List.map_eq_nil_iff.mp h
    rfl

/-- The expression of a text whose symbols the parser reads to the end. -/
theorem parse_of_spells {s : Text} {us : List Symbol} {x : Expr} (h : Spells s us) (hne : us ≠ [])
    (hread : ∀ ts, symbolsOf ts = us → sum s.length callLimit ts = .ok (x, [])) :
    parse s = .ok x := by
  have hlexes := h [] [] .nil fun _ => .nil _
  rw [List.append_nil, List.append_nil] at hlexes
  obtain ⟨ts, hts, hshape⟩ := hlexes.exists_tokensFrom 0
  have hsymbols : symbolsOf ts = us := by
    have hmap := congrArg (List.map Prod.fst) hshape
    simpa [plainShapes, symbolsOf, Token.shape, Function.comp_def] using hmap
  have hempty : ts.isEmpty = false := by
    cases ts with
    | nil => exact absurd hsymbols.symm hne
    | cons token ts => rfl
  show (tokens s >>= _) = _
  rw [show tokens s = .ok ts from hts]
  show ofTokensWithin callLimit s ts = _
  unfold ofTokensWithin
  rw [hempty, hread ts hsymbols]
  rfl

end Expr

namespace Display

/-- What stands before the glyph. -/
def front (negative : Bool) (factor : Option ℕ) : Text :=
  (if negative then ['-'] else []) ++ (factor.map numeral).getD []

/-- What stands behind the glyph. -/
def back (divisor : Option ℕ) : Text :=
  (divisor.map fun n => '/' :: numeral n).getD []

/-- A number that is left out if it is 1. -/
def unlessOne (n : ℕ) : Option ℕ :=
  if n = 1 then none else some n

theorem piMultiple_eq (r : ℚ) : piMultiple r =
    front (decide (r.num < 0)) (unlessOne r.num.natAbs) ++ 'π' :: back (unlessOne r.den) := by
  simp only [piMultiple, front, back, unlessOne, decide_eq_true_eq]
  split <;> split <;> split <;> simp

theorem isPlain_of_mem_numeral (n : ℕ) : ∀ c ∈ numeral n, isPlain c = true := fun c hc =>
  isPlain_of_lexeme_char (.inr (.inl (isDecimalDigit_of_isDigit (isDigit_of_mem_numeral n c hc))))

theorem isPlain_of_mem_front (negative : Bool) (factor : Option ℕ) :
    ∀ c ∈ front negative factor, isPlain c = true := by
  rw [front, List.forall_mem_append]
  constructor
  · cases negative <;> exact forall_mem_of_all (by decide)
  · cases factor with
    | none => exact fun c hc => nomatch hc
    | some n => exact isPlain_of_mem_numeral n

theorem isPlain_of_mem_back (divisor : Option ℕ) : ∀ c ∈ back divisor, isPlain c = true := by
  cases divisor with
  | none => exact fun c hc => nomatch hc
  | some n => exact List.forall_mem_cons.mpr ⟨by decide, isPlain_of_mem_numeral n⟩

/-- The word needs a space before it exactly behind a factor. -/
theorem piGap_front (negative : Bool) (factor : Option ℕ) :
    piGap (front negative factor) = if factor.isSome then [' '] else [] := by
  cases factor with
  | none => cases negative <;> decide +kernel
  | some n =>
    obtain ⟨c, hc⟩ : ∃ c, (numeral n).getLast? = some c :=
      ⟨_, List.getLast?_eq_some_getLast (numeral_ne_nil n)⟩
    have hlast : (front negative (some n)).getLast? = some c := by
      show ((if negative then ['-'] else []) ++ numeral n).getLast? = _
      rw [List.getLast?_append, hc]
      rfl
    have hdigit : isAlphanumeric c = true := by
      have hd := isDecimalDigit_of_isDigit (isDigit_of_mem_numeral n c (List.mem_of_getLast? hc))
      by_contra ha
      rw [isDecimalDigit_of_isAlphanumeric (by simpa using ha)] at hd
      cases hd
    rw [piGap, hlast, Option.any_some, hdigit]
    rfl

theorem read?_wholeLiteral (n : ℕ) :
    Literal.read? (Json.wholeLiteral n).text = some (Json.wholeLiteral n, []) :=
  (Json.formed_wholeLiteral n).read?_text

theorem spells_back (divisor : Option ℕ) : Spells (back divisor)
    ((divisor.map Json.wholeLiteral).toList.flatMap fun l => [.operator .divide, .number l]) := by
  cases divisor with
  | none => exact .nil
  | some n =>
    have hnumber := Spells.number (read?_wholeLiteral n)
    rw [Json.text_wholeLiteral] at hnumber
    exact .sign (by decide) hnumber

theorem spells_pi (negative : Bool) (factor divisor : Option ℕ) :
    Spells (front negative factor ++ (piGap (front negative factor) ++ ("pi".toList ++ back divisor)))
      (Expr.piSymbols negative (factor.map Json.wholeLiteral) (divisor.map Json.wholeLiteral)) := by
  have hletter : (back divisor).head?.any isAsciiLetter = false := by
    cases divisor <;> rfl
  have hunsigned : Spells ((factor.map numeral).getD [] ++
      ((if factor.isSome then [' '] else []) ++ ("pi".toList ++ back divisor)))
      ((factor.map Json.wholeLiteral).toList.map .number ++ .word (.constant .pi) ::
        (divisor.map Json.wholeLiteral).toList.flatMap fun l => [.operator .divide, .number l]) := by
    cases factor with
    | none => exact .word (.constant .pi) hletter (spells_back divisor)
    | some n =>
      have hnumber := Spells.number_word (read?_wholeLiteral n) (.constant .pi) hletter
        (spells_back divisor)
      rw [Json.text_wholeLiteral] at hnumber
      exact hnumber
  rw [piGap_front, front, Expr.piSymbols, List.append_assoc]
  cases negative with
  | false => exact hunsigned
  | true => exact .sign (by decide) hunsigned

/-- **A multiple of π reads back**, as a product by π with a sign that is divided. -/
theorem parse_canonical_pi (negative : Bool) (factor divisor : Option ℕ) :
    Expr.parse (canonical (front negative factor ++ 'π' :: back divisor)) =
      .ok (Expr.piMultiple negative (factor.map Json.wholeLiteral) (divisor.map Json.wholeLiteral)) := by
  have hslash : isAlphanumeric '/' = false := by decide +kernel
  have hnext : (back divisor).head?.any isAlphanumeric = false := by
    cases divisor with
    | none => rfl
    | some n => simp [back, hslash]
  rw [canonical_glyph (isPlain_of_mem_front negative factor) (isPlain_of_mem_back divisor) hnext]
  refine Expr.parse_of_spells (spells_pi negative factor divisor) ?_ fun ts hts =>
    Expr.sum_piSymbols hts
  simp [Expr.piSymbols]

/-- A fraction as it is written. -/
def writtenFraction (r : ℚ) : Written :=
  let num := .number (Json.wholeLiteral r.num.natAbs) (read?_wholeLiteral _)
  .binary .divide (if r.num < 0 then .neg num else num)
    (.number (Json.wholeLiteral r.den) (read?_wholeLiteral _))

theorem text_writtenFraction (r : ℚ) : (writtenFraction r).text = fractionText r := by
  rw [fractionText, integerText_eq, ← Json.text_wholeLiteral r.den, writtenFraction,
    Literal.signedText]
  by_cases h : r.num < 0
  · rw [if_pos h, decide_eq_true h]
    rfl
  · rw [if_neg h, decide_eq_false h]
    rfl

theorem isPlain_of_mem_fractionText (r : ℚ) : ∀ c ∈ fractionText r, isPlain c = true := by
  rw [fractionText, integerText_eq, List.forall_mem_append, List.forall_mem_cons]
  exact ⟨fun c hc => isPlain_of_lexeme_char ((Json.formed_wholeLiteral _).mem_signedText _ c hc),
    by decide, isPlain_of_mem_numeral r.den⟩

/-- **A fraction reads back**, as a quotient whose dividend has the sign. -/
theorem parse_canonical_fraction (r : ℚ) : Expr.parse (canonical (fractionText r)) =
    .ok (.binary .divide
      (Expr.signedBy (decide (r.num < 0)) (.number (Json.wholeLiteral r.num.natAbs).value))
      (.number (Json.wholeLiteral r.den).value)) := by
  have hplain := isPlain_of_mem_fractionText r
  have hno : ∀ {c}, isPlain c = false → c ∉ fractionText r := by
    intro c hc hmem
    exact absurd (hplain c hmem) (by simp [hc])
  have hself : canonical (fractionText r) = fractionText r :=
    canonical_eq_self (fun c hc => notMem_triggers_of_isPlain (hplain c hc)) (hno (by decide))
      (hno (by decide)) (collapse_eq_self (by simp [fractionText])
        fun c hc => isBlank_of_isPlain (hplain c hc))
  rw [hself, ← text_writtenFraction]
  refine (Written.parseWithin_text (writtenFraction r) Expr.callLimit).trans ?_
  rw [writtenFraction, Expr.signedBy]
  by_cases h : r.num < 0
  · simp only [if_pos h, decide_eq_true h]
    rfl
  · simp only [if_neg h, decide_eq_false h]
    rfl

end Display

/-! ### Hints as answers -/

/-- A numeral is read as the double nearest to the number. -/
theorem Json.value_wholeLiteral (n : ℕ) : (wholeLiteral n).value = ofInt n := by
  have hdecimal : (wholeLiteral n).decimal false = ⟨false, n, 0⟩ := by
    simp [wholeLiteral, Literal.decimal, digitsValue_numeral]
  rw [Literal.value, hdecimal, Decimal.toFloat_eq, ofInt, decide_eq_false (by omega)]
  simp

theorem Double.nearest?_ne_zero {n : ℕ} {a : ℚ} (h : nearest? n = some a) (hn : 0 < n) : a ≠ 0 := by
  obtain ⟨A, rfl, hA, -⟩ := (nearest?_eq_some_iff.mp h).exists_nat hn
  exact_mod_cast hA.ne'

namespace Expr

variable {negative : Bool} {x : Expr}

theorem multiple?_numeral (n : ℕ) : (number (Json.wholeLiteral n).value).multiple? =
    (nearest? n).map fun a => ⟨a, false⟩ := by
  rw [Json.value_wholeLiteral, multiple?, nearest?, Option.map_map]
  rfl

theorem multiple?_signedBy (negative : Bool) (x : Expr) : (signedBy negative x).multiple? =
    x.multiple?.map fun m => ⟨signedRat negative m.ratio, m.ofPi⟩ := by
  cases negative with
  | false => exact Option.map_id'.symm
  | true => rfl

/-- A quotient by a numeral. -/
theorem multiple?_divide (x : Expr) {n : ℕ} (hn : 0 < n) :
    (binary .divide x (number (Json.wholeLiteral n).value)).multiple? =
      x.multiple?.bind fun m => (nearest? n).map fun b => ⟨m.ratio / b, m.ofPi⟩ := by
  rw [multiple?, multiple?_numeral]
  cases x.multiple? with
  | none => rfl
  | some m =>
    cases hb : nearest? n with
    | none => rfl
    | some b =>
      have hne := nearest?_ne_zero hb hn
      show Multiple.div? m ⟨b, false⟩ = some ⟨m.ratio / b, m.ofPi⟩
      simp [Multiple.div?, hne]

theorem multiple?_fraction (r : ℚ) :
    (binary .divide (signedBy (decide (r.num < 0)) (number (Json.wholeLiteral r.num.natAbs).value))
      (number (Json.wholeLiteral r.den).value)).multiple? = Multiple.read ⟨r, false⟩ := by
  rw [multiple?_divide _ r.den_pos, multiple?_signedBy, multiple?_numeral, Multiple.read]
  cases nearest? r.num.natAbs with
  | none => rfl
  | some a => cases nearest? r.den <;> rfl

/-- A factor 1 that is left out changes nothing. -/
theorem multiple?_piProduct (negative : Bool) (n : ℕ) :
    (piProduct negative ((Display.unlessOne n).map Json.wholeLiteral)).multiple? =
      (nearest? n).map fun a => ⟨signedRat negative a, true⟩ := by
  rw [Display.unlessOne]
  split_ifs with hone
  · rw [hone, nearest?_one]
    show (signedBy negative (.constant .pi)).multiple? = _
    rw [multiple?_signedBy]
    rfl
  · show (binary .multiply (signedBy negative (.number (Json.wholeLiteral n).value))
      (.constant .pi)).multiple? = _
    rw [multiple?, multiple?_signedBy, multiple?_numeral]
    cases nearest? n with
    | none => rfl
    | some a =>
      show Multiple.mul? ⟨signedRat negative a, false⟩ ⟨1, true⟩ = some ⟨signedRat negative a, true⟩
      simp [Multiple.mul?]

/-- Nor does a divisor 1. -/
theorem multiple?_dividedBy (x : Expr) {n : ℕ} (hn : 0 < n) :
    (dividedBy x ((Display.unlessOne n).map Json.wholeLiteral)).multiple? =
      x.multiple?.bind fun m => (nearest? n).map fun b => ⟨m.ratio / b, m.ofPi⟩ := by
  rw [Display.unlessOne]
  split_ifs with hone
  · rw [hone, nearest?_one]
    show x.multiple? = _
    cases x.multiple? with
    | none => rfl
    | some m =>
      show some m = some ⟨m.ratio / 1, m.ofPi⟩
      rw [div_one]
  · exact multiple?_divide x hn

theorem multiple?_piMultiple (r : ℚ) :
    (piMultiple (decide (r.num < 0)) ((Display.unlessOne r.num.natAbs).map Json.wholeLiteral)
      ((Display.unlessOne r.den).map Json.wholeLiteral)).multiple? = Multiple.read ⟨r, true⟩ := by
  rw [piMultiple, multiple?_dividedBy _ r.den_pos, multiple?_piProduct, Multiple.read]
  cases nearest? r.num.natAbs with
  | none => rfl
  | some a => cases nearest? r.den <;> rfl

end Expr

/-- The hint that shows a multiple. -/
def Multiple.text (m : Multiple) : Text :=
  if m.ofPi then Display.piMultiple m.ratio else Display.fractionText m.ratio

theorem Multiple.exists_parse (m : Multiple) :
    ∃ x, Expr.parse (canonical m.text) = .ok x ∧ x.multiple? = m.read := by
  obtain ⟨r, ofPi⟩ := m
  cases ofPi with
  | false => exact ⟨_, Display.parse_canonical_fraction r, Expr.multiple?_fraction r⟩
  | true =>
    refine ⟨_, ?_, Expr.multiple?_piMultiple r⟩
    show Expr.parse (canonical (Display.piMultiple r)) = _
    rw [Display.piMultiple_eq, Display.parse_canonical_pi]

/-- **Hints are answers.** A fraction and a multiple of π, as they are shown, have canonical forms
that are read. What is read denotes the quotient of the doubles nearest to the numerator and the
denominator, with the sign, and of π if π was shown. It is exactly what was shown if and only if
both are doubles, as they are below 2 ^ 53. -/
theorem Multiple.reads_back (m : Multiple) :
    ∃ x, Expr.parse (canonical m.text) = .ok x ∧ x.multiple? = m.read ∧
      (x.multiple? = some m ↔ m.Exact) ∧
      (m.ratio.num.natAbs < 2 ^ 53 → m.ratio.den < 2 ^ 53 → x.multiple? = some m) := by
  obtain ⟨x, hparse, hread⟩ := m.exists_parse
  refine ⟨x, hparse, hread, ?_, fun hnum hden => ?_⟩
  · rw [hread]
    exact ⟨exact_of_read, read_of_exact⟩
  · rw [hread]
    exact read_of_exact ⟨exact_of_lt hnum, exact_of_lt hden⟩

theorem Double.not_exact : ¬Exact (2 ^ 53 + 1) := by
  intro h
  have hbits : ofFloat? (ofInt ((2 ^ 53 + 1 : ℕ) : ℤ)) = some ⟨false, 2 ^ 52, 1⟩ := by decide +kernel
  have hvalue := nearest?_of_exact h
  rw [nearest?, hbits, Option.map_some, toRat_eq, magnitude, signedRat, if_neg Bool.false_ne_true]
    at hvalue
  have := Option.some.inj hvalue
  norm_num at this

/-- A numerator that is no double is not read as it is shown. -/
theorem Multiple.not_reads_back : ¬∀ m : Multiple, m.ratio ≠ 0 →
    ∃ x, Expr.parse (canonical m.text) = .ok x ∧ x.multiple? = some m := by
  intro h
  obtain ⟨m, hm⟩ : ∃ m : Multiple, m = ⟨⟨2 ^ 53 + 1, 7, by decide, by decide⟩, false⟩ := ⟨_, rfl⟩
  obtain ⟨x, hparse, hexact⟩ := h m (by rw [hm]; decide)
  obtain ⟨y, hparse', hread⟩ := m.exists_parse
  obtain rfl := Except.ok.inj (hparse.symm.trans hparse')
  have hnum := (exact_of_read (hread.symm.trans hexact)).1
  rw [hm] at hnum
  exact not_exact hnum

end NumericAnswer
