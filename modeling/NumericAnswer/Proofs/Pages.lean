/-
# Written values read back

A value over several lines is read as itself, with every whole number apart
from every double, if its whole numbers are short enough, the keys of its
objects are distinct and it does not nest too deeply: what is written is one of
its texts.

Key theorems: `Json.spells_pageAt`, `Json.read_page`.
-/
import NumericAnswer.Proofs.Grammar

namespace NumericAnswer
namespace Json

theorem gap_margin (level : ℕ) : Gap (margin level) := by
  intro c hc
  rcases List.mem_cons.mp hc with rfl | hc
  · rfl
  · rw [List.eq_of_mem_replicate hc]
    rfl

theorem block_eq (level : ℕ) (opening closing : Char) {parts : List Text} (hne : parts ≠ []) :
    block level opening closing parts = opening :: (margin (level + 1) ++
      ((',' :: margin (level + 1)).intercalate parts ++ (margin level ++ [closing]))) := by
  have hempty : parts.isEmpty = false := by simpa using hne
  simp [block, hempty, enclosed]

mutual

/-- What is written over several lines of a value is one of its texts. -/
theorem spells_pageAt : ∀ (v : Json) (level : ℕ), WellFormed v → Spells true v (pageAt level v)
  | null, _, _ => .null
  | bool b, _, _ => .bool b
  | integer i, _, _ => .integer i
  | float _, _, _ => spells_numberText fun h => nomatch h
  | string s, _, _ => spells_stringText true s
  | array [], _, _ => .noItems gap_nil
  | array (item :: items), level, h => by
    rw [pageAt, block_eq _ _ _ (by simp [pageItems])]
    exact .array (gap_margin _) (spellsItems_of_parts (gap_margin _) (gap_margin _) (by simp)
      (spells_pageItems (item :: items) (level + 1) h))
  | object [], _, _ => .noFields gap_nil
  | object (field :: fields), level, h => by
    rw [pageAt, block_eq _ _ _ (by simp [pageFields])]
    exact .object h.1 (gap_margin _) (spellsFields_of_parts (gap_margin _) (gap_margin _) (by simp)
      (spells_pageFields (field :: fields) (level + 1) h.2))

theorem spells_pageItems : ∀ (items : List Json) (level : ℕ), WellFormedItems items →
    List.Forall₂ (Spells true) items (pageItems level items)
  | [], _, _ => .nil
  | item :: items, level, h => by
    rw [pageItems]
    exact .cons (spells_pageAt item level h.1) (spells_pageItems items level h.2)

theorem spells_pageFields : ∀ (fields : List (Text × Json)) (level : ℕ), WellFormedFields fields →
    List.Forall₂ (SpellsField true true) fields (pageFields level fields)
  | [], _, _ => .nil
  | (_, value) :: fields, level, h => by
    rw [pageFields]
    exact .cons ⟨_, spells_pageAt value level h.1, rfl⟩ (spells_pageFields fields level h.2)

end

/-- What is written over several lines is read as itself. -/
theorem read_page {v : Json} (h : WellFormed v) (hdepth : depth v ≤ nestingLimit) :
    read (page v) = .ok v :=
  (spells_pageAt v 0 h).read h hdepth

end Json
end NumericAnswer
