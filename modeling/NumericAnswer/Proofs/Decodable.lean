/-
# Words in a row

Some words begin with others: `sinh` with `sin`, `logBase` with `log`, `exp` with
`e`. But no word begins with what a longer word has after a shorter one, so words
that are written in a row without blanks are cut where they were put together,
and a row of letters stands for one row of words at most. Other letters are cut
up to the first place where no word begins.

Key definition: `remnantOf`.
Key theorems: `Word.atFront?_append`, `splitWords_flatMap_text`,
`splitWords_decodes`.
-/
import NumericAnswer.Proofs.Spread

namespace NumericAnswer

/-! ### The longest word -/

namespace Word

theorem atFront?_text (w : Word) : atFront? w.text = some w := by
  have hall : ∀ w ∈ all, atFront? w.text = some w := by decide +kernel
  exact hall w w.mem_all

theorem text_injective : Function.Injective text := by
  intro w v h
  have hv := ofText?_text v
  rw [← h, ofText?_text w] at hv
  exact Option.some.inj hv

/-- What a longer word has after a shorter one begins with a letter that no word
begins with. -/
theorem head?_text_ne_of_prefix {w v : Word} (hp : w.text <+: v.text) (hne : w ≠ v) (u : Word) :
    u.text.head? ≠ (v.text.drop w.text.length).head? := by
  have hlater : ∀ w ∈ all, ∀ v ∈ all, w.text <+: v.text → w ≠ v →
      (v.text.drop w.text.length).head? ∈ [some 'h', some 'B', some 'x'] := by decide +kernel
  have hfirst : ∀ u ∈ all, u.text.head? ∉ [some 'h', some 'B', some 'x'] := by decide +kernel
  intro hu
  exact hfirst u u.mem_all (hu ▸ hlater w w.mem_all v v.mem_all hp hne)

/-- A word is the longest one at the front of a text if none or another one
follows it. -/
theorem atFront?_append (w : Word) {s : Text} (hs : s = [] ∨ ∃ u : Word, s.head? = u.text.head?) :
    atFront? (w.text ++ s) = some w := by
  have hw : w.text <+: w.text ++ s := List.prefix_append _ _
  obtain ⟨v, hv⟩ : ∃ v, atFront? (w.text ++ s) = some v := by
    refine Option.isSome_iff_exists.mp (List.find?_isSome.mpr ⟨w, w.mem_all, ?_⟩)
    exact List.isPrefixOf_iff_prefix.mpr hw
  have hfront : v.text <+: w.text ++ s := ⟨_, (eq_append_of_atFront? hv).symm⟩
  rcases List.prefix_or_prefix_of_prefix hfront hw with hvw | hwv
  · -- The word that is found is no longer than `w`, so it is found in `w` alone.
    have hfound := atFront?_of_prefix hv hvw hw
    rw [atFront?_text] at hfound
    rw [hv, hfound]
  · by_cases hne : w = v
    · rw [hv, hne]
    · -- A longer word would go on with letters that begin no word.
      exfalso
      obtain ⟨later, hlater⟩ := hwv
      have hhead := head?_text_ne_of_prefix ⟨later, hlater⟩ hne
      rw [← hlater, List.prefix_append_right_inj] at hfront
      rw [← hlater, List.drop_left] at hhead
      cases later with
      | nil => exact hne (text_injective (by rw [← hlater, List.append_nil]))
      | cons c later =>
        obtain ⟨t, rfl⟩ := hfront
        rcases hs with hs | ⟨u, hu⟩
        · cases hs
        · exact hhead u hu.symm

end Word

/-! ### Rows -/

theorem head?_flatMap_text (ws : List Word) :
    ws.flatMap Word.text = [] ∨ ∃ u : Word, (ws.flatMap Word.text).head? = u.text.head? := by
  cases ws with
  | nil => exact .inl rfl
  | cons w ws =>
    refine .inr ⟨w, ?_⟩
    rw [List.flatMap_cons, List.head?_append_of_ne_nil _ w.text_ne_nil]

/-- Words in a row are cut where they were put together. -/
theorem splitWords_flatMap_text (ws : List Word) :
    splitWords (ws.flatMap Word.text) = ws.map Symbol.word := by
  induction ws with
  | nil => rw [List.flatMap_nil, splitWords, List.map_nil]
  | cons w ws ih =>
    rw [List.flatMap_cons, splitWords_append (w.atFront?_append (head?_flatMap_text ws)), ih,
      List.map_cons]

/-- A row of letters stands for one row of words at most. -/
theorem flatMap_text_injective : Function.Injective fun ws : List Word => ws.flatMap Word.text := by
  intro ws vs h
  have hsplit := congrArg splitWords h
  simp only [splitWords_flatMap_text] at hsplit
  exact List.map_injective_iff.mpr (fun _ _ => Symbol.word.inj) hsplit

/-- Letters that are left over, as one symbol. -/
def remnantOf (letters : Text) : List Symbol :=
  if letters = [] then [] else [.letters letters]

/-- A text is cut into words up to the first place where none begins. -/
theorem exists_words_remnant (s : Text) : ∃ (ws : List Word) (remnant : Text),
    s = ws.flatMap Word.text ++ remnant ∧
      splitWords s = ws.map Symbol.word ++ remnantOf remnant ∧ ∀ w : Word, ¬w.text <+: remnant := by
  fun_induction splitWords s with
  | case1 =>
    refine ⟨[], [], rfl, rfl, fun w hw => ?_⟩
    exact w.text_ne_nil (List.prefix_nil.mp hw)
  | case2 c cs w hw ih =>
    obtain ⟨ws, remnant, hs, hsplit, hnone⟩ := ih
    refine ⟨w :: ws, remnant, ?_, ?_, hnone⟩
    · rw [List.flatMap_cons, List.append_assoc, ← hs]
      exact Word.eq_append_of_atFront? hw
    · rw [hsplit, List.map_cons, List.cons_append]
  | case3 c cs hnone =>
    refine ⟨[], c :: cs, rfl, rfl, fun w hw => ?_⟩
    have hfail := List.find?_eq_none.mp hnone w w.mem_all
    exact hfail (List.isPrefixOf_iff_prefix.mpr hw)

/-- Words in a row are read as those words and can be read in one way only. Any
letters are read as words in a row, up to letters that begin with no word. -/
theorem splitWords_decodes :
    (∀ ws : List Word, splitWords (ws.flatMap Word.text) = ws.map Symbol.word) ∧
      (Function.Injective fun ws : List Word => ws.flatMap Word.text) ∧
      ∀ s : Text, (splitWords s).flatMap Symbol.text = s ∧
        ∃ (ws : List Word) (remnant : Text), s = ws.flatMap Word.text ++ remnant ∧
          splitWords s = ws.map Symbol.word ++ remnantOf remnant ∧
          ∀ w : Word, ¬w.text <+: remnant :=
  ⟨splitWords_flatMap_text, flatMap_text_injective, fun s =>
    ⟨flatMap_text_splitWords s, exists_words_remnant s⟩⟩

example : splitWords "sinhlogBaseexp".toList =
    [.word (.unary .sinh), .word (.binary .logBase), .word (.unary .exp)] := by
  decide +kernel

end NumericAnswer
