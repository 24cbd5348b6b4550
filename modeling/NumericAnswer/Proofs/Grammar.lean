/-
# The grammar of values

The texts of a value, by the rules of the standard grammar: spaces may stand
between the parts, and the only words are `null`, `true` and `false`. With
`words` the three words of doubles that are not finite are added. Each text of a
value is read as the value, if its whole numbers are short enough and it does not
nest too deeply.

Key definitions: `Json.WellFormed`, `Json.Spells`.
Key theorems: `Json.Spells.readValue`, `Json.Spells.read`,
`Json.spellsItems_of_parts`, `Json.spellsFields_of_parts`.
-/
import Mathlib
import NumericAnswer.Proofs.Escapes
import NumericAnswer.Proofs.Merging
import NumericAnswer.Proofs.Numbers

namespace NumericAnswer
namespace Json

mutual

/-- The whole numbers can be read and no key of an object comes twice. -/
def WellFormed : Json → Prop
  | integer i => (numeral i.natAbs).length ≤ digitLimit
  | array items => WellFormedItems items
  | object fields => (fields.map Prod.fst).Nodup ∧ WellFormedFields fields
  | _ => True

def WellFormedItems : List Json → Prop
  | [] => True
  | item :: items => WellFormed item ∧ WellFormedItems items

def WellFormedFields : List (Text × Json) → Prop
  | [] => True
  | (_, value) :: fields => WellFormed value ∧ WellFormedFields fields

end

/-- Nothing but spaces. -/
def Gap (s : Text) : Prop :=
  ∀ c ∈ s, isSpace c = true

/-- A key after its opening quote and the text of its value, with gaps around the colon. -/
def fieldText (k before after t : Text) : Text :=
  '"' :: (k ++ (before ++ ':' :: (after ++ t)))

mutual

/-- The text stands for the value. -/
inductive Spells (words : Bool) : Json → Text → Prop where
  | null : Spells words .null "null".toList
  | bool (b : Bool) : Spells words (.bool b) (boolText b)
  | integer (i : Int) : Spells words (.integer i) (integerText i)
  | float (negative : Bool) {l : Literal} (hl : l.Plain)
      (hmark : ∀ p ∈ l.power, p.mark = 'e' ∨ p.mark = 'E')
      (hpart : (l.fraction.isEmpty && l.power.isNone) = false) :
      Spells words (.float (l.decimal negative).toFloat) ((if negative then ['-'] else []) ++ l.text)
  | word {x : Float} (hwords : words = true) (hx : x.isFinite = false) :
      Spells words (.float x) (numberText x)
  | string {s t : Text} (h : SpellsString s t) : Spells words (.string s) ('"' :: t)
  | noItems {gap : Text} (hg : Gap gap) : Spells words (.array []) ('[' :: (gap ++ [']']))
  | array {gap t : Text} {items : List Json} (hg : Gap gap) (h : SpellsItems words items t) :
      Spells words (.array items) ('[' :: (gap ++ t))
  | noFields {gap : Text} (hg : Gap gap) :
      Spells words (.object []) ('\x7b' :: (gap ++ ['\x7d']))
  | object {gap t : Text} {fields : List (Text × Json)} (hn : (fields.map Prod.fst).Nodup)
      (hg : Gap gap) (h : SpellsFields words fields t) :
      Spells words (.object fields) ('\x7b' :: (gap ++ t))

/-- The text stands for the items of an array, up to its closing bracket. -/
inductive SpellsItems (words : Bool) : List Json → Text → Prop where
  | last {item : Json} {t gap : Text} (h : Spells words item t) (hg : Gap gap) :
      SpellsItems words [item] (t ++ (gap ++ [']']))
  | next {item : Json} {items : List Json} {t gap gap' t' : Text} (h : Spells words item t)
      (hg : Gap gap) (hg' : Gap gap') (hs : SpellsItems words items t') :
      SpellsItems words (item :: items) (t ++ (gap ++ ',' :: (gap' ++ t')))

/-- The text stands for the fields of an object, up to its closing brace. -/
inductive SpellsFields (words : Bool) : List (Text × Json) → Text → Prop where
  | last {key k before after t gap : Text} {value : Json} (hkey : SpellsString key k)
      (hbefore : Gap before) (hafter : Gap after) (h : Spells words value t) (hg : Gap gap) :
      SpellsFields words [(key, value)] (fieldText k before after t ++ (gap ++ ['\x7d']))
  | next {key k before after t gap gap' t' : Text} {value : Json} {fields : List (Text × Json)}
      (hkey : SpellsString key k) (hbefore : Gap before) (hafter : Gap after)
      (h : Spells words value t) (hg : Gap gap) (hg' : Gap gap')
      (hs : SpellsFields words fields t') :
      SpellsFields words ((key, value) :: fields)
        (fieldText k before after t ++ (gap ++ ',' :: (gap' ++ t')))

end

/-! ### What stands between the parts -/

theorem dropSpaces_cons {c : Char} (hc : isSpace c = false) (s : Text) :
    dropSpaces (c :: s) = c :: s :=
  List.dropWhile_cons_of_neg (by simp [hc])

theorem dropSpaces_gap {gap : Text} (hg : Gap gap) {c : Char} (hc : isSpace c = false) (s : Text) :
    dropSpaces (gap ++ c :: s) = c :: s := by
  rw [dropSpaces, List.dropWhile_append_of_pos hg]
  exact dropSpaces_cons hc s

theorem gap_nil : Gap [] :=
  fun _ h => nomatch h

theorem gap_space : Gap [' '] := by
  simp [Gap, isSpace]

theorem endsNumber_nil : EndsNumber [] := by
  rintro c ⟨⟩

/-- No number goes on in a gap, or with a comma or a bracket behind it. -/
theorem endsNumber_gap {gap : Text} (hg : Gap gap) {c : Char} (hc : c ∈ [',', ']', '\x7d'])
    (s : Text) : EndsNumber (gap ++ c :: s) := by
  rintro d hd
  cases gap with
  | nil =>
    obtain rfl : c = d := Option.some.inj hd
    simp only [List.mem_cons, List.not_mem_nil, or_false] at hc
    rcases hc with rfl | rfl | rfl <;> decide
  | cons d' gap =>
    obtain rfl : d' = d := Option.some.inj hd
    have hspace := hg d' (List.mem_cons_self ..)
    simp only [isSpace, Bool.or_eq_true, decide_eq_true_eq] at hspace
    rcases hspace with ((rfl | rfl) | rfl) | rfl <;> decide

/-! ### Single values -/

theorem readWord_append (word : String) (value : Json) (rest : Text) :
    readWord word value (word.toList ++ rest) = .ok (value, rest) := by
  have h : word.toList.isPrefixOf? (word.toList ++ rest) = some rest := by
    induction word.toList with
    | nil => rfl
    | cons c s ih => simp [List.isPrefixOf?, ih]
  rw [readWord, h]

theorem ne_of_isDigit {c d : Char} (hc : c.isDigit = true) (hd : d.isDigit = false) : c ≠ d := by
  rintro rfl
  rw [hc] at hd
  exact absurd hd (by decide)

/-- A value that begins with a digit is a number. -/
theorem readValue_digit (n : ℕ) {c : Char} (hc : c.isDigit = true) (s : Text) :
    readValue (n + 1) (c :: s) = readNumber false (c :: s) := by
  simp only [readValue]
  split
  all_goals first | rfl | exact absurd hc (by decide)

theorem readValue_minus (n : ℕ) {c : Char} (hc : c.isDigit = true) (s : Text) :
    readValue (n + 1) ('-' :: c :: s) = readNumber true (c :: s) := by
  have hI : ('I' == c) = false := beq_false_of_ne (ne_of_isDigit hc rfl).symm
  have hword : readWord "-Infinity" (.float (Binary.infinity true)) ('-' :: c :: s) =
      .error .malformed := by
    simp [readWord, List.isPrefixOf?, hI]
  simp only [readValue, hword]

theorem readValue_word_minus (n : ℕ) {s : Text} {reading : Json × Text}
    (h : readWord "-Infinity" (.float (Binary.infinity true)) ('-' :: s) = .ok reading) :
    readValue (n + 1) ('-' :: s) = .ok reading := by
  simp only [readValue, h]

/-- A sign and digits are read as what the digits are read as under the sign. -/
theorem readValue_signed (n : ℕ) (negative : Bool) {digits : Text}
    (hdigits : ∃ c s, digits = c :: s ∧ c.isDigit = true) (rest : Text) :
    readValue (n + 1) ((if negative then ['-'] else []) ++ digits ++ rest) =
      readNumber negative (digits ++ rest) := by
  obtain ⟨c, s, rfl, hc⟩ := hdigits
  cases negative
  · exact readValue_digit n hc _
  · exact readValue_minus n hc _

theorem integerText_eq (i : ℤ) :
    integerText i = (if decide (i < 0) then ['-'] else []) ++ numeral i.natAbs := by
  rw [integerText]
  by_cases h : i < 0 <;> simp [h]

theorem exists_digit_numeral (n : ℕ) : ∃ c s, numeral n = c :: s ∧ c.isDigit = true := by
  cases hd : numeral n with
  | nil => exact absurd hd (numeral_ne_nil _)
  | cons c s => exact ⟨c, s, rfl, isDigit_of_mem_numeral n c (by rw [hd]; exact List.mem_cons_self ..)⟩

theorem exists_digit_text {l : Literal} (hl : l.Plain) :
    ∃ c s, l.text = c :: s ∧ c.isDigit = true := by
  cases hw : l.whole with
  | nil => exact absurd hw hl.ne_nil
  | cons c s =>
    refine ⟨c, _, by rw [Literal.text, hw]; rfl, ?_⟩
    exact hl.whole c (by rw [hw]; exact List.mem_cons_self ..)

theorem readValue_integerText (n : ℕ) {i : ℤ} {rest : Text}
    (hi : (numeral i.natAbs).length ≤ digitLimit) (hr : EndsNumber rest) :
    readValue (n + 1) (integerText i ++ rest) = .ok (.integer i, rest) := by
  rw [integerText_eq, readValue_signed n _ (exists_digit_numeral _), readNumber_numeral hi hr]
  congr 3
  by_cases h : i < 0
  · rw [if_pos (decide_eq_true h)]; omega
  · rw [if_neg (by simpa using h)]; omega

theorem readValue_literal (n : ℕ) (negative : Bool) {l : Literal} (hl : l.Plain)
    (hmark : ∀ p ∈ l.power, p.mark = 'e' ∨ p.mark = 'E')
    (hpart : (l.fraction.isEmpty && l.power.isNone) = false) {rest : Text} (hr : EndsNumber rest) :
    readValue (n + 1) ((if negative then ['-'] else []) ++ l.text ++ rest) =
      .ok (.float (l.decimal negative).toFloat, rest) := by
  rw [readValue_signed n _ (exists_digit_text hl), readNumber_text hl hmark hr, hpart,
    if_neg Bool.false_ne_true]

/-- What is not finite is read from its word. -/
theorem readValue_word (n : ℕ) {x : Float} (hx : x.isFinite = false) (rest : Text) :
    readValue (n + 1) (numberText x ++ rest) = .ok (.float x, rest) := by
  unfold numberText
  rw [if_neg (by simp [hx])]
  split_ifs with hn hneg
  · rw [Double.eq_of_isNaN hn]
    exact readWord_append "NaN" _ rest
  · have hx := Double.eq_infinity hx (by simpa using hn)
    rw [decide_eq_true hneg] at hx
    rw [hx]
    exact readValue_word_minus n (readWord_append "-Infinity" (.float (Binary.infinity true)) rest)
  · have hx := Double.eq_infinity hx (by simpa using hn)
    rw [decide_eq_false hneg] at hx
    rw [hx]
    exact readWord_append "Infinity" _ rest

theorem readValue_string (n : ℕ) {s t : Text} (h : SpellsString s t) (rest : Text) :
    readValue (n + 1) ('"' :: t ++ rest) = .ok (.string s, rest) := by
  show (readString (t ++ rest)).map _ = _
  rw [h.readString]
  rfl

/-! ### How texts begin -/

/-- The text begins with what is neither a space nor a closing bracket. -/
def Opens (s : Text) : Prop :=
  ∃ c t, s = c :: t ∧ isSpace c = false ∧ c ≠ ']'

theorem opens_of_isDigit {c : Char} (hc : c.isDigit = true) (s : Text) : Opens (c :: s) := by
  refine ⟨c, s, rfl, ?_, ne_of_isDigit hc rfl⟩
  simp [isSpace, ne_of_isDigit hc]

theorem opens_signed (negative : Bool) {digits : Text}
    (hdigits : ∃ c s, digits = c :: s ∧ c.isDigit = true) :
    Opens ((if negative then ['-'] else []) ++ digits) := by
  obtain ⟨c, s, rfl, hc⟩ := hdigits
  cases negative
  · exact opens_of_isDigit hc s
  · exact ⟨'-', c :: s, rfl, rfl, by decide⟩

theorem opens_word {x : Float} (hx : x.isFinite = false) : Opens (numberText x) := by
  unfold numberText
  rw [if_neg (by simp [hx])]
  split_ifs
  · exact ⟨'N', _, rfl, rfl, by decide⟩
  · exact ⟨'-', _, rfl, rfl, by decide⟩
  · exact ⟨'I', _, rfl, rfl, by decide⟩

theorem Opens.append {s : Text} (h : Opens s) (t : Text) : Opens (s ++ t) := by
  obtain ⟨c, u, rfl, hc⟩ := h
  exact ⟨c, u ++ t, rfl, hc⟩

theorem dropSpaces_opens {gap s : Text} (hg : Gap gap) (h : Opens s) :
    dropSpaces (gap ++ s) = s := by
  obtain ⟨c, t, rfl, hc, -⟩ := h
  exact dropSpaces_gap hg hc t

variable {words : Bool}

theorem Spells.opens {v : Json} {t : Text} (h : Spells words v t) : Opens t := by
  cases h with
  | null => exact ⟨'n', _, rfl, rfl, by decide⟩
  | bool b =>
    cases b
    · exact ⟨'f', _, rfl, rfl, by decide⟩
    · exact ⟨'t', _, rfl, rfl, by decide⟩
  | integer i =>
    rw [integerText_eq]
    exact opens_signed _ (exists_digit_numeral _)
  | float negative hl => exact opens_signed _ (exists_digit_text hl)
  | word _ hx => exact opens_word hx
  | string _ => exact ⟨'"', _, rfl, rfl, by decide⟩
  | noItems _ => exact ⟨'[', _, rfl, rfl, by decide⟩
  | array _ _ => exact ⟨'[', _, rfl, rfl, by decide⟩
  | noFields _ => exact ⟨'\x7b', _, rfl, rfl, by decide⟩
  | object _ _ _ => exact ⟨'\x7b', _, rfl, rfl, by decide⟩

theorem SpellsItems.opens {items : List Json} {t : Text} (h : SpellsItems words items t) :
    Opens t := by
  cases h with
  | last h _ => exact h.opens.append _
  | next h _ _ _ => exact h.opens.append _

/-- The fields begin with a quote. -/
theorem SpellsFields.eq_cons {fields : List (Text × Json)} {t : Text}
    (h : SpellsFields words fields t) : ∃ u, t = '"' :: u := by
  cases h <;> exact ⟨_, rfl⟩

/-- Each item has a character, so there are no more items than characters. -/
theorem SpellsItems.length_le : ∀ {items : List Json} {t : Text}, SpellsItems words items t →
    items.length ≤ t.length
  | _, _, .last _ _ => by
    simp only [List.length_cons, List.length_nil, List.length_append]
    omega
  | _, _, .next _ _ _ hs => by
    have ih := hs.length_le
    simp only [List.length_cons, List.length_append]
    omega

theorem SpellsFields.length_le : ∀ {fields : List (Text × Json)} {t : Text},
    SpellsFields words fields t → fields.length ≤ t.length
  | _, _, .last _ _ _ _ _ => by
    simp only [List.length_cons, List.length_nil, List.length_append]
    omega
  | _, _, .next _ _ _ _ _ _ hs => by
    have ih := hs.length_le
    simp only [List.length_cons, List.length_append]
    omega

/-! ### Arrays and objects -/

theorem putAll_of_nodup {fields : List (Text × Json)} (h : (fields.map Prod.fst).Nodup) :
    Fields.putAll fields [] = fields := by
  have hnil : (List.map Prod.fst ([] : Fields Text Json)).Nodup := List.nodup_nil
  rw [Fields.putAll_eq_merged h hnil]
  simp [Fields.merged]

/-- The text is read as the value, whatever stands behind it. -/
def ReadsAs (read : Text → Except Fault (Json × Text)) (text : Text) (value : Json) : Prop :=
  ∀ rest, EndsNumber rest → read (text ++ rest) = .ok (value, rest)

theorem readValue_array {gap t : Text} {items : List Json} (n : ℕ) (rest : Text) (hg : Gap gap)
    (ht : Opens t) (hread : readItems (readValue n) (t ++ rest).length (t ++ rest) =
      .ok (items, rest)) :
    readValue (n + 1) ('[' :: (gap ++ t) ++ rest) = .ok (.array items, rest) := by
  have hdrop := dropSpaces_opens hg (ht.append rest)
  rw [← List.append_assoc] at hdrop
  obtain ⟨c, u, rfl, -, hc⟩ := ht
  simp only [readValue, List.cons_append, hdrop]
  split
  · next h => exact absurd (List.cons.inj h).1 hc
  · simp only [List.cons_append] at hread
    rw [hread]
    rfl

theorem readValue_noItems {gap : Text} (n : ℕ) (rest : Text) (hg : Gap gap) :
    readValue (n + 1) ('[' :: (gap ++ [']']) ++ rest) = .ok (.array [], rest) := by
  have hdrop : dropSpaces (gap ++ [']'] ++ rest) = ']' :: rest := by
    rw [List.append_assoc]
    exact dropSpaces_gap hg rfl rest
  simp only [readValue, List.cons_append, hdrop]

theorem readValue_noFields {gap : Text} (n : ℕ) (rest : Text) (hg : Gap gap) :
    readValue (n + 1) ('\x7b' :: (gap ++ ['\x7d']) ++ rest) = .ok (.object [], rest) := by
  have hdrop : dropSpaces (gap ++ ['\x7d'] ++ rest) = '\x7d' :: rest := by
    rw [List.append_assoc]
    exact dropSpaces_gap hg rfl rest
  simp only [readValue, List.cons_append, hdrop]

/-- Entries in braces are read as an object. A key that comes twice has its last value at its first
place. -/
theorem readValue_entries {gap t : Text} {entries : List (Text × Json)} (n : ℕ) (rest : Text)
    (hg : Gap gap) (ht : ∃ u, t = '"' :: u)
    (hread : readEntries (readValue n) (t ++ rest).length (t ++ rest) = .ok (entries, rest)) :
    readValue (n + 1) ('\x7b' :: (gap ++ t) ++ rest) =
      .ok (.object (Fields.putAll entries []), rest) := by
  obtain ⟨u, rfl⟩ := ht
  have hdrop : dropSpaces (gap ++ '"' :: u ++ rest) = '"' :: u ++ rest := by
    rw [List.append_assoc]
    exact dropSpaces_gap hg rfl _
  simp only [readValue, List.cons_append, hdrop]
  simp only [List.cons_append] at hread
  split
  · next h => exact absurd (List.cons.inj h).1 (by decide)
  · rw [hread]
    rfl

theorem readValue_object {gap t : Text} {fields : List (Text × Json)} (n : ℕ) (rest : Text)
    (hg : Gap gap) (ht : ∃ u, t = '"' :: u) (hn : (fields.map Prod.fst).Nodup)
    (hread : readEntries (readValue n) (t ++ rest).length (t ++ rest) = .ok (fields, rest)) :
    readValue (n + 1) ('\x7b' :: (gap ++ t) ++ rest) = .ok (.object fields, rest) := by
  rw [readValue_entries n rest hg ht hread, putAll_of_nodup hn]

section Entry

variable {read : Text → Except Fault (Json × Text)} {key k before after t rest rest' : Text}
  {value : Json} (bound : ℕ) (hkey : SpellsString key k) (hbefore : Gap before)
  (hafter : Gap after) (ht : Opens t) (hread : ReadsAs read t value) (hr : EndsNumber rest)

include hbefore in
theorem dropSpaces_before : dropSpaces (before ++ ':' :: (after ++ t) ++ rest) =
    ':' :: (after ++ (t ++ rest)) := by
  rw [List.append_assoc, List.cons_append, List.append_assoc]
  exact dropSpaces_gap hbefore rfl _

include hkey hbefore hafter ht hread hr

/-- The entry before the closing brace. -/
theorem readEntries_last (h : dropSpaces rest = '\x7d' :: rest') :
    readEntries read (bound + 1) (fieldText k before after t ++ rest) =
      .ok ([(key, value)], rest') := by
  have hvalue := dropSpaces_opens hafter (ht.append rest)
  rw [fieldText, List.cons_append, List.append_assoc, readEntries]
  simp only [bind, Except.bind, hkey.readString, dropSpaces_before hbefore, hvalue, hread rest hr, h]

/-- The entry before a comma and more entries. -/
theorem readEntries_next (h : dropSpaces rest = ',' :: rest') {fields : List (Text × Json)}
    {rest'' : Text} (hfields : readEntries read bound (dropSpaces rest') = .ok (fields, rest'')) :
    readEntries read (bound + 1) (fieldText k before after t ++ rest) =
      .ok ((key, value) :: fields, rest'') := by
  have hvalue := dropSpaces_opens hafter (ht.append rest)
  rw [fieldText, List.cons_append, List.append_assoc, readEntries]
  simp only [bind, Except.bind, hkey.readString, dropSpaces_before hbefore, hvalue, hread rest hr, h,
    hfields]

end Entry

mutual

/-- A text of a value is read as the value. -/
theorem Spells.readValue : ∀ {v : Json} {t : Text}, Spells words v t → ∀ {nesting : ℕ},
    WellFormed v → depth v ≤ nesting → ReadsAs (readValue nesting) t v
  | _, _, .null, _ + 1, _, _ => fun rest _ => readWord_append "null" .null rest
  | _, _, .bool true, _ + 1, _, _ => fun rest _ => readWord_append "true" (.bool true) rest
  | _, _, .bool false, _ + 1, _, _ => fun rest _ => readWord_append "false" (.bool false) rest
  | _, _, .integer _, n + 1, h, _ => fun _ hr => readValue_integerText n h hr
  | _, _, .float negative hl hmark hpart, n + 1, _, _ => fun _ hr =>
    readValue_literal n negative hl hmark hpart hr
  | _, _, .word _ hx, n + 1, _, _ => fun rest _ => readValue_word n hx rest
  | _, _, .string hs, n + 1, _, _ => fun rest _ => readValue_string n hs rest
  | _, _, .noItems hg, n + 1, _, _ => fun rest _ => readValue_noItems n rest hg
  | _, _, .array hg h, n + 1, hw, hdepth => fun rest _ =>
    readValue_array n rest hg h.opens
      (h.readItems hw (Nat.le_of_succ_le_succ hdepth)
        (by have := h.length_le; rw [List.length_append]; omega) rest)
  | _, _, .noFields hg, n + 1, _, _ => fun rest _ => readValue_noFields n rest hg
  | _, _, .object hn hg h, n + 1, hw, hdepth => fun rest _ =>
    readValue_object n rest hg h.eq_cons hn
      (h.readEntries hw.2 (Nat.le_of_succ_le_succ hdepth)
        (by have := h.length_le; rw [List.length_append]; omega) rest)

theorem SpellsItems.readItems : ∀ {items : List Json} {t : Text}, SpellsItems words items t →
    ∀ {nesting bound : ℕ}, WellFormedItems items → depthItems items ≤ nesting →
    items.length ≤ bound → ∀ rest,
      readItems (Json.readValue nesting) bound (t ++ rest) = .ok (items, rest)
  | _, _, .last h hg, nesting, bound + 1, hw, hdepth, _, rest => by
    rw [depthItems, max_le_iff] at hdepth
    have hitem := h.readValue hw.1 hdepth.1
    rw [List.append_assoc, List.append_assoc, List.singleton_append, Json.readItems,
      hitem _ (endsNumber_gap hg (by decide) rest)]
    simp only [bind, Except.bind, dropSpaces_gap hg (show isSpace ']' = false from rfl)]
  | _, _, .next h hg hg' hs, nesting, bound + 1, hw, hdepth, hbound, rest => by
    rw [depthItems, max_le_iff] at hdepth
    have hitem := h.readValue hw.1 hdepth.1
    have hitems := hs.readItems hw.2 hdepth.2 (Nat.le_of_succ_le_succ hbound) rest
    rw [List.append_assoc, List.append_assoc, List.cons_append, List.append_assoc, Json.readItems,
      hitem _ (endsNumber_gap hg (by decide) _)]
    simp only [bind, Except.bind, dropSpaces_gap hg (show isSpace ',' = false from rfl),
      dropSpaces_opens hg' (hs.opens.append rest), hitems]

theorem SpellsFields.readEntries : ∀ {fields : List (Text × Json)} {t : Text},
    SpellsFields words fields t → ∀ {nesting bound : ℕ}, WellFormedFields fields →
    depthFields fields ≤ nesting → fields.length ≤ bound → ∀ rest,
      readEntries (Json.readValue nesting) bound (t ++ rest) = .ok (fields, rest)
  | _, _, .last hkey hbefore hafter h hg, nesting, bound + 1, hw, hdepth, _, rest => by
    rw [depthFields, max_le_iff] at hdepth
    rw [List.append_assoc, List.append_assoc, List.singleton_append]
    exact readEntries_last bound hkey hbefore hafter h.opens (h.readValue hw.1 hdepth.1)
      (endsNumber_gap hg (by decide) rest) (dropSpaces_gap hg rfl rest)
  | _, _, .next hkey hbefore hafter h hg hg' hs, nesting, bound + 1, hw, hdepth, hbound, rest => by
    rw [depthFields, max_le_iff] at hdepth
    have hfields := hs.readEntries hw.2 hdepth.2 (Nat.le_of_succ_le_succ hbound) rest
    obtain ⟨u, rfl⟩ := hs.eq_cons
    rw [List.append_assoc, List.append_assoc, List.cons_append, List.append_assoc]
    refine readEntries_next bound hkey hbefore hafter h.opens (h.readValue hw.1 hdepth.1)
      (endsNumber_gap hg (by decide) _) (dropSpaces_gap hg rfl _) ?_
    rw [List.cons_append, dropSpaces_gap hg' rfl]
    exact hfields

end

/-- What is read of a text up to its end is what the whole text is read as. -/
theorem read_of_readValue {v : Json} {t : Text} (ht : Opens t)
    (hvalue : readValue nestingLimit (t ++ []) = .ok (v, [])) : read t = .ok v := by
  have hdrop : dropSpaces t = t := dropSpaces_opens gap_nil ht
  rw [List.append_nil] at hvalue
  rw [Json.read, hdrop, hvalue]
  rfl

/-- A text of a value, and nothing else, is read as the value. -/
theorem Spells.read {v : Json} {t : Text} (h : Spells words v t) (hw : WellFormed v)
    (hdepth : depth v ≤ nestingLimit) : read t = .ok v :=
  read_of_readValue h.opens (h.readValue hw hdepth [] endsNumber_nil)

/-! ### Written values -/

/-- The text of a double, finite or not. -/
theorem spells_numberText {x : Float} (h : words = false → x.isFinite = true) :
    Spells words (.float x) (numberText x) := by
  cases hx : x.isFinite with
  | true =>
    have hsome := hx
    rw [Double.isFinite_eq] at hsome
    obtain ⟨b, hb⟩ := Option.isSome_iff_exists.mp hsome
    obtain ⟨l, hl, hmark, hpart, htext, hvalue⟩ := floatText_eq hb
    rw [numberText, if_pos hx, htext, ← hvalue]
    exact .float b.negative hl hmark hpart
  | false =>
    refine .word ?_ hx
    by_contra hwords
    exact Bool.false_ne_true (hx.symm.trans (h (by simpa using hwords)))

theorem spells_stringText (ascii : Bool) (s : Text) :
    Spells words (.string s) (stringText ascii s) :=
  .string (spellsString_flatMap ascii s)

/-- Texts of items, with commas between them. -/
theorem spellsItems_of_parts {gap gap' : Text} (hg : Gap gap) (hg' : Gap gap') :
    ∀ {items : List Json} {parts : List Text}, items ≠ [] → List.Forall₂ (Spells words) items parts →
      SpellsItems words items ((',' :: gap').intercalate parts ++ (gap ++ [']']))
  | [], _, hne, _ => absurd rfl hne
  | [_], _, _, .cons h .nil => by
    rw [List.intercalate_singleton]
    exact .last h hg
  | _ :: _ :: _, _, _, .cons h (.cons h' hs) => by
    have ih := spellsItems_of_parts hg hg' (List.cons_ne_nil _ _) (.cons h' hs)
    rw [List.intercalate_cons_cons, List.append_assoc, List.append_assoc, List.cons_append]
    exact .next h gap_nil hg' ih

/-- The text is what is written of a key, and a text of its value. -/
def SpellsField (words ascii : Bool) (field : Text × Json) (t : Text) : Prop :=
  ∃ value, Spells words field.2 value ∧ t = stringText ascii field.1 ++ ':' :: ' ' :: value

theorem stringText_eq (ascii : Bool) (key value : Text) :
    stringText ascii key ++ ':' :: ' ' :: value =
      fieldText (key.flatMap (stringChar ascii) ++ ['"']) [] [' '] value := by
  simp [stringText, fieldText]

/-- Texts of fields, with commas between them. -/
theorem spellsFields_of_parts {ascii : Bool} {gap gap' : Text} (hg : Gap gap) (hg' : Gap gap') :
    ∀ {fields : List (Text × Json)} {parts : List Text}, fields ≠ [] →
      List.Forall₂ (SpellsField words ascii) fields parts →
      SpellsFields words fields ((',' :: gap').intercalate parts ++ (gap ++ ['\x7d']))
  | [], _, hne, _ => absurd rfl hne
  | [(key, _)], _, _, .cons ⟨value, h, ht⟩ .nil => by
    rw [List.intercalate_singleton, ht, stringText_eq]
    exact .last (spellsString_flatMap ascii key) gap_nil gap_space h hg
  | (key, _) :: _ :: _, _, _, .cons ⟨value, h, ht⟩ (.cons h' hs) => by
    have ih := spellsFields_of_parts hg hg' (List.cons_ne_nil _ _) (.cons h' hs)
    rw [List.intercalate_cons_cons, List.append_assoc, List.append_assoc, List.cons_append, ht, stringText_eq]
    exact .next (spellsString_flatMap ascii key) gap_nil gap_space h gap_nil hg' ih

end Json
end NumericAnswer
