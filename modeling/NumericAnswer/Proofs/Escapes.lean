/-
# Strings and their texts

In the text of a string a character stands for itself, unless it is a quote, a
backslash or a control, or as an escape: by a letter, or by number, in two halves
beyond 16 bits. Each string has many texts, and all of them are read as the
string. What is written of a string, in ASCII or not, is one of them.

Key definitions: `Json.SpellsChar`, `Json.SpellsString`.
Key theorems: `Json.SpellsString.readString`, `Json.spellsString_flatMap`.
-/
import Mathlib
import NumericAnswer.Json.Reader
import NumericAnswer.Json.Writer

namespace NumericAnswer
namespace Json

/-- The letters of short escapes, with their characters. -/
def shortEscapes : List (Char × Char) :=
  [('"', '"'), ('\\', '\\'), ('/', '/'), ('b', '\x08'), ('f', '\x0c'), ('n', '\n'), ('r', '\r'),
   ('t', '\t')]

/-- The text stands for the character in the text of a string. -/
inductive SpellsChar : Char → Text → Prop where
  | itself {c : Char} (hq : c ≠ '"') (hb : c ≠ '\\') (hc : ' ' ≤ c) : SpellsChar c [c]
  | short {c letter : Char} (h : (letter, c) ∈ shortEscapes) : SpellsChar c ['\\', letter]
  | unit {c : Char} {digits : Text} (hl : digits.length = 4)
      (h : codeUnit? digits = some c.toNat) : SpellsChar c ('\\' :: 'u' :: digits)
  | pair {c : Char} {digits digits' : Text} {high low : Nat} (hl : digits.length = 4)
      (hl' : digits'.length = 4) (h : codeUnit? digits = some (0xd800 + high))
      (h' : codeUnit? digits' = some (0xdc00 + low)) (hhigh : high < 0x400) (hlow : low < 0x400)
      (hc : c.toNat = 0x10000 + high * 0x400 + low) :
      SpellsChar c ('\\' :: 'u' :: (digits ++ '\\' :: 'u' :: digits'))

/-- The text of a string after its opening quote. -/
inductive SpellsString : Text → Text → Prop where
  | nil : SpellsString [] ['"']
  | cons {c : Char} {s t u : Text} (hc : SpellsChar c t) (hs : SpellsString s u) :
      SpellsString (c :: s) (t ++ u)

/-! ### Numbers of 16 bits -/

theorem hexValue?_digitChar : ∀ n < 16, hexValue? (Nat.digitChar n) = some n := by
  decide

theorem hexDigits_four (n : ℕ) : hexDigits 4 n =
    [Nat.digitChar (n / 16 / 16 / 16 % 16), Nat.digitChar (n / 16 / 16 % 16),
      Nat.digitChar (n / 16 % 16), Nat.digitChar (n % 16)] := by
  simp [hexDigits]

theorem codeUnit?_hexDigits {n : ℕ} (h : n < 0x10000) : codeUnit? (hexDigits 4 n) = some n := by
  have hdigit : ∀ k, hexValue? (Nat.digitChar (k % 16)) = some (k % 16) :=
    fun k => hexValue?_digitChar _ (Nat.mod_lt _ (by omega))
  simp only [hexDigits_four, codeUnit?, hdigit, Option.bind_eq_bind, Option.bind_some,
    Option.some_inj]
  omega

theorem codeUnit?_append {digits : Text} {n : ℕ} (h : codeUnit? digits = some n) (s : Text) :
    codeUnit? (digits ++ s) = some n := by
  match digits, h with
  | _ :: _ :: _ :: _ :: _, h => exact h

/-! ### Characters -/

theorem toNat_lt_or_lt (c : Char) : c.toNat < 0xd800 ∨ 0xdfff < c.toNat ∧ c.toNat < 0x110000 :=
  c.valid

theorem escape?_short {letter c : Char} (h : (letter, c) ∈ shortEscapes) (s : Text) :
    escape? (letter :: s) = some (c, 1) := by
  simp only [shortEscapes, List.mem_cons, Prod.mk.injEq, List.not_mem_nil, or_false] at h
  rcases h with ⟨rfl, rfl⟩ | ⟨rfl, rfl⟩ | ⟨rfl, rfl⟩ | ⟨rfl, rfl⟩ | ⟨rfl, rfl⟩ | ⟨rfl, rfl⟩ |
    ⟨rfl, rfl⟩ | ⟨rfl, rfl⟩ <;> rfl

theorem escape?_unit {c : Char} {digits : Text} (hl : digits.length = 4)
    (h : codeUnit? digits = some c.toNat) (s : Text) :
    escape? ('u' :: (digits ++ s)) = some (c, digits.length + 1) := by
  have hvalid := toNat_lt_or_lt c
  rw [escape?, unicodeEscape?, codeUnit?_append h, Option.map_some, if_neg (by
    simp only [Bool.and_eq_true, decide_eq_true_eq]; omega), if_neg (by
    simp only [Bool.and_eq_true, decide_eq_true_eq]; omega), Char.ofNat_toNat, hl]
  rfl

/-- Two halves are read as one character. -/
theorem escape?_pair {c : Char} {digits digits' : Text} {high low : ℕ} (hl : digits.length = 4)
    (hl' : digits'.length = 4) (h : codeUnit? digits = some (0xd800 + high))
    (h' : codeUnit? digits' = some (0xdc00 + low)) (hhigh : high < 0x400) (hlow : low < 0x400)
    (hc : c.toNat = 0x10000 + high * 0x400 + low) (s : Text) :
    escape? ('u' :: (digits ++ '\\' :: 'u' :: digits' ++ s)) =
      some (c, (digits ++ '\\' :: 'u' :: digits').length + 1) := by
  have hdrop : (digits ++ ('\\' :: 'u' :: digits' ++ s)).drop 4 = '\\' :: 'u' :: (digits' ++ s) := by
    rw [List.drop_left' hl]
    rfl
  have hhalf : lowSurrogate? ('\\' :: 'u' :: (digits' ++ s)) = some (0xdc00 + low) := by
    rw [lowSurrogate?, codeUnit?_append h', Option.filter_some, if_pos (by
      simp only [Bool.and_eq_true, decide_eq_true_eq]; omega)]
  have hvalue : 0x10000 + (0xd800 + high - 0xd800) * 0x400 + (0xdc00 + low - 0xdc00) = c.toNat := by
    omega
  rw [List.append_assoc, escape?, unicodeEscape?, codeUnit?_append h, Option.map_some, hdrop, hhalf,
    if_pos (by simp only [Bool.and_eq_true, decide_eq_true_eq]; omega)]
  simp only [hvalue, Char.ofNat_toNat]
  simp [hl, hl']

theorem readString_escape {t s : Text} {c : Char} (h : escape? (t ++ s) = some (c, t.length)) :
    readString ('\\' :: (t ++ s)) =
      (readString s).map fun (more, rest) => (c :: more, rest) := by
  rw [readString, if_neg (by decide), if_pos rfl, h]
  simp only [List.drop_left]

/-- The text of a character is read as the character. -/
theorem SpellsChar.readString {c : Char} {t : Text} (h : SpellsChar c t) (s : Text) :
    Json.readString (t ++ s) = (Json.readString s).map fun (more, rest) => (c :: more, rest) := by
  cases h with
  | itself hq hb hc =>
    rw [List.singleton_append, Json.readString, if_neg hq, if_neg hb,
      if_neg (Char.not_lt.mpr hc)]
  | short h => exact readString_escape (t := [_]) (escape?_short h s)
  | unit hl h => exact readString_escape (t := 'u' :: _) (escape?_unit hl h s)
  | pair hl hl' h h' hhigh hlow hc =>
    exact readString_escape (t := 'u' :: _) (escape?_pair hl hl' h h' hhigh hlow hc s)

/-! ### Strings -/

/-- The text of a string is read as the string, after its opening quote. -/
theorem SpellsString.readString {s t : Text} (h : SpellsString s t) (rest : Text) :
    Json.readString (t ++ rest) = .ok (s, rest) := by
  induction h with
  | nil => rw [List.singleton_append, Json.readString, if_pos rfl]
  | cons hc _ ih =>
    rw [List.append_assoc, hc.readString, ih]
    rfl

/-! ### Written strings -/

theorem spellsChar_characterEscape (c : Char) : SpellsChar c (characterEscape c) := by
  have hvalid := toNat_lt_or_lt c
  unfold characterEscape
  by_cases h : c.toNat < 0x10000
  · rw [if_pos h]
    exact .unit (length_hexDigits 4 _) (codeUnit?_hexDigits h)
  · rw [if_neg h]
    exact .pair (length_hexDigits 4 _) (length_hexDigits 4 _) (codeUnit?_hexDigits (by omega))
      (codeUnit?_hexDigits (by omega)) (by omega) (Nat.mod_lt _ (by omega)) (by omega)

/-- What is written of a character is one of its texts. -/
theorem spellsChar_stringChar (ascii : Bool) (c : Char) : SpellsChar c (stringChar ascii c) := by
  unfold stringChar
  split_ifs with hsign hn hr ht hb hf hescaped
  · rw [Bool.or_eq_true, decide_eq_true_iff, decide_eq_true_iff] at hsign
    rcases hsign with rfl | rfl
    · exact .short (by decide)
    · exact .short (by decide)
  · subst hn; exact .short (by decide)
  · subst hr; exact .short (by decide)
  · subst ht; exact .short (by decide)
  · subst hb; exact .short (by decide)
  · subst hf; exact .short (by decide)
  · exact spellsChar_characterEscape c
  · rw [Bool.or_eq_true, decide_eq_true_iff, decide_eq_true_iff, not_or] at hsign
    rw [Bool.or_eq_true, decide_eq_true_iff, not_or] at hescaped
    exact .itself hsign.1 hsign.2 (Char.not_lt.mp hescaped.1)

theorem spellsString_flatMap (ascii : Bool) : ∀ s : Text,
    SpellsString s (s.flatMap (stringChar ascii) ++ ['"'])
  | [] => .nil
  | c :: s => by
    rw [List.flatMap_cons, List.append_assoc]
    exact .cons (spellsChar_stringChar ascii c) (spellsString_flatMap ascii s)

end Json
end NumericAnswer
