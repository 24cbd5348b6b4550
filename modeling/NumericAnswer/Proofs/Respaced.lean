/-
# Texts that differ in their blanks

Two texts that are respaced differ in how many blanks stand in a row, and, if the relation is a
loose one, in whether blanks stand before an opening bracket. A backslash and the character after
it stay together. What the canonical form reads at the front of such texts differs in the same
way.

Key definitions: `Rows`, `Gap`, `Respaced`, `Commanded`.
Key theorems: `Respaced.append`, `Respaced.front`, `Respaced.span`, `Commanded.respaced`,
`respaced_insert`.
-/
import NumericAnswer.Proofs.Transparent

namespace NumericAnswer

/-! ### Rows of blanks -/

/-- Two rows of blanks, or two texts without any. -/
structure Rows (b b' : Text) : Prop where
  left : isAllBlank b = true
  right : isAllBlank b' = true
  nil_iff : b = [] ↔ b' = []

/-- The character opens a group. -/
def opens (c : Char) : Bool :=
  (Bracket.ofOpening? c).isSome

theorem not_isBlank_of_opens {c : Char} (h : opens c = true) : isBlank c = false := by
  cases hc : isBlank c with
  | false => rfl
  | true =>
    rw [opens, (noBracket_of_isBlank hc).1] at h
    cases h

theorem ne_backslash_of_opens {c : Char} (h : opens c = true) : c ≠ '\\' := by
  rintro rfl
  cases h

/-- What stands before the character in two texts: rows of blanks, of which one may be missing
before an opening bracket. -/
def Gap (loose : Bool) (c : Char) (b b' : Text) : Prop :=
  Rows b b' ∨ loose = true ∧ opens c = true ∧ isAllBlank b = true ∧ isAllBlank b' = true

/-- The texts differ in their blanks only. After a backslash stands a character that may be
escaped. -/
inductive Respaced (loose : Bool) (escaped : Char → Prop) : Text → Text → Prop
  | ends {b b' : Text} (hb : Rows b b') : Respaced loose escaped b b'
  | char {b b' : Text} {c : Char} {s t : Text} (hb : Gap loose c b b') (hblank : isBlank c = false)
      (hc : c ≠ '\\') (h : Respaced loose escaped s t) :
      Respaced loose escaped (b ++ c :: s) (b' ++ c :: t)
  | command {b b' : Text} {d : Char} {s t : Text} (hb : Rows b b') (hd : escaped d)
      (h : Respaced loose escaped s t) :
      Respaced loose escaped (b ++ '\\' :: d :: s) (b' ++ '\\' :: d :: t)

/-- A property of characters that stand within words, numbers and the like. -/
structure Solid (p : Char → Bool) : Prop where
  blank {c : Char} (h : isBlank c = true) : p c = false
  opening {c : Char} (h : opens c = true) : p c = false
  backslash : p '\\' = false

theorem solid_isAlphanumeric : Solid isAlphanumeric where
  blank := isAlphanumeric_of_isBlank
  opening {c} h := by
    cases hc : isAlphanumeric c with
    | false => rfl
    | true => rw [opens, (noBracket_of_isAlphanumeric hc).1] at h; cases h
  backslash := by decide +kernel

theorem solid_isAsciiLetter : Solid isAsciiLetter where
  blank h := isAsciiLetter_of_isAlphanumeric (solid_isAlphanumeric.blank h)
  opening h := isAsciiLetter_of_isAlphanumeric (solid_isAlphanumeric.opening h)
  backslash := by decide

theorem solid_isDecimalDigit : Solid isDecimalDigit where
  blank h := isDecimalDigit_of_isAlphanumeric (solid_isAlphanumeric.blank h)
  opening h := isDecimalDigit_of_isAlphanumeric (solid_isAlphanumeric.opening h)
  backslash := by decide

theorem isAllBlank_append {s t : Text} :
    isAllBlank (s ++ t) = true ↔ isAllBlank s = true ∧ isAllBlank t = true := by
  simp [isAllBlank]

/-- The text behind something in braces. -/
theorem drop_braced {s u : Text} (hu : dropBlanks s = '\x7b' :: u) :
    s.drop (blankLength s + (u.takeWhile notBrace).length + 2) = (u.dropWhile notBrace).tail := by
  rw [Nat.add_assoc, ← List.drop_drop, Rule.drop_blankLength, hu, Nat.add_comm, Nat.add_comm,
    List.drop_succ_cons, ← List.drop_drop, drop_length_takeWhile, List.drop_one]

theorem notBrace_of_isBlank {c : Char} (h : isBlank c = true) : notBrace c = true := by
  by_contra hc
  have hbrace : c = '\x7b' ∨ c = '\x7d' := by simpa [notBrace, imp_iff_not_or] using hc
  rcases hbrace with rfl | rfl <;> exact absurd h (by decide)

namespace Rows

variable {b b' d d' : Text}

theorem nil : Rows [] [] :=
  ⟨rfl, rfl, Iff.rfl⟩

theorem refl (h : isAllBlank b = true) : Rows b b :=
  ⟨h, h, Iff.rfl⟩

theorem symm (h : Rows b b') : Rows b' b :=
  ⟨h.right, h.left, h.nil_iff.symm⟩

theorem append (h : Rows b b') (h' : Rows d d') : Rows (b ++ d) (b' ++ d') where
  left := isAllBlank_append.mpr ⟨h.left, h'.left⟩
  right := isAllBlank_append.mpr ⟨h.right, h'.right⟩
  nil_iff := by rw [List.append_eq_nil_iff, List.append_eq_nil_iff, h.nil_iff, h'.nil_iff]

end Rows

namespace Gap

variable {loose : Bool} {c : Char} {b b' d d' : Text}

theorem left (h : Gap loose c b b') : isAllBlank b = true :=
  h.elim Rows.left fun h => h.2.2.1

theorem right (h : Gap loose c b b') : isAllBlank b' = true :=
  h.elim Rows.right fun h => h.2.2.2

theorem symm (h : Gap loose c b b') : Gap loose c b' b :=
  h.imp Rows.symm fun ⟨hl, hc, hb, hb'⟩ => ⟨hl, hc, hb', hb⟩

theorem rows_append (h : Gap loose c d d') (hb : Rows b b') : Gap loose c (b ++ d) (b' ++ d') :=
  h.imp hb.append fun ⟨hl, hc, hd, hd'⟩ =>
    ⟨hl, hc, isAllBlank_append.mpr ⟨hb.left, hd⟩, isAllBlank_append.mpr ⟨hb.right, hd'⟩⟩

/-- Only before an opening bracket may one row be missing. -/
theorem rows (h : Gap loose c b b') (hc : opens c = false) : Rows b b' :=
  h.resolve_right fun h => absurd (hc.symm.trans h.2.1) (by decide)

end Gap

/-- No blanks stand before a text that begins with another character. -/
theorem eq_nil_of_append_eq_cons {b s t : Text} {c : Char} (hb : isAllBlank b = true)
    (hc : isBlank c = false) (h : b ++ s = c :: t) : b = [] ∧ s = c :: t := by
  cases b with
  | nil => exact ⟨rfl, h⟩
  | cons d b =>
    obtain ⟨rfl, -⟩ := List.cons.inj h
    simp only [isAllBlank, List.all_cons, Bool.and_eq_true] at hb
    exact absurd (hc.symm.trans hb.1) (by decide)

namespace Respaced

variable {loose : Bool} {escaped escaped' : Char → Prop} {b b' s t u v : Text} {c d : Char}

theorem nil : Respaced loose escaped [] [] :=
  .ends .nil

theorem symm (h : Respaced loose escaped s t) : Respaced loose escaped t s := by
  induction h with
  | ends hb => exact .ends hb.symm
  | char hb hblank hc _ ih => exact .char hb.symm hblank hc ih
  | command hb hd _ ih => exact .command hb.symm hd ih

theorem mono (h : Respaced loose escaped s t) (hd : ∀ d, escaped d → escaped' d) :
    Respaced loose escaped' s t := by
  induction h with
  | ends hb => exact .ends hb
  | char hb hblank hc _ ih => exact .char hb hblank hc ih
  | command hb hd' _ ih => exact .command hb (hd _ hd') ih

theorem rows_append (h : Respaced loose escaped s t) (hb : Rows b b') :
    Respaced loose escaped (b ++ s) (b' ++ t) := by
  cases h with
  | ends hd => exact .ends (hb.append hd)
  | char hd hblank hc h =>
    rw [← List.append_assoc, ← List.append_assoc]
    exact .char (hd.rows_append hb) hblank hc h
  | command hd he h =>
    rw [← List.append_assoc, ← List.append_assoc]
    exact .command (hb.append hd) he h

theorem append (h : Respaced loose escaped s t) (h' : Respaced loose escaped u v) :
    Respaced loose escaped (s ++ u) (t ++ v) := by
  induction h with
  | ends hb => exact h'.rows_append hb
  | char hb hblank hc _ ih =>
    rw [List.append_assoc, List.append_assoc]
    exact .char hb hblank hc ih
  | command hb hd _ ih =>
    rw [List.append_assoc, List.append_assoc]
    exact .command hb hd ih

theorem cons (hblank : isBlank c = false) (hc : c ≠ '\\') (h : Respaced loose escaped s t) :
    Respaced loose escaped (c :: s) (c :: t) :=
  @char _ _ [] [] _ _ _ (.inl .nil) hblank hc h

theorem escape (hd : escaped d) (h : Respaced loose escaped s t) :
    Respaced loose escaped ('\\' :: d :: s) ('\\' :: d :: t) :=
  @command _ _ [] [] _ _ _ .nil hd h

/-- Characters that are no backslashes stand in a text as they do alone. -/
theorem plain_append (h : Respaced loose escaped s t) :
    ∀ {w : Text}, '\\' ∉ w → Respaced loose escaped (w ++ s) (w ++ t)
  | [], _ => h
  | c :: w, hw => by
    obtain ⟨hc, hw⟩ := List.ne_and_not_mem_of_not_mem_cons hw
    have hrest := h.plain_append hw
    cases hb : isBlank c with
    | true => exact hrest.rows_append (.refl (b := [c]) (by simp [isAllBlank, hb]))
    | false => exact hrest.cons hb (Ne.symm hc)

/-! ### The front of a text -/

/-- How two respaced texts begin: with rows of blanks, and with the same character behind them,
if there is one. -/
inductive Front (loose : Bool) (escaped : Char → Prop) : Text → Text → Prop
  | ends : Front loose escaped [] []
  | char {c : Char} {s t : Text} (hblank : isBlank c = false) (hc : c ≠ '\\')
      (h : Respaced loose escaped s t) : Front loose escaped (c :: s) (c :: t)
  | command {d : Char} {s t : Text} (hd : escaped d) (h : Respaced loose escaped s t) :
      Front loose escaped ('\\' :: d :: s) ('\\' :: d :: t)

theorem Front.respaced (h : Front loose escaped s t) : Respaced loose escaped s t := by
  cases h with
  | ends => exact .nil
  | char hblank hc h => exact h.cons hblank hc
  | command hd h => exact h.escape hd

theorem isBlank_backslash : isBlank '\\' = false := by decide

theorem front (h : Respaced loose escaped s t) :
    Front loose escaped (dropBlanks s) (dropBlanks t) := by
  cases h with
  | ends hb =>
    rw [dropBlanks_eq_nil_iff.mpr hb.left, dropBlanks_eq_nil_iff.mpr hb.right]
    exact .ends
  | char hb hblank hc h =>
    rw [dropBlanks_of_isAllBlank hb.left, dropBlanks_of_isAllBlank hb.right,
      dropBlanks_cons_of_not_isBlank hblank, dropBlanks_cons_of_not_isBlank hblank]
    exact .char hblank hc h
  | command hb hd h =>
    rw [dropBlanks_of_isAllBlank hb.left, dropBlanks_of_isAllBlank hb.right,
      dropBlanks_cons_of_not_isBlank isBlank_backslash,
      dropBlanks_cons_of_not_isBlank isBlank_backslash]
    exact .command hd h

theorem trimmed (h : Respaced loose escaped s t) :
    Respaced loose escaped (dropBlanks s) (dropBlanks t) :=
  h.front.respaced

theorem head?_dropBlanks (h : Respaced loose escaped s t) :
    (dropBlanks s).head? = (dropBlanks t).head? := by
  have hfront := h.front
  generalize dropBlanks s = s', dropBlanks t = t' at hfront
  cases hfront <;> rfl

/-- A text that begins with a character other than a blank. -/
theorem of_cons (h : Respaced loose escaped (c :: s) t) (hblank : isBlank c = false) (hc : c ≠ '\\') :
    ∃ b t', t = b ++ c :: t' ∧ Gap loose c [] b ∧ Respaced loose escaped s t' := by
  generalize hx : c :: s = x at h
  cases h with
  | ends hb =>
    have hnil := (eq_nil_of_append_eq_cons hb.left hblank (by rw [List.append_nil, hx])).2
    cases hnil
  | @char b b' e s' t' hb _ _ h =>
    obtain ⟨rfl, hcons⟩ := eq_nil_of_append_eq_cons hb.left hblank hx.symm
    obtain ⟨rfl, rfl⟩ := List.cons.inj hcons
    exact ⟨b', t', rfl, hb, h⟩
  | command hb hd h =>
    obtain ⟨rfl, hcons⟩ := eq_nil_of_append_eq_cons hb.left hblank hx.symm
    exact absurd (List.cons.inj hcons).1.symm hc

/-- A text that begins with a character before which blanks matter. -/
theorem exists_cons (h : Respaced loose escaped (c :: s) t) (hblank : isBlank c = false)
    (hc : c ≠ '\\') (hopens : opens c = false) :
    ∃ t', t = c :: t' ∧ Respaced loose escaped s t' := by
  obtain ⟨b, t', rfl, hgap, hrest⟩ := h.of_cons hblank hc
  obtain rfl : b = [] := (hgap.rows hopens).nil_iff.mp rfl
  exact ⟨t', rfl, hrest⟩

theorem of_backslash (h : Respaced loose escaped ('\\' :: s) t) :
    ∃ d s' t', s = d :: s' ∧ t = '\\' :: d :: t' ∧ escaped d ∧ Respaced loose escaped s' t' := by
  generalize hx : '\\' :: s = x at h
  cases h with
  | ends hb =>
    have hnil := (eq_nil_of_append_eq_cons hb.left isBlank_backslash (by rw [List.append_nil, hx])).2
    cases hnil
  | char hb _ hc h =>
    obtain ⟨rfl, hcons⟩ := eq_nil_of_append_eq_cons hb.left isBlank_backslash hx.symm
    exact absurd (List.cons.inj hcons).1 hc
  | @command b b' d s' t' hb hd h =>
    obtain ⟨rfl, hcons⟩ := eq_nil_of_append_eq_cons hb.left isBlank_backslash hx.symm
    obtain rfl : b' = [] := hb.nil_iff.mp rfl
    exact ⟨d, s', t', (List.cons.inj hcons).2.symm, rfl, hd, h⟩

theorem eq_nil (h : Respaced loose escaped [] t) : t = [] := by
  generalize hx : ([] : Text) = x at h
  cases h with
  | ends hb => exact (hb.nil_iff.mp hx.symm).trans hx
  | char => exact absurd hx (by simp)
  | command => exact absurd hx (by simp)

/-! ### Runs of characters -/

theorem head_any_append {p : Char → Bool} (hp : ∀ c, isBlank c = true → p c = false)
    (hb : isAllBlank b = true) (hc : p c = false) (s : Text) : (b ++ c :: s).head?.any p = false := by
  cases b with
  | nil => exact hc
  | cons e b =>
    simp only [isAllBlank, List.all_cons, Bool.and_eq_true] at hb
    exact hp e hb.1

/-- The texts begin with the same run of characters, and are respaced behind it. -/
theorem span {p : Char → Bool} (hp : Solid p) (h : Respaced loose escaped s t) :
    s.takeWhile p = t.takeWhile p ∧ Respaced loose escaped (s.dropWhile p) (t.dropWhile p) := by
  have hstop : ∀ {s t : Text}, s.head?.any p = false → t.head?.any p = false →
      Respaced loose escaped s t →
        s.takeWhile p = t.takeWhile p ∧ Respaced loose escaped (s.dropWhile p) (t.dropWhile p) := by
    intro s t hs ht h
    have hs' := takeWhile_append_of_head hs []
    have ht' := takeWhile_append_of_head ht []
    have hs'' := dropWhile_append_of_head hs []
    have ht'' := dropWhile_append_of_head ht []
    rw [List.nil_append] at hs' ht' hs'' ht''
    rw [hs', ht', hs'', ht'']
    exact ⟨rfl, h⟩
  have hblanks : ∀ {b x : Text}, isAllBlank b = true → b ≠ [] ∨ x = [] →
      (b ++ x).head?.any p = false := by
    intro b x hb hx
    cases b with
    | nil =>
      rw [hx.resolve_left (absurd rfl)]
      rfl
    | cons e b =>
      simp only [isAllBlank, List.all_cons, Bool.and_eq_true] at hb
      exact hp.blank hb.1
  induction h with
  | @ends b b' hb =>
    have hs := hblanks (x := []) hb.left (.inr rfl)
    have ht := hblanks (x := []) hb.right (.inr rfl)
    rw [List.append_nil] at hs ht
    exact hstop hs ht (.ends hb)
  | command hb hd h =>
    exact hstop (head_any_append (fun _ => hp.blank) hb.left hp.backslash _)
      (head_any_append (fun _ => hp.blank) hb.right hp.backslash _) (.command hb hd h)
  | @char b b' c s t hb hblank hc h ih =>
    cases hpc : p c with
    | false =>
      exact hstop (head_any_append (fun _ => hp.blank) hb.left hpc _)
        (head_any_append (fun _ => hp.blank) hb.right hpc _) (.char hb hblank hc h)
    | true =>
      have hopens : opens c = false := by
        cases ho : opens c with
        | false => rfl
        | true => exact absurd (hpc.symm.trans (hp.opening ho)) (by decide)
      have hrows := hb.rows hopens
      cases b with
      | nil =>
        obtain rfl : b' = [] := hrows.nil_iff.mp rfl
        simpa [hpc] using ih
      | cons e b =>
        have hne : b' ≠ [] := fun hnil => absurd (hrows.nil_iff.mpr hnil) (List.cons_ne_nil e b)
        obtain ⟨e', b', rfl⟩ := List.exists_cons_of_ne_nil hne
        exact hstop (hblanks hrows.left (.inl (List.cons_ne_nil e b)))
          (hblanks hrows.right (.inl hne)) (.char hb hblank hc h)

theorem leadingLetters_eq (h : Respaced loose escaped s t) : leadingLetters s = leadingLetters t :=
  (h.span solid_isAsciiLetter).1

theorem drop_leadingLetters (h : Respaced loose escaped s t) :
    Respaced loose escaped (s.drop (leadingLetters s).length) (t.drop (leadingLetters t).length) := by
  rw [leadingLetters, leadingLetters, drop_length_takeWhile, drop_length_takeWhile]
  exact (h.span solid_isAsciiLetter).2

/-- The texts begin alike as far as words and numbers are concerned. -/
theorem head_any {p : Char → Bool} (hp : Solid p) (h : Respaced loose escaped s t) :
    s.head?.any p = t.head?.any p := by
  have htake := (h.span hp).1
  have hhead : ∀ s : Text, s.head?.any p = !(s.takeWhile p).isEmpty := by
    intro s
    cases s with
    | nil => rfl
    | cons c s => cases hc : p c <;> simp [hc]
  rw [hhead, hhead, htake]

/-! ### Blanks around a text, and braces -/

theorem strip (hescaped : ∀ d, escaped d → isBlank d = false) (h : Respaced loose escaped s t) :
    Respaced loose escaped (strip s) (strip t) := by
  have hend : ∀ {s t : Text}, Respaced loose escaped s t →
      Respaced loose escaped (dropBlanks s.reverse).reverse (dropBlanks t.reverse).reverse := by
    intro s t h
    induction h with
    | ends hb =>
      have hnil : ∀ {b : Text}, isAllBlank b = true → dropBlanks b.reverse = [] := by
        intro b hb
        rw [dropBlanks_eq_nil_iff, isAllBlank, List.all_reverse]
        exact hb
      rw [hnil hb.left, hnil hb.right]
      exact .nil
    | char hb hblank hc _ ih =>
      unfold dropBlanks
      rw [reverse_dropWhile_reverse_append hblank, reverse_dropWhile_reverse_append hblank]
      exact .char hb hblank hc ih
    | @command b b' d s t hb hd _ ih =>
      have hd' := hescaped d hd
      unfold dropBlanks
      rw [List.append_cons b, List.append_cons b', reverse_dropWhile_reverse_append hd',
        reverse_dropWhile_reverse_append hd', ← List.append_cons, ← List.append_cons]
      exact .command hb hd ih
  exact hend h.trimmed

/-- The texts up to the first brace, and behind it if it is a closing one. -/
theorem braces (h : Respaced loose escaped s t) :
    (s.dropWhile notBrace).head? = (t.dropWhile notBrace).head? ∧
      ((s.dropWhile notBrace).head? = some '\x7d' →
        Respaced loose escaped (s.dropWhile notBrace).tail (t.dropWhile notBrace).tail ∧
        ((s.takeWhile notBrace).getLast? ≠ some '\\' →
          Respaced loose escaped (s.takeWhile notBrace) (t.takeWhile notBrace))) := by
  have hpass : ∀ {b : Text}, isAllBlank b = true → ∀ c ∈ b, notBrace c = true :=
    fun hb c hc => notBrace_of_isBlank (List.all_eq_true.mp hb c hc)
  have hlast : ∀ {x y : Text}, (x ++ y).getLast? ≠ some '\\' → y.getLast? ≠ some '\\' := by
    intro x y h hy
    exact h (by rw [List.getLast?_append, hy]; rfl)
  induction h with
  | ends hb =>
    have hnil : ∀ {b : Text}, isAllBlank b = true → b.dropWhile notBrace = [] := by
      intro b hb
      rw [List.dropWhile_eq_nil_iff]
      exact hpass hb
    rw [hnil hb.left, hnil hb.right]
    exact ⟨rfl, fun h => absurd h (by simp)⟩
  | @char b b' c s t hb hblank hc h ih =>
    rw [List.dropWhile_append_of_pos (hpass hb.left), List.dropWhile_append_of_pos (hpass hb.right),
      List.takeWhile_append_of_pos (hpass hb.left), List.takeWhile_append_of_pos (hpass hb.right)]
    cases hbrace : notBrace c with
    | false =>
      simp only [List.dropWhile_cons, List.takeWhile_cons, hbrace, Bool.false_eq_true, if_false,
        List.head?_cons, List.tail_cons, List.append_nil]
      refine ⟨trivial, fun hclose => ⟨h, fun _ => .ends (hb.rows ?_)⟩⟩
      rw [Option.some.inj hclose]
      rfl
    | true =>
      simp only [List.dropWhile_cons, List.takeWhile_cons, hbrace, if_true]
      refine ⟨ih.1, fun hclose => ⟨(ih.2 hclose).1, fun hcontent => ?_⟩⟩
      rw [List.append_cons] at hcontent
      exact .char hb hblank hc ((ih.2 hclose).2 (hlast hcontent))
  | @command b b' d s t hb hd h ih =>
    rw [List.dropWhile_append_of_pos (hpass hb.left), List.dropWhile_append_of_pos (hpass hb.right),
      List.takeWhile_append_of_pos (hpass hb.left), List.takeWhile_append_of_pos (hpass hb.right)]
    have hbackslash : notBrace '\\' = true := rfl
    cases hbrace : notBrace d with
    | false =>
      simp only [List.dropWhile_cons, List.takeWhile_cons, hbackslash, hbrace, Bool.false_eq_true,
        if_true, if_false, List.head?_cons, List.tail_cons]
      exact ⟨trivial, fun _ => ⟨h, fun hcontent => absurd (by simp) hcontent⟩⟩
    | true =>
      simp only [List.dropWhile_cons, List.takeWhile_cons, hbackslash, hbrace, if_true]
      refine ⟨ih.1, fun hclose => ⟨(ih.2 hclose).1, fun hcontent => ?_⟩⟩
      rw [List.append_cons, List.append_cons] at hcontent
      exact .command hb hd ((ih.2 hclose).2 (hlast hcontent))

/-- In both texts stands something in braces, or in none. -/
theorem braced? (h : Respaced loose escaped s t) :
    (NumericAnswer.braced? s = none ∧ NumericAnswer.braced? t = none) ∨
      ∃ content content' n m, NumericAnswer.braced? s = some (content, n) ∧
        NumericAnswer.braced? t = some (content', m) ∧
        Respaced loose escaped (s.drop n) (t.drop m) ∧
        (content.getLast? ≠ some '\\' → Respaced loose escaped content content') := by
  by_cases hopen : (dropBlanks s).head? = some '\x7b'
  · have hfront := h.front
    obtain ⟨u, hu⟩ := List.head?_eq_some_iff.mp hopen
    obtain ⟨v, hv⟩ := List.head?_eq_some_iff.mp (h.head?_dropBlanks ▸ hopen)
    rw [hu, hv] at hfront
    cases hfront with
    | char _ _ h =>
      obtain ⟨hhead, hclosed⟩ := h.braces
      rw [braced?_eq hu, braced?_eq hv, ← hhead]
      split
      · next hclose =>
        refine .inr ⟨_, _, _, _, rfl, rfl, ?_, (hclosed hclose).2⟩
        rw [drop_braced hu, drop_braced hv]
        exact (hclosed hclose).1
      · exact .inl ⟨rfl, rfl⟩
  · exact .inl ⟨braced?_eq_none hopen, braced?_eq_none (h.head?_dropBlanks ▸ hopen)⟩

end Respaced

/-! ### Texts with commands -/

/-- Behind each backslash stands a character that may be escaped. -/
inductive Commanded (escaped : Char → Prop) : Text → Prop
  | nil : Commanded escaped []
  | cons {c : Char} {s : Text} (hc : c ≠ '\\') (h : Commanded escaped s) : Commanded escaped (c :: s)
  | escape {d : Char} {s : Text} (hd : escaped d) (h : Commanded escaped s) :
      Commanded escaped ('\\' :: d :: s)

section Commanded

variable {loose : Bool} {escaped escaped' : Char → Prop} {c : Char} {a b bl s t : Text}

theorem commanded_of_notMem : ∀ {s : Text}, '\\' ∉ s → Commanded escaped s
  | [], _ => .nil
  | _ :: _, h =>
    have ⟨hc, hs⟩ := List.ne_and_not_mem_of_not_mem_cons h
    .cons hc.symm (commanded_of_notMem hs)

instance Commanded.decidable [DecidablePred escaped] : ∀ s, Decidable (Commanded escaped s)
  | [] => isTrue .nil
  | c :: s =>
    if hc : c = '\\' then
      match s with
      | [] => isFalse fun h => by cases h with | cons hne _ => exact hne hc
      | d :: s =>
        have := Commanded.decidable s
        if hd : escaped d ∧ Commanded escaped s then isTrue (hc ▸ .escape hd.1 hd.2)
        else isFalse fun h => by
          cases h with
          | cons hne _ => exact hne hc
          | escape hd' h => exact hd ⟨hd', h⟩
    else
      have := Commanded.decidable s
      if h : Commanded escaped s then isTrue (.cons hc h)
      else isFalse fun h' => by
        cases h' with
        | cons _ h' => exact h h'
        | escape => exact hc rfl

theorem Commanded.append (hs : Commanded escaped s) (ht : Commanded escaped t) :
    Commanded escaped (s ++ t) := by
  induction hs with
  | nil => exact ht
  | cons hc _ ih => exact .cons hc ih
  | escape hd _ ih => exact .escape hd ih

theorem Commanded.mono (h : Commanded escaped s) (hd : ∀ d, escaped d → escaped' d) :
    Commanded escaped' s := by
  induction h with
  | nil => exact .nil
  | cons hc _ ih => exact .cons hc ih
  | escape he _ ih => exact .escape (hd _ he) ih

theorem Commanded.of_append (hb : '\\' ∉ b) (h : Commanded escaped (b ++ s)) :
    Commanded escaped s := by
  induction b with
  | nil => exact h
  | cons e b ih =>
    obtain ⟨he, hb⟩ := List.ne_and_not_mem_of_not_mem_cons hb
    rw [List.cons_append] at h
    generalize b ++ s = r at h ih
    cases h with
    | cons _ h => exact ih hb h
    | escape => exact absurd rfl he

theorem Commanded.dropBlanks (h : Commanded escaped s) : Commanded escaped (dropBlanks s) := by
  obtain ⟨b, hb, hs⟩ := exists_blanks_append s
  rw [hs] at h
  exact h.of_append (notMem_backslash_of_isAllBlank hb)

theorem Commanded.split (hc : c ≠ '\\')
    (h : Commanded escaped (a ++ c :: b)) (ha : a.getLast? ≠ some '\\') :
    Commanded escaped a ∧ Commanded escaped (c :: b) := by
  generalize hx : a ++ c :: b = x at h
  induction h generalizing a with
  | nil => exact absurd hx (by simp)
  | @cons d s hd h ih =>
    cases a with
    | nil =>
      obtain ⟨rfl, rfl⟩ := List.cons.inj hx
      exact ⟨.nil, .cons hd h⟩
    | cons e a =>
      obtain ⟨rfl, hrest⟩ := List.cons.inj hx
      obtain ⟨ha', hb⟩ := ih (fun hlast => ha (by rw [List.getLast?_cons, hlast]; rfl)) hrest
      exact ⟨.cons hd ha', hb⟩
  | @escape d s hd h ih =>
    rcases a with - | ⟨e, - | ⟨f, a⟩⟩
    · exact absurd (List.cons.inj hx).1 hc
    · obtain ⟨rfl, -⟩ := List.cons.inj hx
      exact absurd rfl ha
    · obtain ⟨rfl, htail⟩ := List.cons.inj hx
      obtain ⟨rfl, hrest⟩ := List.cons.inj htail
      obtain ⟨ha', hb⟩ := ih (fun hlast => ha (by
        rw [List.getLast?_cons_cons, List.getLast?_cons, hlast]; rfl)) hrest
      exact ⟨.escape hd ha', hb⟩

theorem Commanded.respaced (h : Commanded escaped s) : Respaced loose escaped s s := by
  induction h with
  | nil => exact .nil
  | cons hc _ ih => exact ih.plain_append (w := [_]) (by simpa using Ne.symm hc)
  | escape hd _ ih => exact ih.escape hd

/-- The characters behind backslashes are those of one of the texts. -/
theorem Respaced.of_commanded (h : Respaced loose escaped s t) (hs : Commanded escaped' s) :
    Respaced loose escaped' s t := by
  induction h with
  | ends hb => exact .ends hb
  | char hb hblank hc _ ih =>
    cases hs.of_append (notMem_backslash_of_isAllBlank hb.left) with
    | cons _ hs => exact .char hb hblank hc (ih hs)
    | escape => exact absurd rfl hc
  | command hb _ _ ih =>
    cases hs.of_append (notMem_backslash_of_isAllBlank hb.left) with
    | cons hc => exact absurd rfl hc
    | escape hd hs => exact .command hb hd (ih hs)

/-- Blanks may stand before an opening bracket. -/
theorem respaced_insert (ha : Commanded escaped a) (hb : Commanded escaped (c :: b))
    (hc : opens c = true) (hbl : isAllBlank bl = true) :
    Respaced true escaped (a ++ c :: b) (a ++ (bl ++ c :: b)) := by
  have hbackslash := ne_backslash_of_opens hc
  have hblank := not_isBlank_of_opens hc
  have hb' : Respaced true escaped b b := by
    cases hb with
    | cons _ h => exact h.respaced
    | escape => exact absurd rfl hbackslash
  exact ha.respaced.append (.char (b := []) (.inr ⟨rfl, hc, rfl, hbl⟩) hblank hbackslash hb')

end Commanded
end NumericAnswer
