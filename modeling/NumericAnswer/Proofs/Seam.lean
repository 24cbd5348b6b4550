/-
# Where two texts meet

A substitution makes of two texts one after the other what it makes of each, if it finds
in the first what it finds there alone. That is so for the cosmetic commands where the
first text has a character behind each backslash that ends a command, or where the second
text begins with one that no command takes in.

Key definitions: `Rule.Before`, `Parting`, `Settled`, `Untouched`, `Rule.Seamless`,
`InArgument`.
Key theorems: `Rule.substitute_append`, `Rule.Seamless.substitute_append`,
`Rule.before_wrapper`.
-/
import NumericAnswer.Proofs.Transparent

namespace NumericAnswer

/-! ### Substitutions piece by piece -/

section Substitute

variable {rule : Rule} {a s w out : Text} {c : Char} {n : Nat}

/-- A rule that does not look behind starts anywhere. -/
theorem substituteFrom_const (rule : Rule) (b b' : Option Char) (s : Text) :
    substituteFrom (fun _ => rule) b s = substituteFrom (fun _ => rule) b' s := by
  cases s <;> simp only [substituteFrom]

theorem substitute_nil (rule : Rule) : substitute rule [] = [] := by
  rw [substitute, substituteFrom]

theorem substitute_of_some (h : rule c s = some (out, n)) :
    substitute rule (c :: s) = out ++ substitute rule (s.drop n) := by
  rw [substitute, substituteFrom]
  simp only [h]
  rw [substitute, substituteFrom_const]

theorem substitute_of_none (h : rule c s = none) :
    substitute rule (c :: s) = c :: substitute rule s := by
  rw [substitute, substituteFrom]
  simp only [h]
  rw [substitute, substituteFrom_const]

/-- Characters at which the rule finds nothing stay. -/
theorem substitute_plain_append : ∀ {p : Text}, (∀ c ∈ p, ∀ s, rule c s = none) → ∀ w,
    substitute rule (p ++ w) = p ++ substitute rule w
  | [], _, _ => rfl
  | c :: p, h, w => by
    rw [List.cons_append, substitute_of_none (h c (List.mem_cons_self ..) _),
      substitute_plain_append fun d hd => h d (List.mem_cons_of_mem _ hd)]
    rfl

namespace Rule

/-- What the rule finds ends inside the text. -/
def Bounded (rule : Rule) : Prop :=
  ∀ {c : Char} {s out : Text} {n : Nat}, rule c s = some (out, n) → n ≤ s.length

/-- At each character of the first text the rule finds what it finds without the second. -/
def Before (rule : Rule) (a w : Text) : Prop :=
  ∀ c s, c :: s <:+ a → rule c (s ++ w) = rule c s

theorem Before.of_suffix {a' : Text} (h : rule.Before a w) (ha : a' <:+ a) : rule.Before a' w :=
  fun c s hs => h c s (hs.trans ha)

theorem substitute_append (hr : rule.Bounded) {w : Text} : ∀ {a : Text}, rule.Before a w →
    substitute rule (a ++ w) = substitute rule a ++ substitute rule w
  | [], _ => by rw [substitute_nil, List.nil_append, List.nil_append]
  | c :: s, h => by
    have hfound := h c s List.suffix_rfl
    cases hs : rule c s with
    | none =>
      have ih := substitute_append hr (h.of_suffix (List.suffix_cons c s))
      rw [List.cons_append, substitute_of_none (hfound.trans hs), substitute_of_none hs, ih]
      rfl
    | some found =>
      obtain ⟨out, n⟩ := found
      have ih := substitute_append hr (h.of_suffix ((List.drop_suffix n s).trans (List.suffix_cons c s)))
      rw [List.cons_append, substitute_of_some (hfound.trans hs), substitute_of_some hs,
        List.drop_append_of_le_length (hr hs), ih, List.append_assoc]
termination_by a => a.length
decreasing_by all_goals simp only [List.length_cons, List.length_drop]; omega

end Rule

end Substitute

/-! ### Characters between commands -/

/-- A character that ends the command before it, and that no cosmetic command but one with
an argument takes in. -/
def Parting (c : Char) : Prop :=
  isAsciiLetter c = false ∧ isBlank c = false ∧ c ∉ ['\\', '~', '.', ',', ';', ':', '!']

instance (c : Char) : Decidable (Parting c) :=
  inferInstanceAs (Decidable (_ ∧ _ ∧ _))

/-- Behind each backslash of the text stands a parting character. -/
def Settled (a : Text) : Prop :=
  ∀ s, '\\' :: s <:+ a → ∃ p ∈ s, Parting p

/-- No command before the text takes in its first character. -/
def Untouched : Text → Prop
  | [] => True
  | c :: _ => isAsciiLetter c = false ∧ isBlank c = false ∧ c ∉ ['\x7b', '.', ',', ';', ':', '!']

instance : (w : Text) → Decidable (Untouched w)
  | [] => .isTrue trivial
  | _ :: _ => inferInstanceAs (Decidable (_ ∧ _ ∧ _))

theorem untouched_backslash (s : Text) : Untouched ('\\' :: s) :=
  (by decide : isAsciiLetter '\\' = false ∧ isBlank '\\' = false ∧
    '\\' ∉ ['\x7b', '.', ',', ';', ':', '!'])

theorem untouched_closing (s : Text) : Untouched ('\x7d' :: s) :=
  (by decide : isAsciiLetter '\x7d' = false ∧ isBlank '\x7d' = false ∧
    '\x7d' ∉ ['\x7b', '.', ',', ';', ':', '!'])

/-- The text begins with a character that no cosmetic command takes in or begins with. -/
def Detached : Text → Prop
  | [] => True
  | c :: _ => Parting c ∧ c ≠ '\x7b'

instance : (w : Text) → Decidable (Detached w)
  | [] => .isTrue trivial
  | _ :: _ => inferInstanceAs (Decidable (_ ∧ _))

theorem Detached.untouched : ∀ {w : Text}, Detached w → Untouched w
  | [], _ => trivial
  | _ :: _, ⟨⟨hletter, hblank, hne⟩, hbrace⟩ => ⟨hletter, hblank, by simp_all⟩

/-- No command of the first text reaches into the second. -/
def Seam (a w : Text) : Prop :=
  Settled a ∨ Untouched w

theorem Seam.meets {a w s : Text} (h : Seam a w) (hs : '\\' :: s <:+ a) :
    (∃ p ∈ s, Parting p) ∨ Untouched w :=
  h.imp_left fun h => h s hs

theorem settled_of_notMem {a : Text} (h : '\\' ∉ a) : Settled a :=
  fun _ hs => absurd (hs.subset (List.mem_cons_self ..)) h

section Meets

variable {s w : Text} (h : (∃ p ∈ s, Parting p) ∨ Untouched w)
include h

theorem leadingLetters_meets : leadingLetters (s ++ w) = leadingLetters s := by
  rcases h with ⟨p, hp, hparting⟩ | h
  · refine takeWhile_append_of_ne_nil (fun hnil => ?_) w
    have hletter := List.dropWhile_eq_nil_iff.mp hnil p hp
    rw [hparting.1] at hletter
    cases hletter
  · refine leadingLetters_append_of_head ?_ s
    cases w with
    | nil => rfl
    | cons c w => exact h.1

theorem dropBlanks_drop_meets :
    dropBlanks (s.drop (leadingLetters s).length) ≠ [] ∨ Untouched w := by
  refine h.imp_left fun ⟨p, hp, hparting⟩ hnil => ?_
  have hsplit := leadingLetters_append_dropWhile s
  rw [← hsplit] at hp
  rcases List.mem_append.mp hp with hp | hp
  · have hletter := isAsciiLetter_of_mem_leadingLetters p hp
    rw [hparting.1] at hletter
    cases hletter
  · rw [leadingLetters, drop_length_takeWhile] at hnil
    have hblank := List.all_eq_true.mp (dropBlanks_eq_nil_iff.mp hnil) p hp
    rw [hparting.2.1] at hblank
    cases hblank

end Meets

section Rest

variable {r w : Text} (h : dropBlanks r ≠ [] ∨ Untouched w)
include h

theorem head?_dropBlanks_meets {c : Char} (hc : c = '.' ∨ c = '\x7b') :
    (dropBlanks (r ++ w)).head? = some c ↔ (dropBlanks r).head? = some c := by
  by_cases hr : dropBlanks r = []
  · have huntouched := h.resolve_left (absurd hr)
    rw [dropBlanks_of_isAllBlank (dropBlanks_eq_nil_iff.mp hr), hr]
    cases w with
    | nil => simp [dropBlanks]
    | cons d w =>
      obtain ⟨-, hblank, hne⟩ := huntouched
      rw [dropBlanks_cons_of_not_isBlank hblank]
      rcases hc with rfl | rfl <;> simp_all
  · rw [dropBlanks_append hr, List.head?_append_of_ne_nil _ hr]

theorem blankLength_meets : blankLength (r ++ w) = blankLength r := by
  by_cases hr : dropBlanks r = []
  · have huntouched := h.resolve_left (absurd hr)
    have hw : blankLength w = 0 := by
      cases w with
      | nil => rfl
      | cons d w => simp [blankLength, huntouched.2.1]
    have hblank := dropBlanks_eq_nil_iff.mp hr
    have hself := Rule.blankLength_of_isAllBlank hblank []
    rw [List.append_nil] at hself
    rw [Rule.blankLength_of_isAllBlank hblank, hw, hself]
    rfl
  · exact Rule.blankLength_append hr

theorem braced?_meets (hr : endsInBraces r = false) : braced? (r ++ w) = braced? r := by
  by_cases hhead : (dropBlanks r).head? = some '\x7b'
  · obtain ⟨t, ht⟩ := List.head?_eq_some_iff.mp hhead
    have hne : dropBlanks r ≠ [] := by simp [ht]
    have happ : dropBlanks (r ++ w) = '\x7b' :: (t ++ w) := by rw [dropBlanks_append hne, ht]; rfl
    rw [endsInBraces_eq ht, List.isEmpty_eq_false_iff] at hr
    rw [braced?_eq ht, braced?_eq happ, takeWhile_append_of_ne_nil hr, dropWhile_append_of_ne_nil hr,
      List.head?_append_of_ne_nil _ hr, blankLength_meets h]
  · rw [braced?_eq_none hhead, braced?_eq_none]
    exact fun hw => hhead ((head?_dropBlanks_meets h (.inr rfl)).mp hw)

end Rest

/-- The text ends inside the argument of one of the commands. -/
def InArgument (names : List Text) (a : Text) : Prop :=
  ∃ s, '\\' :: s <:+ a ∧ leadingLetters s ∈ names ∧
    endsInBraces (s.drop (leadingLetters s).length) = true

/-! ### Cosmetic commands -/

namespace Rule

variable {names : List Text} {build : Nat → Text → Option (Text × Nat)} {a w : Text}

theorem before_command (h : Seam a w) (hb : ∀ s, '\\' :: s <:+ a → leadingLetters s ∈ names →
    build (leadingLetters s).length (s.drop (leadingLetters s).length ++ w) =
      build (leadingLetters s).length (s.drop (leadingLetters s).length)) :
    (command names build).Before a w := by
  intro c s hs
  by_cases hc : c = '\\'
  · subst hc
    have hmeets := h.meets hs
    simp only [command, leadingLetters_meets hmeets, decide_true, Bool.true_and,
      List.contains_eq_mem, decide_eq_true_eq]
    split
    · next hname => rw [drop_leadingLetters_append, hb s hs hname]
    · rfl
  · simp [command, hc]

theorem suffix_of_notMem {c : Char} {s t : Text} : ∀ {u : Text}, c ∉ u → c :: s <:+ u ++ t →
    c :: s <:+ t
  | [], _, h => h
  | d :: u, hc, h => by
    rcases List.suffix_cons_iff.mp h with heq | h
    · exact absurd (List.cons.inj heq).1 fun hd => hc (hd ▸ List.mem_cons_self ..)
    · exact suffix_of_notMem (fun hmem => hc (List.mem_cons_of_mem _ hmem)) h

/-- A rule for commands without arguments, which two texts at a seam do not disturb. -/
structure Seamless (rule : Rule) : Prop where
  bounded : rule.Bounded
  before {a w : Text} (h : Seam a w) : rule.Before a w
  starts {c : Char} {s out : Text} {n : Nat} (h : rule c s = some (out, n)) : c = '\\' ∨ c = '~'
  spares {c : Char} {s out : Text} {n : Nat} (h : rule c s = some (out, n)) :
    ∀ p ∈ s.take n, ¬Parting p
  blank {c : Char} {s out : Text} {n : Nat} (h : rule c s = some (out, n)) : isAllBlank out = true

theorem bounded_command (hb : ∀ {n rest out k}, build n rest = some (out, k) → k ≤ n + rest.length) :
    (command names build).Bounded := by
  intro c s out n h
  simp only [command] at h
  split at h
  · have hle := hb h
    have hlength := length_leadingLetters_le s
    rw [List.length_drop] at hle
    omega
  · cases h

theorem seamless_command
    (hb : ∀ {n rest out k}, build n rest = some (out, k) → ∃ j, k = n + j ∧ j ≤ rest.length ∧
      (∀ p ∈ rest.take j, ¬Parting p) ∧ isAllBlank out = true)
    (hw : ∀ {n rest w}, dropBlanks rest ≠ [] ∨ Untouched w → build n (rest ++ w) = build n rest) :
    (command names build).Seamless where
  bounded := bounded_command fun h => by
    obtain ⟨j, rfl, hj, -⟩ := hb h
    omega
  before h := before_command h fun s hs _ => hw (dropBlanks_drop_meets (h.meets hs))
  starts h := by
    simp only [command] at h
    split at h
    · next hc => exact .inl (by simpa using (Bool.and_eq_true_iff.mp hc).1)
    · cases h
  spares {c s out n} h := by
    simp only [command] at h
    split at h
    · obtain ⟨j, rfl, -, hj, -⟩ := hb h
      have htake : s.take ((leadingLetters s).length + j) =
          leadingLetters s ++ (s.drop (leadingLetters s).length).take j := by
        rw [List.take_add, take_leadingLetters]
      intro p hp hparting
      rw [htake] at hp
      rcases List.mem_append.mp hp with hp | hp
      · have hletter := isAsciiLetter_of_mem_leadingLetters p hp
        rw [hparting.1] at hletter
        cases hletter
      · exact hj p hp hparting
    · cases h
  blank h := by
    simp only [command] at h
    split at h
    · obtain ⟨-, -, -, -, hout⟩ := hb h
      exact hout
    · cases h

theorem not_parting_of_mem_take_blanks {rest : Text} :
    ∀ p ∈ rest.take (blankLength rest), ¬Parting p := by
  intro p hp hparting
  rw [blankLength, take_length_takeWhile] at hp
  have hblank := List.mem_takeWhile_imp hp
  rw [hparting.2.1] at hblank
  cases hblank

theorem seamless_style : style.Seamless := by
  refine seamless_command (fun {n rest out k} h => ?_) fun h => ?_
  · obtain ⟨rfl, rfl⟩ := Prod.mk.inj (Option.some.inj h)
    exact ⟨_, rfl, blankLength_le rest, not_parting_of_mem_take_blanks, rfl⟩
  · rw [blankLength_meets h]

theorem seamless_sizing : sizing.Seamless := by
  rw [sizing_eq]
  refine seamless_command (fun {n rest out k} h => ?_) fun h => ?_
  · obtain ⟨rfl, rfl⟩ := Prod.mk.inj (Option.some.inj h)
    have hlength := congrArg List.length (drop_blankLength rest)
    rw [List.length_drop] at hlength
    refine ⟨_, Nat.add_assoc .., ?_, ?_, rfl⟩
    · have hle := blankLength_le rest
      split
      · next hhead =>
        obtain ⟨t, ht⟩ := List.head?_eq_some_iff.mp hhead
        rw [ht, List.length_cons] at hlength
        omega
      · exact hle
    · intro p hp
      rw [List.take_add] at hp
      rcases List.mem_append.mp hp with hp | hp
      · exact not_parting_of_mem_take_blanks p hp
      · rw [drop_blankLength] at hp
        split at hp
        · next hhead =>
          obtain ⟨t, ht⟩ := List.head?_eq_some_iff.mp hhead
          rw [ht] at hp
          obtain rfl := List.mem_singleton.mp hp
          decide
        · simp at hp
  · simp only [blankLength_meets h, head?_dropBlanks_meets h (.inl rfl)]

theorem seamless_spacing : spacing.Seamless := by
  have hcommand : (command ["quad".toList, "qquad".toList]
      fun length _ => some ([' '], length)).Seamless := by
    refine seamless_command (fun {n rest out k} h => ?_) fun _ => rfl
    obtain ⟨rfl, rfl⟩ := Prod.mk.inj (Option.some.inj h)
    exact ⟨0, rfl, Nat.zero_le _, by simp, by decide⟩
  have hsigns : ∀ p ∈ spacingSigns, ¬Parting p := forall_mem_of_all (by decide)
  -- What is found is a tie, a sign after a backslash or a command.
  have hfound : ∀ {c s out n}, spacing c s = some (out, n) → (c = '~' ∧ out = [' '] ∧ n = 0) ∨
      (c = '\\' ∧ (∃ d t, s = d :: t ∧ d ∈ spacingSigns) ∧ out = [' '] ∧ n = 1) ∨
      command ["quad".toList, "qquad".toList] (fun length _ => some ([' '], length)) c s =
        some (out, n) := by
    intro c s out n h
    unfold spacing at h
    split at h
    · next hc =>
      obtain ⟨rfl, rfl⟩ := Prod.mk.inj (Option.some.inj h)
      exact .inl ⟨hc, rfl, rfl⟩
    · split at h
      · next hsign =>
        obtain ⟨rfl, rfl⟩ := Prod.mk.inj (Option.some.inj h)
        obtain ⟨hc, hsign⟩ := Bool.and_eq_true_iff.mp hsign
        cases s with
        | nil => cases hsign
        | cons d t => exact .inr (.inl ⟨by simpa using hc, ⟨d, t, rfl, by simpa using hsign⟩, rfl, rfl⟩)
      · exact .inr (.inr h)
  refine ⟨fun h => ?_, fun {a w} h c s hs => ?_, fun h => ?_, fun h => ?_, fun h => ?_⟩
  · rcases hfound h with ⟨-, -, rfl⟩ | ⟨-, ⟨_, _, rfl, -⟩, -, rfl⟩ | h
    · exact Nat.zero_le _
    · simp
    · exact hcommand.bounded h
  · have hhead : (decide (c = '\\') && (s ++ w).head?.any spacingSigns.contains) =
        (decide (c = '\\') && s.head?.any spacingSigns.contains) := by
      by_cases hs' : c = '\\' ∧ s = []
      · obtain ⟨rfl, rfl⟩ := hs'
        rcases h.meets hs with ⟨p, hp, -⟩ | h
        · cases hp
        · cases w with
          | nil => rfl
          | cons d w =>
            have hd : d ∉ spacingSigns := fun hd => by
              obtain ⟨-, hblank, hne⟩ := h
              simp only [spacingSigns, List.mem_cons, List.not_mem_nil, or_false] at hd
              rcases hd with rfl | rfl | rfl | rfl | rfl <;> simp_all [isBlank_space]
            simpa using hd
      · exact spacing_head fun hc hnil => hs' ⟨hc, hnil⟩
    unfold spacing
    rw [hhead, hcommand.before h c s hs]
  · rcases hfound h with ⟨rfl, -⟩ | ⟨rfl, -⟩ | h
    · exact .inr rfl
    · exact .inl rfl
    · exact hcommand.starts h
  · rcases hfound h with ⟨-, -, rfl⟩ | ⟨-, ⟨d, t, rfl, hd⟩, -, rfl⟩ | h
    · simp
    · intro p hp
      obtain rfl := List.mem_singleton.mp hp
      exact hsigns p hd
    · exact hcommand.spares h
  · rcases hfound h with ⟨-, rfl, -⟩ | ⟨-, -, rfl, -⟩ | h
    · decide
    · decide
    · exact hcommand.blank h

section Seamless

variable {rule : Rule} (hr : rule.Seamless) {a w : Text}
include hr

theorem Seamless.substitute_append (h : Seam a w) :
    substitute rule (a ++ w) = substitute rule a ++ substitute rule w :=
  Rule.substitute_append hr.bounded (hr.before h)

/-- Parting characters stay. -/
theorem Seamless.mem_substitute {p : Char} (hp : Parting p) : ∀ {s : Text}, p ∈ s →
    p ∈ substitute rule s
  | c :: s, hmem => by
    have hparting : ∀ d, d = '\\' ∨ d = '~' → ¬Parting d := by
      rintro d (rfl | rfl) <;> decide
    cases hs : rule c s with
    | none =>
      rw [substitute_of_none hs]
      rcases List.mem_cons.mp hmem with rfl | hmem
      · exact List.mem_cons_self ..
      · exact List.mem_cons_of_mem _ (mem_substitute hp hmem)
    | some found =>
      obtain ⟨out, n⟩ := found
      rw [substitute_of_some hs]
      have hmem : p ∈ s := by
        rcases List.mem_cons.mp hmem with rfl | hmem
        · exact absurd hp (hparting p (hr.starts hs))
        · exact hmem
      rw [← List.take_append_drop n s] at hmem
      have hdrop := (List.mem_append.mp hmem).resolve_left fun htake => hr.spares hs p htake hp
      exact List.mem_append_right _ (mem_substitute hp hdrop)
termination_by s => s.length
decreasing_by all_goals simp only [List.length_cons, List.length_drop]; omega

theorem Seamless.settled : ∀ {a : Text}, Settled a → Settled (substitute rule a)
  | [], _, s, hs => by
    rw [substitute_nil] at hs
    cases List.suffix_nil.mp hs
  | c :: s, h, s', hs' => by
    have htail : Settled s := fun t ht => h t (ht.trans (List.suffix_cons c s))
    cases hfound : rule c s with
    | none =>
      rw [substitute_of_none hfound] at hs'
      rcases List.suffix_cons_iff.mp hs' with heq | hs'
      · obtain ⟨rfl, rfl⟩ := List.cons.inj heq
        obtain ⟨p, hp, hparting⟩ := h s List.suffix_rfl
        exact ⟨p, hr.mem_substitute hparting hp, hparting⟩
      · exact settled htail s' hs'
    | some found =>
      obtain ⟨out, n⟩ := found
      rw [substitute_of_some hfound] at hs'
      have hblank := List.all_eq_true.mp (hr.blank hfound)
      refine settled (fun t ht => htail t (ht.trans (List.drop_suffix n s))) s' ?_
      exact suffix_of_notMem (fun hmem => absurd (hblank _ hmem) (by decide)) hs'
termination_by a => a.length
decreasing_by all_goals simp only [List.length_cons, List.length_drop]; omega

end Seamless

/-- Letters that begin no name of a command begin no command. -/
theorem command_foreign {p : Text} (h : ∀ name ∈ names, ¬leadingLetters p <+: name) (b : Text) :
    command names build '\\' (p ++ b) = none := by
  have hprefix : leadingLetters p <+: leadingLetters (p ++ b) := by
    by_cases hp : p.dropWhile isAsciiLetter = []
    · have hletters : ∀ c ∈ p, isAsciiLetter c = true := List.dropWhile_eq_nil_iff.mp hp
      rw [leadingLetters, leadingLetters, List.takeWhile_append_of_pos hletters,
        List.takeWhile_eq_self_iff.mpr hletters]
      exact List.prefix_append ..
    · have heq : leadingLetters (p ++ b) = leadingLetters p := takeWhile_append_of_ne_nil hp b
      exact heq ▸ List.prefix_rfl
  have hname : leadingLetters (p ++ b) ∉ names := fun hmem => h _ hmem hprefix
  simp [command, hname]

/-! ### Commands with an argument -/

/-- Recognises one of the commands with an argument in braces, and puts in its place what
`make` makes of the argument. -/
def wrapper (names : List Text) (make : Text → Text) : Rule :=
  command names fun length rest => (braced? rest).map fun (content, braces) =>
    (make content, length + braces)

theorem annotation_eq_wrapper : annotation = wrapper annotationNames fun _ => [] := rfl

/-- What stands for a name in upright letters. -/
def uprightName (content : Text) : Text :=
  if (UnaryFunction.ofCommand? (strip content)).isSome then '\\' :: strip content else strip content

theorem upright_eq_wrapper : upright = wrapper uprightNames uprightName := rfl

theorem bounded_wrapper (make : Text → Text) : (wrapper names make).Bounded := by
  refine bounded_command fun {n rest out k} h => ?_
  obtain ⟨⟨content, braces⟩, hbraced, heq⟩ := Option.map_eq_some_iff.mp h
  obtain ⟨rfl, rfl⟩ := Prod.mk.inj heq
  exact Nat.add_le_add_left (braced?_append hbraced []).1 n

theorem before_wrapper (make : Text → Text) (h : Seam a w) (ha : ¬InArgument names a) :
    (wrapper names make).Before a w := by
  refine before_command h fun s hs hname => ?_
  have hends : endsInBraces (s.drop (leadingLetters s).length) = false :=
    Bool.eq_false_iff.mpr fun hends => ha ⟨s, hs, hname, hends⟩
  rw [braced?_meets (dropBlanks_drop_meets (h.meets hs)) hends]

/-- A wrapper splits no text outside its argument. -/
theorem substitute_wrapper_append (make : Text → Text) (h : Seam a w) (ha : ¬InArgument names a) :
    substitute (wrapper names make) (a ++ w) =
      substitute (wrapper names make) a ++ substitute (wrapper names make) w :=
  substitute_append (bounded_wrapper make) (before_wrapper make h ha)

theorem braced?_closed {content b : Text} (hcontent : ∀ c ∈ content, notBrace c = true) :
    braced? ('\x7b' :: (content ++ '\x7d' :: b)) = some (content, content.length + 2) := by
  have htake : (content ++ '\x7d' :: b).takeWhile notBrace = content := by
    rw [List.takeWhile_append_of_pos hcontent]
    simp [notBrace]
  have hdrop : (content ++ '\x7d' :: b).dropWhile notBrace = '\x7d' :: b := by
    rw [List.dropWhile_append_of_pos hcontent]
    simp [notBrace]
  rw [braced?_eq (dropBlanks_cons_of_not_isBlank (by decide) _), htake, hdrop,
    if_pos (show ('\x7d' :: b).head? = some '\x7d' from rfl)]
  simp [blankLength, show isBlank '\x7b' = false by decide]

/-- A wrapper outside the arguments of others is taken. -/
theorem substitute_wrapper {name content b : Text} (make : Text → Text) (hn : IsName name)
    (hname : name ∈ names) (hcontent : ∀ c ∈ content, notBrace c = true) (ha : ¬InArgument names a) :
    substitute (wrapper names make) (a ++ '\\' :: (name ++ '\x7b' :: (content ++ '\x7d' :: b))) =
      substitute (wrapper names make) a ++ (make content ++ substitute (wrapper names make) b) := by
  have hletters := leadingLetters_name_append hn (show isAsciiLetter '\x7b' = false by decide)
  have hfound : wrapper names make '\\' (name ++ '\x7b' :: (content ++ '\x7d' :: b)) =
      some (make content, name.length + (content.length + 2)) := by
    simp [wrapper, command, hletters, hname, braced?_closed hcontent]
  have hdrop : (name ++ '\x7b' :: (content ++ '\x7d' :: b)).drop (name.length + (content.length + 2)) =
      b := by
    rw [List.drop_append, List.drop_of_length_le (by omega), List.nil_append]
    simp
  rw [substitute_wrapper_append make (.inr (untouched_backslash _)) ha, substitute_of_some hfound, hdrop]

/-- A command that the wrapper does not look for stays, with the text without commands
after it. -/
theorem substitute_wrapper_foreign (make : Text → Text) {p : Text}
    (h : ∀ name ∈ names, ¬leadingLetters p <+: name) (hp : '\\' ∉ p) (ha : ¬InArgument names a)
    (b : Text) : substitute (wrapper names make) (a ++ '\\' :: (p ++ b)) =
      substitute (wrapper names make) a ++ '\\' :: (p ++ substitute (wrapper names make) b) := by
  have hplain : ∀ c ∈ p, ∀ s, wrapper names make c s = none := by
    intro c hc s
    have hne : c ≠ '\\' := fun heq => hp (heq ▸ hc)
    simp [wrapper, command, hne]
  have hnone : wrapper names make '\\' (p ++ b) = none := command_foreign h b
  rw [substitute_wrapper_append make (.inr (untouched_backslash _)) ha, substitute_of_none hnone,
    substitute_plain_append hplain]

end Rule

/-! ### The first stages -/

/-- No command begins in the text. -/
def Commandless (p : Text) : Prop :=
  '\\' ∉ p ∧ '~' ∉ p

instance (p : Text) : Decidable (Commandless p) :=
  inferInstanceAs (Decidable (_ ∧ _))

theorem IsName.commandless {n : Text} (hn : IsName n) : Commandless n :=
  ⟨fun h => absurd (hn.2 _ h) (by decide), fun h => absurd (hn.2 _ h) (by decide)⟩

namespace Rule.Seamless

variable {rule : Rule} (hr : rule.Seamless) {n content b : Text} {c : Char}
include hr

theorem eq_none (hc : c ≠ '\\') (htie : c ≠ '~') (s : Text) : rule c s = none := by
  cases h : rule c s with
  | none => rfl
  | some found => exact absurd (hr.starts h) (not_or.mpr ⟨hc, htie⟩)

theorem substitute_commandless_append {p : Text} (hp : Commandless p) (b : Text) :
    substitute rule (p ++ b) = p ++ substitute rule b :=
  substitute_plain_append (fun _ hc => hr.eq_none (ne_of_mem_of_not_mem hc hp.1)
    (ne_of_mem_of_not_mem hc hp.2)) b

/-- A command that the rule does not look for stays. -/
theorem substitute_append_command {p : Text} (hp : Commandless p) (h : rule '\\' (p ++ b) = none)
    (a : Text) : substitute rule (a ++ '\\' :: (p ++ b)) =
      substitute rule a ++ '\\' :: (p ++ substitute rule b) := by
  rw [hr.substitute_append (.inr (untouched_backslash _)), substitute_of_none h,
    hr.substitute_commandless_append hp]

/-- A command that the rule does not look for stays with its braces. -/
theorem substitute_append_argument (hn : IsName n) (h : ∀ s, rule '\\' (n ++ '\x7b' :: s) = none)
    (a : Text) : substitute rule (a ++ '\\' :: (n ++ '\x7b' :: (content ++ '\x7d' :: b))) =
      substitute rule a ++
        '\\' :: (n ++ '\x7b' :: (substitute rule content ++ '\x7d' :: substitute rule b)) := by
  rw [hr.substitute_append_command hn.commandless (h _), substitute_of_none (hr.eq_none (by decide) (by decide) _),
    hr.substitute_append (.inr (untouched_closing b)),
    substitute_of_none (hr.eq_none (by decide) (by decide) b)]

theorem detached : ∀ {w : Text}, Detached w → Detached (substitute rule w)
  | [], h => by rwa [substitute_nil]
  | c :: w, h => by
    have hc : c ≠ '\\' ∧ c ≠ '~' := by
      constructor <;> rintro rfl <;> exact absurd (by decide) h.1.2.2
    rw [substitute_of_none (hr.eq_none hc.1 hc.2 w)]
    exact h

/-- What the rule makes of a text without braces has none. -/
theorem notBrace_substitute : ∀ {s : Text}, (∀ c ∈ s, notBrace c = true) →
    ∀ c ∈ substitute rule s, notBrace c = true
  | [], _ => by simp [substitute_nil]
  | c :: s, h => by
    have htail : ∀ d ∈ s, notBrace d = true := fun d hd => h d (List.mem_cons_of_mem _ hd)
    cases hs : rule c s with
    | none =>
      rw [substitute_of_none hs]
      exact List.forall_mem_cons.mpr ⟨h c (List.mem_cons_self ..), notBrace_substitute htail⟩
    | some found =>
      obtain ⟨out, k⟩ := found
      rw [substitute_of_some hs]
      refine List.forall_mem_append.mpr ⟨fun d hd => ?_,
        notBrace_substitute fun d hd => htail d (List.mem_of_mem_drop hd)⟩
      have hblank := List.all_eq_true.mp (hr.blank hs) d hd
      by_contra hne
      have hbrace : d = '\x7b' ∨ d = '\x7d' := by
        simp only [notBrace, Bool.and_eq_true, decide_eq_true_eq, not_and_or, not_not] at hne
        exact hne
      rcases hbrace with rfl | rfl <;> cases hblank
termination_by s => s.length
decreasing_by all_goals simp only [List.length_cons, List.length_drop]; omega

end Rule.Seamless

namespace Canonical

/-- The text without style, sizing and spacing commands. -/
def spaced (s : Text) : Text :=
  substitute Rule.spacing (substitute Rule.sizing (substitute Rule.style s))

/-- The first stages make of two texts what they make of each. -/
theorem spaced_append {a w : Text} (h : Settled a ∨ Detached w) :
    spaced (a ++ w) = spaced a ++ spaced w ∧ Seam (spaced a) (spaced w) := by
  have hstep : ∀ {rule : Rule}, rule.Seamless → ∀ {a w : Text}, Settled a ∨ Detached w →
      substitute rule (a ++ w) = substitute rule a ++ substitute rule w ∧
        (Settled (substitute rule a) ∨ Detached (substitute rule w)) := fun hr _ _ h =>
    ⟨hr.substitute_append (h.imp_right Detached.untouched), h.imp hr.settled hr.detached⟩
  obtain ⟨hstyle, h₁⟩ := hstep Rule.seamless_style h
  obtain ⟨hsizing, h₂⟩ := hstep Rule.seamless_sizing h₁
  obtain ⟨hspacing, h₃⟩ := hstep Rule.seamless_spacing h₂
  refine ⟨?_, h₃.imp_right Detached.untouched⟩
  rw [spaced, hstyle, hsizing, hspacing]
  rfl

/-- The names of the commands that the first stages look for. -/
def firstNames : List Text :=
  Rule.styleNames ++ Rule.sizingNames ++ ["quad".toList, "qquad".toList]

section Foreign

variable {n : Text} (hn : IsName n) (hforeign : n ∉ firstNames)
include hn hforeign

theorem first_eq_none {c : Char} (hc : isAsciiLetter c = false) (s : Text) :
    Rule.style '\\' (n ++ c :: s) = none ∧ Rule.sizing '\\' (n ++ c :: s) = none ∧
      Rule.spacing '\\' (n ++ c :: s) = none := by
  simp only [firstNames, List.mem_append, not_or] at hforeign
  exact ⟨Rule.command_name hn hc hforeign.1.1, Rule.command_name hn hc hforeign.1.2,
    Rule.spacing_name hn hc hforeign.2⟩

theorem spaced_append_argument (a content b : Text) :
    spaced (a ++ '\\' :: (n ++ '\x7b' :: (content ++ '\x7d' :: b))) =
      spaced a ++ '\\' :: (n ++ '\x7b' :: (spaced content ++ '\x7d' :: spaced b)) := by
  have hnone := fun s => first_eq_none hn hforeign (c := '\x7b') (by decide) s
  rw [spaced, Rule.seamless_style.substitute_append_argument hn fun s => (hnone s).1,
    Rule.seamless_sizing.substitute_append_argument hn fun s => (hnone s).2.1,
    Rule.seamless_spacing.substitute_append_argument hn fun s => (hnone s).2.2]
  rfl

end Foreign

/-- A command stays if its letters begin no name that the first stages look for, with the
text without commands after it. -/
theorem spaced_append_foreign {p : Text} (h : ∀ name ∈ firstNames, ¬leadingLetters p <+: name)
    (hp : Commandless p) (a b : Text) :
    spaced (a ++ '\\' :: (p ++ b)) = spaced a ++ '\\' :: (p ++ spaced b) := by
  have hletters : IsName (leadingLetters p) := by
    refine ⟨fun hnil => ?_, isAsciiLetter_of_mem_leadingLetters⟩
    rw [hnil] at h
    exact h "left".toList (by decide) (List.nil_prefix ..)
  have hspacing : ∀ b, Rule.spacing '\\' (p ++ b) = none := by
    intro b
    obtain ⟨d, hd, hl⟩ := hletters.exists_head (p.dropWhile isAsciiLetter ++ b)
    rw [← List.append_assoc, leadingLetters_append_dropWhile] at hd
    rw [Rule.spacing_of_head hd hl]
    exact Rule.command_foreign (fun name hname => h name (List.mem_append_right _ hname)) b
  have hstyle := fun name hname =>
    h name (List.mem_append_left _ (List.mem_append_left Rule.sizingNames hname))
  have hsizing := fun name hname =>
    h name (List.mem_append_left _ (List.mem_append_right Rule.styleNames hname))
  rw [spaced, Rule.seamless_style.substitute_append_command hp (Rule.command_foreign hstyle b),
    Rule.seamless_sizing.substitute_append_command hp (Rule.command_foreign hsizing _),
    Rule.seamless_spacing.substitute_append_command hp (hspacing _)]
  rfl

theorem spaced_commandless_append {p : Text} (hp : Commandless p) (b : Text) :
    spaced (p ++ b) = p ++ spaced b := by
  rw [spaced, Rule.seamless_style.substitute_commandless_append hp,
    Rule.seamless_sizing.substitute_commandless_append hp,
    Rule.seamless_spacing.substitute_commandless_append hp]
  rfl

end Canonical

end NumericAnswer
