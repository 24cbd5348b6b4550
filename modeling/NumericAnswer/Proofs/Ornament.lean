/-
# Ornaments

A style or sizing command and an annotation in words have no meaning of their own: the
answer has the outcome that it has without the ornament, and without the blanks after a
style or sizing command. No blank takes its place, so what stands on both sides of it may
become one number or one word.

Key definitions: `Ornament`, `Ornament.text`, `Ornament.after`, `Ornament.Parts`.
Key theorems: `Ornament.unadorned_dropped`, `Ornament.value_dropped`.
-/
import NumericAnswer.Outcome
import NumericAnswer.Proofs.Seam
import NumericAnswer.Proofs.Unadorned

namespace NumericAnswer

/-! ### Outcomes and canonical forms -/

section Outcomes

variable [MathLibrary]

theorem Outcome.value?_ofText (answer : Text) :
    (ofText answer).value? = (evaluateCanonical (canonical answer)).toOption := by
  unfold ofText
  split
  · next hblank =>
    have hempty : canonical answer = [] := by
      have hstrip : strip answer = strip [] := by
        rw [strip, dropBlanks_eq_nil_iff.mpr hblank]
        rfl
      have hunwrapped : unwrapped answer = unwrapped [] := by rw [unwrapped, hstrip]; rfl
      have hcanonical : canonical answer = canonical [] := by
        rw [canonical, Canonical.simplified, hunwrapped]
        rfl
      rw [hcanonical]
      decide +kernel
    have hparse : Expr.parse [] = .error .emptyExpression := by
      rw [Expr.parse, Expr.parseWithin, tokens, tokensFrom]
      rfl
    rw [hempty, evaluateCanonical, hparse]
    rfl
  · split <;> simp_all [value?, Except.toOption]

end Outcomes

/-! ### Ornaments -/

/-- A command that decorates an answer. -/
inductive Ornament where
  | style (name : Text) (hname : name ∈ Rule.styleNames)
  | sizing (name : Text) (hname : name ∈ Rule.sizingNames)
  | annotation (name content : Text) (hname : name ∈ Rule.annotationNames)
      (hcontent : ∀ c ∈ content, notBrace c = true)

namespace Ornament

def text : Ornament → Text
  | style name _ | sizing name _ => '\\' :: name
  | annotation name content _ _ => '\\' :: (name ++ '\x7b' :: (content ++ ['\x7d']))

/-- What is left of the text after the ornament once it is dropped. -/
def after : Ornament → Text → Text
  | style _ _, b | sizing _ _, b => dropBlanks b
  | annotation _ _ _ _, b => b

/-- No command reaches over the ornament, and it is one: no letter continues its name, no
point belongs to a sizing command, and no annotation has it in its argument. -/
def Parts (a b : Text) : Ornament → Prop
  | style _ _ => b.head?.any isAsciiLetter = false ∧ Seam a (dropBlanks b)
  | sizing _ _ => b.head?.any isAsciiLetter = false ∧ Seam a (dropBlanks b) ∧
      (dropBlanks b).head? ≠ some '.' ∧
      ∀ s, dropBlanks b = '\\' :: s → leadingLetters s ∉ Rule.styleNames
  | annotation _ _ _ _ => (Settled a ∨ Detached b) ∧
      ¬InArgument Rule.annotationNames (Canonical.spaced a)

theorem isName_of_mem {name : Text}
    (h : name ∈ Rule.styleNames ++ Rule.sizingNames ++ Rule.annotationNames) : IsName name := by
  have hall : ∀ name ∈ Rule.styleNames ++ Rule.sizingNames ++ Rule.annotationNames, IsName name := by
    decide
  exact hall name h

section Commands

variable {rule : Rule} {a b name : Text}

theorem leadingLetters_name (hn : IsName name) (hb : b.head?.any isAsciiLetter = false) :
    leadingLetters (name ++ b) = name := by
  rw [leadingLetters_append_of_head hb]
  exact List.takeWhile_eq_self_iff.mpr hn.2

/-- A command that is dropped takes the blanks after it along. -/
theorem substitute_taken (h : rule '\\' (name ++ b) = some ([], name.length + blankLength b)) :
    substitute rule ('\\' :: (name ++ b)) = substitute rule (dropBlanks b) := by
  rw [substitute_of_some h, List.nil_append, List.drop_append, List.drop_of_length_le (by omega),
    List.nil_append, Nat.add_sub_cancel_left, Rule.drop_blankLength]

theorem style_taken (hname : name ∈ Rule.styleNames) (hb : b.head?.any isAsciiLetter = false) :
    substitute Rule.style ('\\' :: (name ++ b)) = substitute Rule.style (dropBlanks b) := by
  have hn : IsName name := isName_of_mem (by simp [hname])
  exact substitute_taken (by simp [Rule.style, Rule.command, leadingLetters_name hn hb, hname])

theorem sizing_taken (hname : name ∈ Rule.sizingNames) (hb : b.head?.any isAsciiLetter = false)
    (hpoint : (dropBlanks b).head? ≠ some '.') :
    substitute Rule.sizing ('\\' :: (name ++ b)) = substitute Rule.sizing (dropBlanks b) := by
  have hn : IsName name := isName_of_mem (by simp [hname])
  refine substitute_taken ?_
  rw [Rule.sizing_eq]
  simp [Rule.command, leadingLetters_name hn hb, hname, hpoint]

/-- The style commands leave the blanks at the front, and the character after them. -/
theorem dropBlanks_style (h : ∀ s, dropBlanks b = '\\' :: s → leadingLetters s ∉ Rule.styleNames) :
    dropBlanks (substitute Rule.style b) = substitute Rule.style (dropBlanks b) ∧
      (substitute Rule.style b).head? = b.head? := by
  obtain ⟨bl, hbl, hb⟩ := exists_blanks_append b
  have hplain : ∀ c ∈ bl, ∀ s, Rule.style c s = none := by
    intro c hc s
    have hblank := List.all_eq_true.mp hbl c hc
    refine Rule.seamless_style.eq_none ?_ ?_ s <;> rintro rfl <;> cases hblank
  have hhead : dropBlanks (substitute Rule.style (dropBlanks b)) = substitute Rule.style (dropBlanks b) ∧
      (substitute Rule.style (dropBlanks b)).head? = (dropBlanks b).head? := by
    cases hd : dropBlanks b with
    | nil => rw [substitute_nil]; exact ⟨rfl, rfl⟩
    | cons c t =>
      have hnone : Rule.style c t = none := by
        by_cases hc : c = '\\'
        · subst hc
          simp [Rule.style, Rule.command, h t hd]
        · simp [Rule.style, Rule.command, hc]
      rw [substitute_of_none hnone]
      exact ⟨dropBlanks_cons_of_not_isBlank (not_isBlank_of_dropBlanks hd) _, rfl⟩
  have hsub : substitute Rule.style b = bl ++ substitute Rule.style (dropBlanks b) := by
    conv_lhs => rw [hb]
    exact substitute_plain_append hplain _
  refine ⟨?_, ?_⟩
  · rw [hsub, dropBlanks_of_isAllBlank hbl, hhead.1]
  · conv_rhs => rw [hb]
    rw [hsub, List.head?_append, List.head?_append, hhead.2]

end Commands

/-! ### Without the ornament -/

theorem untouched_congr : ∀ {w w' : Text}, w.head? = w'.head? → Untouched w → Untouched w'
  | [], [], _, h => h
  | _ :: _, _ :: _, hhead, h => Option.some.inj hhead ▸ h

/-- The cosmetic stages make the same of the text without the ornament. -/
theorem unadorned_dropped (ornament : Ornament) {a b : Text} (h : ornament.Parts a b) :
    Canonical.unadorned (a ++ (ornament.text ++ b)) = Canonical.unadorned (a ++ ornament.after b) := by
  cases ornament with
  | style name hname =>
    obtain ⟨hb, hseam⟩ := h
    have heq : substitute Rule.style (a ++ '\\' :: (name ++ b)) =
        substitute Rule.style (a ++ dropBlanks b) := by
      rw [Rule.seamless_style.substitute_append (.inr (untouched_backslash _)), style_taken hname hb,
        Rule.seamless_style.substitute_append hseam]
    exact congrArg (fun s => substitute Rule.escapedBrace (substitute Rule.bar (substitute Rule.upright
      (substitute Rule.annotation (substitute Rule.spacing (substitute Rule.sizing s)))))) heq
  | sizing name hname =>
    obtain ⟨hb, hseam, hpoint, hstyle⟩ := h
    have hn : IsName name := isName_of_mem (by simp [hname])
    have hnone : Rule.style '\\' (name ++ b) = none := by
      have hforeign : ∀ name ∈ Rule.sizingNames, name ∉ Rule.styleNames := by decide
      simp [Rule.style, Rule.command, leadingLetters_name hn hb, hforeign name hname]
    obtain ⟨hdrop, hhead⟩ := dropBlanks_style hstyle
    have hdrophead : (substitute Rule.style (dropBlanks b)).head? = (dropBlanks b).head? := by
      rw [← dropBlanks_dropBlanks] at hstyle
      exact (dropBlanks_style hstyle).2
    have hseam' : Seam (substitute Rule.style a) (substitute Rule.style (dropBlanks b)) :=
      hseam.imp Rule.seamless_style.settled (untouched_congr hdrophead.symm)
    have heq : substitute Rule.sizing (substitute Rule.style (a ++ '\\' :: (name ++ b))) =
        substitute Rule.sizing (substitute Rule.style (a ++ dropBlanks b)) := by
      rw [Rule.seamless_style.substitute_append_command hn.commandless hnone,
        Rule.seamless_sizing.substitute_append (.inr (untouched_backslash _)),
        sizing_taken hname (by rw [hhead]; exact hb) (by rw [hdrop, hdrophead]; exact hpoint), hdrop,
        Rule.seamless_style.substitute_append hseam, Rule.seamless_sizing.substitute_append hseam']
    exact congrArg (fun s => substitute Rule.escapedBrace (substitute Rule.bar (substitute Rule.upright
      (substitute Rule.annotation (substitute Rule.spacing s))))) heq
  | annotation name content hname hcontent =>
    obtain ⟨hdetached, hinside⟩ := h
    have hn : IsName name := isName_of_mem (by simp [hname])
    have hforeign : name ∉ Canonical.firstNames := by
      have hall : ∀ name ∈ Rule.annotationNames, name ∉ Canonical.firstNames := by decide
      exact hall name hname
    have hcontent' : ∀ c ∈ Canonical.spaced content, notBrace c = true :=
      Rule.seamless_spacing.notBrace_substitute (Rule.seamless_sizing.notBrace_substitute
        (Rule.seamless_style.notBrace_substitute hcontent))
    obtain ⟨happend, hseam⟩ := Canonical.spaced_append hdetached
    have htext : a ++ (( annotation name content hname hcontent).text ++ b) =
        a ++ '\\' :: (name ++ '\x7b' :: (content ++ '\x7d' :: b)) := by
      simp [text]
    have heq : substitute Rule.annotation
        (Canonical.spaced (a ++ '\\' :: (name ++ '\x7b' :: (content ++ '\x7d' :: b)))) =
          substitute Rule.annotation (Canonical.spaced (a ++ b)) := by
      rw [Canonical.spaced_append_argument hn hforeign, happend, Rule.annotation_eq_wrapper,
        Rule.substitute_wrapper _ hn hname hcontent' hinside,
        Rule.substitute_wrapper_append _ hseam hinside, List.nil_append]
    rw [htext]
    exact congrArg (fun s => substitute Rule.escapedBrace (substitute Rule.bar
      (substitute Rule.upright s))) heq

section Answers

variable {answer bare a b : Text} (ornament : Ornament) (h : ornament.Parts a b)
  (hanswer : unwrapped answer = a ++ (ornament.text ++ b))
  (hbare : unwrapped bare = a ++ ornament.after b)
include h hanswer hbare

/-- The answer has the canonical form that it has without the ornament. -/
theorem canonical_dropped : canonical answer = canonical bare := by
  have hsimplified : Canonical.simplified answer = Canonical.simplified bare := by
    rw [Canonical.simplified_eq_unadorned, Canonical.simplified_eq_unadorned, hanswer, hbare]
    exact ornament.unadorned_dropped h
  rw [canonical, hsimplified]
  rfl

/-- **Ornaments have no meaning of their own.** Where an ornament stands apart from the
commands around it, the answer has the value that it has without the ornament, or neither
has one. -/
theorem value_dropped [MathLibrary] : (Outcome.ofText answer).value? = (Outcome.ofText bare).value? := by
  rw [Outcome.value?_ofText, Outcome.value?_ofText, ornament.canonical_dropped h hanswer hbare]

end Answers

/-- The size of a bracket goes, in an answer in dollar signs. -/
theorem value_dropped_left : (@Outcome.ofText .native "$2\\left (3)$".toList).value? =
    (@Outcome.ofText .native "$2(3)$".toList).value? := by
  have hbracket : ∀ s, dropBlanks " (3)".toList = '\\' :: s → leadingLetters s ∉ Rule.styleNames :=
    fun s hs => absurd (List.cons.inj hs).1 (by decide)
  exact @value_dropped "$2\\left (3)$".toList "$2(3)$".toList ['2'] " (3)".toList
    (.sizing "left".toList (by decide)) ⟨by decide, .inr (by decide), by decide, hbracket⟩
    (by decide +kernel) (by decide +kernel) .native

end Ornament
end NumericAnswer
