/-
# Bracket groups

A group runs from an opening bracket to the bracket that brings the count of
its type back to zero; brackets of other types inside it do not count.

Key definitions: `Refusal`, `spanGroup`, `readGroup`, `absorbGroups`.
Key theorems: `append_of_spanGroup`, `append_of_readGroup`,
`append_of_absorbGroups`.
-/
import NumericAnswer.Notation.Bracket
import NumericAnswer.Text.Basic

namespace NumericAnswer

/-- Why a macro cannot take an argument from a text. -/
inductive Refusal where
  /-- Nothing that could be one stands there. -/
  | absent
  /-- A bracket of the type is opened and never closed. -/
  | unclosed (bracket : Bracket)
  deriving DecidableEq, Repr

/-- Each step of a computation that succeeds succeeds. -/
theorem exists_of_bind_ok {ε α β : Type} {x : Except ε α} {f : α → Except ε β} {b : β}
    (h : (x >>= f) = .ok b) : ∃ a, x = .ok a ∧ f a = .ok b := by
  cases x with
  | error e => simp [bind, Except.bind] at h
  | ok a => exact ⟨a, rfl, h⟩

theorem exists_of_map_ok {ε α β : Type} {x : Except ε α} {f : α → β} {b : β}
    (h : x.map f = .ok b) : ∃ a, x = .ok a ∧ f a = b := by
  cases x with
  | error e => simp [Except.map] at h
  | ok a => exact ⟨a, rfl, Except.ok.inj h⟩

/-- The text up to the bracket that closes a group, inside `depth` more groups
of its type, and the text after it. -/
def spanGroup (bracket : Bracket) : Nat → Text → Option (Text × Text)
  | _, [] => none
  | depth, c :: s =>
    if c = bracket.opening then
      (spanGroup bracket (depth + 1) s).map fun (content, rest) => (c :: content, rest)
    else if c = bracket.closing then
      match depth with
      | 0 => some ([], s)
      | depth + 1 => (spanGroup bracket depth s).map fun (content, rest) => (c :: content, rest)
    else (spanGroup bracket depth s).map fun (content, rest) => (c :: content, rest)

/-- A group at the front of a text: what is between its brackets, and what
follows. -/
def readGroup : Text → Except Refusal (Text × Text)
  | [] => .error .absent
  | c :: s =>
    match Bracket.ofOpening? c with
    | none => .error .absent
    | some bracket =>
      match spanGroup bracket 0 s with
      | some group => .ok group
      | none => .error (.unclosed bracket)

/-- A span ends with the closing bracket and loses nothing. -/
theorem append_of_spanGroup {bracket : Bracket} :
    ∀ {s : Text} {depth : Nat} {content rest : Text},
      spanGroup bracket depth s = some (content, rest) → content ++ bracket.closing :: rest = s
  | [], _, _, _, h => by simp [spanGroup] at h
  | c :: s, depth, content, rest, h => by
    have step : ∀ d, (spanGroup bracket d s).map (fun (p : Text × Text) => (c :: p.1, p.2)) =
        some (content, rest) → content ++ bracket.closing :: rest = c :: s := by
      intro d hd
      obtain ⟨⟨content', rest'⟩, hs, he⟩ := Option.map_eq_some_iff.mp hd
      obtain ⟨rfl, rfl⟩ := Prod.mk.inj he
      simp [append_of_spanGroup hs]
    unfold spanGroup at h
    split at h
    · exact step _ h
    · split at h
      · next hc =>
        split at h
        · obtain ⟨rfl, rfl⟩ := Prod.mk.inj (Option.some.inj h)
          simp [hc]
        · exact step _ h
      · exact step _ h

/-- A group is the text up to its rest. -/
theorem append_of_readGroup {s content rest : Text} (h : readGroup s = .ok (content, rest)) :
    ∃ bracket : Bracket, s = bracket.opening :: (content ++ bracket.closing :: rest) := by
  unfold readGroup at h
  split at h
  · simp at h
  · next c s =>
    split at h
    · simp at h
    · next bracket hb =>
      split at h
      · next group hg =>
        obtain rfl := Except.ok.inj h
        refine ⟨bracket, ?_⟩
        rw [append_of_spanGroup hg, Bracket.ofOpening?_eq_some_iff.mp hb]
      · simp at h

/-- The groups in braces and square brackets that follow one another without
a gap, and what follows them. -/
def absorbGroups (s : Text) : Except Refusal (Text × Text) :=
  match s with
  | [] => .ok ([], [])
  | c :: t =>
    match Bracket.ofOpening? c with
    | none | some .round => .ok ([], c :: t)
    | some bracket =>
      match _span : spanGroup bracket 0 t with
      | none => .error (.unclosed bracket)
      | some (content, rest) =>
        (absorbGroups rest).map fun (groups, rest) =>
          (c :: (content ++ bracket.closing :: groups), rest)
termination_by s.length
decreasing_by
  have := congrArg List.length (append_of_spanGroup _span)
  simp only [List.length_append, List.length_cons] at this ⊢
  omega

/-- The groups and the rest are the text. -/
theorem append_of_absorbGroups {s groups rest : Text} (h : absorbGroups s = .ok (groups, rest)) :
    groups ++ rest = s := by
  fun_induction absorbGroups s generalizing groups rest with
  | case1 =>
    obtain ⟨rfl, rfl⟩ := Prod.mk.inj (Except.ok.inj h)
    rfl
  | case2 =>
    obtain ⟨rfl, rfl⟩ := Prod.mk.inj (Except.ok.inj h)
    rfl
  | case3 =>
    obtain ⟨rfl, rfl⟩ := Prod.mk.inj (Except.ok.inj h)
    rfl
  | case4 => simp at h
  | case5 c t bracket _ _ content rest' hs ih =>
    obtain ⟨⟨more, after⟩, ha, he⟩ := exists_of_map_ok h
    obtain ⟨rfl, rfl⟩ := Prod.mk.inj he
    simp only [List.cons_append, List.append_assoc]
    rw [ih ha, append_of_spanGroup hs]

end NumericAnswer
