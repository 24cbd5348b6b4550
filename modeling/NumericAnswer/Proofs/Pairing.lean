/-
# Bars pair inside one group of brackets

In any text, balanced or not, the bars that become an absolute value stand on
one level of its brackets: those between them balance, whatever their types. Two
absolute values are nested or apart, the other characters stay in place, and
well-nested brackets stay well nested.

Closing brackets give up open bars and close a bracket of any type. So the scan
is followed by depths alone: of each open bar, the text behind it is as deep as
there are brackets above the bar (`Follows`).

Key definitions: `depthAfter`, `NestedOrApart`, `PairsOnLevel`, `BarState.Sound`, `Stands`.
Key theorems: `BarState.sound_foldl`, `nested_expandBars`, `expandBars_on_level`.
-/
import Mathlib.Data.List.Nodup
import NumericAnswer.Proofs.Bars

namespace NumericAnswer

/-- The number of brackets that are open after a text, of whatever types, when
`depth` are open before it. None if a bracket closes and none is open. -/
def depthAfter : Nat → Text → Option Nat
  | depth, [] => some depth
  | depth, c :: s =>
    if (Bracket.ofOpening? c).isSome then depthAfter (depth + 1) s
    else if (Bracket.ofClosing? c).isSome then
      match depth with
      | 0 => none
      | depth + 1 => depthAfter depth s
    else depthAfter depth s

theorem depthAfter_append (depth : Nat) (s t : Text) :
    depthAfter depth (s ++ t) = (depthAfter depth s).bind fun depth => depthAfter depth t := by
  induction s generalizing depth with
  | nil => rfl
  | cons c s ih =>
    simp only [List.cons_append, depthAfter]
    split
    · exact ih _
    · split
      · cases depth with
        | zero => rfl
        | succ depth => exact ih depth
      · exact ih _

theorem depthAfter_opening (b : Bracket) (depth : Nat) :
    depthAfter depth [b.opening] = some (depth + 1) := by
  cases b <;> rfl

theorem depthAfter_closing (b : Bracket) (depth : Nat) :
    depthAfter (depth + 1) [b.closing] = some depth := by
  cases b <;> rfl

theorem depthAfter_noBracket {c : Char} (h : NoBracket c) (depth : Nat) :
    depthAfter depth [c] = some depth := by
  simp [depthAfter, h.1, h.2]

/-! ### Pairs of positions -/

/-- The text strictly between two positions. -/
def textBetween (s : Text) (pair : Nat × Nat) : Text :=
  (s.take pair.2).drop (pair.1 + 1)

/-- One pair lies inside the other, or behind it. No position is shared. -/
def NestedOrApart (p q : Nat × Nat) : Prop :=
  p.2 < q.1 ∨ q.2 < p.1 ∨ p.1 < q.1 ∧ q.2 < p.2 ∨ q.1 < p.1 ∧ p.2 < q.2

/-- Pairs of bars, each on one level of the brackets of a text. -/
structure PairsOnLevel (s : Text) (pairs : List (Nat × Nat)) : Prop where
  lt : ∀ pair ∈ pairs, pair.1 < pair.2
  bars : ∀ pair ∈ pairs, s[pair.1]? = some '|' ∧ s[pair.2]? = some '|'
  level : ∀ pair ∈ pairs, depthAfter 0 (textBetween s pair) = some 0
  nested : pairs.Pairwise NestedOrApart

namespace PairsOnLevel

variable {s : Text} {pairs : List (Nat × Nat)}

theorem lt_length (h : PairsOnLevel s pairs) {pair : Nat × Nat} (hp : pair ∈ pairs) :
    pair.2 < s.length :=
  (List.getElem?_eq_some_iff.mp (h.bars pair hp).2).1

theorem append (h : PairsOnLevel s pairs) (t : Text) : PairsOnLevel (s ++ t) pairs where
  lt := h.lt
  bars pair hp := by
    have hlt := h.lt pair hp
    have hlen := h.lt_length hp
    rw [List.getElem?_append_left (by omega), List.getElem?_append_left hlen]
    exact h.bars pair hp
  level pair hp := by
    rw [textBetween, List.take_append_of_le_length (Nat.le_of_lt (h.lt_length hp))]
    exact h.level pair hp
  nested := h.nested

/-- No bar is in two pairs, or twice in one. -/
theorem nodup (h : PairsOnLevel s pairs) : (pairs.flatMap fun pair => [pair.1, pair.2]).Nodup := by
  rw [List.nodup_flatMap]
  refine ⟨fun pair hp => by simpa using Nat.ne_of_lt (h.lt pair hp), ?_⟩
  refine h.nested.imp_of_mem fun {p q} hp hq hpq => ?_
  have hlt := h.lt p hp
  have hlt' := h.lt q hq
  simp only [Function.onFun, List.disjoint_cons_left, List.mem_cons, List.not_mem_nil, or_false,
    List.disjoint_nil_left, and_true]
  unfold NestedOrApart at hpq
  omega

end PairsOnLevel

/-! ### The scan -/

/-- Behind each open bar, the text is as deep as there are brackets above the
bar. `depth` counts those that are above all the marks. -/
def Follows (text : Text) : Nat → List OpenMark → Prop
  | _, [] => True
  | depth, .bracket :: marks => Follows text (depth + 1) marks
  | depth, .bar p :: marks =>
    text[p]? = some '|' ∧ depthAfter 0 (text.drop (p + 1)) = some depth ∧
      (∀ q ∈ barsOf marks, q < p) ∧ Follows text depth marks

namespace Follows

variable {text : Text}

theorem lt_length : ∀ {marks : List OpenMark} {depth : Nat}, Follows text depth marks →
    ∀ q ∈ barsOf marks, q < text.length
  | [], _, _, _, hq => absurd hq List.not_mem_nil
  | .bracket :: marks, depth, h, q, hq =>
    lt_length (show Follows text (depth + 1) marks from h) q hq
  | .bar p :: marks, _, h, q, hq => by
    rcases List.mem_cons.mp hq with rfl | hq
    · exact (List.getElem?_eq_some_iff.mp h.1).1
    · exact lt_length h.2.2.2 q hq

/-- A character moves the depth behind all open bars alike. -/
theorem append {c : Char} : ∀ {marks : List OpenMark} {depth depth' : Nat},
    (∀ k, depthAfter (depth + k) [c] = some (depth' + k)) → Follows text depth marks →
      Follows (text ++ [c]) depth' marks
  | [], _, _, _, _ => trivial
  | .bracket :: marks, depth, depth', hc, h => by
    show Follows (text ++ [c]) (depth' + 1) marks
    refine append (fun k => ?_) (show Follows text (depth + 1) marks from h)
    have := hc (1 + k)
    rwa [← Nat.add_assoc, ← Nat.add_assoc] at this
  | .bar p :: marks, depth, depth', hc, h => by
    have hp := (List.getElem?_eq_some_iff.mp h.1).1
    refine ⟨?_, ?_, h.2.2.1, append hc h.2.2.2⟩
    · rw [List.getElem?_append_left hp]
      exact h.1
    · rw [List.drop_append_of_le_length (by omega), depthAfter_append, h.2.1]
      exact hc 0

/-- A closing bracket takes one level from what is below the bars it gives up. -/
theorem closeGroup {b : Bracket} : ∀ {marks : List OpenMark}, Follows text 0 marks →
    Follows (text ++ [b.closing]) 0 (BarState.closeGroup marks)
  | [], _ => trivial
  | .bracket :: marks, h =>
    append (fun k => by
      rw [Nat.zero_add, Nat.add_comm]
      exact depthAfter_closing b k) (show Follows text 1 marks from h)
  | .bar _ :: marks, h =>
    show Follows (text ++ [b.closing]) 0 (BarState.closeGroup marks) from closeGroup h.2.2.2

end Follows

namespace BarState

/-- The pairs found are on one level each, and so are the open bars with the end
of the text that was read. No open bar lies inside a pair. -/
structure Sound (state : BarState) : Prop where
  follows : Follows state.before.reverse 0 state.marks
  pairs : PairsOnLevel state.before.reverse state.pairs
  outside : ∀ p ∈ barsOf state.marks, ∀ pair ∈ state.pairs, p < pair.1 ∨ pair.2 < p

theorem sound_start : start.Sound where
  follows := trivial
  pairs := ⟨by simp [start], by simp [start], by simp [start], List.Pairwise.nil⟩
  outside := by simp [start, barsOf]

namespace Sound

variable {state : BarState}

/-- A bar opens an absolute value behind all pairs found. -/
theorem opens (h : state.Sound) :
    Sound ⟨'|' :: state.before, .bar state.before.length :: state.marks, true, state.pairs⟩ where
  follows := by
    have hlen := state.before.length_reverse
    rw [List.reverse_cons]
    refine ⟨?_, ?_, fun q hq => ?_, h.follows.append fun k => depthAfter_noBracket ⟨rfl, rfl⟩ _⟩
    · rw [← hlen, List.getElem?_concat_length]
    · rw [List.drop_eq_nil_of_le (by simp)]
      rfl
    · rw [← hlen]
      exact h.follows.lt_length q hq
  pairs := by
    rw [List.reverse_cons]
    exact h.pairs.append _
  outside p hp pair hpair := by
    rcases List.mem_cons.mp hp with rfl | hp
    · have := h.pairs.lt_length hpair
      rw [List.length_reverse] at this
      exact .inr this
    · exact h.outside p hp pair hpair

/-- A bar pairs with the one opened last, which stands on its level. -/
theorem closes (h : state.Sound) {p : Nat} {marks : List OpenMark}
    (hm : state.marks = .bar p :: marks) :
    Sound ⟨'|' :: state.before, marks, false, (p, state.before.length) :: state.pairs⟩ := by
  have hlen := state.before.length_reverse
  have hfollows := h.follows
  rw [hm] at hfollows
  obtain ⟨hbar, hdepth, hbelow, hmarks⟩ := hfollows
  have hlt := (List.getElem?_eq_some_iff.mp hbar).1
  have hpairs := h.pairs.append ['|']
  have hout := h.outside
  rw [hm, barsOf_bar] at hout
  have hbehind : ∀ pair ∈ state.pairs, pair.2 < state.before.length := by
    intro pair hp
    rw [← hlen]
    exact h.pairs.lt_length hp
  refine ⟨?_, ⟨?_, ?_, ?_, ?_⟩, ?_⟩ <;> (try rw [List.reverse_cons])
  · exact hmarks.append fun k => depthAfter_noBracket ⟨rfl, rfl⟩ _
  · exact List.forall_mem_cons.mpr ⟨hlen ▸ hlt, h.pairs.lt⟩
  · refine List.forall_mem_cons.mpr ⟨⟨?_, ?_⟩, hpairs.bars⟩
    · rwa [List.getElem?_append_left hlt]
    · rw [← hlen, List.getElem?_concat_length]
  · refine List.forall_mem_cons.mpr ⟨?_, hpairs.level⟩
    rw [textBetween, ← hlen, List.take_left]
    exact hdepth
  · refine List.pairwise_cons.mpr ⟨fun pair hp => ?_, h.pairs.nested⟩
    rcases hout p (List.mem_cons_self ..) pair hp with hlt | hlt
    · exact .inr (.inr (.inl ⟨hlt, hbehind pair hp⟩))
    · exact .inr (.inl hlt)
  · intro q hq
    refine List.forall_mem_cons.mpr ⟨.inl (hbelow q hq), fun pair hp => ?_⟩
    exact hout q (List.mem_cons_of_mem _ hq) pair hp

theorem read (h : state.Sound) (c : Char) : (state.read c).Sound := by
  rcases bracket_cases c with ⟨b, rfl⟩ | ⟨b, rfl⟩ | rfl | ⟨hc, hb⟩
  · rw [read_opening]
    refine ⟨?_, ?_, h.outside⟩ <;> rw [List.reverse_cons]
    · have hone : ∀ k, depthAfter (0 + k) [b.opening] = some (1 + k) := fun k => by
        rw [depthAfter_opening, Nat.zero_add, Nat.add_comm]
      exact show Follows (state.before.reverse ++ [b.opening]) 1 state.marks from
        h.follows.append hone
    · exact h.pairs.append _
  · rw [read_closing]
    refine ⟨?_, ?_, fun p hp => h.outside p ((barsOf_closeGroup_sublist _).subset hp)⟩ <;>
      rw [List.reverse_cons]
    · exact h.follows.closeGroup
    · exact h.pairs.append _
  · rcases state.read_bar_cases with ⟨_, hr⟩ | ⟨p, marks, hm, _, hr⟩
    · rw [hr]
      exact h.opens
    · rw [hr]
      exact h.closes hm
  · rw [read_other state hc hb]
    refine ⟨?_, ?_, h.outside⟩ <;> rw [List.reverse_cons]
    · exact h.follows.append fun k => depthAfter_noBracket hc _
    · exact h.pairs.append _

end Sound

theorem before_foldl : ∀ (s : Text) (state : BarState),
    (s.foldl read state).before = s.reverse ++ state.before
  | [], _ => rfl
  | c :: s, state => by
    rw [List.foldl_cons, before_foldl s, List.reverse_cons, List.append_assoc]
    rfl

theorem sound_foldl : ∀ (s : Text) {state : BarState}, state.Sound → (s.foldl read state).Sound
  | [], _, h => h
  | c :: s, _, h => sound_foldl s (h.read c)

end BarState

open BarState

theorem pairsOnLevel_barPairs (s : Text) : PairsOnLevel s (barPairs s) := by
  have h := (sound_foldl s sound_start).pairs
  rwa [before_foldl, show start.before = [] from rfl, List.append_nil, List.reverse_reverse] at h

/-! ### Nested brackets -/

/-- What is open in a text and in the expanded one: the same brackets, and there
also one for each bar that finds a partner in the end. -/
inductive Stands (pairs : List (Nat × Nat)) :
    List OpenMark → List Bracket → List Bracket → Prop where
  | nil : Stands pairs [] [] []
  | bracket {marks : List OpenMark} {opened expanded : List Bracket} (b : Bracket)
      (h : Stands pairs marks opened expanded) :
      Stands pairs (.bracket :: marks) (b :: opened) (b :: expanded)
  | paired {marks : List OpenMark} {opened expanded : List Bracket} {pair : Nat × Nat}
      (hp : pair ∈ pairs) (h : Stands pairs marks opened expanded) :
      Stands pairs (.bar pair.1 :: marks) opened (.round :: expanded)
  | alone {marks : List OpenMark} {opened expanded : List Bracket} {p : Nat}
      (hp : ∀ pair ∈ pairs, pair.1 ≠ p) (h : Stands pairs marks opened expanded) :
      Stands pairs (.bar p :: marks) opened expanded

namespace Stands

variable {pairs : List (Nat × Nat)} {marks : List OpenMark} {opened expanded : List Bracket}

/-- If no open bar is paired, only the brackets are open. -/
theorem eq_of_alone (h : Stands pairs marks opened expanded) :
    (∀ pair ∈ pairs, pair.1 ∉ barsOf marks) → expanded = opened := by
  induction h with
  | nil => exact fun _ => rfl
  | bracket b _ ih => exact fun hout => congrArg _ (ih hout)
  | paired hp _ _ => exact fun hout => absurd (List.mem_cons_self ..) (hout _ hp)
  | alone _ _ ih => exact fun hout => ih fun pair hp hm => hout pair hp (List.mem_cons_of_mem _ hm)

/-- A closing bracket closes the same one in both texts, if the bars it gives up
find no partner. -/
theorem closeGroup {b : Bracket} (h : Stands pairs marks (b :: opened) expanded) :
    (∀ pair ∈ pairs, pair.1 ∈ barsOf marks → pair.1 ∈ barsOf (BarState.closeGroup marks)) →
      (barsOf marks).Nodup →
      ∃ rest, expanded = b :: rest ∧ Stands pairs (BarState.closeGroup marks) opened rest := by
  generalize hopened : b :: opened = all at h
  induction h with
  | nil => cases hopened
  | bracket b' h _ =>
    obtain ⟨rfl, rfl⟩ := List.cons.inj hopened
    exact fun _ _ => ⟨_, rfl, h⟩
  | @paired marks _ _ pair hp h _ =>
    intro hkept hnodup
    have hmem := hkept pair hp (List.mem_cons_self ..)
    rw [barsOf_bar, List.nodup_cons] at hnodup
    exact absurd ((barsOf_closeGroup_sublist marks).subset hmem) hnodup.1
  | alone _ h ih =>
    intro hkept hnodup
    rw [barsOf_bar, List.nodup_cons] at hnodup
    exact ih hopened (fun pair hp hm => hkept pair hp (List.mem_cons_of_mem _ hm)) hnodup.2

/-- A closing bracket closes the same one in both texts: a bar that it gives up finds no partner
any more. -/
theorem read_closing {state : BarState} {s : Text} {b : Bracket}
    (h : Stands (s.foldl read (state.read b.closing)).pairs state.marks (b :: opened) expanded)
    (ho : state.Ordered) : ∃ rest, expanded = b :: rest ∧
      Stands (s.foldl read (state.read b.closing)).pairs (state.read b.closing).marks opened
        rest := by
  have hr := state.read_closing b
  have hgiven : (state.read b.closing).marks = BarState.closeGroup state.marks := by rw [hr]
  rw [hgiven]
  refine h.closeGroup (fun pair hp hm => ?_) ho.nodup
  rcases mem_pairs_foldl s _ pair hp with hp | ⟨hp | hp, _⟩
  · rw [hr] at hp
    exact absurd hm (ho.apart pair hp)
  · rwa [hr] at hp
  · rw [length_before_read] at hp
    have := ho.marks_lt _ hm
    omega

end Stands

/-- A bar that opens an absolute value without an end stays. -/
theorem unbarred_of_alone {state : BarState} {s : Text} (h : state.Ordered)
    (hr : state.read '|' = ⟨'|' :: state.before, .bar state.before.length :: state.marks, true,
      state.pairs⟩)
    (hp : ∀ pair ∈ (s.foldl read (state.read '|')).pairs, pair.1 ≠ state.before.length) :
    unbarred (s.foldl read (state.read '|')).pairs state.before.length '|' = ['|'] := by
  have h₁ : ((s.foldl read (state.read '|')).pairs.any fun pair =>
      pair.1 = state.before.length) = false := by
    simpa only [List.any_eq_false, decide_eq_true_eq] using hp
  have h₂ : ((s.foldl read (state.read '|')).pairs.any fun pair =>
      pair.2 = state.before.length) = false := by
    simpa only [List.any_eq_false, decide_eq_true_eq] using ne_of_opens h hr s
  simp [unbarred, h₁, h₂]

/-- A text that is well nested with the brackets open before it is so once its
bars are expanded. -/
theorem nest_expand : ∀ (s : Text) {state : BarState} {opened expanded : List Bracket},
    state.Ordered → Stands (s.foldl read state).pairs state.marks opened expanded →
      nest opened s = some [] → nest expanded (state.expand s) = some []
  | [], state, opened, expanded, ho, h, hn => by
    rw [h.eq_of_alone ho.apart]
    exact hn
  | c :: s, state, opened, expanded, ho, h, hn => by
    rw [expand_cons]
    rw [List.foldl_cons] at h
    have ih := @nest_expand s (state.read c)
    rcases bracket_cases c with ⟨b, rfl⟩ | ⟨b, rfl⟩ | rfl | ⟨hc, hb⟩
    · have hc : b.opening ≠ '|' := by cases b <;> decide
      rw [unbarred_of_ne_bar ho hc, List.singleton_append, nest_opening]
      rw [nest_opening] at hn
      refine ih (ho.read _) ?_ hn
      rw [read_opening] at h ⊢
      exact h.bracket b
    · have hc : b.closing ≠ '|' := by cases b <;> decide
      obtain ⟨outer, rfl, hlater⟩ := nest_closing_eq_some_iff.mp hn
      obtain ⟨rest, rfl, hrest⟩ := h.read_closing ho
      rw [unbarred_of_ne_bar ho hc, List.singleton_append]
      exact nest_closing_eq_some_iff.mpr ⟨rest, rfl, ih (ho.read _) hrest hlater⟩
    · rw [nest_cons ⟨rfl, rfl⟩] at hn
      rcases state.read_bar_cases with ⟨_, hr⟩ | ⟨p, marks, hm, _, hr⟩
      · by_cases hp : ∃ pair ∈ (s.foldl read (state.read '|')).pairs, pair.1 = state.before.length
        · obtain ⟨pair, hp, he⟩ := hp
          rw [← he, unbarred_of_mem hp]
          refine @ih _ (.round :: expanded) (ho.read _) ?_ hn
          rw [hr] at h hp ⊢
          rw [← he] at h hp ⊢
          exact h.paired hp
        · have hp : ∀ pair ∈ (s.foldl read (state.read '|')).pairs,
              pair.1 ≠ state.before.length := fun pair hmem he => hp ⟨pair, hmem, he⟩
          rw [unbarred_of_alone ho hr hp, List.singleton_append, nest_cons ⟨rfl, rfl⟩]
          refine ih (ho.read _) ?_ hn
          rw [hr] at h hp ⊢
          exact h.alone hp
      · have hmem : (p, state.before.length) ∈ (s.foldl read (state.read '|')).pairs := by
          refine pairs_subset_foldl s _ ?_
          rw [hr]
          exact List.mem_cons_self ..
        rw [unbarred_of_closes ho hm hr]
        rw [hm] at h
        cases h with
        | alone hp => exact absurd rfl (hp _ hmem)
        | @paired _ _ rest _ _ h =>
          rw [List.singleton_append, show ')' = Bracket.closing .round from rfl]
          refine nest_closing_eq_some_iff.mpr ⟨rest, rfl, ih (ho.read _) ?_ hn⟩
          rwa [hr] at h ⊢
    · rw [nest_cons hc] at hn
      rw [unbarred_of_ne_bar ho hb, List.singleton_append, nest_cons hc]
      refine ih (ho.read _) ?_ hn
      rwa [read_other state hc hb] at h ⊢

theorem nested_expandBars {s : Text} (h : Nested s) : Nested (expandBars s) := by
  rw [expandBars_eq]
  exact nest_expand s ordered_start .nil h

/-! ### The expanded text -/

theorem expandBars_eq_flatten (s : Text) : expandBars s =
    (s.mapIdx fun position c =>
      if position ∈ (barPairs s).map Prod.fst then "abs(".toList
      else if position ∈ (barPairs s).map Prod.snd then [')']
      else [c]).flatten := by
  have hany : ∀ (f : Nat × Nat → Nat) (position : Nat),
      ((barPairs s).any fun pair => f pair = position) = true ↔ position ∈ (barPairs s).map f := by
    simp
  unfold expandBars
  congr 2
  funext position c
  simp only [unbarred, hany Prod.fst, hany Prod.snd]

/-- **Bars pair on one level of the brackets.** Any text is expanded at pairs of
its bars, without a bar in two of them: the left one becomes `abs(`, the right
one `)`, and all other characters stay. Between two bars of a pair the brackets
balance, whatever their types, and two pairs are nested or apart. If the
brackets of the text are well nested, so are those of the expanded one. -/
theorem expandBars_on_level (s : Text) : ∃ pairs : List (Nat × Nat),
    PairsOnLevel s pairs ∧ (pairs.flatMap fun pair => [pair.1, pair.2]).Nodup ∧
    expandBars s =
      (s.mapIdx fun position c =>
        if position ∈ pairs.map Prod.fst then "abs(".toList
        else if position ∈ pairs.map Prod.snd then [')']
        else [c]).flatten ∧
    (Nested s → Nested (expandBars s)) :=
  ⟨barPairs s, pairsOnLevel_barPairs s, (pairsOnLevel_barPairs s).nodup, expandBars_eq_flatten s,
    nested_expandBars⟩

/-- A bracket of another type closes the group, and its bar finds no partner behind it. -/
example : barPairs "|1(2|]|3|".toList = [(0, 6)] := by
  decide +kernel

end NumericAnswer
