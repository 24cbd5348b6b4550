/-
# Bars in pairs

If all bars of a text have partners, one reading of the text from left to right
tells what stands for each of them: this reading keeps the brackets and bars
that are open, and a text in brackets is read in it as it is read alone.

Key definitions: `Opened`, `BarsPair`, `BarState.Ordered`.
Key theorems: `BarsPair.expandBars`, `BarsPair.of_expandBars`, `BarsPair.append`,
`BarsPair.nest`.
-/
import Mathlib.Data.List.TakeWhile
import NumericAnswer.Notation.Bars
import NumericAnswer.Proofs.Balance

namespace NumericAnswer

/-- What is open in a text: a bracket of a type, or a bar. -/
inductive Opened where
  | bracket (b : Bracket)
  | bar
  deriving DecidableEq, Repr

namespace Opened

def isBar : Opened → Bool
  | bar => true
  | bracket _ => false

/-- The bracket that stands for it once bars are expanded. -/
def expanded : Opened → Bracket
  | bar => .round
  | bracket b => b

/-- The bracket itself, if it is none of a bar. -/
def bracket? : Opened → Option Bracket
  | bar => none
  | bracket b => some b

end Opened

/-- All bars of `s` find partners in it or among the open ones, and the
expanded text is `t`. The text before it, in reverse, and what the last bar did
decide which way a bar goes. -/
inductive BarsPair : Text → List Opened → Bool → Text → Text → Prop where
  | nil (before : Text) (lastOpened : Bool) : BarsPair before [] lastOpened [] []
  | opening {before : Text} {marks : List Opened} {lastOpened : Bool} {s t : Text} (b : Bracket)
      (h : BarsPair (b.opening :: before) (.bracket b :: marks) lastOpened s t) :
      BarsPair before marks lastOpened (b.opening :: s) (b.opening :: t)
  | closing {before : Text} {marks : List Opened} {lastOpened : Bool} {s t : Text} (b : Bracket)
      (h : BarsPair (b.closing :: before) marks lastOpened s t) :
      BarsPair before (.bracket b :: marks) lastOpened (b.closing :: s) (b.closing :: t)
  | opens {before : Text} {marks : List Opened} {lastOpened : Bool} {s t : Text}
      (hm : marks.head? = some .bar → barOpens before lastOpened = true)
      (h : BarsPair ('|' :: before) (.bar :: marks) true s t) :
      BarsPair before marks lastOpened ('|' :: s) ("abs(".toList ++ t)
  | closes {before : Text} {marks : List Opened} {lastOpened : Bool} {s t : Text}
      (hb : barOpens before lastOpened = false) (h : BarsPair ('|' :: before) marks false s t) :
      BarsPair before (.bar :: marks) lastOpened ('|' :: s) (')' :: t)
  | other {before : Text} {marks : List Opened} {lastOpened : Bool} {c : Char} {s t : Text}
      (hc : NoBracket c) (hb : c ≠ '|') (h : BarsPair (c :: before) marks lastOpened s t) :
      BarsPair before marks lastOpened (c :: s) (c :: t)

namespace BarsPair

variable {before : Text} {marks : List Opened} {lastOpened : Bool} {s t : Text}

/-- The brackets of the text are well nested, with those that are open. -/
theorem nest (h : BarsPair before marks lastOpened s t) :
    nest (marks.filterMap Opened.bracket?) s = some [] := by
  induction h with
  | nil => rfl
  | opening b _ ih => rwa [nest_opening]
  | closing b _ ih =>
    rw [nest_closing]
    exact (if_pos rfl).trans ih
  | opens _ _ ih => rwa [nest_cons ⟨rfl, rfl⟩]
  | closes _ _ ih => rwa [nest_cons ⟨rfl, rfl⟩]
  | other hc _ _ ih => rwa [nest_cons hc]

/-- Which way a bar goes is settled by the text back to the bar before it. -/
theorem barOpens_append (h : '|' ∈ before) (pre : Text) :
    barOpens (before ++ pre) lastOpened = barOpens before lastOpened := by
  have hbar : isBlank '|' = false := by decide +kernel
  have hletter : isLetter '|' = false := by decide +kernel
  obtain ⟨bl, hbl, hs⟩ := exists_blanks_append before
  have hmem : '|' ∈ dropBlanks before := by
    rw [hs] at h
    rcases List.mem_append.mp h with h | h
    · rw [List.all_eq_true.mp hbl _ h] at hbar
      cases hbar
    · exact h
  obtain ⟨c, rest, hd⟩ := List.exists_cons_of_ne_nil (List.ne_nil_of_mem hmem)
  unfold barOpens
  rw [dropBlanks_append (by simp [hd]), hd]
  rw [hd] at hmem
  have hne : (c :: rest).dropWhile isLetter ≠ [] := by
    rw [Ne, List.dropWhile_eq_nil_iff]
    intro hall
    rw [hall _ hmem] at hletter
    cases hletter
  have hfunction : endsInFunction (c :: (rest ++ pre)) = endsInFunction (c :: rest) := by
    unfold endsInFunction
    simp only
    rw [← List.cons_append, takeWhile_append_of_ne_nil hne,
      drop_append_of_length_le (List.takeWhile_sublist _).length_le, List.head?_append,
      drop_length_takeWhile]
    cases hx : (c :: rest).dropWhile isLetter with
    | nil => exact absurd hx hne
    | cons d r => rfl
  simp only [List.cons_append, hfunction]

/-- A text whose bars pair may stand in brackets of another one, whose bars pair
as they do alone. -/
theorem append (h : BarsPair before marks lastOpened s t) :
    (.bar ∈ marks → '|' ∈ before) → ∀ {pre : Text} {outer : List Opened} {last : Bool} {v w : Text},
      outer.head? ≠ some .bar → ('|' ∈ before → last = lastOpened) →
      (∀ before last, BarsPair before outer last v w) →
      BarsPair (before ++ pre) (marks ++ outer) last (s ++ v) (t ++ w) := by
  induction h with
  | nil => exact fun _ _ _ _ _ _ _ _ hv => hv _ _
  | opening b _ ih =>
    intro hmarks pre outer last v w hout hlast hv
    refine .opening b (ih (fun hm => ?_) hout (fun hm => hlast ?_) hv)
    · exact List.mem_cons_of_mem _ (hmarks (by simpa using hm))
    · cases b <;> simpa [Bracket.opening] using hm
  | closing b _ ih =>
    intro hmarks pre outer last v w hout hlast hv
    refine .closing b (ih (fun hm => ?_) hout (fun hm => hlast ?_) hv)
    · exact List.mem_cons_of_mem _ (hmarks (List.mem_cons_of_mem _ hm))
    · cases b <;> simpa [Bracket.closing] using hm
  | @opens before marks lastOpened s t hm _ ih =>
    intro hmarks pre outer last v w hout hlast hv
    rw [List.append_assoc]
    refine .opens (fun hh => ?_) (ih (fun _ => List.mem_cons_self ..) hout (fun _ => rfl) hv)
    cases marks with
    | nil => exact absurd hh hout
    | cons m marks =>
      obtain rfl : m = .bar := by simpa using hh
      have hb := hmarks (List.mem_cons_self ..)
      rw [barOpens_append hb, hlast hb]
      exact hm rfl
  | closes hb _ ih =>
    intro hmarks pre outer last v w hout hlast hv
    have hmem := hmarks (List.mem_cons_self ..)
    refine .closes ?_ (ih (fun _ => List.mem_cons_self ..) hout (fun _ => rfl) hv)
    rw [barOpens_append hmem, hlast hmem]
    exact hb
  | other hc hb _ ih =>
    intro hmarks pre outer last v w hout hlast hv
    refine .other hc hb (ih (fun hm => ?_) hout (fun hm => hlast ?_) hv)
    · exact List.mem_cons_of_mem _ (hmarks hm)
    · simpa [Ne.symm hb] using hm

end BarsPair

/-! ### Positions -/

/-- What stands for a text that starts at a position, once the bars are paired. -/
def unbarredFrom (pairs : List (Nat × Nat)) (position : Nat) : Text → Text
  | [] => []
  | c :: s => unbarred pairs position c ++ unbarredFrom pairs (position + 1) s

theorem flatten_mapIdx_unbarred (pairs : List (Nat × Nat)) : ∀ (s : Text) (position : Nat),
    (s.mapIdx fun i => unbarred pairs (position + i)).flatten = unbarredFrom pairs position s
  | [], _ => rfl
  | c :: s, position => by
    rw [List.mapIdx_cons, List.flatten_cons, unbarredFrom, ← flatten_mapIdx_unbarred pairs s]
    have hf : (fun i => unbarred pairs (position + (i + 1))) =
        fun i => unbarred pairs (position + 1 + i) := by
      funext i
      rw [Nat.add_assoc, Nat.add_comm 1]
    rw [Nat.add_zero, hf]

theorem expandBars_eq (s : Text) : expandBars s = unbarredFrom (barPairs s) 0 s := by
  rw [← flatten_mapIdx_unbarred]
  simp [expandBars]

/-- The positions of the bars that are open. -/
def barsOf (marks : List OpenMark) : List Nat :=
  marks.filterMap fun
    | .bar position => some position
    | .bracket => none

namespace BarState

/-- All positions are those of characters that were read, and no bar is open
twice, or open and paired. -/
structure Ordered (state : BarState) : Prop where
  marks_lt : ∀ p ∈ barsOf state.marks, p < state.before.length
  pairs_lt : ∀ pair ∈ state.pairs, pair.1 < state.before.length ∧ pair.2 < state.before.length
  nodup : (barsOf state.marks).Nodup
  apart : ∀ pair ∈ state.pairs, pair.1 ∉ barsOf state.marks

theorem ordered_start : start.Ordered where
  marks_lt := by simp [start, barsOf]
  pairs_lt := by simp [start]
  nodup := by simp [start, barsOf]
  apart := by simp [start]

theorem barsOf_bar (p : Nat) (marks : List OpenMark) :
    barsOf (.bar p :: marks) = p :: barsOf marks := rfl

theorem barsOf_closeGroup_sublist (marks : List OpenMark) :
    (barsOf (closeGroup marks)).Sublist (barsOf marks) :=
  (((List.tail_sublist _).trans (List.dropWhile_sublist _))).filterMap _

theorem read_opening (state : BarState) (b : Bracket) : state.read b.opening =
    { state with before := b.opening :: state.before, marks := .bracket :: state.marks } := by
  cases b <;> rfl

theorem read_closing (state : BarState) (b : Bracket) : state.read b.closing =
    { state with before := b.closing :: state.before, marks := closeGroup state.marks } := by
  cases b <;> rfl

theorem read_other (state : BarState) {c : Char} (hc : NoBracket c) (hb : c ≠ '|') :
    state.read c = { state with before := c :: state.before } := by
  have ho : ['(', '[', '\x7b'].contains c = false := by
    simpa using ⟨(hc.ne .round).1, (hc.ne .square).1, (hc.ne .curly).1⟩
  have hcl : [')', ']', '\x7d'].contains c = false := by
    simpa using ⟨(hc.ne .round).2, (hc.ne .square).2, (hc.ne .curly).2⟩
  simp only [read, ho, hcl, hb, Bool.false_eq_true, if_false]

/-- A bar opens an absolute value, or closes the one opened last. -/
theorem read_bar_cases (state : BarState) :
    ((∀ p marks, state.marks = .bar p :: marks →
        barOpens state.before state.lastOpened = true) ∧
      state.read '|' = ⟨'|' :: state.before, .bar state.before.length :: state.marks, true,
        state.pairs⟩) ∨
    ∃ p marks, state.marks = .bar p :: marks ∧
      barOpens state.before state.lastOpened = false ∧
      state.read '|' = ⟨'|' :: state.before, marks, false,
        (p, state.before.length) :: state.pairs⟩ := by
  have hread : state.read '|' =
      { state.readBar state.before.length with before := '|' :: state.before } := rfl
  rw [hread]
  unfold readBar
  split
  · next p marks hm =>
    split
    · next hb =>
      refine .inl ⟨fun _ _ _ => hb, ?_⟩
      rw [hm]
    · next hb => exact .inr ⟨p, marks, hm, by simpa using hb, rfl⟩
  · next hm => exact .inl ⟨fun p marks h => absurd h (hm p marks), rfl⟩

/-- A character opens or closes a bracket, is a bar, or none of these. -/
theorem bracket_cases (c : Char) : (∃ b : Bracket, c = b.opening) ∨
    (∃ b : Bracket, c = b.closing) ∨ c = '|' ∨ NoBracket c ∧ c ≠ '|' := by
  cases ho : Bracket.ofOpening? c with
  | some b => exact .inl ⟨b, Bracket.ofOpening?_eq_some_iff.mp ho⟩
  | none =>
    cases hc : Bracket.ofClosing? c with
    | some b => exact .inr (.inl ⟨b, Bracket.ofClosing?_eq_some_iff.mp hc⟩)
    | none =>
      by_cases hb : c = '|'
      · exact .inr (.inr (.inl hb))
      · exact .inr (.inr (.inr ⟨⟨ho, hc⟩, hb⟩))

theorem length_before_read (state : BarState) (c : Char) :
    (state.read c).before.length = state.before.length + 1 := rfl

/-- Reading a character opens a bar at its place or pairs one with it, at most. -/
theorem read_step (state : BarState) (c : Char) :
    (∀ p ∈ barsOf (state.read c).marks, p ∈ barsOf state.marks ∨ p = state.before.length) ∧
      ∀ pair ∈ (state.read c).pairs, pair ∈ state.pairs ∨
        pair.1 ∈ barsOf state.marks ∧ pair.2 = state.before.length := by
  rcases bracket_cases c with ⟨b, rfl⟩ | ⟨b, rfl⟩ | rfl | ⟨hc, hb⟩
  · rw [read_opening]
    exact ⟨fun p hp => .inl hp, fun pair hp => .inl hp⟩
  · rw [read_closing]
    exact ⟨fun p hp => .inl ((barsOf_closeGroup_sublist _).subset hp), fun pair hp => .inl hp⟩
  · rcases state.read_bar_cases with ⟨_, hr⟩ | ⟨p, marks, hm, _, hr⟩
    · rw [hr]
      exact ⟨fun p hp => (List.mem_cons.mp hp).symm, fun pair hp => .inl hp⟩
    · rw [hr, hm]
      refine ⟨fun q hq => .inl (List.mem_cons_of_mem _ hq), fun pair hp => ?_⟩
      rcases List.mem_cons.mp hp with rfl | hp
      · exact .inr ⟨List.mem_cons_self .., rfl⟩
      · exact .inl hp
  · rw [read_other state hc hb]
    exact ⟨fun p hp => .inl hp, fun pair hp => .inl hp⟩

theorem Ordered.read {state : BarState} (h : state.Ordered) (c : Char) :
    (state.read c).Ordered := by
  obtain ⟨hmarks, hpairs⟩ := state.read_step c
  have hlt : ∀ p ∈ barsOf (state.read c).marks, p < (state.read c).before.length := by
    intro p hp
    rw [length_before_read]
    rcases hmarks p hp with hp | rfl
    · exact Nat.lt_succ_of_lt (h.marks_lt p hp)
    · exact Nat.lt_succ_self _
  have hpairs_lt : ∀ pair ∈ (state.read c).pairs,
      pair.1 < (state.read c).before.length ∧ pair.2 < (state.read c).before.length := by
    intro pair hp
    rw [length_before_read]
    rcases hpairs pair hp with hp | ⟨hp, he⟩
    · have := h.pairs_lt pair hp
      omega
    · have := h.marks_lt _ hp
      omega
  have hsub : ∀ {marks : List OpenMark}, (barsOf marks).Sublist (barsOf state.marks) →
      (barsOf marks).Nodup ∧ ∀ pair ∈ state.pairs, pair.1 ∉ barsOf marks :=
    fun hs => ⟨h.nodup.sublist hs, fun pair hp hm => h.apart pair hp (hs.subset hm)⟩
  rcases bracket_cases c with ⟨b, rfl⟩ | ⟨b, rfl⟩ | rfl | ⟨hc, hb⟩
  · rw [read_opening] at hlt hpairs_lt ⊢
    exact ⟨hlt, hpairs_lt, h.nodup, h.apart⟩
  · rw [read_closing] at hlt hpairs_lt ⊢
    obtain ⟨hn, ha⟩ := hsub (barsOf_closeGroup_sublist state.marks)
    exact ⟨hlt, hpairs_lt, hn, ha⟩
  · rcases state.read_bar_cases with ⟨_, hr⟩ | ⟨p, marks, hm, _, hr⟩
    · rw [hr] at hlt hpairs_lt ⊢
      refine ⟨hlt, hpairs_lt, List.nodup_cons.mpr ⟨fun hp => ?_, h.nodup⟩, fun pair hp hq => ?_⟩
      · exact absurd (h.marks_lt _ hp) (Nat.lt_irrefl _)
      · rcases List.mem_cons.mp hq with hq | hq
        · have := (h.pairs_lt pair hp).1
          omega
        · exact h.apart pair hp hq
    · rw [hr] at hlt hpairs_lt ⊢
      have hnodup := h.nodup
      rw [hm, barsOf_bar, List.nodup_cons] at hnodup
      refine ⟨hlt, hpairs_lt, hnodup.2, fun pair hp => ?_⟩
      rcases List.mem_cons.mp hp with rfl | hp
      · exact hnodup.1
      · intro hq
        refine h.apart pair hp ?_
        rw [hm, barsOf_bar]
        exact List.mem_cons_of_mem _ hq
  · rw [read_other state hc hb] at hlt hpairs_lt ⊢
    exact ⟨hlt, hpairs_lt, h.nodup, h.apart⟩

/-- Pairs that are found later close at a later place, and open there or at a
bar that is open now. -/
theorem mem_pairs_foldl : ∀ (s : Text) (state : BarState), ∀ pair ∈ (s.foldl read state).pairs,
    pair ∈ state.pairs ∨ (pair.1 ∈ barsOf state.marks ∨ state.before.length ≤ pair.1) ∧
      state.before.length ≤ pair.2
  | [], _, _, h => .inl h
  | c :: s, state, pair, h => by
    obtain ⟨hmarks, hpairs⟩ := state.read_step c
    rcases mem_pairs_foldl s (state.read c) pair h with hp | ⟨hp, hq⟩
    · rcases hpairs pair hp with hp | ⟨hp, he⟩
      · exact .inl hp
      · exact .inr ⟨.inl hp, Nat.le_of_eq he.symm⟩
    · rw [length_before_read] at hp hq
      refine .inr ⟨?_, by omega⟩
      rcases hp with hp | hp
      · exact (hmarks _ hp).imp_right fun he => Nat.le_of_eq he.symm
      · exact .inr (by omega)

/-- Pairs that are found stay. -/
theorem pairs_subset_foldl : ∀ (s : Text) (state : BarState),
    state.pairs ⊆ (s.foldl read state).pairs
  | [], _ => List.Subset.refl _
  | c :: s, state => by
    refine List.Subset.trans ?_ (pairs_subset_foldl s (state.read c))
    rcases bracket_cases c with ⟨b, rfl⟩ | ⟨b, rfl⟩ | rfl | ⟨hc, hb⟩
    · rw [read_opening]
      exact List.Subset.refl _
    · rw [read_closing]
      exact List.Subset.refl _
    · rcases state.read_bar_cases with ⟨_, hr⟩ | ⟨p, marks, _, _, hr⟩
      · rw [hr]
        exact List.Subset.refl _
      · rw [hr]
        exact List.subset_cons_self _ _
    · rw [read_other state hc hb]
      exact List.Subset.refl _

/-- Only a bar changes the bars that are open or paired, but for those that a
closing bracket gives up. -/
theorem read_of_ne_bar (state : BarState) {c : Char} (hc : c ≠ '|') :
    (barsOf (state.read c).marks).Sublist (barsOf state.marks) ∧
      (state.read c).pairs = state.pairs := by
  rcases bracket_cases c with ⟨b, rfl⟩ | ⟨b, rfl⟩ | rfl | ⟨hn, hb⟩
  · rw [read_opening]
    exact ⟨List.Sublist.refl _, rfl⟩
  · rw [read_closing]
    exact ⟨barsOf_closeGroup_sublist _, rfl⟩
  · exact absurd rfl hc
  · rw [read_other state hn hb]
    exact ⟨List.Sublist.refl _, rfl⟩

section Fate

variable {state : BarState} (h : state.Ordered)

include h

/-- A character that is no bar stays. -/
theorem unbarred_of_ne_bar {c : Char} (hc : c ≠ '|') (s : Text) :
    unbarred (s.foldl read (state.read c)).pairs state.before.length c = [c] := by
  obtain ⟨hmarks, hpairs⟩ := state.read_of_ne_bar hc
  have hne : ∀ pair ∈ (s.foldl read (state.read c)).pairs,
      pair.1 ≠ state.before.length ∧ pair.2 ≠ state.before.length := by
    intro pair hp
    rcases mem_pairs_foldl s _ pair hp with hp | ⟨hp, hq⟩
    · rw [hpairs] at hp
      have := h.pairs_lt pair hp
      omega
    · rw [length_before_read] at hp hq
      refine ⟨?_, by omega⟩
      rcases hp with hp | hp
      · have := h.marks_lt _ (hmarks.subset hp)
        omega
      · omega
  have h₁ : ((s.foldl read (state.read c)).pairs.any fun pair =>
      pair.1 = state.before.length) = false := by
    simpa using fun a b hp => (hne (a, b) hp).1
  have h₂ : ((s.foldl read (state.read c)).pairs.any fun pair =>
      pair.2 = state.before.length) = false := by
    simpa using fun a b hp => (hne (a, b) hp).2
  simp [unbarred, h₁, h₂]

/-- A bar that closes an absolute value becomes a bracket. -/
theorem unbarred_of_closes {p : Nat} {marks : List OpenMark} (hm : state.marks = .bar p :: marks)
    (hr : state.read '|' = ⟨'|' :: state.before, marks, false,
      (p, state.before.length) :: state.pairs⟩) (s : Text) :
    unbarred (s.foldl read (state.read '|')).pairs state.before.length '|' = [')'] := by
  have hlt : ∀ q ∈ p :: barsOf marks, q < state.before.length := by
    rw [← barsOf_bar, ← hm]
    exact h.marks_lt
  have h₁ : ((s.foldl read (state.read '|')).pairs.any fun pair =>
      pair.1 = state.before.length) = false := by
    simp only [List.any_eq_false, decide_eq_true_eq]
    intro pair hp
    rcases mem_pairs_foldl s _ pair hp with hp | ⟨hp, _⟩
    · rw [hr] at hp
      rcases List.mem_cons.mp hp with rfl | hp
      · exact Nat.ne_of_lt (hlt p (List.mem_cons_self ..))
      · exact Nat.ne_of_lt (h.pairs_lt pair hp).1
    · rw [length_before_read, hr] at hp
      rcases hp with hp | hp
      · exact Nat.ne_of_lt (hlt _ (List.mem_cons_of_mem _ hp))
      · omega
  have h₂ : ((s.foldl read (state.read '|')).pairs.any fun pair =>
      pair.2 = state.before.length) = true := by
    refine List.any_eq_true.mpr ⟨(p, state.before.length), ?_, by simp⟩
    refine pairs_subset_foldl s _ ?_
    rw [hr]
    exact List.mem_cons_self ..
  simp [unbarred, h₁, h₂]

/-- No pair closes at a bar that opens an absolute value. -/
theorem ne_of_opens (hr : state.read '|' = ⟨'|' :: state.before,
      .bar state.before.length :: state.marks, true, state.pairs⟩) (s : Text) :
    ∀ pair ∈ (s.foldl read (state.read '|')).pairs, pair.2 ≠ state.before.length := by
  intro pair hp
  rcases mem_pairs_foldl s _ pair hp with hp | ⟨_, hq⟩
  · rw [hr] at hp
    exact Nat.ne_of_lt (h.pairs_lt pair hp).2
  · rw [length_before_read] at hq
    omega

end Fate

theorem unbarred_of_mem {pairs : List (Nat × Nat)} {pair : Nat × Nat} (h : pair ∈ pairs)
    (c : Char) : unbarred pairs pair.1 c = "abs(".toList := by
  have : (pairs.any fun other => other.1 = pair.1) = true :=
    List.any_eq_true.mpr ⟨pair, h, by simp⟩
  simp [unbarred, this]

end BarState

open BarState

theorem exists_marks_of_map {marks : List OpenMark} {m : Opened} {opened : List Opened}
    (h : marks.map OpenMark.isBar = (m :: opened).map Opened.isBar) :
    ∃ m' marks', marks = m' :: marks' ∧ m'.isBar = m.isBar ∧
      marks'.map OpenMark.isBar = opened.map Opened.isBar := by
  cases marks with
  | nil => cases h
  | cons m' marks' =>
    obtain ⟨hm, ho⟩ := List.cons.inj h
    exact ⟨m', marks', rfl, hm, ho⟩

theorem OpenMark.eq_bracket {m : OpenMark} (h : m.isBar = false) : m = .bracket := by
  cases m with
  | bracket => rfl
  | bar p => cases h

theorem OpenMark.exists_eq_bar {m : OpenMark} (h : m.isBar = true) : ∃ p, m = .bar p := by
  cases m with
  | bracket => cases h
  | bar p => exact ⟨p, rfl⟩

/-! ### Texts whose bars pair -/

/-- In a text whose bars pair, each open bar finds its partner, and the text is
expanded as told. -/
theorem BarsPair.unbarred {before : Text} {marks : List Opened} {lastOpened : Bool} {s t : Text}
    (h : BarsPair before marks lastOpened s t) : ∀ {state : BarState}, state.Ordered →
      state.before = before → state.lastOpened = lastOpened →
      state.marks.map OpenMark.isBar = marks.map Opened.isBar →
      (∀ p ∈ barsOf state.marks, ∃ q, (p, q) ∈ (s.foldl read state).pairs) ∧
        unbarredFrom (s.foldl read state).pairs before.length s = t := by
  induction h with
  | nil =>
    intro state _ _ _ hm
    have hm : state.marks = [] := by simpa using hm
    rw [hm]
    exact ⟨by simp [barsOf], rfl⟩
  | @opening before marks lastOpened s t b _ ih =>
    rintro state ho rfl rfl hm
    have hc : b.opening ≠ '|' := by cases b <;> decide
    have hr := state.read_opening b
    obtain ⟨hopen, ht⟩ := ih (ho.read b.opening) (by rw [hr]) (by rw [hr])
      (by rw [hr]; simp [hm, OpenMark.isBar, Opened.isBar])
    rw [hr] at hopen
    rw [List.foldl_cons, unbarredFrom, unbarred_of_ne_bar ho hc]
    rw [hr] at ht ⊢
    exact ⟨hopen, congrArg _ ht⟩
  | @closing before marks lastOpened s t b _ ih =>
    rintro state ho rfl rfl hm
    have hc : b.closing ≠ '|' := by cases b <;> decide
    obtain ⟨m, marks', hmarks, hm', hm⟩ := exists_marks_of_map hm
    obtain rfl := OpenMark.eq_bracket hm'
    have hr := state.read_closing b
    rw [hmarks, show closeGroup (.bracket :: marks') = marks' from rfl] at hr
    obtain ⟨hopen, ht⟩ := ih (ho.read b.closing) (by rw [hr]) (by rw [hr]) (by rw [hr]; exact hm)
    rw [hr] at hopen
    rw [List.foldl_cons, unbarredFrom, unbarred_of_ne_bar ho hc]
    rw [hr] at ht ⊢
    exact ⟨by rw [hmarks]; exact hopen, congrArg _ ht⟩
  | @opens before marks lastOpened s t hb _ ih =>
    rintro state ho rfl rfl hm
    have hr : state.read '|' = ⟨'|' :: state.before, .bar state.before.length :: state.marks,
        true, state.pairs⟩ := by
      rcases state.read_bar_cases with ⟨_, hr⟩ | ⟨p, marks', hmarks, hclosed, _⟩
      · exact hr
      · rw [hmarks] at hm
        cases marks with
        | nil => cases hm
        | cons m marks =>
          obtain rfl : m = .bar := by
            have : m.isBar = true := (List.cons.inj hm).1.symm
            cases m with
            | bracket b => cases this
            | bar => rfl
          rw [hb rfl] at hclosed
          cases hclosed
    obtain ⟨hopen, ht⟩ := ih (ho.read '|') (by rw [hr]) (by rw [hr])
      (by rw [hr]; simp [hm, OpenMark.isBar, Opened.isBar])
    rw [hr] at hopen
    obtain ⟨q, hq⟩ := hopen state.before.length (List.mem_cons_self ..)
    rw [List.foldl_cons, unbarredFrom]
    rw [hr] at ht ⊢
    rw [unbarred_of_mem hq]
    exact ⟨fun p hp => hopen p (List.mem_cons_of_mem _ hp), congrArg _ ht⟩
  | @closes before marks lastOpened s t hb _ ih =>
    rintro state ho rfl rfl hm
    obtain ⟨m, marks', hmarks, hm', hm⟩ := exists_marks_of_map hm
    obtain ⟨p, rfl⟩ := OpenMark.exists_eq_bar hm'
    have hr : state.read '|' = ⟨'|' :: state.before, marks', false,
        (p, state.before.length) :: state.pairs⟩ := by
      rcases state.read_bar_cases with ⟨hopens, _⟩ | ⟨p', marks'', hmarks', _, hr⟩
      · rw [hopens p marks' hmarks] at hb
        cases hb
      · rw [hmarks] at hmarks'
        obtain ⟨hp, rfl⟩ := List.cons.inj hmarks'
        obtain rfl := OpenMark.bar.inj hp
        exact hr
    obtain ⟨hopen, ht⟩ := ih (ho.read '|') (by rw [hr]) (by rw [hr]) (by rw [hr]; exact hm)
    rw [List.foldl_cons, unbarredFrom, unbarred_of_closes ho hmarks hr]
    have hpair := pairs_subset_foldl s (state.read '|')
    rw [hr] at hopen ht hpair ⊢
    refine ⟨fun p' hp' => ?_, congrArg _ ht⟩
    rw [hmarks, barsOf_bar] at hp'
    rcases List.mem_cons.mp hp' with rfl | hp'
    · exact ⟨_, hpair (List.mem_cons_self ..)⟩
    · exact hopen p' hp'
  | @other before marks lastOpened c s t hn hc _ ih =>
    rintro state ho rfl rfl hm
    have hr := state.read_other hn hc
    obtain ⟨hopen, ht⟩ := ih (ho.read c) (by rw [hr]) (by rw [hr]) (by rw [hr]; exact hm)
    rw [hr] at hopen
    rw [List.foldl_cons, unbarredFrom, unbarred_of_ne_bar ho hc]
    rw [hr] at ht ⊢
    exact ⟨hopen, congrArg _ ht⟩

theorem BarsPair.expandBars {s t : Text} (h : BarsPair [] [] true s t) : expandBars s = t := by
  rw [expandBars_eq]
  exact (h.unbarred ordered_start rfl rfl rfl).2

/-! ### Texts in which no bar is left -/

/-- The bars that are open find their partners in the text, and no bar of the
text is left without one. -/
structure BarState.Completes (state : BarState) (s : Text) : Prop where
  ordered : state.Ordered
  paired : ∀ p ∈ barsOf state.marks, ∃ pair ∈ (s.foldl read state).pairs, pair.1 = p
  noBar : '|' ∉ unbarredFrom (s.foldl read state).pairs state.before.length s

namespace BarState.Completes

variable {state : BarState} {c : Char} {s : Text}

/-- The rest of the text completes what is open then. -/
theorem read (h : state.Completes (c :: s)) (hm : ∀ p ∈ barsOf (state.read c).marks,
    p ∈ barsOf state.marks ∨ ∃ pair ∈ (s.foldl BarState.read (state.read c)).pairs, pair.1 = p) :
    (state.read c).Completes s where
  ordered := h.ordered.read c
  paired p hp := (hm p hp).elim (h.paired p) id
  noBar hbar := h.noBar (List.mem_append_right _ hbar)

theorem read_of_ne_bar (h : state.Completes (c :: s)) (hc : c ≠ '|') :
    (state.read c).Completes s :=
  h.read fun _ hp => .inl ((state.read_of_ne_bar hc).1.subset hp)

/-- No closing bracket gives up a bar. -/
theorem marks_ne_bar {b : Bracket} (h : state.Completes (b.closing :: s)) (p : Nat)
    (marks : List OpenMark) : state.marks ≠ .bar p :: marks := by
  intro hmarks
  have hp : p ∈ barsOf state.marks := by
    rw [hmarks, barsOf_bar]
    exact List.mem_cons_self ..
  obtain ⟨pair, hpair, rfl⟩ := h.paired p hp
  have hr := state.read_closing b
  rcases mem_pairs_foldl s (state.read b.closing) pair hpair with hq | ⟨hq | hq, _⟩
  · rw [hr] at hq
    exact h.ordered.apart pair hq hp
  · have hnodup := h.ordered.nodup
    rw [hmarks, barsOf_bar, List.nodup_cons] at hnodup
    rw [hr, hmarks] at hq
    exact hnodup.1 ((barsOf_closeGroup_sublist marks).subset hq)
  · rw [length_before_read] at hq
    have := h.ordered.marks_lt _ hp
    omega

/-- A bar that opens an absolute value finds its partner. -/
theorem exists_pair (h : state.Completes ('|' :: s)) (hr : state.read '|' = ⟨'|' :: state.before,
      .bar state.before.length :: state.marks, true, state.pairs⟩) :
    ∃ pair ∈ (s.foldl BarState.read (state.read '|')).pairs, pair.1 = state.before.length := by
  by_contra hno
  have h₁ : ((s.foldl BarState.read (state.read '|')).pairs.any fun pair =>
      pair.1 = state.before.length) = false := by
    simp only [List.any_eq_false, decide_eq_true_eq]
    exact fun pair hp he => hno ⟨pair, hp, he⟩
  have h₂ : ((s.foldl BarState.read (state.read '|')).pairs.any fun pair =>
      pair.2 = state.before.length) = false := by
    simp only [List.any_eq_false, decide_eq_true_eq]
    exact ne_of_opens h.ordered hr s
  refine h.noBar (List.mem_append_left _ ?_)
  simp [unbarred, h₁, h₂]

end BarState.Completes

/-- The text that a state makes of the rest of a text. -/
def BarState.expand (state : BarState) (s : Text) : Text :=
  unbarredFrom (s.foldl read state).pairs state.before.length s

theorem BarState.expand_cons (state : BarState) (c : Char) (s : Text) :
    state.expand (c :: s) =
      unbarred (s.foldl read (state.read c)).pairs state.before.length c ++
        (state.read c).expand s := rfl

theorem Opened.eq_bar {m : Opened} (h : m.isBar = true) : m = .bar := by
  cases m with
  | bar => rfl
  | bracket b => cases h

/-- If no bar is left when the bars are expanded, and the brackets are well
nested then, the bars of the text pair. -/
theorem BarsPair.of_completes : ∀ (s : Text) {state : BarState} {opened : List Opened},
    state.Completes s → state.marks.map OpenMark.isBar = opened.map Opened.isBar →
    NumericAnswer.nest (opened.map Opened.expanded) (state.expand s) = some [] →
    BarsPair state.before opened state.lastOpened s (state.expand s)
  | [], state, opened, h, _, hn => by
    obtain rfl : opened = [] := by simpa [BarState.expand, unbarredFrom] using Option.some.inj hn
    exact .nil _ _
  | c :: s, state, opened, h, hm, hn => by
    rw [BarState.expand_cons] at hn ⊢
    rcases bracket_cases c with ⟨b, rfl⟩ | ⟨b, rfl⟩ | rfl | ⟨hb, hc⟩
    · have hc : b.opening ≠ '|' := by cases b <;> decide
      have ih := @of_completes s _ (.bracket b :: opened) (h.read_of_ne_bar hc)
      rw [unbarred_of_ne_bar h.ordered hc, List.singleton_append] at hn ⊢
      rw [nest_opening] at hn
      rw [read_opening] at ih hn ⊢
      refine .opening b (ih ?_ hn)
      simp [hm, OpenMark.isBar, Opened.isBar]
    · have hc : b.closing ≠ '|' := by cases b <;> decide
      rw [unbarred_of_ne_bar h.ordered hc, List.singleton_append] at hn ⊢
      rw [nest_closing] at hn
      cases opened with
      | nil => simp at hn
      | cons m opened =>
        have ih := @of_completes s _ opened (h.read_of_ne_bar hc)
        obtain ⟨m', marks', hmarks, hm', hmap⟩ := exists_marks_of_map hm
        cases m with
        | bar =>
          obtain ⟨p, rfl⟩ := OpenMark.exists_eq_bar hm'
          exact absurd hmarks (h.marks_ne_bar p marks')
        | bracket b' =>
          obtain rfl := OpenMark.eq_bracket hm'
          obtain rfl : b' = b := by
            by_contra hne
            simp [Opened.expanded, hne] at hn
          rw [read_closing, hmarks, show closeGroup (.bracket :: marks') = marks' from rfl] at ih hn ⊢
          refine .closing b' (ih hmap ?_)
          simpa [Opened.expanded] using hn
    · rcases state.read_bar_cases with ⟨hopens, hr⟩ | ⟨p, marks', hmarks, hclosed, hr⟩
      · obtain ⟨pair, hp, he⟩ := h.exists_pair hr
        have ih := @of_completes s _ (.bar :: opened) (h.read fun p hp' => by
          rw [hr] at hp'
          rcases List.mem_cons.mp hp' with rfl | hp'
          · exact .inr ⟨pair, hp, he⟩
          · exact .inl hp')
        rw [← he, unbarred_of_mem hp] at hn ⊢
        rw [hr] at ih hn ⊢
        refine .opens (fun hh => ?_) (ih ?_ hn)
        · cases opened with
          | nil => cases hh
          | cons m opened =>
            obtain rfl : m = .bar := by simpa using hh
            obtain ⟨m', marks', hmarks, hm', _⟩ := exists_marks_of_map hm
            obtain ⟨p, rfl⟩ := OpenMark.exists_eq_bar hm'
            exact hopens p marks' hmarks
        · simp [hm, OpenMark.isBar, Opened.isBar]
      · cases opened with
        | nil =>
          rw [hmarks] at hm
          cases hm
        | cons m opened =>
          rw [hmarks] at hm
          obtain ⟨hm', hmap⟩ := List.cons.inj hm
          obtain rfl := Opened.eq_bar hm'.symm
          have ih := @of_completes s _ opened (h.read fun q hq => .inl (by
            rw [hr] at hq
            rw [hmarks, barsOf_bar]
            exact List.mem_cons_of_mem _ hq))
          rw [unbarred_of_closes h.ordered hmarks hr, List.singleton_append] at hn ⊢
          have hcl := nest_closing .round (Opened.expanded .bar :: opened.map Opened.expanded)
            ((state.read '|').expand s)
          rw [hr] at ih hn hcl ⊢
          exact .closes hclosed (ih hmap (hcl.symm.trans hn))
    · have ih := @of_completes s _ opened (h.read_of_ne_bar hc)
      rw [unbarred_of_ne_bar h.ordered hc, List.singleton_append] at hn ⊢
      rw [nest_cons hb] at hn
      rw [read_other state hb hc] at ih hn ⊢
      exact .other hb hc (ih hm hn)

/-- The bars pair if none is left when they are expanded, and the brackets are
well nested then. -/
theorem BarsPair.of_expandBars {s : Text} (hbar : '|' ∉ NumericAnswer.expandBars s)
    (hn : Nested (NumericAnswer.expandBars s)) :
    BarsPair [] [] true s (NumericAnswer.expandBars s) := by
  rw [expandBars_eq] at hbar hn ⊢
  exact @of_completes s start _ ⟨ordered_start, by simp [start, barsOf], hbar⟩ rfl hn

end NumericAnswer
