/-
# Matching brackets

A group ends at the first position where the brackets of its type that stand from
its opening bracket on are all closed, whatever other brackets stand between. If
there is no such position, the bracket is never closed. Groups that stand next to
one another are read one after the other up to the first character that opens
none.

Key definitions: `segment`, `returns`, `groupAt`, `groupsEnd`, `GroupRun`.
Key theorems: `spanGroup_of_returns`, `exists_groupRun`, `groups_match`.
-/
import Mathlib.Data.Set.Basic
import Mathlib.Order.Bounds.Basic
import NumericAnswer.Proofs.Regrouped

namespace NumericAnswer

/-! ### Opening brackets -/

namespace Bracket

theorem ofOpening?_opening (b : Bracket) : ofOpening? b.opening = some b :=
  ofOpening?_eq_some_iff.mpr rfl

theorem opening_injective : Function.Injective opening := by
  intro b b' h
  have hb := ofOpening?_opening b
  rw [h, ofOpening?_opening] at hb
  exact (Option.some.inj hb).symm

end Bracket

/-- A group of a row opens with a brace or a square bracket. -/
theorem exists_opening_of_opensRow {c : Char} (h : opensRow c = true) :
    ∃ b : Bracket, b ≠ .round ∧ c = b.opening := by
  simp only [opensRow, Bool.or_eq_true, decide_eq_true_eq] at h
  rcases h with rfl | rfl
  · exact ⟨.curly, by decide, rfl⟩
  · exact ⟨.square, by decide, rfl⟩

/-! ### Positions -/

/-- The characters from an index up to another one. -/
def segment (text : Text) (i j : Nat) : Text :=
  (text.drop i).take (j - i)

/-- The positions after `i` at which the brackets of a type have come back to
balance, counted from `i` on. -/
def returns (b : Bracket) (text : Text) (i : Nat) : Set Nat :=
  {j | i < j ∧ j < text.length ∧ surplus b (segment text i (j + 1)) = 0}

/-- A group at an index: what is between its brackets, and the index after it. -/
def groupAt (text : Text) (i : Nat) : Except Refusal (Text × Nat) :=
  (readGroup (text.drop i)).map fun (content, rest) => (content, text.length - rest.length)

/-- The index after the groups in braces and square brackets that follow one
another from an index on. -/
def groupsEnd (text : Text) (i : Nat) : Except Refusal Nat :=
  (absorbGroups (text.drop i)).map fun (groups, _) => i + groups.length

section Positions

variable {b : Bracket} {text : Text} {i : Nat}

theorem drop_eq_cons {c : Char} (h : text[i]? = some c) :
    text.drop i = c :: text.drop (i + 1) := by
  obtain ⟨hi, rfl⟩ := List.getElem?_eq_some_iff.mp h
  exact List.drop_eq_getElem_cons hi

/-- From an opening bracket on, the balance is one more than that of what
follows it. -/
theorem surplus_segment (ho : text[i]? = some b.opening) {j : Nat} (hj : i ≤ j) :
    surplus b (segment text i (j + 1)) = 1 + surplus b ((text.drop (i + 1)).take (j - i)) := by
  have hone : surplus b [b.opening] = 1 := by cases b <;> decide
  have hlength : j + 1 - i = (j - i) + 1 := by omega
  rw [segment, drop_eq_cons ho, hlength, List.take_succ_cons, surplus_cons, hone]

end Positions

/-! ### A group ends where the balance returns -/

section Span

variable {b : Bracket} {s content rest : Text} {depth : Nat}

/-- Within a group no more brackets of its type are closed than were opened. -/
theorem surplus_nonneg_of_front (h : walk b 0 content = some depth) {p : Text}
    (hp : p <+: content) : 0 ≤ surplus b p := by
  obtain ⟨t, rfl⟩ := hp
  obtain ⟨m, hm, _⟩ := walks_of_append h
  have hsurplus := surplus_of_walk hm
  omega

/-- A bracket that is not closed in a text is not closed in the front of it. -/
theorem spanGroup_eq_none_of_front (h : spanGroup b depth s = none) {p : Text} (hp : p <+: s) :
    spanGroup b depth p = none := by
  obtain ⟨t, rfl⟩ := hp
  cases hspan : spanGroup b depth p with
  | none => rfl
  | some group =>
    rw [spanGroup_append hspan t] at h
    cases h

theorem surplus_nonneg_of_spanGroup_eq_none (h : spanGroup b 0 s = none) {p : Text}
    (hp : p <+: s) : 0 ≤ surplus b p := by
  obtain ⟨e, he⟩ := walk_of_spanGroup_eq_none (spanGroup_eq_none_of_front h hp)
  have hsurplus := surplus_of_walk he
  omega

end Span

section Returns

variable {b : Bracket} {text content rest : Text} {i : Nat}

theorem isLeast_returns (ho : text[i]? = some b.opening)
    (h : spanGroup b 0 (text.drop (i + 1)) = some (content, rest)) :
    IsLeast (returns b text i) (i + 1 + content.length) := by
  have hs := append_of_spanGroup h
  have hw := walk_of_spanGroup h
  have hlength := congrArg List.length hs
  rw [List.length_append, List.length_cons, List.length_drop] at hlength
  refine ⟨⟨by omega, by omega, ?_⟩, fun j ⟨hij, hj, hzero⟩ => ?_⟩
  · -- The content is in balance, and its closing bracket makes up for the opening one.
    have hupto : (text.drop (i + 1)).take (i + 1 + content.length - i) = content ++ [b.closing] := by
      have hl : i + 1 + content.length - i = (content ++ [b.closing]).length := by simp; omega
      rw [← hs, List.append_cons, hl, List.take_left]
    have hcontent := surplus_of_walk hw
    have hclosing : surplus b [b.closing] = -1 := by cases b <;> decide
    rw [surplus_segment ho (by omega), hupto, surplus_append, hclosing]
    omega
  · -- Up to an earlier position only a part of the content is read.
    by_contra! hlt
    have hpart : (text.drop (i + 1)).take (j - i) <+: content := by
      rw [← hs, List.take_append_of_le_length (by omega)]
      exact List.take_prefix _ _
    have hnonneg := surplus_nonneg_of_front hw hpart
    rw [surplus_segment ho (by omega)] at hzero
    omega

theorem returns_eq_empty (ho : text[i]? = some b.opening)
    (h : spanGroup b 0 (text.drop (i + 1)) = none) : returns b text i = ∅ := by
  refine Set.eq_empty_of_forall_notMem fun j ⟨hij, _, hzero⟩ => ?_
  have hnonneg := surplus_nonneg_of_spanGroup_eq_none h (List.take_prefix (j - i) _)
  rw [surplus_segment ho (by omega)] at hzero
  omega

/-- A group is read up to the first position where the balance returns; where it
never does, none is read. -/
theorem spanGroup_of_returns (ho : text[i]? = some b.opening) :
    (∃ j, IsLeast (returns b text i) j ∧
      spanGroup b 0 (text.drop (i + 1)) = some (segment text (i + 1) j, text.drop (j + 1))) ∨
    (returns b text i = ∅ ∧ spanGroup b 0 (text.drop (i + 1)) = none) := by
  cases h : spanGroup b 0 (text.drop (i + 1)) with
  | none => exact .inr ⟨returns_eq_empty ho h, rfl⟩
  | some group =>
    obtain ⟨content, rest⟩ := group
    refine .inl ⟨i + 1 + content.length, isLeast_returns ho h, ?_⟩
    have hs := append_of_spanGroup h
    have hcontent : segment text (i + 1) (i + 1 + content.length) = content := by
      rw [segment, ← hs, Nat.add_sub_cancel_left, List.take_left]
    have hrest : text.drop (i + 1 + content.length + 1) = rest := by
      rw [Nat.add_assoc, ← List.drop_drop, ← hs, List.drop_append, List.drop_of_length_le (by omega),
        Nat.add_sub_cancel_left, List.nil_append, List.drop_succ_cons, List.drop_zero]
    rw [hcontent, hrest]

end Returns

/-! ### A group at an index -/

section Index

variable {b : Bracket} {text : Text} {i j : Nat}

theorem not_isLeast_of_eq_empty (hempty : returns b text i = ∅) : ¬IsLeast (returns b text i) j := by
  rw [hempty]
  exact fun hj => Set.notMem_empty j hj.1

theorem spanGroup_of_isLeast (ho : text[i]? = some b.opening) (hj : IsLeast (returns b text i) j) :
    spanGroup b 0 (text.drop (i + 1)) = some (segment text (i + 1) j, text.drop (j + 1)) := by
  rcases spanGroup_of_returns ho with ⟨k, hk, hspan⟩ | ⟨hempty, _⟩
  · rwa [hj.unique hk]
  · exact absurd hj (not_isLeast_of_eq_empty hempty)

theorem spanGroup_of_returns_eq_empty (ho : text[i]? = some b.opening)
    (hempty : returns b text i = ∅) : spanGroup b 0 (text.drop (i + 1)) = none := by
  rcases spanGroup_of_returns ho with ⟨j, hj, _⟩ | ⟨_, hspan⟩
  · exact absurd hj (not_isLeast_of_eq_empty hempty)
  · exact hspan

theorem groupAt_of_isLeast (ho : text[i]? = some b.opening) (hj : IsLeast (returns b text i) j) :
    groupAt text i = .ok (segment text (i + 1) j, j + 1) := by
  have hlt : j < text.length := hj.1.2.1
  have hstop : text.length - (text.drop (j + 1)).length = j + 1 := by
    rw [List.length_drop]
    omega
  simp only [groupAt, drop_eq_cons ho, readGroup, b.ofOpening?_opening,
    spanGroup_of_isLeast ho hj, Except.map, hstop]

theorem groupAt_of_returns_eq_empty (ho : text[i]? = some b.opening)
    (hempty : returns b text i = ∅) : groupAt text i = .error (.unclosed b) := by
  simp only [groupAt, drop_eq_cons ho, readGroup, b.ofOpening?_opening,
    spanGroup_of_returns_eq_empty ho hempty, Except.map]

end Index

/-! ### Groups in a row -/

/-- From one index to another one there is nothing but groups in braces and square
brackets. -/
inductive GroupRun (text : Text) : Nat → Nat → Prop where
  | stop (i : Nat) : GroupRun text i i
  | group {b : Bracket} {i j k : Nat} (hb : b ≠ .round) (ho : text[i]? = some b.opening)
      (hj : IsLeast (returns b text i) j) (hrun : GroupRun text (j + 1) k) : GroupRun text i k

section Row

variable {b : Bracket} {text : Text} {i j : Nat}

theorem groupsEnd_of_getElem? (h : text[i]?.any opensRow = false) : groupsEnd text i = .ok i := by
  rw [← List.head?_drop] at h
  rw [groupsEnd, absorbGroups_of_head h]
  rfl

/-- After a group the row goes on as it would from there. -/
theorem groupsEnd_of_isLeast (hb : b ≠ .round) (ho : text[i]? = some b.opening)
    (hj : IsLeast (returns b text i) j) : groupsEnd text i = groupsEnd text (j + 1) := by
  have hij : i < j := hj.1.1
  have hlt : j < text.length := hj.1.2.1
  have hlength : (segment text (i + 1) j).length = j - (i + 1) := by
    rw [segment, List.length_take, List.length_drop]
    omega
  rw [groupsEnd, drop_eq_cons ho, absorbGroups_cons b.ofOpening?_opening hb
    (spanGroup_of_isLeast ho hj), groupsEnd]
  cases absorbGroups (text.drop (j + 1)) with
  | error e => rfl
  | ok row =>
    refine congrArg Except.ok ?_
    simp only [List.length_cons, List.length_append, hlength]
    omega

theorem groupsEnd_of_returns_eq_empty (hb : b ≠ .round) (ho : text[i]? = some b.opening)
    (hempty : returns b text i = ∅) : groupsEnd text i = .error (.unclosed b) := by
  rw [groupsEnd, drop_eq_cons ho, absorbGroups_unclosed b.ofOpening?_opening hb
    (spanGroup_of_returns_eq_empty ho hempty)]
  rfl

/-- What comes of a row of groups that runs up to `k`: the index, unless a bracket
there is never closed. -/
inductive RowEnds (text : Text) (k : Nat) : Except Refusal Nat → Prop where
  | stops (h : text[k]?.any opensRow = false) : RowEnds text k (.ok k)
  | unclosed {b : Bracket} (hb : b ≠ .round) (ho : text[k]? = some b.opening)
      (hempty : returns b text k = ∅) : RowEnds text k (.error (.unclosed b))

theorem exists_groupRun (text : Text) (i : Nat) :
    ∃ k, GroupRun text i k ∧ RowEnds text k (groupsEnd text i) := by
  cases h : text[i]?.any opensRow with
  | false => exact ⟨i, .stop i, groupsEnd_of_getElem? h ▸ .stops h⟩
  | true =>
    obtain ⟨c, ho, hc⟩ := (Option.any_eq_true _ _).mp h
    obtain ⟨b, hb, rfl⟩ := exists_opening_of_opensRow hc
    rcases spanGroup_of_returns ho with ⟨j, hj, _⟩ | ⟨hempty, _⟩
    · obtain ⟨hij, hlt, _⟩ := hj.1
      obtain ⟨k, hrun, hends⟩ := exists_groupRun text (j + 1)
      exact ⟨k, .group hb ho hj hrun, groupsEnd_of_isLeast hb ho hj ▸ hends⟩
    · exact ⟨i, .stop i, groupsEnd_of_returns_eq_empty hb ho hempty ▸ .unclosed hb ho hempty⟩
termination_by text.length - i

theorem GroupRun.le {k : Nat} (h : GroupRun text i k) : i ≤ k := by
  induction h with
  | stop i => exact Nat.le_refl i
  | group hb ho hj _ ih =>
    have hij := hj.1.1
    omega

/-- Where a row ends, no group begins. -/
theorem RowEnds.not_isLeast {k : Nat} {outcome : Except Refusal Nat} (h : RowEnds text k outcome)
    (hb : b ≠ .round) (ho : text[k]? = some b.opening) : ¬IsLeast (returns b text k) j := by
  cases h with
  | stops h =>
    rw [ho, Option.any_some, opensRow_of_ofOpening? b.ofOpening?_opening hb] at h
    cases h
  | unclosed _ ho' hempty =>
    obtain rfl := Bracket.opening_injective (Option.some.inj (ho.symm.trans ho'))
    exact not_isLeast_of_eq_empty hempty

/-- A row runs through every index up to which there are only groups. -/
theorem GroupRun.of_rowEnds {k k' : Nat} {outcome : Except Refusal Nat} (h : GroupRun text i k')
    (hk : GroupRun text i k) (hends : RowEnds text k outcome) : GroupRun text k' k := by
  induction h with
  | stop i => exact hk
  | group hb ho hj _ ih =>
    cases hk with
    | stop => exact absurd hj (hends.not_isLeast hb ho)
    | group hb' ho' hj' hrun =>
      obtain rfl := Bracket.opening_injective (Option.some.inj (ho.symm.trans ho'))
      obtain rfl := hj.unique hj'
      exact ih hrun

end Row

/-! ### Matching brackets -/

/-- A group at an opening bracket reaches up to the first position that brings the
balance of its type back to zero, and is unclosed if there is none. A row of groups
is read up to the last index that groups alone lead to. -/
theorem groups_match (text : Text) (i : Nat) :
    (∀ b : Bracket, text[i]? = some b.opening →
      (∃ j, IsLeast (returns b text i) j ∧
        groupAt text i = .ok (segment text (i + 1) j, j + 1) ∧ i < j + 1 ∧
        surplus b (segment text (i + 1) j) = 0 ∧
        ∀ p, p <+: segment text (i + 1) j → 0 ≤ surplus b p) ∨
      (returns b text i = ∅ ∧ groupAt text i = .error (.unclosed b))) ∧
    ∃ k, IsGreatest {k | GroupRun text i k} k ∧ RowEnds text k (groupsEnd text i) := by
  constructor
  · intro b ho
    rcases spanGroup_of_returns ho with ⟨j, hj, hspan⟩ | ⟨hempty, _⟩
    · have hij : i < j := hj.1.1
      have hw := walk_of_spanGroup hspan
      have hsurplus := surplus_of_walk hw
      exact .inl ⟨j, hj, groupAt_of_isLeast ho hj, by omega, by omega,
        fun p hp => surplus_nonneg_of_front hw hp⟩
    · exact .inr ⟨hempty, groupAt_of_returns_eq_empty ho hempty⟩
  · obtain ⟨k, hrun, hends⟩ := exists_groupRun text i
    exact ⟨k, ⟨hrun, fun k' hk' => (GroupRun.of_rowEnds hk' hrun hends).le⟩, hends⟩

/-- A bracket of another type that is not closed does not matter. -/
theorem groups_match_inside :
    "\x7b(\x7d[b]".toList[0]? = some Bracket.curly.opening ∧
    ∃ j, IsLeast (returns .curly "\x7b(\x7d[b]".toList 0) j ∧
      groupAt "\x7b(\x7d[b]".toList 0 = .ok (segment "\x7b(\x7d[b]".toList 1 j, j + 1) := by
  have ho : "\x7b(\x7d[b]".toList[0]? = some Bracket.curly.opening := by decide
  have hreturn : 2 ∈ returns .curly "\x7b(\x7d[b]".toList 0 := by
    refine ⟨by decide, by decide, ?_⟩
    decide
  refine ⟨ho, ?_⟩
  rcases (groups_match "\x7b(\x7d[b]".toList 0).1 .curly ho with ⟨j, hj, hgroup, _⟩ | ⟨hempty, _⟩
  · exact ⟨j, hj, hgroup⟩
  · rw [hempty] at hreturn
    exact absurd hreturn (Set.notMem_empty 2)

end NumericAnswer
