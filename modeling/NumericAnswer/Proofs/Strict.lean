/-
# Stages that lack nothing

The marks that stages leave where they are stuck last through all later stages.
So if the stages make a text without backslashes, signs of subscripts and a
power at the end of it, and all brackets in it and in the simplified answer are
well nested, then no stage lacked anything.

Key definitions: `Stage.Spares`, `HoldsUnclosed`.
Key theorems: `Chain.marked`, `strict_passStages`, `strict_stages`.
-/
import NumericAnswer.Proofs.Mark

namespace NumericAnswer

/-! ### Which marks last -/

/-- A mark stays when the stage rewrites the text. -/
def Stage.Spares (stage : Stage) (d : Char) (K : Text → Prop) : Prop :=
  ∀ {b s t}, Rewrites false stage b s t → Marked d K s → Marked d K t

theorem Chain.marked {d : Char} {K : Text → Prop} : ∀ {stages : List Stage} {s t : Text},
    Chain false stages s t → (∀ stage ∈ stages, stage.Spares d K) → Marked d K s → Marked d K t
  | [], _, _, rfl, _, hm => hm
  | stage :: _, _, _, ⟨_, hr, hc⟩, hs, hm =>
    hc.marked (fun stage h => hs stage (List.mem_cons_of_mem _ h))
      (hs stage (List.mem_cons_self ..) hr hm)

theorem durable_leftover (names : List Text) : Durable '\\' (Leftover names) where
  isBlank := by decide +kernel
  isAlphanumeric := by decide +kernel
  noBracket := noBracket_backslash
  ne_point := by decide
  cut h hp _ hc z := h.cut hp.leadingLetters_prefix hc z
  free h := absurd rfl h

theorem durable_subscript : Durable '_' (fun _ => True) where
  isBlank := by decide +kernel
  isAlphanumeric := by decide +kernel
  noBracket := ⟨rfl, rfl⟩
  ne_point := by decide
  cut _ _ _ _ _ := trivial
  free _ _ := trivial

/-- The stage replaces commands with these names only. -/
def Stage.Reads (stage : Stage) (names : List Text) : Prop :=
  ∀ {b v out b' rest}, stage b '\\' v = .step out b' rest → leadingLetters v ∈ names

/-- A leftover command stays if the stage replaces no command that its name may
go on to be. -/
theorem Stage.spares_leftover {stage : Stage} {names read : List Text} (hl : stage.Local)
    (hr : stage.Reads read) (hne : [] ∉ read)
    (hn : ∀ n ∈ names, ∀ m ∈ read, n.isPrefixOf m = false)
    (hmove : ∀ {b c s out b' rest}, stage b c s = .step out b' rest →
      Marked '\\' (Leftover names) s → Marked '\\' (Leftover names) rest) :
    stage.Spares '\\' (Leftover names) := by
  intro b s t h hm
  refine h.marked (fun hk hr => hk.rewrites hl hr) (fun hk hs => ?_)
    (fun hs hm => .inr (hmove hs hm)) hm
  have hread := hr hs
  rcases hk.leadingLetters with he | ⟨n, hmem, hp⟩
  · rw [he] at hread
    exact hne hread
  · have := hn n hmem _ hread
    rw [List.isPrefixOf_iff_prefix.mpr hp] at this
    cases this

/-- A mark at which the stage finds nothing stays. -/
theorem Stage.spares_plain {stage : Stage} {d : Char} {K : Text → Prop} (hl : stage.Local)
    (hd : d ∉ triggers) (hkeep : ∀ {b v w}, K v → Rewrites false stage b v w → K w)
    (hmove : ∀ {b c s out b' rest}, stage b c s = .step out b' rest → Marked d K s →
      Marked d K rest) : stage.Spares d K := by
  intro b s t h hm
  refine h.marked hkeep (fun {b v out b' rest} _ hs => ?_) (fun hs hm => .inr (hmove hs hm)) hm
  rw [hl.plain b v hd] at hs
  cases hs

section Passes

variable {p : Pass} {names : List Text} {build : Text → Except Refusal (Text × Text)}
  {ended : Char → Text → Bool} {b b' : Option Char} {c : Char} {s v out rest : Text}

theorem Stage.exists_site_of_step (h : pass p ended b c s = .step out b' rest) :
    ∃ n r rest', p.site? c s = some ⟨n, .ok (r, rest')⟩ := by
  unfold pass at h
  split at h
  · next n r rest' hs => exact ⟨n, r, rest', hs⟩
  · cases h
  · split at h <;> cases h
  · cases h

theorem Stage.reads_command (hp : ∀ c s, p.site? c s =
    if c = '\\' && names.contains (leadingLetters s) then
      some (siteAt s (leadingLetters s).length build) else none) : (strictPass p).Reads names := by
  intro b v out b' rest h
  obtain ⟨n, r, rest', hs⟩ := exists_site_of_step h
  rw [hp] at hs
  split at hs
  · next hc =>
    simp only [Bool.and_eq_true, decide_eq_true_eq] at hc
    simpa using hc.2
  · cases hs

theorem Stage.spares_leftover_fraction : (strictPass .fraction).Spares '\\' (Leftover []) := by
  refine spares_leftover local_fraction (reads_command fun _ _ => rfl) (by decide)
    (by simp) fun h => ?_
  exact Durable.marked_of_step_pass (fun hs => (durable_leftover _).marked_of_command
    (fun _ _ => rfl) (durable_leftover _).marked_buildFraction hs) h

theorem Stage.spares_leftover_root :
    (strictPass .root).Spares '\\' (Leftover fractionCommands) := by
  refine spares_leftover local_root (reads_command site_root) (by decide)
    (by decide) fun h => ?_
  exact Durable.marked_of_step_pass (fun hs => (durable_leftover _).marked_of_command
    site_root (durable_leftover _).marked_buildRoot hs) h

end Passes

/-! ### The later stages -/

/-- The commands that no later stage replaces. -/
def leftoverNames : List Text :=
  fractionCommands ++ ["sqrt".toList]

/-- The commands that the stages after roots replace. -/
def lateNames : List Text :=
  UnaryFunction.commands.map (fun f => f.name.toList) ++
    ["times".toList, "cdot".toList, "ast".toList, "div".toList, "pi".toList, "e".toList]

theorem mem_lateNames_of_ofCommand? {n : Text} {f : UnaryFunction}
    (h : UnaryFunction.ofCommand? n = some f) : n ∈ lateNames := by
  have hf := List.mem_of_find?_eq_some h
  have hn : f.name.toList = n := by simpa using List.find?_some h
  exact List.mem_append_left _ (List.mem_map.mpr ⟨f, hf, hn⟩)

theorem Stage.reads_logBase : (strictPass .logBase).Reads lateNames := by
  intro b v out b' rest h
  obtain ⟨n, r, rest', hs⟩ := exists_site_of_step h
  simp only [Pass.logBase, logBaseSite?] at hs
  split at hs
  · next hc =>
    simp only [decide_true, Bool.true_and, decide_eq_true_eq] at hc
    rw [hc]
    decide
  · cases hs

theorem Stage.reads_functionPower : functionPower.Reads lateNames := by
  intro b v out b' rest h
  obtain ⟨n, r, rest', hs⟩ := exists_site_of_step h
  simp only [Pass.functionPower, functionPowerSite?, if_true] at hs
  obtain ⟨f, hf, _⟩ := Option.bind_eq_some_iff.mp hs
  exact mem_lateNames_of_ofCommand? hf

/-- The rule replaces commands with late names only. -/
def Rule.ReadsLate (rule : Rule) : Prop :=
  ∀ {v r : Text} {n : Nat}, rule '\\' v = some (r, n) → leadingLetters v ∈ lateNames

theorem Stage.reads_substitution {rule : Option Char → Rule} {ended : Char → Text → Bool}
    (hr : ∀ b, (rule b).ReadsLate) : (substitution rule ended).Reads lateNames := by
  intro b v out b' rest h
  unfold substitution at h
  split at h
  · next hs => exact hr b hs
  · split at h <;> cases h

namespace Rule

theorem ReadsLate.apart {rule : Rule} (h : rule.ReadsLate) (b : Option Char) :
    (rule.apart b).ReadsLate := by
  intro v r n hs
  obtain ⟨⟨word, n'⟩, hw, _⟩ := Option.map_eq_some_iff.mp hs
  exact h hw

theorem ReadsLetters.apart {rule : Rule} (h : rule.ReadsLetters) (b : Option Char) :
    (rule.apart b).ReadsLetters := by
  intro c s r n hs
  obtain ⟨⟨word, n'⟩, hw, he⟩ := Option.map_eq_some_iff.mp hs
  obtain ⟨rfl, rfl⟩ := Prod.mk.inj he
  exact h hw

theorem isAsciiLetter_of_mem_take {s : Text} :
    ∀ x ∈ s.take (leadingLetters s).length, isAsciiLetter x = true := by
  rw [take_leadingLetters]
  exact isAsciiLetter_of_mem_leadingLetters

theorem readsLetters_command {names : List Text} {replacement : Text} :
    (command names fun length _ => some (replacement, length)).ReadsLetters := by
  intro c s r n h
  simp only [command] at h
  split at h
  · obtain ⟨rfl, rfl⟩ := Prod.mk.inj (Option.some.inj h)
    exact isAsciiLetter_of_mem_take
  · cases h

theorem readsLate_command {names : List Text} {build : Nat → Text → Option (Text × Nat)}
    (hn : ∀ n ∈ names, n ∈ lateNames) : (command names build).ReadsLate := by
  intro v r n h
  simp only [command] at h
  split at h
  · next hc =>
    simp only [Bool.and_eq_true, List.contains_eq_mem, decide_eq_true_eq] at hc
    exact hn _ hc.2
  · cases h

theorem readsLetters_functionName : functionName.ReadsLetters := by
  intro c s r n h
  unfold functionName at h
  split at h
  · obtain ⟨f, _, he⟩ := Option.map_eq_some_iff.mp h
    obtain ⟨rfl, rfl⟩ := Prod.mk.inj he
    exact isAsciiLetter_of_mem_take
  · cases h

theorem readsLate_functionName : functionName.ReadsLate := by
  intro v r n h
  unfold functionName at h
  rw [if_pos rfl] at h
  obtain ⟨f, hf, _⟩ := Option.map_eq_some_iff.mp h
  exact mem_lateNames_of_ofCommand? hf

theorem readsLetters_sign : sign.ReadsLetters := by
  intro c s r n h
  unfold sign at h
  simp only at h
  split at h
  · cases h; simp
  · split at h
    · cases h; simp
    · split at h
      · cases h; simp
      · split at h
        · split at h
          · cases h; exact isAsciiLetter_of_mem_take
          · split at h
            · cases h; exact isAsciiLetter_of_mem_take
            · cases h
        · cases h

theorem readsLate_sign : sign.ReadsLate := by
  have hlate : ∀ n ∈ ["times".toList, "cdot".toList, "ast".toList, "div".toList],
      n ∈ lateNames := by decide
  intro v r n h
  have hg : timesGlyphs.contains '\\' = false := by decide
  unfold sign at h
  simp only [hg, Bool.false_eq_true, if_false, show ('\\' : Char) ≠ '÷' by decide,
    show ('\\' : Char) ≠ '−' by decide, if_true] at h
  split at h
  · next hc =>
    refine hlate _ ?_
    simp only [List.contains_eq_mem, decide_eq_true_eq, List.mem_cons, List.not_mem_nil,
      or_false] at hc ⊢
    tauto
  · split at h
    · next hc =>
      rw [hc]
      exact hlate _ (by simp)
    · cases h

theorem readsLetters_pi : pi.ReadsLetters := by
  intro c s r n h
  unfold pi at h
  split at h
  · cases h; simp
  · exact readsLetters_command h

theorem readsLate_pi : pi.ReadsLate := by
  intro v r n h
  unfold pi at h
  rw [if_neg (by decide)] at h
  exact readsLate_command (by decide) h

end Rule

namespace Canonical

/-- A leftover command lasts. -/
theorem spares_leftover_late : ∀ stage ∈ [Stage.strictPass .logBase, Stage.functionPower] ++
    wordStages, stage.Spares '\\' (Leftover leftoverNames) := by
  have hne : [] ∉ lateNames := by decide
  have hn : ∀ n ∈ leftoverNames, ∀ m ∈ lateNames, n.isPrefixOf m = false := by decide
  have hd := durable_leftover leftoverNames
  have hsub : ∀ {rule : Option Char → Rule} {ended : Char → Text → Bool},
      (Stage.substitution rule ended).Local → (∀ b, (rule b).ReadsLate) →
      (∀ b, (rule b).ReadsLetters) →
      (Stage.substitution rule ended).Spares '\\' (Leftover leftoverNames) := by
    intro rule ended hl hlate hletters
    exact Stage.spares_leftover hl (Stage.reads_substitution hlate) hne hn
      (marked_of_step_substitution hletters (by decide))
  have hw := local_of_mem_wordStages
  simp only [wordStages, List.forall_mem_cons] at hw
  simp only [wordStages, List.cons_append, List.nil_append, List.forall_mem_cons]
  refine ⟨?_, ?_, ?_, ?_, ?_, ?_, by simp⟩
  · exact Stage.spares_leftover Stage.local_logBase Stage.reads_logBase hne hn
      (Durable.marked_of_step_pass (hd.marked_of_logBase (by decide)))
  · exact Stage.spares_leftover Stage.local_functionPower Stage.reads_functionPower hne hn
      (Durable.marked_of_step_pass (hd.marked_of_functionPower (by decide)))
  · exact hsub hw.1 Rule.readsLate_functionName.apart Rule.readsLetters_functionName.apart
  · exact hsub hw.2.1 (fun _ => Rule.readsLate_sign) fun _ => Rule.readsLetters_sign
  · exact hsub hw.2.2.1 Rule.readsLate_pi.apart Rule.readsLetters_pi.apart
  · exact hsub hw.2.2.2.1 (Rule.ReadsLate.apart (Rule.readsLate_command (by decide)))
      (Rule.ReadsLetters.apart Rule.readsLetters_command)

/-- A mark that is no command lasts in the stages of words and signs. -/
theorem spares_of_mem_wordStages {d : Char} {K : Text → Prop} (hd : d ∉ triggers)
    (hletter : isAsciiLetter d = false)
    (hkeep : ∀ {stage : Stage} {b v w}, stage.Local → K v → Rewrites false stage b v w → K w) :
    ∀ stage ∈ wordStages, stage.Spares d K := by
  have hsub : ∀ {rule : Option Char → Rule} {ended : Char → Text → Bool},
      (Stage.substitution rule ended).Local → (∀ b, (rule b).ReadsLetters) →
      (Stage.substitution rule ended).Spares d K := by
    intro rule ended hl hletters
    exact Stage.spares_plain hl hd (hkeep hl) (marked_of_step_substitution hletters hletter)
  have hw := local_of_mem_wordStages
  simp only [wordStages, List.forall_mem_cons] at hw ⊢
  exact ⟨hsub hw.1 Rule.readsLetters_functionName.apart,
    hsub hw.2.1 fun _ => Rule.readsLetters_sign,
    hsub hw.2.2.1 Rule.readsLetters_pi.apart,
    hsub hw.2.2.2.1 (Rule.ReadsLetters.apart Rule.readsLetters_command), by simp⟩

theorem notMem_triggers_subscript : '_' ∉ triggers := by decide

/-- The sign of a subscript lasts. -/
theorem spares_subscript : ∀ stage ∈ Stage.functionPower :: wordStages,
    stage.Spares '_' fun _ => True := by
  simp only [List.forall_mem_cons]
  refine ⟨?_, spares_of_mem_wordStages notMem_triggers_subscript (by decide)
    fun _ _ _ => trivial⟩
  exact Stage.spares_plain Stage.local_functionPower notMem_triggers_subscript
    (fun _ _ => trivial)
    (Durable.marked_of_step_pass (durable_subscript.marked_of_functionPower (by decide)))

/-- The sign of a power at the end lasts. -/
theorem spares_caret : ∀ stage ∈ wordStages, stage.Spares '^' fun v => isAllBlank v = true := by
  refine spares_of_mem_wordStages (by decide) (by decide) fun {stage b v w} hl hk hr => ?_
  have hplain : ∀ c ∈ v, c ∉ triggers :=
    fun c hc => notMem_triggers_of_isBlank (List.all_eq_true.mp hk c hc)
  rw [← List.append_nil v] at hr
  obtain ⟨_, t, rfl, ht⟩ := hr.eq_append hl hplain
  rw [ht.eq_nil, List.append_nil]
  exact hk

end Canonical

/-! ### Groups that are never closed -/

/-- The text has an opening bracket whose group is never closed. -/
def HoldsUnclosed (b : Bracket) (s : Text) : Prop :=
  ∃ u v, s = u ++ b.opening :: v ∧ spanGroup b 0 v = none

section Unclosed

variable {b : Bracket} {s t argument rest : Text}

theorem HoldsUnclosed.append_left (h : HoldsUnclosed b s) (t : Text) : HoldsUnclosed b (t ++ s) := by
  obtain ⟨u, v, rfl, hv⟩ := h
  exact ⟨t ++ u, v, by simp, hv⟩

theorem HoldsUnclosed.of_suffix (h : HoldsUnclosed b s) (hs : s <:+ t) : HoldsUnclosed b t := by
  obtain ⟨u, rfl⟩ := hs
  exact h.append_left u

/-- Counting does not end such a group. -/
theorem HoldsUnclosed.walk_ne (h : HoldsUnclosed b s) (depth : Nat) : walk b depth s ≠ some 0 := by
  obtain ⟨u, v, rfl, hv⟩ := h
  intro hw
  obtain ⟨m, _, hm⟩ := walks_of_append hw
  obtain ⟨e, he⟩ := walk_of_spanGroup_eq_none hv
  rw [walk_opening, Nat.add_comm, ← Nat.zero_add 1, walk_add he m] at hm
  simp at hm

theorem holdsUnclosed_of_readGroup (h : readGroup s = .error (.unclosed b)) :
    HoldsUnclosed b s := by
  unfold readGroup at h
  split at h
  · cases h
  · next c s =>
    split at h
    · cases h
    · next bracket hb =>
      split at h
      · cases h
      · next hs =>
        obtain rfl : bracket = b := by simpa using h
        rw [Bracket.ofOpening?_eq_some_iff.mp hb]
        exact ⟨[], s, rfl, hs⟩

theorem error_of_map_error {ε α β : Type} {x : Except ε α} {f : α → β} {e : ε}
    (h : x.map f = .error e) : x = .error e := by
  cases x with
  | error e' => exact congrArg _ (Except.error.inj h)
  | ok a => cases h

/-- A step of a computation fails or a later one does. -/
theorem error_of_bind_error {ε α β : Type} {x : Except ε α} {f : α → Except ε β} {e : ε}
    (h : (x >>= f) = .error e) : x = .error e ∨ ∃ a, x = .ok a ∧ f a = .error e := by
  cases x with
  | error e' => exact .inl (congrArg _ (Except.error.inj h))
  | ok a => exact .inr ⟨a, rfl, h⟩

theorem holdsUnclosed_of_absorbGroups (h : absorbGroups s = .error (.unclosed b)) :
    HoldsUnclosed b s := by
  fun_induction absorbGroups s with
  | case1 => cases h
  | case2 => cases h
  | case3 => cases h
  | case4 c t bracket _ hb hs =>
    obtain rfl : bracket = b := by simpa using h
    rw [Bracket.ofOpening?_eq_some_iff.mp hb]
    exact ⟨[], t, rfl, hs⟩
  | case5 c t bracket _ _ content rest hs ih =>
    rw [← append_of_spanGroup hs]
    have := ih (error_of_map_error h)
    exact ((this.append_left [bracket.closing]).append_left content).append_left [c]

theorem suffix_dropBlanks (s : Text) : dropBlanks s <:+ s :=
  List.dropWhile_suffix _

theorem holdsUnclosed_of_macroArgument (h : macroArgument s = .error (.unclosed b)) :
    HoldsUnclosed b s := by
  refine HoldsUnclosed.of_suffix ?_ (suffix_dropBlanks s)
  unfold macroArgument at h
  simp only at h
  split at h
  · exact holdsUnclosed_of_readGroup h
  · split at h
    · exact (holdsUnclosed_of_absorbGroups (error_of_map_error h)).of_suffix (List.drop_suffix _ _)
    · unfold singleToken at h
      split at h
      · cases h
      · split at h
        · cases h
        · split at h <;> cases h

theorem holdsUnclosed_of_functionArgument (h : functionArgument s = .error (.unclosed b)) :
    HoldsUnclosed b s := by
  refine HoldsUnclosed.of_suffix ?_ (suffix_dropBlanks s)
  unfold functionArgument at h
  simp only at h
  split at h
  · exact holdsUnclosed_of_readGroup h
  · split at h
    · cases h
    · next operand rest heq =>
      split at h
      · rw [← append_of_bareOperand heq]
        exact (holdsUnclosed_of_absorbGroups (error_of_map_error h)).append_left _
      · cases h

theorem suffix_of_spanGroup {content : Text} (h : spanGroup b 0 s = some (content, rest)) :
    rest <:+ s :=
  ⟨content ++ [b.closing], by rw [← append_of_spanGroup h]; simp⟩

theorem suffix_of_readGroup (h : readGroup s = .ok (argument, rest)) : rest <:+ s := by
  obtain ⟨b, rfl⟩ := append_of_readGroup h
  exact ⟨b.opening :: (argument ++ [b.closing]), by simp⟩

/-- What follows an argument of a macro ends the text. -/
theorem suffix_of_macroArgument (h : macroArgument s = .ok (argument, rest)) : rest <:+ s := by
  obtain ⟨t, ht, hcase⟩ := macroArgument_cases h
  refine List.IsSuffix.trans ?_ (suffix_dropBlanks s)
  rw [ht]
  cases hcase with
  | group hg => exact (suffix_of_spanGroup hg).trans (List.suffix_cons _ _)
  | @word t groups _ w _ ha =>
    rw [← append_of_absorbGroups ha, ← List.append_assoc]
    exact List.suffix_append _ _
  | command t => exact (List.dropWhile_suffix _).trans (List.suffix_cons _ _)
  | character => exact List.suffix_cons _ _

theorem holdsUnclosed_of_buildFraction (h : buildFraction s = .error (.unclosed b)) :
    HoldsUnclosed b s := by
  rcases error_of_bind_error h with hn | ⟨⟨numerator, after⟩, hn, h⟩
  · exact holdsUnclosed_of_macroArgument hn
  · rcases error_of_bind_error h with hd | ⟨_, _, h⟩
    · exact (holdsUnclosed_of_macroArgument hd).of_suffix (suffix_of_macroArgument hn)
    · cases h

theorem holdsUnclosed_of_buildRoot (h : buildRoot s = .error (.unclosed b)) :
    HoldsUnclosed b s := by
  unfold buildRoot at h
  split at h
  · rcases error_of_bind_error h with hd | ⟨⟨degree, after⟩, hd, h⟩
    · exact (holdsUnclosed_of_readGroup hd).of_suffix (suffix_dropBlanks s)
    · rcases error_of_bind_error h with hr | ⟨_, _, h⟩
      · exact (holdsUnclosed_of_macroArgument hr).of_suffix
          ((suffix_of_readGroup hd).trans (suffix_dropBlanks s))
      · cases h
  · rcases error_of_bind_error h with hr | ⟨_, _, h⟩
    · exact holdsUnclosed_of_macroArgument hr
    · cases h

theorem holdsUnclosed_of_buildLogBase (h : buildLogBase s = .error (.unclosed b)) :
    HoldsUnclosed b s := by
  rcases error_of_bind_error h with hb | ⟨_, _, h⟩
  · exact holdsUnclosed_of_macroArgument hb
  · cases h

theorem holdsUnclosed_of_buildFunctionPower {f : UnaryFunction}
    (h : buildFunctionPower f s = .error (.unclosed b)) : HoldsUnclosed b s := by
  rcases error_of_bind_error h with he | ⟨⟨exponent, after⟩, he, h⟩
  · exact holdsUnclosed_of_macroArgument he
  · simp only at h
    split at h
    · cases h
    · rcases error_of_bind_error h with ha | ⟨_, _, h⟩
      · exact (holdsUnclosed_of_functionArgument ha).of_suffix (suffix_of_macroArgument he)
      · cases h

/-- A site whose arguments are not closed holds such a group. -/
theorem holdsUnclosed_of_siteAt {n n' : Nat} {build : Text → Except Refusal (Text × Text)}
    (hb : ∀ {s}, build s = .error (.unclosed b) → HoldsUnclosed b s)
    (h : siteAt s n build = ⟨n', .error (.unclosed b)⟩) : HoldsUnclosed b s :=
  (hb (Site.mk.inj h).2).of_suffix (List.drop_suffix _ _)

end Unclosed

/-- What a stage of a pass finds unclosed is so. -/
theorem Stage.exists_holdsUnclosed {p : Pass} {ended : Char → Text → Bool}
    (hp : ∀ {c s n b}, p.site? c s = some ⟨n, .error (.unclosed b)⟩ → HoldsUnclosed b s)
    {b : Option Char} {c : Char} {s : Text} (h : pass p ended b c s = .unclosed) :
    ∃ b, HoldsUnclosed b (c :: s) := by
  unfold pass at h
  split at h
  · cases h
  · next bracket hs => exact ⟨bracket, (hp hs).append_left [c]⟩
  · split at h <;> cases h
  · cases h

theorem Pass.holdsUnclosed_fraction {c : Char} {s : Text} {n : Nat} {b : Bracket}
    (h : fraction.site? c s = some ⟨n, .error (.unclosed b)⟩) : HoldsUnclosed b s := by
  simp only [fraction, fractionSite?] at h
  split at h
  · exact holdsUnclosed_of_siteAt holdsUnclosed_of_buildFraction (Option.some.inj h)
  · cases h

theorem Pass.holdsUnclosed_root {c : Char} {s : Text} {n : Nat} {b : Bracket}
    (h : root.site? c s = some ⟨n, .error (.unclosed b)⟩) : HoldsUnclosed b s := by
  simp only [root, rootSite?] at h
  split at h
  · exact holdsUnclosed_of_siteAt holdsUnclosed_of_buildRoot (Option.some.inj h)
  · cases h

theorem Pass.holdsUnclosed_logBase {c : Char} {s : Text} {n : Nat} {b : Bracket}
    (h : logBase.site? c s = some ⟨n, .error (.unclosed b)⟩) : HoldsUnclosed b s := by
  simp only [logBase, logBaseSite?] at h
  split at h
  · obtain ⟨k, _, hs⟩ := Option.map_eq_some_iff.mp h
    exact holdsUnclosed_of_siteAt holdsUnclosed_of_buildLogBase hs
  · cases h

theorem Pass.holdsUnclosed_functionPower {c : Char} {s : Text} {n : Nat} {b : Bracket}
    (h : functionPower.site? c s = some ⟨n, .error (.unclosed b)⟩) : HoldsUnclosed b s := by
  simp only [functionPower, functionPowerSite?] at h
  split at h
  · obtain ⟨f, _, hf⟩ := Option.bind_eq_some_iff.mp h
    obtain ⟨k, _, hs⟩ := Option.map_eq_some_iff.mp hf
    exact holdsUnclosed_of_siteAt holdsUnclosed_of_buildFunctionPower hs
  · cases h

/-! ### Stages of the simplification -/

theorem marked_nil_iff {d : Char} {s : Text} : Marked d (· = []) s ↔ s.getLast? = some d := by
  rw [List.getLast?_eq_some_iff]
  constructor
  · rintro ⟨u, v, rfl, rfl⟩
    exact ⟨u, rfl⟩
  · rintro ⟨u, rfl⟩
    exact ⟨u, [], rfl, rfl⟩

/-- The rule takes no backslash last, and none at the end of the text. -/
def Rule.LeavesBackslash (rule : Rule) : Prop :=
  rule '\\' [] = none ∧
    ∀ {c s r n}, rule c s = some (r, n) → (s.take n).getLast? ≠ some '\\'

/-- A backslash at the end of the text lasts. -/
theorem Stage.spares_backslash {rule : Rule} (hr : rule.LeavesBackslash)
    {ended : Char → Text → Bool} :
    (substitution (fun _ => rule) ended).Spares '\\' (· = []) := by
  intro b s t h hm
  refine h.marked (fun {b v w} hv hw => ?_) (fun {b v out b' rest} hv hs => ?_)
    (fun {b c s out b' rest} hs hm => ?_) hm
  · subst hv
    exact hw.eq_nil
  · subst hv
    unfold substitution at hs
    simp only [hr.1] at hs
    split at hs <;> cases hs
  · unfold substitution at hs
    split at hs
    · next r n hrule =>
      obtain ⟨rfl, rfl, rfl⟩ := Found.step.inj hs
      refine .inr ?_
      rw [marked_nil_iff] at hm ⊢
      have hlt : n < s.length := by
        by_contra hle
        have := hr.2 hrule
        rw [List.take_of_length_le (Nat.le_of_not_lt hle)] at this
        exact this hm
      rw [List.getLast?_drop, if_neg (by omega)]
      exact hm
    · split at hs <;> cases hs

/-- A stage that looks behind a backslash is strict, or leaves one at the end. -/
theorem Rewrites.strict_or_escape {rule : Rule} {s t : Text} {b : Option Char}
    (h : Rewrites false (.escape rule) b s t) :
    Rewrites true (.escape rule) b s t ∨ Marked '\\' (· = []) t := by
  refine h.strict_or (P := fun _ => True) (fun _ => trivial) (fun _ _ => trivial)
    (fun u hm => hm.append_left u) (fun {b c s t} _ hs ht => ?_)
    (fun _ hs => absurd hs Stage.substitution_ne_unclosed) trivial
  unfold Stage.escape Stage.substitution at hs
  split at hs
  · cases hs
  · split at hs
    · next he =>
      simp only [Bool.and_eq_true, decide_eq_true_eq, List.isEmpty_iff] at he
      obtain ⟨rfl, rfl⟩ := he
      exact ⟨[], t, rfl, ht.eq_nil⟩
    · cases hs

namespace Rule

/-- The rule takes no backslash along behind the character it starts at. -/
def TakesNoBackslash (rule : Rule) : Prop :=
  ∀ ⦃c s r n⦄, rule c s = some (r, n) → '\\' ∉ s.take n

theorem TakesNoBackslash.leavesBackslash {rule : Rule} (h : rule.TakesNoBackslash)
    (hnil : rule '\\' [] = none) : rule.LeavesBackslash :=
  ⟨hnil, fun hs hlast => h hs (List.mem_of_getLast? hlast)⟩

theorem backslash_notMem_leadingLetters (s : Text) : '\\' ∉ leadingLetters s :=
  fun h => absurd (isAsciiLetter_of_mem_leadingLetters _ h) (by decide)

theorem takesNoBackslash_bar : bar.TakesNoBackslash := by
  intro c s r n h
  simp only [bar, command] at h
  split at h
  · obtain ⟨rfl, rfl⟩ := Prod.mk.inj (Option.some.inj h)
    rw [take_leadingLetters]
    exact backslash_notMem_leadingLetters s
  · cases h

theorem takesNoBackslash_escapedBrace : escapedBrace.TakesNoBackslash := by
  intro c s r n h
  have hbrace : ∀ {d : Char}, s.head? = some d → '\\' ≠ d → '\\' ∉ s.take 1 := by
    intro d hd hne
    obtain ⟨s', rfl⟩ := List.head?_eq_some_iff.mp hd
    simpa using hne
  unfold escapedBrace at h
  split at h
  · cases h
  · split at h
    · next ho =>
      obtain ⟨rfl, rfl⟩ := Prod.mk.inj (Option.some.inj h)
      exact hbrace ho (by decide)
    · split at h
      · next hc =>
        obtain ⟨rfl, rfl⟩ := Prod.mk.inj (Option.some.inj h)
        exact hbrace hc (by decide)
      · cases h

/-- The braces after a command end in one. -/
theorem leavesBackslash_wrapper {names : List Text} (hn : [] ∉ names) {make : Text → Text} :
    (command names fun length rest =>
      (braced? rest).map fun (content, braces) =>
        (make content, length + braces)).LeavesBackslash := by
  refine ⟨by simp [command, leadingLetters, hn], fun {c s r n} h => ?_⟩
  obtain ⟨-, bl, content, -, -, -, htake⟩ := take_of_wrapper make h
  have hsplit : s.take n = (leadingLetters s ++ (bl ++ '\x7b' :: content)) ++ ['\x7d'] := by
    rw [htake]
    simp
  rw [hsplit, List.getLast?_concat]
  decide

end Rule

namespace Canonical

theorem nest_upright (content : Text) (opened : List Bracket)
    (h : nest opened content = some opened) :
    nest opened (if (UnaryFunction.ofCommand? (strip content)).isSome then
      '\\' :: strip content else strip content) = some opened := by
  split
  · rw [nest_cons noBracket_backslash, followsBrackets_nest.strip, h]
  · rw [followsBrackets_nest.strip, h]

theorem nested_of_rewrites_plain {rule : Rule} (hr : rule.Plain) {strict : Bool}
    {ended : Char → Text → Bool} {b : Option Char} {s t : Text}
    (h : Rewrites strict (.substitution (fun _ => rule) ended) b s t) (hs : Nested s) :
    Nested t :=
  (followsBrackets_nest.rewrites_plain (fun _ => hr) h []).symm.trans hs

/-- The simplification of a well-nested answer lacks nothing, unless it leaves
a backslash at the end. -/
theorem strict_cosmeticStages {s t : Text} (hs : Nested s) (h : Chain false cosmeticStages s t)
    (ht : ¬Marked '\\' (· = []) t) : Chain true cosmeticStages s t := by
  obtain ⟨s₁, h₁, s₂, h₂, s₃, h₃, s₄, h₄, s₅, h₅, s₆, h₆, s₇, h₇, rfl⟩ := h
  have hn₁ := nested_of_rewrites_plain Rule.plain_style h₁ hs
  have hn₂ := nested_of_rewrites_plain Rule.plain_sizing h₂ hn₁
  have hn₃ := nested_of_rewrites_plain Rule.plain_spacing h₃ hn₂
  have hannotation : ∀ content opened, nest opened content = some opened →
      nest opened ((fun _ => []) content) = some opened := fun _ _ _ => rfl
  have hn₄ : Nested s₄ := h₄.scan nest_append (nest_of_step_wrapper hannotation) hn₃
  have h₄' := Stage.spares_backslash (@Rule.leavesBackslash_wrapper Rule.annotationNames
    (by decide) fun _ => []) h₄
  have h₅' := Stage.spares_backslash (@Rule.leavesBackslash_wrapper Rule.uprightNames
    (by decide) fun content => if (UnaryFunction.ofCommand? (strip content)).isSome then
      '\\' :: strip content else strip content) h₅
  have h₆' := Stage.spares_backslash (Rule.takesNoBackslash_bar.leavesBackslash (by decide)) h₆
  have h₇' := Stage.spares_backslash
    (Rule.takesNoBackslash_escapedBrace.leavesBackslash (by decide)) h₇
  have hs₃ := h₃.strict_or_escape.resolve_right fun hm => ht (h₇' (h₆' (h₅' (h₄' hm))))
  have hs₇ := h₇.strict_or_escape.resolve_right ht
  exact ⟨s₁, h₁.toStrict_always, s₂, h₂.toStrict_always, s₃, hs₃, s₄,
    h₄.toStrict_wrapper hannotation hn₃, s₅, h₅.toStrict_wrapper nest_upright hn₄, s₆,
    h₆.toStrict_always, s₇, hs₇, rfl⟩

end Canonical

/-! ### Stages of the passes -/

/-- For each type, some number of open brackets is closed by the text. -/
def CountsOut (s : Text) : Prop :=
  ∀ b, ∃ depth, walk b depth s = some 0

theorem CountsOut.of_append {s t : Text} (h : CountsOut (s ++ t)) : CountsOut t := by
  intro b
  obtain ⟨depth, hw⟩ := h b
  obtain ⟨m, _, hm⟩ := walks_of_append hw
  exact ⟨m, hm⟩

theorem CountsOut.not_holdsUnclosed {s : Text} (h : CountsOut s) (b : Bracket) :
    ¬HoldsUnclosed b s := by
  intro hu
  obtain ⟨depth, hw⟩ := h b
  exact hu.walk_ne depth hw

section Passes

variable {p : Pass} {ended : Char → Text → Bool} {b : Option Char} {c : Char} {s t : Text}

theorem Stage.exists_site_of_short (h : pass p ended b c s = .short) :
    ∃ n, p.site? c s = some ⟨n, .error .absent⟩ ∧ ended c s = true := by
  unfold pass at h
  split at h
  · cases h
  · cases h
  · next n hs =>
    split at h
    · next he => exact ⟨n, hs, he⟩
    · cases h
  · cases h

/-- Letters stand in front of what a stage makes of the text. -/
theorem exists_append_of_letters {stage : Stage} (hl : stage.Local)
    (h : Rewrites false stage b s t) : ∃ b' t', t = leadingLetters s ++ t' ∧
      Rewrites false stage b' (s.drop (leadingLetters s).length) t' := by
  rw [← leadingLetters_append s] at h
  exact h.eq_append hl fun c hc =>
    isAsciiLetter_notMem_triggers (isAsciiLetter_of_mem_leadingLetters c hc)

theorem isName_of_mem {names : List Text} (hn : ∀ n ∈ names, IsName n) {s : Text}
    (h : names.contains (leadingLetters s) = true) : IsName (leadingLetters s) :=
  hn _ (by simpa using h)

/-- A stage over commands that keeps the counts is strict, or leaves one of its
commands. -/
theorem Rewrites.strict_or_command {names : List Text}
    {build : Text → Except Refusal (Text × Text)} (hl : (Stage.strictPass p).Local)
    (hp : ∀ c s, p.site? c s = if c = '\\' && names.contains (leadingLetters s) then
      some (siteAt s (leadingLetters s).length build) else none)
    (hn : ∀ n ∈ names, IsName n)
    (hu : ∀ {c s n b}, p.site? c s = some ⟨n, .error (.unclosed b)⟩ → HoldsUnclosed b s)
    (hstep : ∀ {b c s out b' rest}, Stage.strictPass p b c s = .step out b' rest →
      CountsOut (c :: s) → CountsOut rest)
    (h : Rewrites false (.strictPass p) b s t) (hs : CountsOut s) :
    Rewrites true (.strictPass p) b s t ∨ Marked '\\' (Leftover names) t := by
  refine h.strict_or (P := CountsOut) (M := Marked '\\' (Leftover names))
    (fun {c s} hc => CountsOut.of_append (s := [c]) hc) hstep
    (fun u hm => hm.append_left u) (fun {b c s t} _ hs ht => ?_) (fun {b c s} hc hs => ?_) hs
  · obtain ⟨n, hsite, _⟩ := Stage.exists_site_of_short hs
    rw [hp] at hsite
    split at hsite
    · next hc =>
      simp only [Bool.and_eq_true, decide_eq_true_eq] at hc
      obtain ⟨_, t', rfl, _⟩ := exists_append_of_letters hl ht
      refine ⟨[], _, by rw [hc.1]; rfl, .inl ⟨_, ?_, isName_of_mem hn hc.2, List.prefix_append _ _⟩⟩
      simpa using hc.2
    · cases hsite
  · obtain ⟨b, hb⟩ := Stage.exists_holdsUnclosed hu hs
    exact absurd hb (hc.not_holdsUnclosed b)

/-- A step that keeps the counts of a text keeps those of what is left. -/
theorem countsOut_of_step (stage : Stage) (h : ∀ {bracket b c s out b' rest},
      stage b c s = .step out b' rest → ∀ {depth e}, walk bracket depth (c :: s) = some e →
        walk bracket depth (out ++ rest) = some e)
    {b b' : Option Char} {c : Char} {s out rest : Text} (hs : stage b c s = .step out b' rest)
    (hc : CountsOut (c :: s)) : CountsOut rest := by
  refine CountsOut.of_append (s := out) fun bracket => ?_
  obtain ⟨depth, hw⟩ := hc bracket
  exact ⟨depth, h hs hw⟩

theorem Rewrites.strict_or_fraction (h : Rewrites false (.strictPass .fraction) b s t)
    (hs : CountsOut s) : Rewrites true (.strictPass .fraction) b s t ∨
      Marked '\\' (Leftover fractionCommands) t :=
  h.strict_or_command Stage.local_fraction (fun _ _ => rfl)
    (by decide) Pass.holdsUnclosed_fraction
    (countsOut_of_step (.strictPass .fraction)
      (walk_of_step_command (fun _ _ => rfl) walk_buildFraction)) hs

theorem Rewrites.strict_or_root (h : Rewrites false (.strictPass .root) b s t)
    (hs : CountsOut s) : Rewrites true (.strictPass .root) b s t ∨
      Marked '\\' (Leftover ["sqrt".toList]) t :=
  h.strict_or_command Stage.local_root Stage.site_root
    (by decide) Pass.holdsUnclosed_root
    (countsOut_of_step (.strictPass .root)
      (walk_of_step_command Stage.site_root walk_buildRoot)) hs

/-- The sign that a site stands for is in what the stage makes of the text. -/
theorem exists_append_of_markLength? {stage : Stage} (hl : stage.Local) {mark : Char} {k : Nat}
    (hm : mark ∉ triggers) (hk : markLength? mark (s.drop (leadingLetters s).length) = some k)
    (h : Rewrites false stage b s t) : ∃ u b' t', t = u ++ mark :: t' ∧
      Rewrites false stage b' (s.drop ((leadingLetters s).length + k)) t' := by
  obtain ⟨_, t₁, rfl, h₁⟩ := exists_append_of_letters hl h
  obtain ⟨bl, hbl, hs, _⟩ := eq_append_of_markLength? hk
  rw [hs] at h₁
  obtain ⟨_, t₂, rfl, h₂⟩ := h₁.eq_append hl fun c hc =>
    notMem_triggers_of_isBlank (List.all_eq_true.mp hbl c hc)
  obtain ⟨b', t₃, rfl, h₃⟩ := h₂.eq_append (l := [mark]) hl (by simpa using hm)
  rw [List.drop_drop] at h₃
  exact ⟨leadingLetters s ++ bl, b', t₃, by simp, h₃⟩

theorem Rewrites.strict_or_logBase (h : Rewrites false (.strictPass .logBase) b s t)
    (hs : CountsOut s) : Rewrites true (.strictPass .logBase) b s t ∨
      Marked '_' (fun _ => True) t := by
  refine h.strict_or (P := CountsOut) (M := Marked '_' fun _ => True)
    (fun {c s} hc => CountsOut.of_append (s := [c]) hc)
    (countsOut_of_step (.strictPass .logBase) walk_of_step_logBase)
    (fun u hm => hm.append_left u) (fun {b c s t} _ hs ht => ?_) (fun {b c s} hc hs => ?_) hs
  · obtain ⟨n, hsite, _⟩ := Stage.exists_site_of_short hs
    simp only [Pass.logBase, logBaseSite?] at hsite
    split at hsite
    · obtain ⟨k, hk, _⟩ := Option.map_eq_some_iff.mp hsite
      obtain ⟨u, _, t', rfl, _⟩ := exists_append_of_markLength? Stage.local_logBase
        Canonical.notMem_triggers_subscript hk ht
      exact ⟨c :: u, t', rfl, trivial⟩
    · cases hsite
  · obtain ⟨b, hb⟩ := Stage.exists_holdsUnclosed Pass.holdsUnclosed_logBase hs
    exact absurd hb (hc.not_holdsUnclosed b)

theorem Rewrites.strict_or_functionPower (h : Rewrites false .functionPower b s t) :
    Rewrites true .functionPower b s t ∨
      (Marked '^' (fun v => isAllBlank v = true) t ∨ ∃ b, HoldsUnclosed b t) := by
  refine h.strict_or (P := fun _ => True)
    (M := fun t => Marked '^' (fun v => isAllBlank v = true) t ∨ ∃ b, HoldsUnclosed b t)
    (fun _ => trivial) (fun _ _ => trivial)
    (fun u hm => hm.imp (fun hm => hm.append_left u) fun ⟨b, hb⟩ => ⟨b, hb.append_left u⟩)
    (fun {b c s t} _ hs ht => .inl ?_)
    (fun _ hs => .inr (Stage.exists_holdsUnclosed Pass.holdsUnclosed_functionPower hs)) trivial
  obtain ⟨n, hsite, he⟩ := Stage.exists_site_of_short hs
  simp only [Pass.functionPower] at hsite
  rw [hsite, Option.any_some] at he
  simp only [functionPowerSite?] at hsite
  split at hsite
  · obtain ⟨f, _, hf⟩ := Option.bind_eq_some_iff.mp hsite
    obtain ⟨k, hk, hsite⟩ := Option.map_eq_some_iff.mp hf
    obtain ⟨rfl, _⟩ := Site.mk.inj hsite
    obtain ⟨u, _, t', rfl, ht'⟩ := exists_append_of_markLength? Stage.local_functionPower
      (by decide) hk ht
    refine ⟨c :: u, t', rfl, ?_⟩
    have hplain : ∀ c ∈ s.drop ((leadingLetters s).length + k), c ∉ triggers :=
      fun c hc => notMem_triggers_of_isBlank (List.all_eq_true.mp he c hc)
    rw [← List.append_nil (s.drop ((leadingLetters s).length + k))] at ht'
    obtain ⟨_, t'', rfl, ht''⟩ := ht'.eq_append Stage.local_functionPower hplain
    rw [ht''.eq_nil, List.append_nil]
    exact he
  · cases hsite

end Passes

namespace Canonical

/-- The last stages lack nothing if what they leave shows no mark, and they
leave no backslash at the end. -/
theorem strict_passStages {s t u : Text} (hs : Nested s) (h : Chain false passStages s u)
    (hw : Chain false wordStages u t) (hb : '\\' ∉ t) (hsub : '_' ∉ t)
    (hc : ¬Marked '^' (fun v => isAllBlank v = true) t) (ht : Nested t) :
    Chain true (passStages ++ wordStages) s t ∧ ¬Marked '\\' (Leftover []) s := by
  obtain ⟨s₁, h₁, s₂, h₂, s₃, h₃, u, h₄, rfl⟩ := h
  have hmono : ∀ {names names' : List Text} {v : Text}, names ⊆ names' →
      Marked '\\' (Leftover names) v → Marked '\\' (Leftover names') v := by
    rintro names names' _ hsub ⟨u, v, rfl, hv⟩
    refine ⟨u, v, rfl, hv.imp ?_ id⟩
    rintro ⟨n, hn, hp⟩
    exact ⟨n, hsub hn, hp⟩
  -- A command left over before the later stages is left over in the end.
  have hlate : ¬Marked '\\' (Leftover leftoverNames) s₂ := by
    intro hm
    have hch : Chain false ([Stage.strictPass .logBase, Stage.functionPower] ++ wordStages) s₂ t :=
      ⟨s₃, h₃, u, h₄, hw⟩
    exact hb (hch.marked spares_leftover_late hm).mem
  have hroot : ¬Marked '\\' (Leftover fractionCommands) s₁ := fun hm =>
    hlate (hmono (by simp [leftoverNames]) (Stage.spares_leftover_root h₂ hm))
  have hfirst : ¬Marked '\\' (Leftover []) s := fun hm =>
    hroot (hmono (by simp) (Stage.spares_leftover_fraction h₁ hm))
  have hwalk : ∀ b, walk b 0 s = some 0 := walk_of_nested hs
  have hwalk₁ : ∀ b, walk b 0 s₁ = some 0 := fun b => walk_of_rewrites_pass (by simp) h₁ (hwalk b)
  have hwalk₂ : ∀ b, walk b 0 s₂ = some 0 := fun b => walk_of_rewrites_pass (by simp) h₂ (hwalk₁ b)
  have hs₁ := (h₁.strict_or_fraction fun b => ⟨0, hwalk b⟩).resolve_right hroot
  have hs₂ := (h₂.strict_or_root fun b => ⟨0, hwalk₁ b⟩).resolve_right fun hm =>
    hlate (hmono (by simp [leftoverNames]) hm)
  have hs₃ := (h₃.strict_or_logBase fun b => ⟨0, hwalk₂ b⟩).resolve_right fun hm => by
    have hch : Chain false (Stage.functionPower :: wordStages) s₃ t := ⟨u, h₄, hw⟩
    exact hsub (hch.marked spares_subscript hm).mem
  have hs₄ := h₄.strict_or_functionPower.resolve_right fun hm => by
    rcases hm with hm | ⟨b, hm⟩
    · exact hc (hw.marked spares_caret hm)
    · have hu : Nested u := by
        unfold Nested
        rw [followsBrackets_nest.chain_wordStages hw]
        exact ht
      exact hm.walk_ne 0 (walk_of_nested hu b)
  obtain ⟨u₁, k₁, u₂, k₂, u₃, k₃, u₄, k₄, rfl⟩ := hw
  exact ⟨⟨s₁, hs₁, s₂, hs₂, s₃, hs₃, u, hs₄, u₁, k₁.toStrict_wording, u₂, k₂.toStrict_always,
    u₃, k₃.toStrict_wording, u₄, k₄.toStrict_wording, rfl⟩, hfirst⟩

/-- All stages lack nothing if the text that they leave shows no mark. -/
theorem strict_stages {s u v t : Text} (hs : Nested s) (hu : Nested u) (ht : Nested t)
    (h : Chain false cosmeticStages s u) (hp : Chain false passStages u v)
    (hw : Chain false wordStages v t) (hb : '\\' ∉ t) (hsub : '_' ∉ t)
    (hc : ¬Marked '^' (fun v => isAllBlank v = true) t) : Chain true stages s t := by
  obtain ⟨hlast, hno⟩ := strict_passStages hu hp hw hb hsub hc ht
  refine Chain.append.mpr ⟨u, strict_cosmeticStages hs h fun hm => hno ?_, hlast⟩
  obtain ⟨w, v, rfl, rfl⟩ := hm
  exact ⟨w, [], rfl, .inr (.inl rfl)⟩

end Canonical

end NumericAnswer
