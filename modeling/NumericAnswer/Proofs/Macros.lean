/-
# Macros around glyphs

The passes find the same macros in texts that differ in spellings, and build them from arguments
that differ in spellings, if no row of groups is torn and no function takes a bare glyph. Behind
what they build blanks mean nothing, since it ends with a bracket.

Key definitions: `Built`, `Pass.Sees`, `Canonical.glyphPasses`, `Canonical.isPlain`.
Key theorems: `Pass.Sees.runs`, `Canonical.glossed_afterPasses`.
-/
import NumericAnswer.Proofs.Arguments

namespace NumericAnswer

/-! ### What the macros become -/

/-- Both texts have a macro at the front, or neither has one for the same reason. Text may follow
what the macros become. -/
inductive Built : Except Refusal (Text × Text) → Except Refusal (Text × Text) → Prop
  | ok {w w' r r' : Text}
      (hw : ∀ {u v : Text}, Glossed true true u v → Glossed true false (w ++ u) (w' ++ v))
      (hhead : w.head? = w'.head?) (hr : Glossed true true r r') : Built (.ok (w, r)) (.ok (w', r'))
  | error (refusal : Refusal) : Built (.error refusal) (.error refusal)

/-- The argument of the function is no bare glyph. -/
def unbareFunctionPower (s : Text) : Bool :=
  match macroArgument s with
  | .ok (exponent, rest) => (strip exponent).head? = some '-' || !startsWithGlyph rest
  | .error _ => true

/-- What a macro is built from differs in spellings only, where the condition holds. -/
structure BuildsSpelt (build : Text → Except Refusal (Text × Text)) (good : Text → Bool) : Prop where
  built {s t : Text} (h : Glossed true true s t) (hs : good s = true) (ht : good t = true) :
    Built (build s) (build t)
  last {s w r : Text} (h : build s = .ok (w, r)) : w.getLast?.any isAlphanumeric = false

section Builds

variable {free : Bool} {a a' s t u v : Text} {x y : Except Refusal (Text × Text)}

theorem Respelt.bind {k k' : Text × Text → Except Refusal (Text × Text)} (h : Respelt x y)
    (hk : ∀ {a a' r r'}, x = .ok (a, r) → y = .ok (a', r') → Glossed true false a a' →
      Glossed true true r r' → Built (k (a, r)) (k' (a', r'))) : Built (x >>= k) (y >>= k') := by
  cases h with
  | ok h => exact hk rfl rfl h.1 h.2
  | error refusal => exact .error refusal

theorem Glossed.inBraces_append (ha : Glossed true false a a') (h : Glossed true true u v) :
    Glossed true free (inBraces a ++ u) (inBraces a' ++ v) := by
  rw [inBraces, inBraces, List.cons_append, List.cons_append, List.append_assoc, List.append_assoc]
  exact .char (by decide) (ha.append_closer (.inl rfl) h)

theorem Glossed.inSquareBrackets_append (ha : Glossed true false a a') (h : Glossed true true u v) :
    Glossed true free (inSquareBrackets a ++ u) (inSquareBrackets a' ++ v) := by
  rw [inSquareBrackets, inSquareBrackets, List.cons_append, List.cons_append, List.append_assoc,
    List.append_assoc]
  exact .char (by decide) (ha.append_closer (.inr rfl) h)

theorem buildsSpelt_buildFraction : BuildsSpelt buildFraction untornFraction where
  built {s t} h hs ht := by
    rw [untornFraction_iff] at hs ht
    refine (h.macroArgument hs.1 ht.1).bind fun hx hy hn hr => ?_
    refine (hr.macroArgument (hs.2 _ _ hx) (ht.2 _ _ hy)).bind fun _ _ hd hr => .ok ?_ rfl hr
    intro u v h
    simp only [List.append_assoc]
    exact (hn.inBraces_append (hd.inBraces_append h)).same_append _
  last := buildsAlike_buildFraction.last

theorem buildsSpelt_buildRoot : BuildsSpelt buildRoot untornRoot where
  built {s t} h hs ht := by
    rw [untornRoot_iff] at hs ht
    have hfront := h.front
    have hhead := hfront.head?_eq_iff (c := '[') (by decide)
    unfold buildRoot
    by_cases hsquare : (dropBlanks s).head? = some '['
    · have hsquare' := hhead.mp hsquare
      rw [if_pos hsquare, if_pos hsquare']
      refine (hfront.readGroup_of_head (by decide) (by decide) hsquare).bind fun hx hy hn hr => ?_
      have hradicand := hr.macroArgument (hs.1 hsquare _ _ hx) (ht.1 hsquare' _ _ hy)
      refine hradicand.bind fun _ _ hd hr => .ok ?_ rfl hr
      intro u v h
      simp only [List.append_assoc]
      exact (hn.inSquareBrackets_append (hd.inBraces_append h)).same_append _
    · have hsquare' := fun h => hsquare (hhead.mpr h)
      rw [if_neg hsquare, if_neg hsquare']
      refine (h.macroArgument (hs.2 hsquare) (ht.2 hsquare')).bind fun _ _ hd hr => .ok ?_ rfl hr
      intro u v h
      simp only [List.append_assoc]
      exact (hd.inBraces_append h).same_append _
  last := buildsAlike_buildRoot.last

theorem buildsSpelt_buildLogBase : BuildsSpelt buildLogBase untornLogBase where
  built {s t} h hs ht := by
    simp only [untornLogBase, Bool.not_eq_true'] at hs ht
    refine (h.macroArgument hs ht).bind fun _ _ hb hr => .ok ?_ rfl hr
    intro u v h
    simp only [List.append_assoc]
    exact (hb.inSquareBrackets_append h).same_append _
  last := buildsAlike_buildLogBase.last

theorem unbareFunctionPower_iff : unbareFunctionPower s = true ↔
    ∀ a r, macroArgument s = .ok (a, r) →
      (strip a).head? = some '-' ∨ startsWithGlyph r = false := by
  unfold unbareFunctionPower
  rcases macroArgument s with refusal | ⟨a, r⟩ <;> simp

theorem buildsSpelt_buildFunctionPower (f : UnaryFunction) : BuildsSpelt (buildFunctionPower f)
    fun s => untornFunctionPower s && unbareFunctionPower s where
  built {s t} h hs ht := by
    rw [Bool.and_eq_true, untornFunctionPower_iff, unbareFunctionPower_iff] at hs ht
    refine (h.macroArgument hs.1.1 ht.1.1).bind fun {a a' r r'} hx hy he hr => ?_
    have hminus := he.front.head?_eq_iff (c := '-') (by decide)
    rw [← head?_strip, ← head?_strip] at hminus
    by_cases hneg : (strip a).head? = some '-'
    · simp only [hneg, hminus.mp hneg, if_true]
      exact .error .absent
    · have hneg' := fun h => hneg (hminus.mpr h)
      simp only [if_neg hneg, if_neg hneg']
      have hargument := hr.functionArgument ((hs.1.2 _ _ hx).resolve_left hneg)
        ((ht.1.2 _ _ hy).resolve_left hneg') ((hs.2 _ _ hx).resolve_left hneg)
        ((ht.2 _ _ hy).resolve_left hneg')
      refine hargument.bind fun {b b' _ _} _ _ hb hr => .ok ?_ rfl hr
      intro u v h
      have hexponent : Glossed true true (')' :: '^' :: (inBraces a ++ u))
          (')' :: '^' :: (inBraces a' ++ v)) :=
        (he.inBraces_append h).same_append [')', '^']
      have hpower : Glossed true false
          (('(' :: f.name.toList) ++ (inBraces b ++ ')' :: '^' :: (inBraces a ++ u)))
          (('(' :: f.name.toList) ++ (inBraces b' ++ ')' :: '^' :: (inBraces a' ++ v))) :=
        (hb.inBraces_append hexponent).same_append _
      simpa only [List.append_assoc, List.cons_append] using hpower
  last := (buildsAlike_buildFunctionPower f).last

end Builds

/-! ### Passes -/

/-- In texts that differ in spellings the pass finds the same macros, and builds them from what
differs in spellings. It sees no glyph and none of their commands. -/
structure Pass.Sees (p : Pass) (good : Text → Bool) : Prop where
  plain {c : Char} (hc : c ≠ '\\') (s : Text) : p.site? c s = none
  glyph {g : Char} {name s : Text} (hg : glyphName? g = some name)
    (hs : s.head?.all endsName = true) : p.site? '\\' (name ++ s) = none
  site {s t : Text} (h : Glossed true false s t) :
    (p.site? '\\' s = none ∧ p.site? '\\' t = none) ∨
      ∃ n m build, p.site? '\\' s = some (siteAt s n build) ∧
        p.site? '\\' t = some (siteAt t m build) ∧
        Glossed true true (s.drop n) (t.drop m) ∧ BuildsSpelt build good

section Passes

variable {free : Bool} {s t : Text}

theorem sees_command {p : Pass} {names : List Text} {build : Text → Except Refusal (Text × Text)}
    {good : Text → Bool} (hp : ∀ c s, p.site? c s =
      if c = '\\' && names.contains (leadingLetters s) then
        some (siteAt s (leadingLetters s).length build) else none)
    (hnames : ["pi".toList, "times".toList, "cdot".toList, "div".toList].all
      (fun name => !names.contains name) = true) (hb : BuildsSpelt build good) : p.Sees good where
  plain hc s := by rw [hp]; simp [hc]
  glyph {g name s} hg hs := by
    have hname := glyphName_all hg hnames
    simp only [Bool.not_eq_true'] at hname
    simp only [hp, Rule.leadingLetters_glyphName hg hs, hname, Bool.and_false, Bool.false_eq_true,
      if_false]
  site {s t} h := by
    have hrest := h.drop_leadingLetters
    rw [hp, hp]
    rw [h.leadingLetters_eq] at hrest ⊢
    split
    · exact .inr ⟨_, _, build, rfl, rfl, hrest.freed, hb⟩
    · exact .inl ⟨rfl, rfl⟩

/-- A mark stands behind blanks in both texts. -/
theorem Glossed.markLength? {mark : Char} (hmark : mark ∉ ['π', '×', '·', '÷', '\\'])
    (h : Glossed true false s t) :
    (markLength? mark s = none ∧ markLength? mark t = none) ∨
      ∃ n m, markLength? mark s = some n ∧ markLength? mark t = some m ∧
        Glossed true true (s.drop n) (t.drop m) := by
  have hdrop : ∀ s : Text, s.drop ((s.takeWhile isBlank).length + 1) = (dropBlanks s).drop 1 := by
    intro s
    rw [← List.drop_drop, drop_length_takeWhile]
    rfl
  have hfront := h.front
  have hhead := hfront.head?_eq_iff hmark
  unfold NumericAnswer.markLength?
  by_cases hs : (dropBlanks s).head? = some mark
  · rw [if_pos hs, if_pos (hhead.mp hs)]
    refine .inr ⟨_, _, rfl, rfl, ?_⟩
    rw [hdrop, hdrop]
    obtain ⟨u, hu⟩ := List.head?_eq_some_iff.mp hs
    rw [hu] at hfront ⊢
    obtain ⟨v, hv, hrest⟩ := hfront.of_cons hmark
    rw [hv]
    exact hrest.freed
  · rw [if_neg hs, if_neg fun h => hs (hhead.mpr h)]
    exact .inl ⟨rfl, rfl⟩

theorem Pass.sees_fraction : Pass.fraction.Sees untornFraction :=
  sees_command (fun _ _ => rfl) (by decide) buildsSpelt_buildFraction

theorem Pass.sees_root : Pass.root.Sees untornRoot :=
  sees_command Stage.site_root (by decide) buildsSpelt_buildRoot

theorem Pass.sees_logBase : Pass.logBase.Sees untornLogBase where
  plain := Pass.steady_logBase.plain
  glyph {g name s} hg hs := by
    have hname := glyphName_all (p := fun name => name ≠ "log".toList) hg (by decide)
    rw [site_logBase, Rule.leadingLetters_glyphName hg hs, if_neg (of_decide_eq_true hname)]
  site {s t} h := by
    have hrest := h.drop_leadingLetters
    rw [site_logBase, site_logBase]
    rw [h.leadingLetters_eq] at hrest ⊢
    split
    · rcases hrest.markLength? (show '_' ∉ ['π', '×', '·', '÷', '\\'] by decide) with
        ⟨hs, ht⟩ | ⟨n, m, hs, ht, hdrop⟩
      · rw [hs, ht]
        exact .inl ⟨rfl, rfl⟩
      · rw [hs, ht]
        rw [List.drop_drop, List.drop_drop] at hdrop
        exact .inr ⟨_, _, _, rfl, rfl, hdrop, buildsSpelt_buildLogBase⟩
    · exact .inl ⟨rfl, rfl⟩

theorem Pass.sees_functionPower : Pass.functionPower.Sees
    fun s => untornFunctionPower s && unbareFunctionPower s where
  plain := Pass.steady_functionPower.plain
  glyph {g name s} hg hs := by
    have hname := glyphName_all (p := fun name => (UnaryFunction.ofCommand? name).isNone) hg
      (by decide +kernel)
    rw [site_functionPower, Rule.leadingLetters_glyphName hg hs, Option.isNone_iff_eq_none.mp hname]
    rfl
  site {s t} h := by
    have hrest := h.drop_leadingLetters
    rw [site_functionPower, site_functionPower]
    rw [h.leadingLetters_eq] at hrest ⊢
    cases UnaryFunction.ofCommand? (leadingLetters t) with
    | none => exact .inl ⟨rfl, rfl⟩
    | some f =>
      rw [Option.bind_some, Option.bind_some]
      rcases hrest.markLength? (show '^' ∉ ['π', '×', '·', '÷', '\\'] by decide) with
        ⟨hs, ht⟩ | ⟨n, m, hs, ht, hdrop⟩
      · rw [hs, ht]
        exact .inl ⟨rfl, rfl⟩
      · rw [hs, ht]
        rw [List.drop_drop, List.drop_drop] at hdrop
        exact .inr ⟨_, _, _, rfl, rfl, hdrop, buildsSpelt_buildFunctionPower f⟩

/-- A word that ends in no letter or digit, padded in front where letters or digits may stand. -/
theorem Glossed.padded_append {before before' after after' : Option Char} {w w' r r' : Text}
    (hw : Glossed true false (w ++ r) (w' ++ r')) (hhead : w.head? = w'.head?)
    (hl : w.getLast?.any isAlphanumeric = false) (hl' : w'.getLast?.any isAlphanumeric = false)
    (hside : free = false → before.any isAlphanumeric = before'.any isAlphanumeric) :
    Glossed true free (padded before after w ++ r) (padded before' after' w' ++ r') := by
  rw [padded_of_last hl, padded_of_last hl', hhead]
  cases free with
  | false =>
    rw [hside rfl]
    split
    · exact hw.same_append [' ']
    · exact hw
  | true =>
    -- A space in front of either word is one of the blanks that may differ.
    have hleft : ∀ {u v : Text}, Glossed true true u v → Glossed true true (' ' :: u) v :=
      fun h => .left (by decide) h
    have hright : ∀ {u v : Text}, Glossed true true u v → Glossed true true u (' ' :: v) :=
      fun h => .right (by decide) h
    split <;> split
    · exact hleft (hright hw.freed)
    · exact hleft hw.freed
    · exact hright hw.freed
    · exact hw.freed

section Run

variable {p : Pass} {good : Text → Bool} {done done' u x : Text} {g : Char} {name : Text}

/-- The pass leaves a spelling where it is. -/
theorem Pass.Sees.skip (hp : p.Sees good) (hx : Spelling g name s x) (hg : glyphName? g = some name)
    (done : Text) : p.runFrom done (x ++ s) = p.runFrom (x.reverse ++ done) s ∧
      p.meets good done (x ++ s) = p.meets good (x.reverse ++ done) s := by
  cases hx with
  | glyph =>
    have hne := glyph_all (p := fun c => c ≠ '\\') (isSome_of_glyphName hg) (by decide)
    have hbackslash : '\\' ∉ [g] := fun hm => by simp [← List.mem_singleton.mp hm] at hne
    exact ⟨p.runFrom_skip hp.plain hbackslash done, p.meets_skip hp.plain hbackslash done⟩
  | command hs =>
    have hname := notMem_backslash_of_letters (isName_of_glyphName hg).2
    have hsite := hp.glyph hg hs
    rw [List.cons_append, Pass.runFrom_of_none hsite, Pass.meets_of_none hsite,
      p.runFrom_skip hp.plain hname, p.meets_skip hp.plain hname, List.reverse_cons,
      List.append_assoc]
    exact ⟨rfl, rfl⟩

/-- What ends the name of a command still does after the pass. -/
theorem Pass.Sees.head?_of_runFrom (hp : p.Sees good) (hs : s.head?.all endsName = true)
    (h : (p.runFrom done s).1 = done.reverse ++ u) : u.head?.all endsName = true := by
  cases s with
  | nil =>
    have hnil : (p.runFrom done []).1 = done.reverse ++ [] := by
      rw [Pass.runFrom, List.append_nil]
    obtain rfl := List.append_cancel_left (hnil.symm.trans h)
    rfl
  | cons c s =>
    obtain ⟨v, hv, -⟩ := p.rewrites_runFrom (fun _ _ => false) (c :: done) s
    rw [Pass.runFrom_of_none (hp.plain (ne_backslash_of_endsName hs) s), hv, List.reverse_cons,
      List.append_assoc] at h
    obtain rfl := List.append_cancel_left h
    exact hs

/-- What the pass makes of two texts, behind what it has done, differs in spellings. -/
def Pass.RunsSpelt (p : Pass) (free : Bool) (done done' s t : Text) : Prop :=
  ∃ u v, (p.runFrom done s).1 = done.reverse ++ u ∧ (p.runFrom done' t).1 = done'.reverse ++ v ∧
    Glossed true free u v

/-- What is to hold of two texts: they differ in spellings, the same sort of character stands
before them unless blanks may differ there, and the condition is met by their macros. -/
structure Pass.Matched (p : Pass) (good : Text → Bool) (free : Bool) (done done' s t : Text) :
    Prop where
  glossed : Glossed true free s t
  side : free = false → done.head?.any isAlphanumeric = done'.head?.any isAlphanumeric
  meets : p.meets good done s = true
  meets' : p.meets good done' t = true

/-- **A step keeps spellings apart from the rest.** A pass makes texts that differ in spellings of
a macro and what is behind it, if it makes such texts of lighter ones. -/
theorem Pass.Sees.runs_step (hp : p.Sees good) (h : Glossed true false s t)
    (hm : p.Matched good free done done' ('\\' :: s) ('\\' :: t))
    (ih : ∀ {free : Bool} {done done' x y : Text},
      weight x + weight y < weight ('\\' :: s) + weight ('\\' :: t) →
        p.Matched good free done done' x y → p.RunsSpelt free done done' x y) :
    p.RunsSpelt free done done' ('\\' :: s) ('\\' :: t) := by
  obtain ⟨-, hside, hmeets, hmeets'⟩ := hm
  have hname : glyphName? '\\' = none := by decide
  -- The pass leaves the backslash where it is, and goes on behind it.
  have hstay : p.meets good ('\\' :: done) s = true → p.meets good ('\\' :: done') t = true →
      ∃ u v, (p.runFrom ('\\' :: done) s).1 = done.reverse ++ u ∧
        (p.runFrom ('\\' :: done') t).1 = done'.reverse ++ v ∧ Glossed true free u v := by
    intro hmeets hmeets'
    have hlight := weight_cons_le '\\' s
    have hlight' := weight_cons_le '\\' t
    obtain ⟨u, v, hu, hv, huv⟩ := ih (by omega) ⟨h, fun _ => by simp, hmeets, hmeets'⟩
    exact ⟨'\\' :: u, '\\' :: v, by simp [hu], by simp [hv], .char hname huv⟩
  rcases hp.site h with ⟨hs, ht⟩ | ⟨n, m, build, hs, ht, hdrop, hbuild⟩
  · rw [Pass.RunsSpelt, Pass.runFrom_of_none hs, Pass.runFrom_of_none ht]
    rw [Pass.meets_of_none hs] at hmeets
    rw [Pass.meets_of_none ht] at hmeets'
    exact hstay hmeets hmeets'
  · have hbuilt := hbuild.built hdrop (Pass.meets_drop hmeets hs) (Pass.meets_drop hmeets' ht)
    have hlast := @hbuild.last (s.drop n)
    have hlast' := @hbuild.last (t.drop m)
    rw [siteAt] at hs ht
    generalize build (s.drop n) = x, build (t.drop m) = y at hbuilt hs ht hlast hlast'
    cases hbuilt with
    | @ok w w' r r' hw hhead hr =>
      rw [Pass.RunsSpelt, Pass.runFrom_of_ok hs, Pass.runFrom_of_ok ht]
      rw [Pass.meets_of_ok hs, Bool.and_eq_true] at hmeets
      rw [Pass.meets_of_ok ht, Bool.and_eq_true] at hmeets'
      have hlight : ∀ {done s w r : Text} {n : Nat}, p.site? '\\' s = some ⟨n, .ok (w, r)⟩ →
          weight (padded done.head? r.head? w ++ r) < weight ('\\' :: s) := by
        intro done s w r n hs
        have := p.lighter hs
        have := weight_padded_le done.head? r.head? w
        rw [weight_append]
        omega
      exact ih (Nat.add_lt_add (hlight hs) (hlight ht))
        ⟨(hw hr).padded_append hhead (hlast rfl) (hlast' rfl) hside, hside, hmeets.2, hmeets'.2⟩
    | error refusal =>
      cases refusal with
      | absent =>
        rw [Pass.RunsSpelt, Pass.runFrom_of_absent hs, Pass.runFrom_of_absent ht]
        rw [Pass.meets_of_absent hs, Bool.and_eq_true] at hmeets
        rw [Pass.meets_of_absent ht, Bool.and_eq_true] at hmeets'
        exact hstay hmeets.2 hmeets'.2
      | unclosed bracket =>
        rw [Pass.RunsSpelt, Pass.runFrom_of_unclosed hs, Pass.runFrom_of_unclosed ht]
        exact ⟨_, _, rfl, rfl, .char hname h⟩

/-- **A pass keeps spellings apart from the rest.** It makes texts that differ in spellings of
such texts, where the condition is met. -/
theorem Pass.Sees.runs (hp : p.Sees good) (hm : p.Matched good free done done' s t) :
    p.RunsSpelt free done done' s t := by
  induction hw : weight s + weight t using Nat.strong_induction_on
    generalizing s t free done done' with
  | _ k ih =>
  subst hw
  have hblank : ∀ {e : Char}, isBlank e = true → ∀ s, p.site? e s = none := fun he =>
    hp.plain (by rintro rfl; cases he)
  obtain ⟨h, hside, hmeets, hmeets'⟩ := hm
  cases h with
  | nil => exact ⟨[], [], by rw [Pass.runFrom]; simp, by rw [Pass.runFrom]; simp, .nil⟩
  | @char _ c s t hc h =>
    by_cases hne : c = '\\'
    · subst hne
      exact hp.runs_step h ⟨.char hc h, hside, hmeets, hmeets'⟩ fun hlight hm => ih _ hlight hm rfl
    · have hlight := weight_cons_le c s
      have hlight' := weight_cons_le c t
      rw [Pass.meets_of_none (hp.plain hne s)] at hmeets
      rw [Pass.meets_of_none (hp.plain hne t)] at hmeets'
      obtain ⟨u, v, hu, hv, huv⟩ := ih _ (by omega) ⟨h, fun _ => by simp, hmeets, hmeets'⟩ rfl
      rw [Pass.RunsSpelt, Pass.runFrom_of_none (hp.plain hne s),
        Pass.runFrom_of_none (hp.plain hne t)]
      exact ⟨c :: u, c :: v, by simp [hu], by simp [hv], .char hc huv⟩
  | @glyph _ g name x y s t hg hx hy h =>
    obtain ⟨hrun, hskip⟩ := hp.skip hx hg done
    obtain ⟨hrun', hskip'⟩ := hp.skip hy hg done'
    have hlength := List.length_pos_iff.mpr hx.ne_nil
    have hlight : weight s + weight t < weight (x ++ s) + weight (y ++ t) := by
      rw [weight_append, weight_append]
      have : 0 < weight x := by
        unfold weight
        omega
      omega
    obtain ⟨u, v, hu, hv, huv⟩ := ih _ hlight
      ⟨h, fun h => absurd h (by decide), hskip ▸ hmeets, hskip' ▸ hmeets'⟩ rfl
    rw [Pass.RunsSpelt, hrun, hrun']
    refine ⟨x ++ u, y ++ v, by simp [hu], by simp [hv], ?_⟩
    exact .glyph hg (hx.before fun hs => hp.head?_of_runFrom hs hu)
      (hy.before fun ht => hp.head?_of_runFrom ht hv) huv
  | @left e s t he h =>
    have hlight := weight_cons_le e s
    rw [Pass.meets_of_none (hblank he s)] at hmeets
    obtain ⟨u, v, hu, hv, huv⟩ := ih _ (by omega)
      ⟨h, fun h => absurd h (by decide), hmeets, hmeets'⟩ rfl
    rw [Pass.RunsSpelt, Pass.runFrom_of_none (hblank he s)]
    exact ⟨e :: u, v, by simp [hu], hv, .left he huv⟩
  | @right e s t he h =>
    have hlight := weight_cons_le e t
    rw [Pass.meets_of_none (hblank he t)] at hmeets'
    obtain ⟨u, v, hu, hv, huv⟩ := ih _ (by omega)
      ⟨h, fun h => absurd h (by decide), hmeets, hmeets'⟩ rfl
    rw [Pass.RunsSpelt, Pass.runFrom_of_none (hblank he t)]
    exact ⟨u, e :: v, hu, by simp [hv], .right he huv⟩

theorem Pass.Sees.glossed_run (hp : p.Sees good) (h : Glossed true free s t)
    (hs : p.meets good [] s = true) (ht : p.meets good [] t = true) :
    Glossed true free (p.run s).1 (p.run t).1 := by
  obtain ⟨u, v, hu, hv, huv⟩ := hp.runs ⟨h, fun _ => rfl, hs, ht⟩
  rw [Pass.run, Pass.run, hu, hv]
  exact huv

end Run
end Passes

namespace Canonical

/-- The passes, each with what a macro of it has behind its command when no blanks tear the groups
of its arguments apart and no function has a bare glyph for its argument. -/
def glyphPasses : List (Pass × (Text → Bool)) :=
  [(.fraction, untornFraction), (.root, untornRoot), (.logBase, untornLogBase),
    (.functionPower, fun s => untornFunctionPower s && unbareFunctionPower s)]

/-- No macro of the answer takes a canonical word as an argument that blanks separate from a group
behind it, and no function with a power takes a bare glyph. -/
def isPlain (answer : Text) : Bool :=
  untornIn glyphPasses (simplified answer)

theorem glossed_foldl {free : Bool} : ∀ {pairs : List (Pass × (Text → Bool))} {s t : Text},
    (∀ pair ∈ pairs, pair.1.Sees pair.2) → Glossed true free s t → untornIn pairs s = true →
      untornIn pairs t = true →
      Glossed true free ((pairs.map Prod.fst).foldl (fun s pass => (pass.run s).1) s)
        ((pairs.map Prod.fst).foldl (fun s pass => (pass.run s).1) t)
  | [], _, _, _, h, _, _ => h
  | (pass, good) :: pairs, s, t, hp, h, hs, ht => by
    simp only [untornIn, Bool.and_eq_true] at hs ht
    have hfirst := (hp _ (List.mem_cons_self ..)).glossed_run h hs.1 ht.1
    exact @glossed_foldl free pairs _ _ (fun pair hpair => hp pair (List.mem_cons_of_mem _ hpair))
      hfirst hs.2 ht.2

/-- The passes leave texts that differ in spellings. -/
theorem glossed_afterPasses {free : Bool} {s t : Text} (h : Glossed true free s t)
    (hs : untornIn glyphPasses s = true) (ht : untornIn glyphPasses t = true) :
    Glossed true free (afterPasses passes s).1 (afterPasses passes t).1 := by
  have hsees : ∀ pair ∈ glyphPasses, pair.1.Sees pair.2 := by
    simp only [glyphPasses, List.forall_mem_cons]
    exact ⟨Pass.sees_fraction, Pass.sees_root, Pass.sees_logBase, Pass.sees_functionPower,
      fun _ h => absurd h List.not_mem_nil⟩
  exact glossed_foldl hsees h hs ht

end Canonical
end NumericAnswer
