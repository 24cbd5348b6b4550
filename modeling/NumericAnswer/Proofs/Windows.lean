/-
# What the window shows

While nobody else changes the settings file, a window shows the lines of the last text that has
some, whatever was copied and switched in between and whether or not saves and copies succeeded. It
never offers the value of an earlier text: what can be copied, and what is in the clipboard unless it
was there before, is the displayed value of a text that was shown.

The window keeps the settings that it was opened with, but for the dark style, and so do the file
and the snapshot. So every text has the same lines at all times.

Key definitions: `Window.Act`, `Window.Keeps`, `Window.Shows`.
Key theorems: `Window.Keeps.act`, `Window.Shows.act`, `Window.shows_after`.
-/
import NumericAnswer.Proofs.Previews

namespace NumericAnswer

/-! ### Settings found alike -/

namespace Store

/-- What is looked up now finds these settings, but for the dark style. -/
def ReadsAlike (settings : Settings) (store : Store) : Prop :=
  ∃ held, store.read.1 = .ok held ∧ held.ViewAlike settings

variable {settings : Settings} {store : Store}

theorem read_read (store : Store) : store.read.2.read.1 = store.read.1 := by
  rcases hread : store.read with ⟨f | held, store'⟩
  · rw [read_error hread, hread]
  · rw [read, read_snapshot hread]

theorem ReadsAlike.of_read_eq {store' : Store} (h : store.ReadsAlike settings)
    (hread : store'.read.1 = store.read.1) : store'.ReadsAlike settings := by
  rwa [ReadsAlike, hread]

theorem ReadsAlike.allow (h : store.ReadsAlike settings) (writable : Bool) :
    ReadsAlike settings { store with writable := writable } := by
  refine h.of_read_eq ?_
  unfold read
  dsimp only
  cases store.snapshot with
  | some held => rfl
  | none => cases settingsOf store.file <;> rfl

/-- Settings that are saved are found then, or else those that were found before. -/
theorem ReadsAlike.save (h : store.ReadsAlike settings) {held : Settings} (hheld : held.Sound)
    (halike : held.ViewAlike settings) : (store.save held.toJson).2.ReadsAlike settings := by
  cases hwritable : store.writable with
  | false => rwa [save_of_not_writable hwritable]
  | true =>
    obtain ⟨hsnapshot, denoted, hdenoted, hget⟩ := get_save hheld hwritable
    exact ⟨denoted, (read_of_none hsnapshot).trans hdenoted,
      fun s hs => (hget s).trans (halike s hs)⟩

variable [MathLibrary]

theorem ReadsAlike.ask (h : store.ReadsAlike settings) (r : Request) :
    (r.access store).2.ReadsAlike settings := by
  rw [Request.access_eq, Query.access_eq]
  dsimp only
  split
  · exact h.of_read_eq store.read_read
  · exact h

theorem ReadsAlike.previewLines (h : store.ReadsAlike settings) (text : Text) :
    (Access.previewLines text store).1 = (Request.previewQuery text).answer (.ok settings) := by
  obtain ⟨held, hread, halike⟩ := h
  rw [← Request.access_previewQuery, Query.access_eq, hread]
  exact halike.answer_preview text

omit [MathLibrary] in
theorem ReadsAlike.displayText (h : store.ReadsAlike settings) (x : Float) :
    (Access.displayText none x store).1 = Display.text settings none x := by
  obtain ⟨held, hread, halike⟩ := h
  rw [← Request.access_formatQuery, Query.access_eq, hread]
  exact halike.text none x

end Store

namespace Window

/-! ### Acts -/

/-- What may happen to an open window while nobody else changes the file. -/
inductive Act where
  | event (event : Event)
  /-- Saves start or stop working. -/
  | saving (works : Bool)

def Act.move : Act → Move
  | event e => .event e
  | saving works => .outside (.allow works)

/-- The texts that were typed. -/
def texts (acts : List Act) : List Text :=
  acts.filterMap fun
    | .event (.type text) => some text
    | _ => none

/-- What the dark style was switched to. -/
def switches (acts : List Act) : List Bool :=
  acts.filterMap fun
    | .event (.dark on) => some on
    | _ => none

section Acts

variable [MathLibrary]

/-- The lines of the texts that have some. -/
def linesOf (store : Store) (texts : List Text) : List PreviewLines :=
  texts.filterMap fun text => (Access.previewLines text store).1.toOption

/-- The displayed value of a text that evaluates and has lines. -/
def value? (store : Store) (text : Text) : Option Text :=
  match Outcome.ofText text, (Access.previewLines text store).1 with
  | .success value _, .ok _ => (Access.displayText none value store).1.toOption
  | _, _ => none

/-- The values of the texts that have one. -/
def valuesOf (store : Store) (texts : List Text) : List Text :=
  texts.filterMap (value? store)

/-- What a window shows, and what is in the clipboard, after some acts. -/
structure Shows (start : Window × Store) (acts : List Act) (w : Window) : Prop where
  /-- The lines are those of the last text that has some. -/
  lines : w.lines = ((linesOf start.2 (texts acts)).getLast?).getD .blank
  /-- The copy button can be pressed if there is something to copy. -/
  enabled : w.copyEnabled = !w.lines.copyText.isEmpty
  /-- The clipboard has a value that was shown, or what it had before. -/
  clipboard : w.clipboard.content = start.1.clipboard.content ∨
    ∃ shown ∈ valuesOf start.2 (texts acts), w.clipboard.content = some shown
  /-- The clipboard works if it did and never stopped. -/
  works : start.1.clipboard.works = true → (∀ act ∈ acts, act ≠ .event (.clipboard false)) →
    w.clipboard.works = true
  /-- It has the last value if every value is copied and the clipboard has always worked. -/
  copied : (start.1.settings.get .copyAfterEvaluate).isTrue = true →
    start.1.clipboard.works = true → (∀ act ∈ acts, act ≠ .event (.clipboard false)) →
    w.clipboard.content =
      ((valuesOf start.2 (texts acts)).getLast?).or start.1.clipboard.content
  /-- The dark style is as it was switched last, or as the settings had it. -/
  dark : w.darkStyle = ((switches acts).getLast?).getD (isDark start.1.settings)

end Acts

/-! ### Settings kept -/

section Keeps

theorem name_ne_darkKey {s : Setting} (h : s ≠ .darkMode) :
    SettingKey.name s.name.toList ≠ .name darkKey := by
  intro he
  have he := SettingKey.name.inj he
  revert h he
  cases s <;> decide

/-- To switch the dark style changes no other setting. -/
theorem viewAlike_put_dark (settings : Settings) (value : Json) :
    Settings.ViewAlike (Fields.put (.name darkKey) value settings) settings := fun s hs => by
  rw [Settings.get, Settings.get,
    Fields.lookup_put_of_ne _ (SettingKey.beq_name_eq_false (name_ne_darkKey hs))]

variable {settings : Settings} {s : Window × Store}

/-- The window, and what is looked up, have the settings that the window was opened with, but for
the dark style. -/
structure Keeps (settings : Settings) (s : Window × Store) : Prop extends Holds settings s where
  reads : s.2.ReadsAlike settings

theorem Keeps.get (h : Keeps settings s) : s.1.settings.ViewAlike settings := fun k hk => by
  rw [Settings.get, Settings.get, h.lookup _ (name_ne_darkKey hk)]

variable [MathLibrary]

/-- No act changes them. -/
theorem Keeps.act (h : Keeps settings s) (act : Act) : Keeps settings (move s act.move) := by
  refine ⟨h.toHolds.move act.move, ?_⟩
  cases act with
  | saving works => exact h.reads.allow works
  | event event =>
    cases event with
    | type text =>
      have hstore := (handle_type s.1 text s.2).1
      have hreads := h.reads.ask (.preview text)
      rw [← Step.effect, ← hstore] at hreads
      unfold Act.move Window.move
      dsimp only
      rcases hhandle : s.1.handle (.type text) s.2 with ⟨f | w, store⟩ <;>
        rwa [hhandle] at hreads
    | copy => exact h.reads
    | dark on =>
      obtain ⟨w, hhandle, -⟩ := handle_dark h.sound on s.2
      unfold Act.move Window.move
      dsimp only
      rw [hhandle]
      exact h.reads.save (h.sound.put _ (storable_bool on)) fun k hk =>
        (viewAlike_put_dark s.1.settings (.bool on) k hk).trans (h.get k hk)
    | clipboard works => exact h.reads

end Keeps

/-! ### Values shown -/

section Values

variable [MathLibrary] {settings : Settings} {store : Store}

/-- The value of a text is what there is to copy of it. -/
theorem value?_eq (h : store.ReadsAlike settings) (text : Text) : value? store text =
    match (Access.previewLines text store).1 with
    | .ok lines => if lines.copyText = [] then none else some lines.copyText
    | .error _ => none := by
  unfold value?
  cases hlines : (Access.previewLines text store).1 with
  | error f => cases Outcome.ofText text <;> rfl
  | ok lines =>
    rw [h.previewLines] at hlines
    rcases Request.copyText_of_preview hlines with ⟨hfailure, hempty⟩ | ⟨x, e, hsuccess, hshown, hne⟩
    · cases houtcome : Outcome.ofText text with
      | success x e => rw [houtcome] at hfailure; cases hfailure
      | failure f e => exact (if_pos hempty).symm
    · rw [hsuccess]
      dsimp only
      rw [if_neg hne, h.displayText, hshown]
      rfl

/-- A text without lines adds neither lines nor a value. -/
theorem linesOf_concat_of_error {text : Text} {f : SettingsFault}
    (hfault : (Access.previewLines text store).1 = .error f) (texts : List Text) :
    linesOf store (texts ++ [text]) = linesOf store texts := by
  simp [linesOf, hfault, Except.toOption]

theorem valuesOf_concat_of_error (h : store.ReadsAlike settings) {text : Text} {f : SettingsFault}
    (hfault : (Access.previewLines text store).1 = .error f) (texts : List Text) :
    valuesOf store (texts ++ [text]) = valuesOf store texts := by
  have hvalue := value?_eq h text
  rw [hfault] at hvalue
  simp [valuesOf, hvalue]

theorem linesOf_concat {text : Text} {lines : PreviewLines}
    (hlines : (Access.previewLines text store).1 = .ok lines) (texts : List Text) :
    linesOf store (texts ++ [text]) = linesOf store texts ++ [lines] := by
  simp [linesOf, hlines, Except.toOption]

/-- The value that a text adds is what there is to copy of it. -/
theorem valuesOf_concat (h : store.ReadsAlike settings) {text : Text} {lines : PreviewLines}
    (hlines : (Access.previewLines text store).1 = .ok lines) (texts : List Text) :
    valuesOf store (texts ++ [text]) =
      valuesOf store texts ++ if lines.copyText = [] then [] else [lines.copyText] := by
  have hvalue := value?_eq h text
  rw [hlines] at hvalue
  dsimp only at hvalue
  rw [valuesOf, List.filterMap_append, List.filterMap_cons, hvalue]
  split_ifs <;> rfl

/-- What there is to copy is the last value. -/
theorem getLast?_valuesOf (h : store.ReadsAlike settings) (texts : List Text)
    (hne : (((linesOf store texts).getLast?).getD .blank).copyText ≠ []) :
    (valuesOf store texts).getLast? =
      some (((linesOf store texts).getLast?).getD .blank).copyText := by
  induction texts using List.reverseRecOn with
  | nil => exact absurd rfl hne
  | append_singleton texts text ih =>
    cases hresult : (Access.previewLines text store).1 with
    | error f =>
      rw [linesOf_concat_of_error hresult] at hne ⊢
      rw [valuesOf_concat_of_error h hresult]
      exact ih hne
    | ok lines =>
      rw [linesOf_concat hresult, List.getLast?_concat, Option.getD_some] at hne ⊢
      rw [valuesOf_concat h hresult, if_neg hne, List.getLast?_concat]

end Values

/-! ### The window after an act -/

section Views

/-- The clipboard when a text is copied: an empty one is not, and the clipboard may fail. -/
def copiedTo (clipboard : Clipboard) (text : Text) : Clipboard :=
  if text.isEmpty || !clipboard.works then clipboard else { clipboard with content := some text }

theorem copiedTo_works (clipboard : Clipboard) (text : Text) :
    (copiedTo clipboard text).works = clipboard.works := by
  unfold copiedTo
  split <;> rfl

/-- What a copy leaves in a clipboard. -/
theorem content_copiedTo (clipboard : Clipboard) (text : Text) :
    (copiedTo clipboard text).content = clipboard.content ∨
      text ≠ [] ∧ (copiedTo clipboard text).content = some text := by
  unfold copiedTo
  split
  · exact .inl rfl
  · next h =>
    refine .inr ⟨?_, rfl⟩
    rintro rfl
    exact h rfl

theorem content_copiedTo_of_works {clipboard : Clipboard} (h : clipboard.works = true) (text : Text) :
    (copiedTo clipboard text).content = if text = [] then clipboard.content else some text := by
  cases text <;> simp [copiedTo, h]

theorem copy_eq (w : Window) : ∃ dialogs,
    w.copy = { w with clipboard := copiedTo w.clipboard w.lines.copyText, dialogs := dialogs } := by
  unfold copy copiedTo
  split
  · next hempty => exact ⟨w.dialogs, by rw [hempty]; rfl⟩
  · next hempty =>
    split
    · next hworks => exact ⟨w.dialogs, by simp [hempty, hworks]⟩
    · next hworks => exact ⟨w.dialogs ++ [clipboardDialog], by simp [hworks]⟩

/-- The clipboard once lines are shown. -/
def clipboardAfter (w : Window) (lines : PreviewLines) : Clipboard :=
  if (w.settings.get .copyAfterEvaluate).isTrue then copiedTo w.clipboard lines.copyText
  else w.clipboard

theorem clipboardAfter_works (w : Window) (lines : PreviewLines) :
    (clipboardAfter w lines).works = w.clipboard.works := by
  unfold clipboardAfter
  split
  · exact copiedTo_works ..
  · rfl

theorem content_clipboardAfter (w : Window) (lines : PreviewLines) :
    (clipboardAfter w lines).content = w.clipboard.content ∨
      lines.copyText ≠ [] ∧ (clipboardAfter w lines).content = some lines.copyText := by
  unfold clipboardAfter
  split
  · exact content_copiedTo ..
  · exact .inl rfl

theorem display_eq (w : Window) (lines : PreviewLines) : ∃ dialogs, w.display lines =
    { w with
      lines := lines
      copyEnabled := !lines.copyText.isEmpty
      clipboard := clipboardAfter w lines
      dialogs := dialogs } := by
  unfold display clipboardAfter
  dsimp only
  split
  · obtain ⟨dialogs, hcopy⟩ :=
      copy_eq { w with lines := lines, copyEnabled := !lines.copyText.isEmpty }
    exact ⟨dialogs, hcopy⟩
  · exact ⟨w.dialogs, rfl⟩

variable [MathLibrary]

/-- The dark style is switched whether or not that can be saved. -/
theorem exists_of_handle_dark {w w' : Window} {on : Bool} {store : Store}
    (h : (w.handle (.dark on) store).1 = .ok w') :
    ∃ dialogs, w' = { w.setDark on with dialogs := dialogs } := by
  have hhandle : w.handle (.dark on) store =
      ((Access.save (w.setDark on).settings.toJson >>= fun saved => if saved then pure (w.setDark on)
        else pure { w.setDark on with dialogs := (w.setDark on).dialogs ++ [saveDialog] } :
          Access Window) store) := rfl
  rw [hhandle, Query.bind_apply] at h
  rcases hsave : Access.save (w.setDark on).settings.toJson store with ⟨f | saved, store'⟩ <;>
    rw [hsave] at h
  · cases h
  · cases saved with
    | true => exact ⟨_, (Except.ok.inj h).symm⟩
    | false => exact ⟨_, (Except.ok.inj h).symm⟩

/-- A text without lines leaves the window as it was. -/
theorem move_type (s : Window × Store) (text : Text) :
    (move s (.event (.type text))).1 =
      match (Access.previewLines text s.2).1 with
      | .ok lines => s.1.display lines
      | .error _ => s.1 := by
  have hhandle : s.1.handle (.type text) s.2 =
      ((Access.previewLines text >>= fun lines => pure (s.1.display lines) : Access Window) s.2) := rfl
  rw [move, hhandle, Query.bind_apply]
  rcases Access.previewLines text s.2 with ⟨f | lines, store⟩ <;> rfl

end Views

/-! ### What is shown after an act -/

section Run

theorem texts_concat (acts : List Act) (act : Act) : texts (acts ++ [act]) = texts acts ++ texts [act] :=
  List.filterMap_append

theorem switches_concat (acts : List Act) (act : Act) :
    switches (acts ++ [act]) = switches acts ++ switches [act] :=
  List.filterMap_append

theorem texts_type (acts : List Act) (text : Text) :
    texts (acts ++ [.event (.type text)]) = texts acts ++ [text] :=
  texts_concat ..

theorem switches_type (acts : List Act) (text : Text) :
    switches (acts ++ [.event (.type text)]) = switches acts :=
  (switches_concat ..).trans (List.append_nil _)

variable [MathLibrary] {start : Window × Store} {w w' : Window} {acts : List Act} {text : Text}

/-- What there is to copy is the last value. -/
theorem Shows.getLast?_eq (h : Shows start acts w) (hstart : start.2.ReadsAlike start.1.settings)
    (hne : w.lines.copyText ≠ []) :
    (valuesOf start.2 (texts acts)).getLast? = some w.lines.copyText := by
  rw [h.lines] at hne ⊢
  exact getLast?_valuesOf hstart _ hne

/-- An act that types nothing leaves the lines. It may copy their value and switch the style. -/
theorem Shows.of_lines_eq (h : Shows start acts w) (hstart : start.2.ReadsAlike start.1.settings)
    {act : Act} (htexts : texts [act] = []) (hlines : w'.lines = w.lines)
    (henabled : w'.copyEnabled = w.copyEnabled)
    (hcontent : w'.clipboard.content = w.clipboard.content ∨
      w.lines.copyText ≠ [] ∧ w'.clipboard.content = some w.lines.copyText)
    (hworks : act ≠ .event (.clipboard false) → w.clipboard.works = true → w'.clipboard.works = true)
    (hdark : w'.darkStyle = ((switches [act]).getLast?).getD w.darkStyle) :
    Shows start (acts ++ [act]) w' := by
  have htexts : texts (acts ++ [act]) = texts acts := by
    rw [texts_concat, htexts, List.append_nil]
  have hlast := h.getLast?_eq hstart
  constructor
  · rw [htexts, hlines, h.lines]
  · rw [henabled, hlines, h.enabled]
  · rw [htexts]
    rcases hcontent with hsame | ⟨hne, hcopied⟩
    · rw [hsame]
      exact h.clipboard
    · exact .inr ⟨_, List.mem_of_getLast? (hlast hne), hcopied⟩
  · intro hwork hacts
    rw [List.forall_mem_append, List.forall_mem_singleton] at hacts
    exact hworks hacts.2 (h.works hwork hacts.1)
  · intro hcopies hwork hacts
    rw [List.forall_mem_append] at hacts
    rw [htexts]
    rcases hcontent with hsame | ⟨hne, hcopied⟩
    · rw [hsame]
      exact h.copied hcopies hwork hacts.1
    · rw [hcopied, hlast hne, Option.some_or]
  · rw [hdark, h.dark, switches_concat, List.getLast?_append]
    cases (switches [act]).getLast? <;> rfl

section Typed

variable (h : Shows start acts w) (hstart : start.2.ReadsAlike start.1.settings)

include h hstart

/-- A text that has no lines changes nothing. -/
theorem Shows.type_fault {f : SettingsFault} (hfault : (Access.previewLines text start.2).1 = .error f) :
    Shows start (acts ++ [.event (.type text)]) w := by
  have hvalues := valuesOf_concat_of_error hstart hfault (texts acts)
  constructor
  · rw [texts_type, linesOf_concat_of_error hfault, h.lines]
  · exact h.enabled
  · rw [texts_type, hvalues]
    exact h.clipboard
  · exact fun hwork hacts => h.works hwork (List.forall_mem_append.mp hacts).1
  · intro hcopies hwork hacts
    rw [texts_type, hvalues]
    exact h.copied hcopies hwork (List.forall_mem_append.mp hacts).1
  · rw [switches_type, h.dark]

/-- The lines of a text are shown, and its value may be copied. -/
theorem Shows.type_lines {lines : PreviewLines}
    (hlines : (Access.previewLines text start.2).1 = .ok lines)
    (hcopies : w.settings.get .copyAfterEvaluate = start.1.settings.get .copyAfterEvaluate) :
    Shows start (acts ++ [.event (.type text)]) (w.display lines) := by
  obtain ⟨dialogs, hdisplay⟩ := w.display_eq lines
  have hvalues := valuesOf_concat hstart hlines (texts acts)
  rw [hdisplay]
  constructor
  · rw [texts_type, linesOf_concat hlines, List.getLast?_concat]
    rfl
  · rfl
  · rw [texts_type, hvalues]
    rcases content_clipboardAfter w lines with hsame | ⟨hne, hcopied⟩
    · refine (h.clipboard.imp_left hsame.trans).imp_right ?_
      rintro ⟨shown, hmem, hshown⟩
      exact ⟨shown, List.mem_append_left _ hmem, hsame.trans hshown⟩
    · rw [if_neg hne]
      exact .inr ⟨_, List.mem_append_right _ (List.mem_singleton_self _), hcopied⟩
  · intro hwork hacts
    exact (clipboardAfter_works w lines).trans (h.works hwork (List.forall_mem_append.mp hacts).1)
  · intro hcopied hwork hacts
    have hacts := (List.forall_mem_append.mp hacts).1
    have hafter : clipboardAfter w lines = copiedTo w.clipboard lines.copyText := by
      rw [clipboardAfter, hcopies, if_pos hcopied]
    rw [texts_type, hvalues]
    dsimp only
    rw [hafter, content_copiedTo_of_works (h.works hwork hacts), h.copied hcopied hwork hacts]
    split_ifs
    · rw [List.append_nil]
    · rw [List.getLast?_concat, Option.some_or]
  · rw [switches_type]
    exact h.dark

end Typed

/-- What one act does to what is shown. -/
theorem Shows.act {s : Window × Store} (h : Shows start acts s.1)
    (hstart : start.2.ReadsAlike start.1.settings) (hkeeps : Keeps start.1.settings s) (act : Act) :
    Shows start (acts ++ [act]) (move s act.move).1 := by
  cases act with
  | saving works => exact h.of_lines_eq hstart rfl rfl rfl (.inl rfl) (fun _ h => h) rfl
  | event event =>
    cases event with
    | type text =>
      have hmove := move_type s text
      rw [hkeeps.reads.previewLines, ← hstart.previewLines] at hmove
      rw [show Act.move (.event (.type text)) = .event (.type text) from rfl, hmove]
      cases hlines : (Access.previewLines text start.2).1 with
      | error f => exact h.type_fault hstart hlines
      | ok lines => exact h.type_lines hstart hlines (hkeeps.get _ (by decide))
    | copy =>
      obtain ⟨dialogs, hcopy⟩ := s.1.copy_eq
      have hmove : (move s (Act.event .copy).move).1 = s.1.copy := rfl
      rw [hmove, hcopy]
      exact h.of_lines_eq hstart rfl rfl rfl (content_copiedTo _ _)
        (fun _ h => (copiedTo_works _ _).trans h) rfl
    | dark on =>
      obtain ⟨w, hhandle, -⟩ := handle_dark hkeeps.sound on s.2
      have hmove : (move s (Act.event (.dark on)).move).1 = w := by
        unfold Act.move Window.move
        dsimp only
        rw [hhandle]
      obtain ⟨dialogs, rfl⟩ := exists_of_handle_dark (congrArg Prod.fst hhandle)
      rw [hmove]
      exact h.of_lines_eq hstart rfl rfl rfl (.inl rfl) (fun _ h => h) rfl
    | clipboard works =>
      refine h.of_lines_eq hstart rfl rfl rfl (.inl rfl) (fun hne _ => ?_) rfl
      cases works with
      | true => rfl
      | false => exact absurd rfl hne

end Run

end Window
end NumericAnswer
