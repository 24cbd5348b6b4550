/-
# The store of settings

Settings live in a file, and a snapshot in memory answers look-ups until they
are saved or reloaded. A file that is absent or no JSON counts as empty; one
that cannot be merged is a fault and leaves no snapshot. An object that nests
too deeply is a fault when it is saved: a part of it is in the file then.

Key definitions: `Store`, `Store.read`, `Access`, `Access.settings`,
`Access.load`, `Access.save`, `Access.reload`.
Key theorems: `Store.read_snapshot`, `Store.read_error`.
-/
import NumericAnswer.Json.Reader
import NumericAnswer.Settings.Basic

namespace NumericAnswer

/-- The file and what is remembered of it. -/
structure Store where
  /-- The text of the file, if there is one. -/
  file : Option Text
  /-- The directory of the file exists. -/
  writable : Bool
  snapshot : Option Settings

namespace Store

/-- The store before anything has been read. -/
def initial (file : Option Text) (writable : Bool) : Store :=
  ⟨file, writable, none⟩

/-- The settings that a file means. -/
def settingsOf : Option Text → Except SettingsFault Settings
  | none => .ok Settings.default
  | some text =>
    match Json.read text with
    | .ok value => Settings.overlay value
    | .error .malformed => .ok Settings.default
    | .error (.longInteger digits) => .error (.longInteger digits)
    | .error .nestedTooDeeply => .error .nestedTooDeeply

/-- The settings, from the snapshot or else from the file. -/
def read (store : Store) : Except SettingsFault Settings × Store :=
  match store.snapshot with
  | some settings => (.ok settings, store)
  | none =>
    match settingsOf store.file with
    | .ok settings => (.ok settings, { store with snapshot := some settings })
    | .error f => (.error f, store)

/-- Forgets the snapshot. -/
def reload (store : Store) : Store :=
  { store with snapshot := none }

/-- Writes an object to the file; tells whether the file could be opened. -/
def save (fields : Json) (store : Store) : Except SettingsFault Bool × Store :=
  if !store.writable then (.ok false, store)
  else if fields.depth ≤ Json.nestingLimit then
    (.ok true, { store with file := some fields.page, snapshot := none })
  else (.error .nestedTooDeeply, { store with file := some (fields.draft Json.nestingLimit) })

/-- What has been read is what the next look-up answers from. -/
theorem read_snapshot {store store' : Store} {settings : Settings}
    (h : store.read = (.ok settings, store')) : store'.snapshot = some settings := by
  unfold read at h
  split at h
  · next hs =>
    obtain ⟨he, rfl⟩ := Prod.mk.inj h
    rw [hs, Except.ok.inj he]
  · split at h
    · obtain ⟨he, rfl⟩ := Prod.mk.inj h
      rw [Except.ok.inj he]
    · simp at h

/-- A fault changes nothing. -/
theorem read_error {store store' : Store} {f : SettingsFault}
    (h : store.read = (.error f, store')) : store' = store := by
  unfold read at h
  split at h
  · simp at h
  · split at h
    · simp at h
    · exact (Prod.mk.inj h).2.symm

end Store

/-- A computation that may look settings up, and change the store by that. -/
abbrev Access := ExceptT SettingsFault (StateM Store)

namespace Access

def settings : Access Settings :=
  fun store => store.read

/-- A result that needs no further look-up. -/
def ofExcept {α : Type} (result : Except SettingsFault α) : Access α :=
  fun store => (result, store)

/-- The value under a name. The name `all` is not for this: all settings at once
are what `settings` gives. -/
def load (name : Text) : Access Json := do
  return (← settings).find name

/-- Saves an object; tells whether that was possible. -/
def save (fields : Json) : Access Bool :=
  fun store => store.save fields

def reload : Access Unit :=
  fun store => (.ok (), store.reload)

end Access
end NumericAnswer
