/-
# What a settings file can mean

A text that is no JSON means the defaults. A JSON value has entries if it is an object, an empty
text or a list in which every item is an entry, and then it means the defaults with its entries over
them, the last one of each key. A file of any other kind cannot be used: no setting can be looked up
while it is there.

Key definitions: `Settings.IsEntry`, `Settings.HasEntries`, `Store.Usable`, `Access.looked`.
Key theorems: `Fields.lookup_putAll`, `Settings.entries_ok_iff`, `Access.load_looked`,
`Access.loads_from_file`.
-/
import NumericAnswer.Proofs.Updates

namespace NumericAnswer

/-! ### Entries one after the other -/

namespace Fields

variable {κ β : Type} [BEq κ]

/-- The value in the last entry of a key. -/
def last? (key : κ) : List (κ × β) → Option β
  | [] => none
  | entry :: entries => (last? key entries).or (if key == entry.1 then some entry.2 else none)

theorem lookup_putAll [EquivBEq κ] (key : κ) : ∀ (entries : List (κ × β)) (fields : Fields κ β),
    (putAll entries fields).lookup key = (last? key entries).or (fields.lookup key)
  | [], _ => rfl
  | (k, value) :: entries, fields => by
    show (putAll entries (put k value fields)).lookup key = _
    rw [lookup_putAll key entries, last?, Option.or_assoc]
    congr 1
    cases hk : key == k with
    | true => rw [lookup_congr hk, lookup_put, if_pos rfl, Option.some_or]
    | false => rw [lookup_put_of_ne value hk, if_neg Bool.false_ne_true, Option.none_or]

end Fields

/-! ### Values with entries -/

namespace Settings

/-- The item is an entry: two characters, two values of which the first is a key, or an object of
two fields, whose names are the key and the value. -/
inductive IsEntry : Json → SettingKey × Json → Prop where
  | text (a b : Char) : IsEntry (.string [a, b]) (.name [a], .string [b])
  | pair {first second : Json} {key : SettingKey} (h : SettingKey.ofJson first = .ok key) :
      IsEntry (.array [first, second]) (key, second)
  | names (a b : Text × Json) : IsEntry (.object [a, b]) (.name a.1, .string b.1)

/-- The value has these entries. -/
inductive HasEntries : Json → List (SettingKey × Json) → Prop where
  | object (fields : List (Text × Json)) :
      HasEntries (.object fields) (fields.map fun field => (.name field.1, field.2))
  | array {items : List Json} {list : List (SettingKey × Json)} (h : List.Forall₂ IsEntry items list) :
      HasEntries (.array items) list
  | emptyText : HasEntries (.string []) []

variable {item value : Json} {items : List Json} {entry : SettingKey × Json}
  {list : List (SettingKey × Json)} {index : ℕ}

/-- A list is mapped to two values if it has two. -/
theorem exists_of_map_eq_pair {α β : Type} {f : α → β} {l : List α} {x y : β} (h : l.map f = [x, y]) :
    ∃ a b, l = [a, b] ∧ f a = x ∧ f b = y := by
  obtain ⟨a, l, rfl, ha, h⟩ := List.map_eq_cons_iff.mp h
  obtain ⟨b, l, rfl, hb, h⟩ := List.map_eq_cons_iff.mp h
  obtain rfl := List.map_eq_nil_iff.mp h
  exact ⟨a, b, rfl, ha, hb⟩

theorem entryOf_ok_iff : entryOf item index = .ok entry ↔ IsEntry item entry := by
  constructor
  · intro h
    unfold entryOf at h
    split at h
    · cases h
    · next first second hparts =>
      obtain ⟨key, hkey, rfl⟩ := exists_of_map_ok h
      cases item with
      | string s =>
        obtain ⟨a, b, rfl, rfl, rfl⟩ := exists_of_map_eq_pair (Option.some.inj hparts)
        obtain rfl := Except.ok.inj hkey
        exact .text a b
      | array items =>
        obtain rfl := Option.some.inj hparts
        exact .pair hkey
      | object fields =>
        obtain ⟨a, b, rfl, rfl, rfl⟩ := exists_of_map_eq_pair (Option.some.inj hparts)
        obtain rfl := Except.ok.inj hkey
        exact .names a b
      | _ => cases hparts
    · cases h
  · intro h
    cases h with
    | text a b => rfl
    | @pair first second key hkey =>
      show (SettingKey.ofJson first).map (fun key => (key, second)) = _
      rw [hkey]
      rfl
    | names a b => rfl

theorem entriesFrom_ok_iff : ∀ {items : List Json} {list : List (SettingKey × Json)} {index : ℕ},
    entriesFrom index items = .ok list ↔ List.Forall₂ IsEntry items list
  | [], list, index => by
    rw [List.forall₂_nil_left_iff, entriesFrom, Except.ok.injEq, eq_comm]
  | item :: items, list, index => by
    rw [List.forall₂_cons_left_iff, entriesFrom]
    constructor
    · intro h
      obtain ⟨entry, hentry, h⟩ := exists_of_bind_ok h
      obtain ⟨entries, hentries, h⟩ := exists_of_bind_ok h
      exact ⟨entry, entries, entryOf_ok_iff.mp hentry, entriesFrom_ok_iff.mp hentries,
        (Except.ok.inj h).symm⟩
    · rintro ⟨entry, entries, hentry, hentries, rfl⟩
      rw [entryOf_ok_iff.mpr hentry, entriesFrom_ok_iff.mpr hentries]
      rfl

/-- A character alone is no entry. -/
theorem not_isEntry_singleton (c : Char) : ¬IsEntry (.string [c]) entry := by
  rintro ⟨⟩

/-- **The values that can be merged into the settings**, and the entries that they have. -/
theorem entries_ok_iff : entries value = .ok list ↔ HasEntries value list := by
  constructor
  · intro h
    cases value with
    | object fields =>
      obtain rfl := Except.ok.inj h
      exact .object fields
    | array items => exact .array (entriesFrom_ok_iff.mp h)
    | string s =>
      have hforall := entriesFrom_ok_iff.mp h
      cases s with
      | nil =>
        obtain rfl := List.forall₂_nil_left_iff.mp hforall
        exact .emptyText
      | cons c s =>
        obtain ⟨entry, _, hentry, -⟩ := List.forall₂_cons_left_iff.mp hforall
        exact absurd hentry (not_isEntry_singleton c)
    | _ => cases h
  · intro h
    cases h with
    | object fields => rfl
    | array h => exact entriesFrom_ok_iff.mpr h
    | emptyText => rfl

end Settings

/-! ### Files -/

/-- The settings can be read from a file with that text. -/
def Store.Usable (text : Text) : Prop :=
  Json.read text = .error .malformed ∨
    ∃ value list, Json.read text = .ok value ∧ Settings.HasEntries value list

namespace Store

variable {text : Text}

theorem settingsOf_malformed (h : Json.read text = .error .malformed) :
    settingsOf (some text) = .ok Settings.default := by
  rw [settingsOf, h]

theorem settingsOf_entries {value : Json} {list : List (SettingKey × Json)}
    (hread : Json.read text = .ok value) (hlist : Settings.HasEntries value list) :
    settingsOf (some text) = .ok (Fields.putAll list Settings.default) := by
  rw [settingsOf, hread]
  show Settings.overlay value = _
  rw [Settings.overlay, Settings.entries_ok_iff.mpr hlist]
  rfl

theorem exists_settingsOf_iff (hdepth : Json.read text ≠ .error .nestedTooDeeply) :
    (∃ settings, settingsOf (some text) = .ok settings) ↔ Usable text := by
  constructor
  · rintro ⟨settings, h⟩
    rw [settingsOf] at h
    split at h
    · next value hread =>
      obtain ⟨list, hlist, -⟩ := exists_of_map_ok h
      exact .inr ⟨value, list, hread, Settings.entries_ok_iff.mp hlist⟩
    · next hread => exact .inl hread
    · cases h
    · next hread => exact absurd hread hdepth
  · rintro (h | ⟨value, list, hread, hlist⟩)
    · exact ⟨_, settingsOf_malformed h⟩
    · exact ⟨_, settingsOf_entries hread hlist⟩

end Store

/-! ### Looking settings up -/

/-- What is remembered, if anything is, is what the file means. -/
def Store.Current (store : Store) : Prop :=
  ∀ settings, store.snapshot = some settings → settingsOf store.file = .ok settings

namespace Store

variable {store : Store}

theorem current_of_none (h : store.snapshot = none) : store.Current := by
  intro settings hsettings
  rw [h] at hsettings
  cases hsettings

theorem Current.read_fst (h : store.Current) : store.read.1 = settingsOf store.file := by
  cases hsnapshot : store.snapshot with
  | none => exact read_of_none hsnapshot
  | some settings => simp only [read, hsnapshot, h settings hsnapshot]

theorem Current.read (h : store.Current) : store.read.2.Current := by
  intro settings hsettings
  rw [store.read_eq.1, ← h.read_fst]
  cases hread : store.read.1 with
  | error f =>
    rw [(read_fst_error hread).1] at hsettings
    rw [← hread, h.read_fst, h settings hsettings]
  | ok held => rw [Option.some.inj ((read_snapshot (Prod.ext hread rfl)).symm.trans hsettings)]

end Store

namespace Access

variable {store : Store} {text : Text}

theorem load_snd (name : Text) (store : Store) : (load name store).2 = store.read.2 := by
  show ((settings >>= fun s => pure (s.find name) : Access Json) store).2 = _
  simp only [settings, bind, ExceptT.bind, ExceptT.mk, ExceptT.bindCont, StateT.bind]
  rcases store.read with ⟨result, store'⟩
  cases result <;> rfl

/-- The store after some names have been looked up. -/
def looked (names : List Text) (store : Store) : Store :=
  names.foldl (fun store name => (load name store).2) store

/-- Look-ups leave the file, and remember what it means. -/
theorem current_looked (h : store.Current) (names : List Text) :
    (looked names store).Current ∧ (looked names store).file = store.file := by
  induction names generalizing store with
  | nil => exact ⟨h, rfl⟩
  | cons name names ih =>
    have hnext : (load name store).2.Current := by
      rw [load_snd]
      exact h.read
    obtain ⟨hcurrent, hfile⟩ := ih hnext
    refine ⟨hcurrent, hfile.trans ?_⟩
    rw [load_snd, store.read_eq.1]

/-- Whatever was looked up before, a look-up answers from the file. -/
theorem load_looked (h : store.Current) (names : List Text) (name : Text) :
    (load name (looked names store)).1 =
      (Store.settingsOf store.file).map fun settings => settings.find name := by
  obtain ⟨hcurrent, hfile⟩ := current_looked h names
  rw [load_eq, hcurrent.read_fst, hfile]

/-- **What look-ups give while a file is there** that does not nest too deeply. They all succeed, or
they all fail. The names have their default values if the text is no JSON. If it is a value with
entries, a name has the value in its last entry, or else its default one. -/
theorem loads_from_file (hcurrent : store.Current) (hfile : store.file = some text)
    (hdepth : Json.read text ≠ .error .nestedTooDeeply) (before : List Text) :
    let store' := looked before store
    (Store.Usable text → ∀ name, ∃ value, (load name store').1 = .ok value) ∧
    (¬Store.Usable text → ∀ name, ∃ f, (load name store').1 = .error f) ∧
    (Json.read text = .error .malformed →
      ∀ name, (load name store').1 = .ok (Settings.default.find name)) ∧
    ∀ value list, Json.read text = .ok value → Settings.HasEntries value list →
      ∀ name, (load name store').1 = .ok (((Fields.last? (.name name) list).or
        (Settings.default.lookup (.name name))).getD .null) := by
  intro store'
  have hload : ∀ name, (load name store').1 =
      (Store.settingsOf (some text)).map fun settings => settings.find name := fun name => by
    rw [load_looked hcurrent, hfile]
  have husable := Store.exists_settingsOf_iff hdepth
  refine ⟨fun h name => ?_, fun h name => ?_, fun h name => ?_, fun value list hread hlist name => ?_⟩
  · obtain ⟨settings, hsettings⟩ := husable.mpr h
    exact ⟨settings.find name, by rw [hload, hsettings]; rfl⟩
  · cases hsettings : Store.settingsOf (some text) with
    | error f => exact ⟨f, by rw [hload, hsettings]; rfl⟩
    | ok settings => exact absurd (husable.mp ⟨settings, hsettings⟩) h
  · rw [hload, Store.settingsOf_malformed h]
    rfl
  · rw [hload, Store.settingsOf_entries hread hlist]
    show Except.ok (Settings.find _ name) = _
    rw [Settings.find, Fields.lookup_putAll]
    cases Fields.last? (.name name) list <;>
      cases Settings.default.lookup (.name name) <;> rfl

/-- A list that sets a key. -/
def debugList : Json :=
  .array [.array [.string "debug".toList, .bool true]]

/-- The key is set, and another one that was looked up before is not. -/
theorem loads_from_file_list :
    let store := looked ["darkmode".toList] (Store.initial (some debugList.page) true)
    Store.Usable debugList.page ∧ (load "debug".toList store).1 = .ok (.bool true) ∧
      (load "darkmode".toList store).1 = .ok (.bool false) := by
  intro store
  have hread : Json.read debugList.page = .ok debugList :=
    Json.read_page ⟨⟨trivial, trivial, trivial⟩, trivial⟩ (by decide)
  have hlist : Settings.HasEntries debugList [(.name "debug".toList, .bool true)] :=
    .array (.cons (.pair rfl) .nil)
  have hdepth : Json.read debugList.page ≠ .error .nestedTooDeeply := by
    rw [hread]
    exact fun h => nomatch h
  have hcurrent : (Store.initial (some debugList.page) true).Current := Store.current_of_none rfl
  obtain ⟨-, -, -, hload⟩ := loads_from_file hcurrent rfl hdepth ["darkmode".toList]
  exact ⟨.inr ⟨_, _, hread, hlist⟩, hload _ _ hread hlist "debug".toList,
    hload _ _ hread hlist "darkmode".toList⟩

/-- Not every text in the file lets settings be looked up, and one that is no object may change
them. -/
theorem not_loads_from_file :
    ¬∀ (text : Text) (name : Text), Json.read text ≠ .error .nestedTooDeeply →
      (∃ value, (load name (Store.initial (some text) true)).1 = .ok value) ∧
      ((∀ fields, Json.read text ≠ .ok (.object fields)) →
        (load name (Store.initial (some text) true)).1 = .ok (Settings.default.find name)) := by
  intro h
  have hread : Json.read ['7'] = .ok (.integer 7) := rfl
  obtain ⟨value, hvalue⟩ := (h ['7'] "debug".toList (by rw [hread]; exact fun h => nomatch h)).1
  have hfault : (load "debug".toList (Store.initial (some ['7']) true)).1 =
      .error (.notIterable "int") := rfl
  rw [hfault] at hvalue
  cases hvalue

end Access
end NumericAnswer
