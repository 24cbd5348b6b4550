/-
# What is read can be saved

A value that was read is well formed and nests no deeper than it was read. So
whatever the file holds, the settings that it means have distinct keys, all the
defaults among them, and values that can be saved among other settings.

Key definitions: `Json.Storable`, `Settings.Sound`.
Key theorems: `Json.storable_of_read`, `Store.sound_settingsOf`.
-/
import Mathlib
import NumericAnswer.Notation.Group
import NumericAnswer.Settings.Store
import NumericAnswer.Proofs.Pages

namespace NumericAnswer

/-! ### Fields -/

namespace Fields

variable {κ β : Type} [BEq κ]

/-- No key comes twice. -/
def Distinct (fields : Fields κ β) : Prop :=
  (fields.map Prod.fst).Pairwise fun a b => (a == b) = false

theorem of_mem_put {key : κ} {value : β} {entry : κ × β} : ∀ {fields : Fields κ β},
    entry ∈ put key value fields →
      entry ∈ fields ∨ entry.2 = value ∧ (entry.1 = key ∨ entry.1 ∈ fields.map Prod.fst)
  | [], h => by
    obtain rfl := List.mem_singleton.mp h
    exact .inr ⟨rfl, .inl rfl⟩
  | (k, v) :: fields, h => by
    rw [put] at h
    split at h
    · rcases List.mem_cons.mp h with rfl | h
      · exact .inr ⟨rfl, .inr (List.mem_cons_self ..)⟩
      · exact .inl (List.mem_cons_of_mem _ h)
    · rcases List.mem_cons.mp h with rfl | h
      · exact .inl (List.mem_cons_self ..)
      · rcases of_mem_put h with h | ⟨hvalue, h⟩
        · exact .inl (List.mem_cons_of_mem _ h)
        · exact .inr ⟨hvalue, h.imp_right (List.mem_cons_of_mem _)⟩

theorem Distinct.put [EquivBEq κ] (key : κ) (value : β) : ∀ {fields : Fields κ β},
    fields.Distinct → (fields.put key value).Distinct
  | [], _ => List.pairwise_singleton ..
  | (k, v) :: fields, h => by
    obtain ⟨hk, hfields⟩ := List.pairwise_cons.mp h
    rw [Fields.put]
    cases hkey : key == k with
    | true => exact h
    | false =>
      refine List.pairwise_cons.mpr ⟨fun other hother => ?_, Distinct.put key value hfields⟩
      obtain ⟨entry, hentry, rfl⟩ := List.mem_map.mp hother
      rcases of_mem_put hentry with hmem | ⟨-, heq | hmem⟩
      · exact hk _ (List.mem_map_of_mem hmem)
      · rw [heq, ← BEq.comm]
        exact hkey
      · exact hk _ hmem

theorem lookup_congr [EquivBEq κ] {key key' : κ} (h : (key == key') = true) :
    ∀ fields : Fields κ β, fields.lookup key = fields.lookup key'
  | [] => rfl
  | (k, v) :: fields => by
    rw [List.lookup_cons, List.lookup_cons, BEq.congr_left h, lookup_congr h fields]

/-- What the entries and the fields have in common, the fields have with the
entries over them. -/
theorem putAll_induction {P : Fields κ β → Prop} {entries fields : Fields κ β} (h : P fields)
    (hput : ∀ fields, ∀ entry ∈ entries, P fields → P (put entry.1 entry.2 fields)) :
    P (putAll entries fields) := by
  induction entries generalizing fields with
  | nil => exact h
  | cons entry entries ih =>
    exact ih (hput fields entry (List.mem_cons_self ..) h)
      fun fields entry hentry => hput fields entry (List.mem_cons_of_mem _ hentry)

theorem distinct_iff_nodup {κ : Type} [BEq κ] [LawfulBEq κ] {fields : Fields κ β} :
    fields.Distinct ↔ (fields.map Prod.fst).Nodup := by
  simp [Distinct, List.Nodup]

end Fields

/-! ### Values -/

namespace Json

/-- The value can be saved where at most `n` values stand inside one another. -/
def Storable (n : ℕ) (v : Json) : Prop :=
  WellFormed v ∧ depth v ≤ n

theorem wellFormedItems_iff : ∀ {items : List Json},
    WellFormedItems items ↔ ∀ item ∈ items, WellFormed item
  | [] => by simp [WellFormedItems]
  | item :: items => by
    rw [WellFormedItems, List.forall_mem_cons, wellFormedItems_iff]

theorem wellFormedFields_iff : ∀ {fields : List (Text × Json)},
    WellFormedFields fields ↔ ∀ field ∈ fields, WellFormed field.2
  | [] => by simp [WellFormedFields]
  | (key, value) :: fields => by
    rw [WellFormedFields, List.forall_mem_cons, wellFormedFields_iff]

theorem depthItems_le_iff {n : ℕ} : ∀ {items : List Json},
    depthItems items ≤ n ↔ ∀ item ∈ items, depth item ≤ n
  | [] => by simp [depthItems]
  | item :: items => by
    rw [depthItems, List.forall_mem_cons, max_le_iff, depthItems_le_iff]

theorem depthFields_le_iff {n : ℕ} : ∀ {fields : List (Text × Json)},
    depthFields fields ≤ n ↔ ∀ field ∈ fields, depth field.2 ≤ n
  | [] => by simp [depthFields]
  | (key, value) :: fields => by
    rw [depthFields, List.forall_mem_cons, max_le_iff, depthFields_le_iff]

theorem storable_array {n : ℕ} {items : List Json} :
    Storable (n + 1) (array items) ↔ ∀ item ∈ items, Storable n item := by
  rw [Storable, WellFormed, depth, wellFormedItems_iff, Nat.add_le_add_iff_right, depthItems_le_iff]
  exact forall₂_and.symm

theorem storable_object {n : ℕ} {fields : List (Text × Json)} :
    Storable (n + 1) (object fields) ↔
      (fields.map Prod.fst).Nodup ∧ ∀ field ∈ fields, Storable n field.2 := by
  rw [Storable, WellFormed, depth, wellFormedFields_iff, Nat.add_le_add_iff_right,
    depthFields_le_iff, and_assoc]
  exact and_congr_right fun _ => forall₂_and.symm

theorem Storable.mono {m n : ℕ} {v : Json} (h : Storable m v) (hmn : m ≤ n) : Storable n v :=
  ⟨h.1, h.2.trans hmn⟩

theorem storable_of_readNumber {negative : Bool} {s rest : Text} {v : Json}
    (h : readNumber negative s = .ok (v, rest)) : Storable 1 v := by
  unfold readNumber at h
  split at h
  · cases h
  · next whole _ hne _ =>
    dsimp only at h
    split at h
    · split at h
      · cases h
      · next hlength =>
        obtain ⟨rfl, -⟩ := Prod.mk.inj (Except.ok.inj h)
        have hwhole : whole ≠ [] := fun he => hne he
        have habs : (if negative then -(digitsValue whole : ℤ) else digitsValue whole).natAbs =
            digitsValue whole := by
          split <;> omega
        refine ⟨?_, le_rfl⟩
        rw [WellFormed, habs]
        exact (length_numeral_digitsValue hwhole).trans (not_lt.mp hlength)
    · obtain ⟨rfl, -⟩ := Prod.mk.inj (Except.ok.inj h)
      exact ⟨trivial, le_rfl⟩

theorem storable_of_readWord {word : String} {value v : Json} {s rest : Text}
    (h : readWord word value s = .ok (v, rest)) (hvalue : Storable 1 value) : Storable 1 v := by
  unfold readWord at h
  split at h
  · obtain ⟨rfl, -⟩ := Prod.mk.inj (Except.ok.inj h)
    exact hvalue
  · cases h

variable {read : Text → Except Fault (Json × Text)} {P : Json → Prop}

/-- What holds of each value that is read holds of the items. -/
theorem forall_of_readItems (hread : ∀ s v rest, read s = .ok (v, rest) → P v) :
    ∀ {bound : ℕ} {s rest : Text} {items : List Json},
      readItems read bound s = .ok (items, rest) → ∀ item ∈ items, P item
  | 0, _, _, _, h => nomatch h
  | bound + 1, s, rest, items, h => by
    rw [readItems] at h
    obtain ⟨⟨item, afterItem⟩, hitem, h⟩ := exists_of_bind_ok h
    have hP := hread _ _ _ hitem
    dsimp only at h
    split at h
    · obtain ⟨⟨more, _⟩, hmore, h⟩ := exists_of_bind_ok h
      obtain ⟨rfl, -⟩ := Prod.mk.inj (Except.ok.inj h)
      exact List.forall_mem_cons.mpr ⟨hP, forall_of_readItems hread hmore⟩
    · obtain ⟨rfl, -⟩ := Prod.mk.inj (Except.ok.inj h)
      exact List.forall_mem_singleton.mpr hP
    · cases h

theorem forall_of_readEntries (hread : ∀ s v rest, read s = .ok (v, rest) → P v) :
    ∀ {bound : ℕ} {s rest : Text} {entries : List (Text × Json)},
      readEntries read bound s = .ok (entries, rest) → ∀ entry ∈ entries, P entry.2
  | 0, _, _, _, h => nomatch h
  | bound + 1, s, rest, entries, h => by
    unfold readEntries at h
    split at h
    · obtain ⟨⟨key, _⟩, -, h⟩ := exists_of_bind_ok h
      dsimp only at h
      split at h
      · obtain ⟨⟨value, _⟩, hvalue, h⟩ := exists_of_bind_ok h
        have hP := hread _ _ _ hvalue
        dsimp only at h
        split at h
        · obtain ⟨⟨more, _⟩, hmore, h⟩ := exists_of_bind_ok h
          obtain ⟨rfl, -⟩ := Prod.mk.inj (Except.ok.inj h)
          exact List.forall_mem_cons.mpr ⟨hP, forall_of_readEntries hread hmore⟩
        · obtain ⟨rfl, -⟩ := Prod.mk.inj (Except.ok.inj h)
          exact List.forall_mem_singleton.mpr hP
        · cases h
      · cases h
    · cases h

theorem storable_putAll {n : ℕ} {entries : List (Text × Json)}
    (h : ∀ entry ∈ entries, Storable n entry.2) :
    Storable (n + 1) (object (Fields.putAll entries [])) := by
  refine storable_object.mpr (Fields.putAll_induction (P := fun fields =>
    (fields.map Prod.fst).Nodup ∧ ∀ field ∈ fields, Storable n field.2) ⟨by simp, by simp⟩ ?_)
  rintro fields entry hentry ⟨hnodup, hfields⟩
  refine ⟨Fields.distinct_iff_nodup.mp ((Fields.distinct_iff_nodup.mpr hnodup).put ..), ?_⟩
  intro field hfield
  rcases Fields.of_mem_put hfield with hfield | ⟨hvalue, -⟩
  · exact hfields field hfield
  · rw [hvalue]
    exact h entry hentry

theorem storable_of_readValue : ∀ {n : ℕ} {s rest : Text} {v : Json},
    readValue n s = .ok (v, rest) → Storable n v
  | 0, _, _, _, h => nomatch h
  | n + 1, s, rest, v, h => by
    have hsingle : ∀ {u : Json}, Storable 1 u → Storable (n + 1) u := fun hu => hu.mono (by omega)
    have hread : ∀ s v rest, readValue n s = .ok (v, rest) → Storable n v :=
      fun _ _ _ => storable_of_readValue
    unfold readValue at h
    split at h
    · cases h
    · split at h
      · obtain ⟨⟨text, _⟩, -, hv⟩ := exists_of_map_ok h
        obtain ⟨rfl, -⟩ := Prod.mk.inj hv
        exact hsingle ⟨trivial, le_rfl⟩
      · split at h
        · obtain ⟨rfl, -⟩ := Prod.mk.inj (Except.ok.inj h)
          exact storable_object.mpr ⟨by simp, by simp⟩
        · obtain ⟨⟨entries, _⟩, hentries, hv⟩ := exists_of_map_ok h
          obtain ⟨rfl, -⟩ := Prod.mk.inj hv
          exact storable_putAll (forall_of_readEntries hread hentries)
      · split at h
        · obtain ⟨rfl, -⟩ := Prod.mk.inj (Except.ok.inj h)
          exact storable_array.mpr (by simp)
        · obtain ⟨⟨items, _⟩, hitems, hv⟩ := exists_of_map_ok h
          obtain ⟨rfl, -⟩ := Prod.mk.inj hv
          exact storable_array.mpr (forall_of_readItems hread hitems)
      · exact hsingle (storable_of_readWord h ⟨trivial, le_rfl⟩)
      · exact hsingle (storable_of_readWord h ⟨trivial, le_rfl⟩)
      · exact hsingle (storable_of_readWord h ⟨trivial, le_rfl⟩)
      · exact hsingle (storable_of_readWord h ⟨trivial, le_rfl⟩)
      · exact hsingle (storable_of_readWord h ⟨trivial, le_rfl⟩)
      · split at h
        · next hword =>
          obtain rfl := Except.ok.inj h
          exact hsingle (storable_of_readWord hword ⟨trivial, le_rfl⟩)
        · exact hsingle (storable_of_readNumber h)
      · exact hsingle (storable_of_readNumber h)

theorem storable_of_read {s : Text} {v : Json} (h : Json.read s = .ok v) :
    Storable nestingLimit v := by
  obtain ⟨⟨value, rest⟩, hvalue, h⟩ := exists_of_bind_ok h
  dsimp only at h
  split at h
  · obtain rfl := Except.ok.inj h
    exact storable_of_readValue hvalue
  · cases h

end Json

/-! ### Settings -/

namespace Settings

/-- The settings have distinct keys, all the defaults among them, and values that
can be saved among other settings. -/
structure Sound (settings : Settings) : Prop where
  distinct : Fields.Distinct settings
  known : ∀ s : Setting, (settings.lookup (.name s.name.toList)).isSome = true
  storable : ∀ entry ∈ settings, entry.2.Storable (Json.nestingLimit - 1)

theorem Sound.put {settings : Settings} (h : settings.Sound) (key : SettingKey) {value : Json}
    (hvalue : value.Storable (Json.nestingLimit - 1)) : Sound (Fields.put key value settings) where
  distinct := h.distinct.put key value
  known s := by
    cases hkey : SettingKey.name s.name.toList == key with
    | true => rw [Fields.lookup_congr hkey, Fields.lookup_put]; rfl
    | false => rw [Fields.lookup_put_of_ne value hkey]; exact h.known s
  storable entry hentry := by
    rcases Fields.of_mem_put hentry with hentry | ⟨heq, -⟩
    · exact h.storable entry hentry
    · rw [heq]
      exact hvalue

theorem sound_default : default.Sound where
  distinct := by
    rw [default_eq_named, named, Fields.Distinct, List.map_map, List.pairwise_map]
    have h := List.pairwise_map.mp nodup_setting_fields
    exact h.imp fun hne => by simpa [name_beq] using hne
  known s := by cases s <;> decide
  storable entry hentry := by
    obtain ⟨s, -, rfl⟩ := List.mem_map.mp hentry
    have hten : (numeral 10).length ≤ Json.digitLimit := by decide +kernel
    have hhundred : (numeral 100).length ≤ Json.digitLimit := by decide +kernel
    have hone : 1 ≤ Json.nestingLimit - 1 := by decide
    cases s
    · exact ⟨hten, hone⟩
    · exact ⟨trivial, hone⟩
    · exact ⟨hhundred, hone⟩
    all_goals exact ⟨trivial, hone⟩

theorem storable_of_entryOf {item value : Json} {key : SettingKey} {index : ℕ}
    (h : entryOf item index = .ok (key, value)) {n : ℕ} (hitem : item.Storable (n + 1)) (hn : 0 < n) :
    value.Storable n := by
  unfold entryOf at h
  split at h
  · cases h
  · next key' value' hparts =>
    obtain ⟨_, -, heq⟩ := exists_of_map_ok h
    obtain ⟨-, rfl⟩ := Prod.mk.inj heq
    have hmem : value' ∈ [key', value'] := by simp
    cases item with
    | string s =>
      obtain hparts := Option.some.inj hparts
      rw [← hparts] at hmem
      obtain ⟨c, -, rfl⟩ := List.mem_map.mp hmem
      exact ⟨trivial, hn⟩
    | array items =>
      obtain rfl := Option.some.inj hparts
      exact Json.storable_array.mp hitem _ hmem
    | object fields =>
      obtain hparts := Option.some.inj hparts
      rw [← hparts] at hmem
      obtain ⟨field, -, rfl⟩ := List.mem_map.mp hmem
      exact ⟨trivial, hn⟩
    | _ => cases hparts
  · cases h

theorem storable_of_entriesFrom {n : ℕ} (hn : 0 < n) : ∀ {items : List Json} {index : ℕ}
    {entries : List (SettingKey × Json)}, entriesFrom index items = .ok entries →
      (∀ item ∈ items, item.Storable (n + 1)) → ∀ entry ∈ entries, entry.2.Storable n
  | [], _, _, h, _ => by
    obtain rfl := Except.ok.inj h
    simp
  | item :: items, index, entries, h, hitems => by
    rw [entriesFrom] at h
    obtain ⟨entry, hentry, h⟩ := exists_of_bind_ok h
    obtain ⟨more, hmore, h⟩ := exists_of_bind_ok h
    obtain rfl := Except.ok.inj h
    rw [List.forall_mem_cons] at hitems ⊢
    exact ⟨storable_of_entryOf hentry hitems.1 hn, storable_of_entriesFrom hn hmore hitems.2⟩

theorem storable_of_entries {n : ℕ} (hn : 0 < n) {value : Json} {list : List (SettingKey × Json)}
    (h : entries value = .ok list) (hvalue : value.Storable (n + 2)) :
    ∀ entry ∈ list, entry.2.Storable (n + 1) := by
  cases value with
  | object fields =>
    obtain rfl := Except.ok.inj h
    intro entry hentry
    obtain ⟨field, hfield, rfl⟩ := List.mem_map.mp hentry
    exact (Json.storable_object.mp hvalue).2 field hfield
  | array items =>
    have hitems := storable_of_entriesFrom hn h (Json.storable_array.mp hvalue)
    exact fun entry hentry => (hitems entry hentry).mono (Nat.le_succ n)
  | string s =>
    refine fun entry hentry => (storable_of_entriesFrom hn h ?_ entry hentry).mono (Nat.le_succ n)
    intro item hitem
    obtain ⟨c, -, rfl⟩ := List.mem_map.mp hitem
    exact ⟨trivial, by simp [Json.depth]⟩
  | _ => cases h

theorem sound_overlay {value : Json} {settings : Settings} (h : overlay value = .ok settings)
    (hvalue : value.Storable Json.nestingLimit) : settings.Sound := by
  obtain ⟨list, hlist, rfl⟩ := exists_of_map_ok h
  have hstorable := storable_of_entries (n := Json.nestingLimit - 2) (by decide) hlist hvalue
  exact Fields.putAll_induction sound_default fun settings entry hentry hsettings =>
    hsettings.put entry.1 (hstorable entry hentry)

end Settings

/-- Whatever the file holds. -/
theorem Store.sound_settingsOf {file : Option Text} {settings : Settings}
    (h : settingsOf file = .ok settings) : settings.Sound := by
  unfold settingsOf at h
  split at h
  · obtain rfl := Except.ok.inj h
    exact Settings.sound_default
  · split at h
    · next hread => exact Settings.sound_overlay h (Json.storable_of_read hread)
    · obtain rfl := Except.ok.inj h
      exact Settings.sound_default
    · cases h
    · cases h

end NumericAnswer
