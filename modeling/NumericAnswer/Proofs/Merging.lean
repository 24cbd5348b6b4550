/-
# Merged settings

Settings whose keys are all names are the fields of an object. Putting fields
over others keeps the old keys in their places, with the new values, and adds
the new keys in their order; over the defaults this gives what an object in
the file means.

Key definitions: `Fields.merged`, `Settings.named`, `Setting.fields`.
Key theorems: `Fields.putAll_eq_merged`, `Fields.lookup_merged`,
`Settings.overlay_object`, `Settings.find_named`.
-/
import Mathlib
import NumericAnswer.Settings.Basic

namespace NumericAnswer
namespace Fields

variable {β : Type}

/-! ### Names -/

section Names

variable {κ : Type} [BEq κ] [LawfulBEq κ]

theorem put_of_notMem {fields : Fields κ β} {key : κ} (value : β)
    (h : key ∉ fields.map Prod.fst) : put key value fields = fields ++ [(key, value)] := by
  induction fields with
  | nil => rfl
  | cons field fields ih =>
    rw [List.map_cons, List.mem_cons, not_or] at h
    rw [put, beq_false_of_ne h.1, if_neg Bool.false_ne_true, ih h.2]
    rfl

theorem lookup_eq_none {fields : Fields κ β} {key : κ} (h : key ∉ fields.map Prod.fst) :
    fields.lookup key = none := by
  induction fields with
  | nil => rfl
  | cons field fields ih =>
    rw [List.map_cons, List.mem_cons, not_or] at h
    rw [List.lookup_cons, beq_false_of_ne h.1]
    exact ih h.2

theorem lookup_of_mem {fields : Fields κ β} (hnodup : (fields.map Prod.fst).Nodup) {key : κ}
    {value : β} (h : (key, value) ∈ fields) : fields.lookup key = some value := by
  induction fields with
  | nil => cases h
  | cons field fields ih =>
    rw [List.map_cons, List.nodup_cons] at hnodup
    rcases List.mem_cons.mp h with rfl | h
    · rw [List.lookup_cons, beq_self_eq_true]
    · have hne : key ≠ field.1 := by
        rintro rfl
        exact hnodup.1 (List.mem_map.mpr ⟨_, h, rfl⟩)
      rw [List.lookup_cons, beq_false_of_ne hne]
      exact ih hnodup.2 h

theorem mem_of_lookup {fields : Fields κ β} {key : κ} {value : β}
    (h : fields.lookup key = some value) : (key, value) ∈ fields := by
  induction fields with
  | nil => cases h
  | cons field fields ih =>
    rw [List.lookup_cons] at h
    cases hk : key == field.1 with
    | true =>
      rw [hk] at h
      obtain rfl := Option.some.inj h
      rw [eq_of_beq hk]
      exact List.mem_cons_self ..
    | false =>
      rw [hk] at h
      exact List.mem_cons_of_mem _ (ih h)

/-- The value of a known key is replaced in its place. -/
theorem put_of_mem {fields : Fields κ β} {key : κ} (value : β)
    (hnodup : (fields.map Prod.fst).Nodup) (h : key ∈ fields.map Prod.fst) :
    put key value fields = fields.map fun field => if key == field.1 then (field.1, value) else field := by
  induction fields with
  | nil => cases h
  | cons field fields ih =>
    rw [List.map_cons, List.nodup_cons] at hnodup
    rw [put, List.map_cons]
    by_cases hk : key = field.1
    · subst hk
      have hrest : fields.map (fun f => if field.1 == f.1 then (f.1, value) else f) = fields := by
        refine (List.map_congr_left fun f hf => ?_).trans (List.map_id _)
        have hne : field.1 ≠ f.1 := fun he => hnodup.1 (he ▸ List.mem_map_of_mem hf)
        rw [beq_false_of_ne hne, if_neg Bool.false_ne_true]
        rfl
      rw [beq_self_eq_true, if_pos rfl, if_pos rfl, hrest]
    · rw [List.map_cons, List.mem_cons] at h
      rw [beq_false_of_ne hk, if_neg Bool.false_ne_true, if_neg Bool.false_ne_true,
        ih hnodup.2 (h.resolve_left hk)]

end Names

/-! ### Many fields at once -/

section Merged

variable {κ : Type} [BEq κ] [LawfulBEq κ]

/-- The old keys with their new values, and then the new keys. -/
def merged (entries base : Fields κ β) : Fields κ β :=
  (base.map fun field => (field.1, (entries.lookup field.1).getD field.2)) ++
    entries.filter fun entry => entry.1 ∉ base.map Prod.fst

theorem keys_put {base : Fields κ β} {key : κ} (value : β) (hmem : key ∈ base.map Prod.fst) :
    (put key value base).map Prod.fst = base.map Prod.fst := by
  refine keys_put_of_mem value (List.any_eq_true.mpr ?_)
  obtain ⟨field, hfield, rfl⟩ := List.mem_map.mp hmem
  exact ⟨field, hfield, beq_self_eq_true _⟩

theorem nodup_put {base : Fields κ β} (hbase : (base.map Prod.fst).Nodup) (key : κ) (value : β) :
    ((put key value base).map Prod.fst).Nodup := by
  by_cases hmem : key ∈ base.map Prod.fst
  · rwa [keys_put value hmem]
  · rw [put_of_notMem value hmem, List.map_append, List.nodup_append]
    refine ⟨hbase, by simp, ?_⟩
    rintro k hk k' hk' rfl
    obtain rfl : k = key := by simpa using hk'
    exact hmem hk

section Put

variable {entries base : Fields κ β} {key : κ} (value : β) (hkey : key ∉ entries.map Prod.fst)

include hkey

/-- A known key takes its new value in its place. -/
theorem merged_put_of_mem (hbase : (base.map Prod.fst).Nodup) (hmem : key ∈ base.map Prod.fst) :
    merged entries (put key value base) = merged ((key, value) :: entries) base := by
  rw [merged, merged, keys_put value hmem, List.filter_cons_of_neg (by simpa using hmem),
    put_of_mem value hbase hmem, List.map_map]
  congr 1
  refine List.map_congr_left fun field _ => ?_
  simp only [Function.comp, List.lookup_cons]
  by_cases hk : key = field.1
  · rw [← hk, beq_self_eq_true, if_pos rfl, lookup_eq_none hkey]
    rfl
  · rw [beq_false_of_ne hk, beq_false_of_ne (Ne.symm hk), if_neg Bool.false_ne_true]

/-- A new key goes behind the known ones. -/
theorem merged_put_of_notMem (hmem : key ∉ base.map Prod.fst) :
    merged entries (put key value base) = merged ((key, value) :: entries) base := by
  have hfilter : entries.filter (fun entry => entry.1 ∉ (base ++ [(key, value)]).map Prod.fst) =
      entries.filter fun entry => entry.1 ∉ base.map Prod.fst := by
    refine List.filter_congr fun entry he => ?_
    have hne : entry.1 ≠ key := fun h => hkey (h ▸ List.mem_map_of_mem he)
    simp [hne]
  have hmap : base.map (fun field => (field.1, (((key, value) :: entries).lookup field.1).getD
      field.2)) = base.map fun field => (field.1, (entries.lookup field.1).getD field.2) := by
    refine List.map_congr_left fun field hf => ?_
    have hne : field.1 ≠ key := fun he => hmem (he ▸ List.mem_map_of_mem hf)
    rw [List.lookup_cons, beq_false_of_ne hne]
  rw [put_of_notMem value hmem, merged, merged, hfilter, hmap,
    List.filter_cons_of_pos (by simpa using hmem), List.map_append, List.append_assoc]
  simp [lookup_eq_none hkey]

end Put

theorem putAll_eq_merged : ∀ {entries base : Fields κ β}, (entries.map Prod.fst).Nodup →
    (base.map Prod.fst).Nodup → putAll entries base = merged entries base
  | [], base, _, _ => by simp [putAll, merged]
  | (key, value) :: entries, base, hentries, hbase => by
    rw [List.map_cons, List.nodup_cons] at hentries
    show putAll entries (put key value base) = _
    rw [putAll_eq_merged hentries.2 (nodup_put hbase key value)]
    by_cases hmem : key ∈ base.map Prod.fst
    · exact merged_put_of_mem value hentries.1 hbase hmem
    · exact merged_put_of_notMem value hentries.1 hmem

theorem keys_merged (entries base : Fields κ β) : (merged entries base).map Prod.fst =
    base.map Prod.fst ++ (entries.map Prod.fst).filter fun key => key ∉ base.map Prod.fst := by
  rw [merged, List.map_append, List.map_map, List.filter_map]
  rfl

theorem nodup_merged {entries base : Fields κ β} (hentries : (entries.map Prod.fst).Nodup)
    (hbase : (base.map Prod.fst).Nodup) : ((merged entries base).map Prod.fst).Nodup := by
  rw [keys_merged, List.nodup_append]
  refine ⟨hbase, hentries.filter _, ?_⟩
  rintro key hkey key' hkey' rfl
  simpa [hkey] using (List.mem_filter.mp hkey').2

/-- A key has the new value, or else the old one. -/
theorem lookup_merged {entries base : Fields κ β} (hentries : (entries.map Prod.fst).Nodup)
    (hbase : (base.map Prod.fst).Nodup) (key : κ) :
    (merged entries base).lookup key = (entries.lookup key).or (base.lookup key) := by
  have hnodup := nodup_merged hentries hbase
  cases he : entries.lookup key with
  | some value =>
    rw [Option.some_or]
    refine lookup_of_mem hnodup (List.mem_append.mpr ?_)
    by_cases hmem : key ∈ base.map Prod.fst
    · obtain ⟨field, hf, rfl⟩ := List.mem_map.mp hmem
      left
      refine List.mem_map.mpr ⟨field, hf, ?_⟩
      rw [he]
      rfl
    · right
      exact List.mem_filter.mpr ⟨mem_of_lookup he, by simpa using hmem⟩
  | none =>
    rw [Option.none_or]
    cases hb : base.lookup key with
    | some value =>
      refine lookup_of_mem hnodup (List.mem_append.mpr (.inl ?_))
      refine List.mem_map.mpr ⟨_, mem_of_lookup hb, ?_⟩
      rw [he]
      rfl
    | none =>
      refine lookup_eq_none ?_
      rw [keys_merged, List.mem_append, List.mem_filter]
      rintro (hmem | ⟨hmem, -⟩)
      · obtain ⟨⟨k, v⟩, hf, rfl⟩ := List.mem_map.mp hmem
        rw [lookup_of_mem hbase hf] at hb
        cases hb
      · obtain ⟨⟨k, v⟩, hf, rfl⟩ := List.mem_map.mp hmem
        rw [lookup_of_mem hentries hf] at he
        cases he

end Merged
end Fields

/-! ### Settings with names for keys -/

/-- The settings with their default values, as fields of an object. -/
def Setting.fields : Fields Text Json :=
  Setting.all.map fun s => (s.name.toList, s.default)

namespace Settings

/-- Fields as settings. -/
def named (fields : Fields Text Json) : Settings :=
  fields.map fun field => (.name field.1, field.2)

theorem default_eq_named : default = named Setting.fields := by
  simp [default, named, Setting.fields]

theorem name_beq (a b : Text) : (SettingKey.name a == SettingKey.name b) = (a == b) := by
  show decide (SettingKey.Identity.name a = SettingKey.Identity.name b) = (a == b)
  rw [Bool.eq_iff_iff, decide_eq_true_iff, beq_iff_eq, SettingKey.Identity.name.injEq]

theorem put_named (key : Text) (value : Json) : ∀ fields : Fields Text Json,
    Fields.put (.name key) value (named fields) = named (Fields.put key value fields)
  | [] => rfl
  | (k, v) :: fields => by
    have ih := put_named key value fields
    simp only [named, List.map_cons, Fields.put, name_beq] at ih ⊢
    split
    · rfl
    · rw [ih]
      rfl

theorem putAll_named : ∀ (entries fields : Fields Text Json),
    Fields.putAll (named entries) (named fields) = named (Fields.putAll entries fields)
  | [], _ => rfl
  | (key, value) :: entries, fields => by
    have ih := putAll_named entries (Fields.put key value fields)
    rw [← put_named] at ih
    exact ih

theorem lookup_named (key : Text) : ∀ fields : Fields Text Json,
    (named fields).lookup (.name key) = fields.lookup key
  | [] => rfl
  | (k, v) :: fields => by
    have ih := lookup_named key fields
    simp only [named, List.map_cons, List.lookup_cons, name_beq] at ih ⊢
    rw [ih]

theorem nodup_setting_fields : (Setting.fields.map Prod.fst).Nodup := by
  decide

/-- What an object in the file means. -/
theorem overlay_object {fields : Fields Text Json} (h : (fields.map Prod.fst).Nodup) :
    overlay (.object fields) = .ok (named (Fields.merged fields Setting.fields)) := by
  rw [overlay, entries, default_eq_named]
  show Except.ok (Fields.putAll (named fields) (named Setting.fields)) = _
  rw [putAll_named, Fields.putAll_eq_merged h nodup_setting_fields]

end Settings
end NumericAnswer
