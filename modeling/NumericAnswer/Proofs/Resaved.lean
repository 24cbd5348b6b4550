/-
# Settings written back

A list in the file may give settings keys that are no names, and two of them may be written alike:
`1` and `"1"` both become the name `1`. Such settings can be saved all the same. The file then means
settings in which each setting of the library has the value that was saved, because what is no name
is never written as the name of one.

Key theorems: `Json.read_page_entries`, `SettingKey.eq_name_of_text`, `Store.get_save`.
-/
import NumericAnswer.Proofs.Fallback

namespace NumericAnswer

/-! ### Entries of an object -/

namespace Json

/-- Entries are read back as an object, in which a key that comes twice has its last value. -/
theorem read_page_entries {entries : List (Text × Json)} (hentries : WellFormedFields entries)
    (hdepth : depth (object entries) ≤ nestingLimit) :
    read (page (object entries)) = .ok (.object (Fields.putAll entries [])) := by
  cases entries with
  | nil =>
    have hspells : Spells true (object []) (page (object [])) := .noFields gap_nil
    exact hspells.read ⟨by simp, trivial⟩ hdepth
  | cons entry entries =>
    have hspells := spellsFields_of_parts (gap_margin 0) (gap_margin 1) (List.cons_ne_nil _ _)
      (spells_pageFields (entry :: entries) 1 hentries)
    have hdepth : depthFields (entry :: entries) ≤ nestingLimit - 1 := Nat.le_of_succ_le_succ hdepth
    have hlength := hspells.length_le
    rw [page, pageAt, block_eq _ _ _ (by simp [pageFields])]
    refine read_of_readValue ⟨_, _, rfl, rfl, by decide⟩ ?_
    refine readValue_entries (nestingLimit - 1) [] (gap_margin 1) hspells.eq_cons ?_
    exact hspells.readEntries hentries hdepth (by rwa [List.append_nil]) []

end Json

/-! ### Keys as names -/

/-- No setting has a digit in its name. -/
theorem Setting.isDigit_of_mem_name (s : Setting) : ∀ c ∈ s.name.toList, c.isDigit = false :=
  forall_mem_of_all (by cases s <;> decide +kernel)

/-- Nor is one a word that is written for a value. -/
theorem Setting.ne_name (s : Setting) :
    ∀ word ∈ ["null", "true", "false", "NaN", "-Infinity", "Infinity"],
      word.toList ≠ s.name.toList := by
  cases s <;> decide +kernel

theorem exists_isDigit_integerText (i : ℤ) : ∃ c ∈ integerText i, c.isDigit = true := by
  obtain ⟨c, t, hc, hdigit⟩ := Json.exists_digit_numeral i.natAbs
  rw [integerText, hc]
  split
  · exact ⟨c, by simp, hdigit⟩
  · exact ⟨c, by simp, hdigit⟩

theorem exists_isDigit_floatText {x : Float} (hx : x.isFinite = true) :
    ∃ c ∈ floatText x, c.isDigit = true := by
  rw [Double.isFinite_eq] at hx
  obtain ⟨b, hb⟩ := Option.isSome_iff_exists.mp hx
  obtain ⟨l, hl, -, -, htext, -⟩ := Json.floatText_eq hb
  obtain ⟨c, hc⟩ := List.exists_mem_of_ne_nil _ hl.ne_nil
  refine ⟨c, ?_, hl.whole c hc⟩
  rw [htext, Literal.text]
  simp [hc]

namespace SettingKey

/-- What is written as the name of a setting is that name. -/
theorem eq_name_of_text {key : SettingKey} {s : Setting} (h : key.text = s.name.toList) :
    key = .name s.name.toList := by
  have hdigit : ¬∃ c ∈ key.text, c.isDigit = true := by
    rintro ⟨c, hc, hdigit⟩
    rw [h] at hc
    rw [s.isDigit_of_mem_name c hc] at hdigit
    cases hdigit
  cases key with
  | name text => exact congrArg name h
  | null => exact absurd h (s.ne_name "null" (by simp))
  | bool b =>
    cases b with
    | true => exact absurd h (s.ne_name "true" (by simp))
    | false => exact absurd h (s.ne_name "false" (by simp))
  | integer i => exact absurd (exists_isDigit_integerText i) hdigit
  | float x =>
    rw [text, Json.numberText] at h hdigit
    split_ifs at h hdigit with hx hnan hneg
    · exact absurd (exists_isDigit_floatText hx) hdigit
    · exact absurd h (s.ne_name "NaN" (by simp))
    · exact absurd h (s.ne_name "-Infinity" (by simp))
    · exact absurd h (s.ne_name "Infinity" (by simp))

end SettingKey

/-! ### Saved settings -/

namespace Settings

variable {settings : Settings}

/-- Among the texts of distinct keys, the name of a setting is last where it is a name. -/
theorem last?_text (h : Fields.Distinct settings) (s : Setting) :
    Fields.last? s.name.toList (settings.map fun entry => (entry.1.text, entry.2)) =
      settings.lookup (.name s.name.toList) := by
  induction settings with
  | nil => rfl
  | cons entry settings ih =>
    obtain ⟨key, value⟩ := entry
    obtain ⟨hkey, hsettings⟩ := List.pairwise_cons.mp h
    rw [List.map_cons, Fields.last?, ih hsettings, List.lookup_cons]
    cases hname : SettingKey.name s.name.toList == key with
    | true =>
      obtain rfl := SettingKey.eq_name_of_beq (BEq.symm hname)
      have hnone : settings.lookup (.name s.name.toList) = none :=
        List.lookup_eq_none_iff.mpr fun entry hentry => by
          rw [bne, hkey _ (List.mem_map_of_mem hentry)]
          rfl
      rw [hnone, Option.none_or, SettingKey.text, beq_self_eq_true, if_pos rfl]
    | false =>
      have htext : (s.name.toList == key.text) = false := beq_false_of_ne fun he => by
        rw [SettingKey.eq_name_of_text he.symm, BEq.rfl] at hname
        cases hname
      rw [htext, if_neg Bool.false_ne_true, Option.or_none]

end Settings

namespace Store

variable {settings : Settings} {store : Store}

/-- A save that succeeds makes the file mean settings in which each setting of the library has the
value that was saved, whatever the keys are. -/
theorem get_save (h : settings.Sound) (hwritable : store.writable = true) :
    (store.save settings.toJson).2.snapshot = none ∧
      ∃ denoted, settingsOf (store.save settings.toJson).2.file = .ok denoted ∧
        ∀ s, denoted.get s = settings.get s := by
  have hdepth := h.depth_toJson
  set entries := settings.map fun entry => (entry.1.text, entry.2) with hentries
  have hwell : Json.WellFormedFields entries := by
    refine Json.wellFormedFields_iff.mpr fun field hfield => ?_
    obtain ⟨entry, hentry, rfl⟩ := List.mem_map.mp hfield
    exact (h.storable entry hentry).1
  have hnodup : ((Fields.putAll entries []).map Prod.fst).Nodup :=
    Fields.distinct_iff_nodup.mp (Fields.putAll_induction (P := fun fields => fields.Distinct)
      List.Pairwise.nil fun fields entry _ hfields => hfields.put entry.1 entry.2)
  have hsave : store.save settings.toJson =
      (.ok true, { store with file := some settings.toJson.page, snapshot := none }) := by
    rw [save, hwritable]
    simp [hdepth]
  rw [hsave]
  refine ⟨rfl, Settings.named (Fields.merged (Fields.putAll entries []) Setting.fields), ?_, fun s => ?_⟩
  · rw [settingsOf, Settings.toJson, Json.read_page_entries hwell hdepth]
    exact Settings.overlay_object hnodup
  · rw [Settings.get, Settings.get, Settings.lookup_named,
      Fields.lookup_merged hnodup Settings.nodup_setting_fields, Fields.lookup_putAll,
      Settings.last?_text h.distinct]
    obtain ⟨value, hvalue⟩ := Option.isSome_iff_exists.mp (h.known s)
    rw [hvalue]
    rfl

end Store
end NumericAnswer
