import CheatEngineLinux.Core.JsonWriter
import CheatEngineLinux.Core.TableIntegers

/-!
# Tables through JSON

`writeTableJson` and `loadJsonFromString`: the text is a JSON text for one object, each record of
it is read from the members that were written, and a member that was left out reads as its
default.

* `spells_entryValue`, `mapStrings_entryValue` — **PROVED**: the members are written as values of the
  grammar, with every text that is not UTF-8 repaired.
-/

namespace CheatEngine.CtFile

open JsonGrammar
open Json (Value valueMeaning)

/-! ### Fields by name -/

theorem lookup_present {fields : List (String × Option Value)}
    (hnodup : (fields.map fun f => lit f.1).Nodup) {k : String} {o : Option Value}
    (h : (k, o) ∈ fields) : (present fields).lookup (lit k) = o := by
  induction fields with
  | nil => cases h
  | cons f fields ih =>
    obtain ⟨name, field⟩ := f
    rw [List.map_cons, List.nodup_cons] at hnodup
    have hcons : present ((name, field) :: fields)
        = match field with
          | none => present fields
          | some v => (lit name, v) :: present fields := by
      cases field <;> rfl
    rcases List.mem_cons.mp h with heq | hmem
    · cases heq
      rw [hcons]
      cases o with
      | some v => simp
      | none =>
        -- the name is not there a second time
        rw [List.lookup_eq_none_iff]
        intro m hm
        obtain ⟨g, hg, hgm⟩ := List.mem_filterMap.mp hm
        obtain ⟨v, -, rfl⟩ := Option.map_eq_some_iff.mp hgm
        have hne : lit k ≠ lit g.1 := fun heq => hnodup.1 (heq ▸ List.mem_map_of_mem hg)
        simpa using hne
    · have hne : lit k ≠ lit name := fun heq => hnodup.1 (heq ▸ List.mem_map_of_mem hmem)
      have hb : (lit k == lit name) = false := by simpa using hne
      rw [hcons]
      cases field with
      | none => exact ih hnodup.2 hmem
      | some v =>
        rw [List.lookup_cons, hb]
        exact ih hnodup.2 hmem

theorem getField_present {fields : List (String × Option Value)}
    (hnodup : (fields.map fun f => lit f.1).Nodup) {k : String} {o : Option Value}
    (h : (k, o) ∈ fields) : getField (Value.ofMembers (present fields)) k = o :=
  lookup_present hnodup h

theorem getField_absent {fields : List (String × Option Value)} {k : String}
    (h : lit k ∉ fields.map fun f => lit f.1) :
    getField (Value.ofMembers (present fields)) k = none := by
  show (present fields).lookup (lit k) = none
  rw [List.lookup_eq_none_iff]
  intro m hm
  obtain ⟨g, hg, hgm⟩ := List.mem_filterMap.mp hm
  obtain ⟨v, -, rfl⟩ := Option.map_eq_some_iff.mp hgm
  have hne : lit k ≠ lit g.1 := fun heq => h (heq ▸ List.mem_map_of_mem hg)
  simpa using hne

/-- Names that are written as they are and never twice. -/
structure FieldNames (keys : List String) : Prop where
  nodup : (keys.map lit).Nodup
  plain : ∀ k ∈ keys.map lit, Json.repair k = k

/-- The field at a place of the list is what `getField` finds. -/
theorem FieldNames.getField {keys : List String} (hkeys : FieldNames keys)
    {fields : List (String × Option Value)} (hfields : fields.map Prod.fst = keys) (i : ℕ)
    {k : String} {o : Option Value} (h : fields[i]? = some (k, o)) :
    getField (Value.ofMembers (present fields)) k = o := by
  refine getField_present ?_ (List.mem_of_getElem? h)
  have := hkeys.nodup
  rw [← hfields, List.map_map] at this
  exact this

theorem FieldNames.getField_absent {keys : List String}
    {fields : List (String × Option Value)} (hfields : fields.map Prod.fst = keys) {k : String}
    (h : lit k ∉ keys.map lit) : CtFile.getField (Value.ofMembers (present fields)) k = none := by
  refine CtFile.getField_absent ?_
  rw [← hfields, List.map_map] at h
  exact h

section fields

variable {obj : Value} {k : String}

theorem stringField_some {s : Bytes} (h : getField obj k = some (Value.string s)) :
    jsonStringField obj k = s := by
  rw [jsonStringField, h]
  rfl

theorem stringField_none (h : getField obj k = none) : jsonStringField obj k = [] := by
  rw [jsonStringField, h]

theorem stringField_orNone {s : Bytes} (h : getField obj k = textOrNone s) :
    jsonStringField obj k = s := by
  unfold textOrNone at h
  split at h
  · next hs =>
    rw [stringField_none h]
    exact (List.isEmpty_iff.mp hs).symm
  · exact stringField_some h

theorem boolField_orNone {b : Bool} (h : getField obj k = flagOrNone b false) :
    jsonBoolField obj k = b := by
  rw [jsonBoolField, h]
  cases b <;> rfl

theorem intField_some {n : Int32} {fallback : ℤ} (h : getField obj k = some (numberValue n.toInt)) :
    jsonIntField obj k fallback = some n := by
  have htype : InType true 32 n.toInt := ⟨n.le_toInt, n.toInt_lt⟩
  rw [jsonIntField, jsonIntegerField, h]
  simp only
  rw [jsonInteger_numberValue (by decide) htype, Option.map_some, Int32.ofInt_toInt]

theorem intField_none {fallback : ℤ} (h : getField obj k = none) :
    jsonIntField obj k fallback = some (Int32.ofInt fallback) := by
  rw [jsonIntField, jsonIntegerField, h]
  rfl

theorem sizeField_some {n : UInt64} {fallback : ℤ}
    (h : getField obj k = some (numberValue (n.toNat : ℤ))) :
    jsonSizeField obj k fallback = some n := by
  have hlt := n.toNat_lt
  have htype : InType false 64 (n.toNat : ℤ) := ⟨by omega, by omega⟩
  rw [jsonSizeField, jsonIntegerField, h]
  simp only
  rw [jsonInteger_numberValue (by decide) htype, Option.map_some, Int.toNat_natCast,
    UInt64.ofNat_toNat]

theorem addressField_some {a : UInt64} (h : getField obj k = some (Value.string (hexText a))) :
    jsonAddressField obj k = some a := by
  rw [jsonAddressField, jsonIntegerField, h]
  simp only
  rw [jsonInteger_hexText, Option.map_some, Int.toNat_natCast, UInt64.ofNat_toNat]

theorem addressField_none (h : getField obj k = none) : jsonAddressField obj k = some 0 := by
  rw [jsonAddressField, jsonIntegerField, h]
  rfl

theorem valueTypeField_some {t : ValueType}
    (h : getField obj "type" = some (numberValue (typeNumber t : ℤ))) :
    jsonValueTypeField obj = some t := by
  have hlt : typeNumber t < 14 := by cases t <;> decide
  have htype : InType true 32 (typeNumber t : ℤ) := ⟨by omega, by norm_num; omega⟩
  have hget : valueTypes[typeNumber t]? = some t := by cases t <;> rfl
  rw [jsonValueTypeField, h]
  simp only
  rw [if_pos (show (numberValue (typeNumber t : ℤ)).type = .number from rfl), numericType,
    jsonInteger_numberValue (by decide) htype, Option.bind_some,
    if_neg (by omega), Int.toNat_natCast, hget]

theorem valueTypeField_none (h : getField obj "type" = none) :
    jsonValueTypeField obj = some .int32 := by
  rw [jsonValueTypeField, h]

end fields

/-! ### Records -/

def CheatEntry.texts (e : CheatEntry) : List Bytes :=
  [e.description, e.addressString, e.value, e.autoAsmScript, e.luaScript, e.color, e.dropdownList,
    e.dropdownAttributes, e.hotkeyKeys, e.increaseHotkeyKeys, e.decreaseHotkeyKeys,
    e.setValueHotkeyKeys, e.setValueHotkeyValue, e.hotkeyStep, e.extraHotkeysXml, e.optionsXml,
    e.customTypeName, e.unparsedAddress, e.extraXml] ++ e.unparsedOffsets

/-- What a record has to be to be read back. -/
structure CheatEntry.Writable (e : CheatEntry) : Prop where
  texts : ∀ s ∈ e.texts, Utf8.Valid s
  group : e.isGroup = true → e.address = 0 ∧ e.type = .int32 ∧ e.value = [] ∧ e.length = 0 ∧
    e.customTypeName = []
  length_nonneg : 0 ≤ e.length.toInt
  length_le : e.length.toInt ≤ 65536
  parent : -1 ≤ e.parentId.toInt
  width : e.pointerWidth = 0 ∨ e.pointerWidth = 4 ∨ e.pointerWidth = 8
  cascade : e.optionsXml ≠ [] →
    e.activateChildren = contains e.optionsXml (lit "moActivateChildrenAsWell=\"1\"") ∧
    e.deactivateChildren = contains e.optionsXml (lit "moDeactivateChildrenAsWell=\"1\"")
  unparsed : e.unparsedOffsets = [] → e.unparsedAddress = []

/-- The part of it that is about what is not written, and so read back as a default. -/
structure CheatEntry.Shaped (e : CheatEntry) : Prop where
  group : e.isGroup = true → e.address = 0 ∧ e.type = .int32 ∧ e.value = [] ∧ e.length = 0 ∧
    e.customTypeName = []
  length_nonneg : 0 ≤ e.length.toInt
  parent : -1 ≤ e.parentId.toInt
  width : e.pointerWidth = 0 ∨ e.pointerWidth = 4 ∨ e.pointerWidth = 8
  unparsed : e.unparsedOffsets = [] → e.unparsedAddress = []

theorem CheatEntry.Writable.shaped {e : CheatEntry} (h : e.Writable) : e.Shaped :=
  ⟨h.group, h.length_nonneg, h.parent, h.width, h.unparsed⟩

/-- A cascade flag as the loader takes it: off where its member says so, else as in the kept text. -/
def settledFlag (flag : Bool) (optionsXml : Bytes) (mark : String) : Bool :=
  flag && (optionsXml.isEmpty || contains optionsXml (lit mark))

/-- A record as it is read back: its length clamped, and its flags as in the text it keeps. -/
def CheatEntry.settled (e : CheatEntry) : CheatEntry :=
  { e with
    length := if e.length.toInt > 65536 then 65536 else e.length
    activateChildren := settledFlag e.activateChildren e.optionsXml "moActivateChildrenAsWell=\"1\""
    deactivateChildren := settledFlag e.deactivateChildren e.optionsXml "moDeactivateChildrenAsWell=\"1\"" }

/-- The names of a record's members. -/
def entryKeys : List String :=
  ["id", "desc", "addr", "type", "value", "length", "customType", "addrString", "offsets",
    "unparsedAddress", "unparsedOffsets", "async", "dropdownAttributes", "extraHotkeys", "extraXml",
    "active", "showAsHex", "showAsSigned", "dataByteOrder", "pointerWidth", "freezeMode", "group",
    "collapsed", "asm", "lua", "options", "activateChildren", "deactivateChildren", "color",
    "dropdown", "hotkeys", "increaseHotkey", "setValueHotkey", "setValueHotkeyValue",
    "decreaseHotkey", "hotkeyStep", "parent"]

theorem entryKeys_names : FieldNames entryKeys := ⟨by decide, by decide +kernel⟩

section entry

variable {e : CheatEntry}

theorem getField_entry (i : ℕ) {k : String} {o : Option Value}
    (h : (entryFields e)[i]? = some (k, o)) : getField (entryValue e) k = o :=
  entryKeys_names.getField rfl i h

theorem getField_entry_absent {k : String} (h : lit k ∉ entryKeys.map lit) :
    getField (entryValue e) k = none :=
  FieldNames.getField_absent rfl h

theorem eitherKey_some {obj : Value} {k k' : String} {v : Value} (h : getField obj k = some v) :
    eitherKey obj k k' = k := by
  rw [eitherKey, h]
  rfl

theorem stringField_either {obj : Value} {k k' : String} {s : Bytes}
    (h : getField obj k = textOrNone s) (h' : getField obj k' = none) :
    jsonStringField obj (eitherKey obj k k') = s := by
  unfold eitherKey
  split
  · exact stringField_orNone h
  · next hk =>
    rw [stringField_none h']
    unfold textOrNone at h
    split at h
    · next hs => exact (List.isEmpty_iff.mp hs).symm
    · rw [h] at hk
      exact absurd rfl hk

theorem mapM_items {α : Type} (read : Value → Option α) (value : α → Value) {xs : List α}
    (h : ∀ x ∈ xs, read (value x) = some x) : (xs.map value).mapM read = some xs := by
  induction xs with
  | nil => rfl
  | cons x xs ih =>
    obtain ⟨hx, hxs⟩ := List.forall_mem_cons.mp h
    rw [List.map_cons, List.mapM_cons, hx, ih hxs]
    rfl

theorem arrayField_items {obj : Value} {k : String} {vs : List Value}
    (h : getField obj k = some (Value.ofItems vs)) : arrayField obj k = some vs := by
  rw [arrayField, h]
  rfl

theorem arrayField_orNone {obj : Value} {k : String} {vs : List Value} {empty : Bool}
    (hempty : empty = true → vs = [])
    (h : getField obj k = if empty then none else some (Value.ofItems vs)) :
    arrayField obj k = some vs := by
  cases empty with
  | true => rw [arrayField, h, hempty rfl]; rfl
  | false => exact arrayField_items h

theorem cascadeFlag_eq {obj : Value} {k : String} {flag : Bool} {optionsXml : Bytes}
    {mark : String} (h : getField obj k = flagOrNone flag true) :
    cascadeFlag obj k optionsXml mark = settledFlag flag optionsXml mark := by
  unfold cascadeFlag settledFlag
  cases flag with
  | true =>
    have hnone : getField obj k = none := h
    rw [hnone]
    cases optionsXml <;> rfl
  | false =>
    have hsome : getField obj k = some (Value.boolean false) := h
    rw [jsonBoolField, hsome]
    rfl

theorem eitherKey_none {obj : Value} {k k' : String} (h : getField obj k = none) :
    eitherKey obj k k' = k' := by
  rw [eitherKey, h]
  rfl

theorem entry_address (h : e.Shaped) :
    jsonAddressField (entryValue e) (eitherKey (entryValue e) "addr" "address") = some e.address := by
  have hfield : getField (entryValue e) "addr"
      = if e.isGroup then none else some (Value.string (hexText e.address)) := getField_entry 2 rfl
  cases hg : e.isGroup with
  | true =>
    rw [hg] at hfield
    rw [eitherKey_none hfield, addressField_none (getField_entry_absent (by decide)),
      (h.group hg).1]
  | false =>
    rw [hg] at hfield
    rw [eitherKey_some hfield]
    exact addressField_some hfield

theorem entry_type (h : e.Shaped) : jsonValueTypeField (entryValue e) = some e.type := by
  have hfield : getField (entryValue e) "type"
      = if e.isGroup then none else some (numberValue (typeNumber e.type)) := getField_entry 3 rfl
  cases hg : e.isGroup with
  | true =>
    rw [hg] at hfield
    rw [valueTypeField_none hfield, (h.group hg).2.1]
  | false =>
    rw [hg] at hfield
    exact valueTypeField_some hfield

theorem entry_value (h : e.Shaped) : jsonStringField (entryValue e) "value" = e.value := by
  have hfield : getField (entryValue e) "value"
      = if e.isGroup then none else some (Value.string e.value) := getField_entry 4 rfl
  cases hg : e.isGroup with
  | true =>
    rw [hg] at hfield
    rw [stringField_none hfield, (h.group hg).2.2.1]
  | false =>
    rw [hg] at hfield
    exact stringField_some hfield

theorem entry_length (h : e.Shaped) :
    jsonIntField (entryValue e) (eitherKey (entryValue e) "length" "byteCount") 0
      = some e.length := by
  have hfield : getField (entryValue e) "length"
      = if !e.isGroup && decide (e.length.toInt > 0) then some (numberValue e.length.toInt)
        else none := getField_entry 5 rfl
  by_cases hwritten : (!e.isGroup && decide (e.length.toInt > 0)) = true
  · rw [if_pos hwritten] at hfield
    rw [eitherKey_some hfield]
    exact intField_some hfield
  · rw [if_neg hwritten] at hfield
    have hzero : e.length.toInt = 0 := by
      cases hg : e.isGroup with
      | true => rw [(h.group hg).2.2.2.1]; rfl
      | false =>
        have hle : ¬ e.length.toInt > 0 := by simpa [hg] using hwritten
        have := h.length_nonneg
        omega
    rw [eitherKey_none hfield, intField_none (getField_entry_absent (by decide)),
      ← hzero, Int32.ofInt_toInt]

theorem entry_customType (h : e.Shaped) :
    jsonStringField (entryValue e) "customType" = e.customTypeName := by
  have hfield : getField (entryValue e) "customType"
      = if e.isGroup then none else textOrNone e.customTypeName := getField_entry 6 rfl
  cases hg : e.isGroup with
  | true =>
    rw [hg] at hfield
    rw [stringField_none hfield, (h.group hg).2.2.2.2]
  | false =>
    rw [hg] at hfield
    exact stringField_orNone hfield

theorem entry_offsets : ((arrayField (entryValue e) "offsets").bind fun vs =>
    vs.mapM fun v => (jsonInteger true 64 v).map Int64.ofInt) = some e.offsets := by
  have hfield : arrayField (entryValue e) "offsets"
      = some (e.offsets.map fun o => numberValue o.toInt) :=
    @arrayField_orNone _ _ _ e.offsets.isEmpty
      (fun h => by rw [List.isEmpty_iff.mp h]; rfl) (getField_entry 8 rfl)
  rw [hfield, Option.bind_some]
  refine mapM_items _ _ fun o _ => ?_
  have htype : InType true 64 o.toInt := ⟨o.le_toInt, o.toInt_lt⟩
  rw [jsonInteger_numberValue (by decide) htype, Option.map_some, Int64.ofInt_toInt]

theorem entry_unparsedOffsets : ((arrayField (entryValue e) "unparsedOffsets").bind fun vs =>
    vs.mapM stringItem) = some e.unparsedOffsets := by
  have hfield : arrayField (entryValue e) "unparsedOffsets"
      = some (e.unparsedOffsets.map Value.string) :=
    @arrayField_orNone _ _ _ e.unparsedOffsets.isEmpty
      (fun h => by rw [List.isEmpty_iff.mp h]; rfl) (getField_entry 10 rfl)
  rw [hfield, Option.bind_some]
  exact mapM_items _ _ fun s _ => rfl

theorem entry_unparsedAddress (h : e.Shaped) :
    jsonStringField (entryValue e) "unparsedAddress" = e.unparsedAddress := by
  have hfield : getField (entryValue e) "unparsedAddress"
      = if e.unparsedOffsets.isEmpty then none else some (Value.string e.unparsedAddress) :=
    getField_entry 9 rfl
  cases hempty : e.unparsedOffsets.isEmpty with
  | true =>
    rw [hempty] at hfield
    rw [stringField_none hfield, h.unparsed (List.isEmpty_iff.mp hempty)]
  | false =>
    rw [hempty] at hfield
    exact stringField_some hfield

theorem entry_showAsSigned :
    (if (getField (entryValue e) "showAsSigned").isSome
      then jsonBoolField (entryValue e) "showAsSigned" else true) = e.showAsSigned := by
  have hfield : getField (entryValue e) "showAsSigned" = flagOrNone e.showAsSigned true :=
    getField_entry 17 rfl
  rw [jsonBoolField, hfield]
  cases e.showAsSigned <;> rfl

theorem entry_order :
    (getField (entryValue e) "dataByteOrder").any (fun v => v.type ≠ .string) = false ∧
    jsonStringField (entryValue e) "dataByteOrder" = (match e.dataByteOrder with
      | .unknown => []
      | .big => lit "big"
      | .little => lit "little") := by
  have hfield : getField (entryValue e) "dataByteOrder" = (match e.dataByteOrder with
      | .unknown => none
      | .big => some (Value.string (lit "big"))
      | .little => some (Value.string (lit "little"))) := getField_entry 18 rfl
  rw [jsonStringField, hfield]
  cases e.dataByteOrder <;> exact ⟨rfl, rfl⟩

theorem entry_width :
    (getField (entryValue e) "pointerWidth").any (fun v => v.type ≠ .number) = false ∧
    jsonIntField (entryValue e) "pointerWidth" 0 = some (Int32.ofInt e.pointerWidth.toNat) := by
  have hfield : getField (entryValue e) "pointerWidth" = if e.pointerWidth = 0 then none
      else some (numberValue e.pointerWidth.toNat) := getField_entry 19 rfl
  have hlt := e.pointerWidth.toNat_lt
  by_cases hzero : e.pointerWidth = 0
  · rw [if_pos hzero] at hfield
    rw [hfield, intField_none hfield, hzero]
    exact ⟨rfl, rfl⟩
  · rw [if_neg hzero] at hfield
    have htype : InType true 32 (e.pointerWidth.toNat : ℤ) := ⟨by omega, by norm_num; omega⟩
    refine ⟨by rw [hfield]; rfl, ?_⟩
    rw [jsonIntField, jsonIntegerField, hfield]
    simp only
    rw [jsonInteger_numberValue (by decide) htype, Option.map_some]

theorem entry_format (h : e.Shaped) :
    parseRecordDataFormat (match e.dataByteOrder with
      | .unknown => []
      | .big => lit "big"
      | .little => lit "little") (intText (Int32.ofInt e.pointerWidth.toNat).toInt)
      = some (e.dataByteOrder, e.pointerWidth) := by
  rcases h.width with hw | hw | hw <;> rw [hw] <;> cases e.dataByteOrder <;> decide

theorem entry_freezeMode : ∃ n : Int32, jsonIntField (entryValue e) "freezeMode" 0 = some n ∧
    ¬ n.toInt < 0 ∧ freezeModes[n.toInt.toNat]? = some e.freezeMode := by
  have hfield : getField (entryValue e) "freezeMode" = if e.freezeMode = .normal then none
      else some (numberValue (freezeNumber e.freezeMode)) := getField_entry 20 rfl
  by_cases hnormal : e.freezeMode = .normal
  · rw [if_pos hnormal] at hfield
    exact ⟨0, intField_none hfield, by decide, by rw [hnormal]; rfl⟩
  · rw [if_neg hnormal] at hfield
    have hlt : freezeNumber e.freezeMode < 5 := by cases e.freezeMode <;> decide
    have htype : InType true 32 (freezeNumber e.freezeMode : ℤ) := ⟨by omega, by norm_num; omega⟩
    refine ⟨Int32.ofInt (freezeNumber e.freezeMode), ?_, ?_, ?_⟩
    · rw [jsonIntField, jsonIntegerField, hfield]
      simp only
      rw [jsonInteger_numberValue (by decide) htype, Option.map_some]
    · cases e.freezeMode <;> decide
    · cases e.freezeMode <;> rfl

theorem entry_parent (h : e.Shaped) :
    jsonIntField (entryValue e) "parent" (-1) = some e.parentId := by
  have hfield : getField (entryValue e) "parent"
      = if e.parentId.toInt ≥ 0 then some (numberValue e.parentId.toInt) else none :=
    getField_entry 36 rfl
  by_cases hparent : e.parentId.toInt ≥ 0
  · rw [if_pos hparent] at hfield
    exact intField_some hfield
  · rw [if_neg hparent] at hfield
    have hroot : e.parentId.toInt = -1 := by
      have := h.parent
      omega
    rw [intField_none hfield, ← hroot, Int32.ofInt_toInt]

theorem readEntry_settled (h : e.Shaped) (items : List Value) :
    readEntry items (entryValue e) = some e.settled := by
  have hdesc : getField (entryValue e) "desc" = some (Value.string e.description) :=
    getField_entry 1 rfl
  have hdescription : jsonStringField (entryValue e)
      (eitherKey (entryValue e) "desc" "description") = e.description := by
    rw [eitherKey_some hdesc]
    exact stringField_some hdesc
  have haddressString : jsonStringField (entryValue e)
      (eitherKey (entryValue e) "addrString" "addressExpr") = e.addressString :=
    stringField_either (getField_entry 7 rfl) (getField_entry_absent (by decide))
  have hoptions : jsonStringField (entryValue e)
      (eitherKey (entryValue e) "options" "optionsXml") = e.optionsXml :=
    stringField_either (getField_entry 25 rfl) (getField_entry_absent (by decide))
  have hbig : jsonBoolField (entryValue e) "bigEndian" = false := by
    rw [jsonBoolField, getField_entry_absent (by decide)]
  obtain ⟨horder, horderText⟩ := @entry_order e
  obtain ⟨hwidth, hwidthInt⟩ := @entry_width e
  obtain ⟨freeze, hfreeze, hfreeze0, hfreezeMode⟩ := @entry_freezeMode e
  have hactivate := @cascadeFlag_eq _ _ _ e.optionsXml "moActivateChildrenAsWell=\"1\""
    (getField_entry (e := e) 26 rfl)
  have hdeactivate := @cascadeFlag_eq _ _ _ e.optionsXml "moDeactivateChildrenAsWell=\"1\""
    (getField_entry (e := e) 27 rfl)
  have hoffsets := @entry_offsets e
  have hunparsed := @entry_unparsedOffsets e
  rw [Option.bind_eq_some_iff] at hoffsets hunparsed
  obtain ⟨vs, hvs, hoffsets⟩ := hoffsets
  obtain ⟨us, hus, hunparsed⟩ := hunparsed
  unfold readEntry
  rw [if_neg (show ¬ (entryValue e).type ≠ .object from fun hne => hne rfl)]
  simp only [show jsonIntField (entryValue e) "id" 0 = some e.id from
      intField_some (getField_entry 0 rfl), hdescription, entry_address h, haddressString, entry_type h,
    hvs, hoffsets, entry_length h, entry_showAsSigned, horder, horderText, hwidth, hwidthInt,
    entry_format h, hbig, hfreeze, hfreeze0, hfreezeMode, hoptions, hus, hunparsed, entry_parent h, hdesc,
    entry_value h, entry_customType h, entry_unparsedAddress h, hactivate, hdeactivate,
    boolField_orNone (getField_entry (e := e) 11 rfl),
    stringField_orNone (getField_entry (e := e) 12 rfl),
    stringField_orNone (getField_entry (e := e) 13 rfl),
    stringField_orNone (getField_entry (e := e) 14 rfl),
    boolField_orNone (getField_entry (e := e) 15 rfl),
    boolField_orNone (getField_entry (e := e) 16 rfl),
    boolField_orNone (getField_entry (e := e) 21 rfl),
    boolField_orNone (getField_entry (e := e) 22 rfl),
    stringField_orNone (getField_entry (e := e) 23 rfl),
    stringField_orNone (getField_entry (e := e) 24 rfl),
    stringField_orNone (getField_entry (e := e) 28 rfl),
    stringField_orNone (getField_entry (e := e) 29 rfl),
    stringField_orNone (getField_entry (e := e) 30 rfl),
    stringField_orNone (getField_entry (e := e) 31 rfl),
    stringField_orNone (getField_entry (e := e) 32 rfl),
    stringField_orNone (getField_entry (e := e) 33 rfl),
    stringField_orNone (getField_entry (e := e) 34 rfl),
    stringField_orNone (getField_entry (e := e) 35 rfl),
    Option.bind_eq_bind, Option.bind_some, Option.isNone_some, Bool.and_false,
    Bool.false_and, Bool.false_eq_true, if_false]
  have hnonneg : ¬ (if e.length.toInt > 65536 then (65536 : Int32) else e.length).toInt < 0 := by
    have hlength := h.length_nonneg
    split
    · decide
    · omega
  rw [if_neg hnonneg]
  rfl

/-- A record that says what its kept text says is read back as it is. -/
theorem settled_eq (h : e.Writable) : e.settled = e := by
  have hflag : ∀ {flag : Bool} {mark : String},
      (e.optionsXml ≠ [] → flag = contains e.optionsXml (lit mark)) → settledFlag flag e.optionsXml mark = flag := by
    intro flag mark hflag
    unfold settledFlag
    by_cases hempty : e.optionsXml = []
    · simp [hempty]
    · rw [hflag hempty]
      simp only [Bool.and_eq_left_iff_imp, Bool.or_eq_true]
      exact Or.inr
  have hlength : (if e.length.toInt > 65536 then (65536 : Int32) else e.length) = e.length :=
    if_neg (by have := h.length_le; omega)
  unfold CheatEntry.settled
  rw [hlength, hflag fun hne => (h.cascade hne).1, hflag fun hne => (h.cascade hne).2]

end entry

/-! ### Structures and comments -/

def structureFieldKeys : List String := ["name", "offset", "type", "size", "display", "nested"]

def structureKeys : List String := ["name", "size", "fields"]

def commentKeys : List String := ["address", "comment", "label"]

theorem memberKeys_names :
    FieldNames structureFieldKeys ∧ FieldNames structureKeys ∧ FieldNames commentKeys :=
  ⟨⟨by decide, by decide +kernel⟩, ⟨by decide, by decide +kernel⟩, by decide, by decide +kernel⟩

theorem structureFieldKeys_names : FieldNames structureFieldKeys := memberKeys_names.1

theorem structureKeys_names : FieldNames structureKeys := memberKeys_names.2.1

theorem commentKeys_names : FieldNames commentKeys := memberKeys_names.2.2

theorem readStructureField_eq (f : StructureField) :
    readStructureField (structureFieldValue f) = some f := by
  have hfield : ∀ (i : ℕ) {k : String} {o : Option Value},
      (structureFieldFields f)[i]? = some (k, o) → getField (structureFieldValue f) k = o :=
    fun i _ _ => structureFieldKeys_names.getField rfl i
  unfold readStructureField
  rw [if_neg (show ¬ (structureFieldValue f).type ≠ .object from fun hne => hne rfl)]
  simp only [stringField_some (hfield 0 rfl), sizeField_some (hfield 1 rfl),
    valueTypeField_some (hfield 2 rfl), sizeField_some (hfield 3 rfl),
    stringField_orNone (hfield 4 rfl), stringField_orNone (hfield 5 rfl), Option.bind_eq_bind,
    Option.bind_some]

theorem readStructure_eq (s : StructureDefinition) :
    readStructure (structureValue s) = some s := by
  have hfield : ∀ (i : ℕ) {k : String} {o : Option Value},
      (structureFields s)[i]? = some (k, o) → getField (structureValue s) k = o :=
    fun i _ _ => structureKeys_names.getField rfl i
  unfold readStructure
  rw [if_neg (show ¬ (structureValue s).type ≠ .object from fun hne => hne rfl)]
  simp only [stringField_some (hfield 0 rfl), sizeField_some (hfield 1 rfl),
    arrayField_items (hfield 2 rfl),
    mapM_items readStructureField structureFieldValue fun f _ => readStructureField_eq f,
    Option.bind_eq_bind, Option.bind_some]

theorem readComment_eq (c : DisassemblerComment) : readComment (commentValue c) = some c := by
  have hfield : ∀ (i : ℕ) {k : String} {o : Option Value},
      (commentFields c)[i]? = some (k, o) → getField (commentValue c) k = o :=
    fun i _ _ => commentKeys_names.getField rfl i
  unfold readComment
  rw [if_neg (show ¬ (commentValue c).type ≠ .object from fun hne => hne rfl),
    stringField_some (hfield 0 rfl), stringField_orNone (hfield 1 rfl),
    stringField_orNone (hfield 2 rfl)]

/-! ### Texts of the grammar -/

def Spells (d : ℕ) (v : Value) : Prop := JsonValue valueMeaning d (Json.write v) (v.mapStrings Json.repair)

theorem Spells.string (s : Bytes) (d : ℕ) : Spells (d + 1) (Value.string s) :=
  JsonValue.string d _ _ (Json.jsonString_quote s)

theorem Spells.number (n : ℤ) (d : ℕ) : Spells (d + 1) (numberValue n) := by
  have htext : Json.write (numberValue n) = intText n := by
    rw [numberValue, Value.numberText, Json.write, if_neg (by simpa using intText_ne_nil n)]
  unfold Spells
  rw [htext]
  exact JsonValue.number d _ (number_intText n)

theorem Spells.boolean (b : Bool) (d : ℕ) : Spells (d + 1) (Value.boolean b) := by
  cases b
  · exact JsonValue.false d
  · exact JsonValue.true d

theorem mapStrings_ofItems (f : Bytes → Bytes) (vs : List Value) :
    (Value.ofItems vs).mapStrings f = Value.ofItems (vs.map (Value.mapStrings f)) := by
  rw [← Value.mapItems_eq]
  rfl

theorem mapStrings_ofMembers (f : Bytes → Bytes) (ms : List (Bytes × Value)) :
    (Value.ofMembers ms).mapStrings f = Value.ofMembers (ms.map fun m => (f m.1, m.2.mapStrings f)) := by
  rw [← Value.mapMembers_eq]
  rfl

theorem Spells.items {d : ℕ} {vs : List Value} (h : ∀ v ∈ vs, Spells d v) :
    Spells (d + 1) (Value.ofItems vs) := by
  unfold Spells
  rw [mapStrings_ofItems]
  exact Json.jsonValue_items h

theorem present_sublist (fields : List (String × Option Value)) :
    ((present fields).map Prod.fst).Sublist (fields.map fun f => lit f.1) := by
  induction fields with
  | nil => exact List.Sublist.refl _
  | cons f fields ih =>
    obtain ⟨name, field⟩ := f
    cases field with
    | none => exact ih.cons _
    | some v => exact ih.cons_cons _

section members

variable {keys : List String} (hkeys : FieldNames keys) {fields : List (String × Option Value)}
  (hfields : fields.map Prod.fst = keys)

include hkeys hfields

/-- The names of members are as they are written. -/
theorem present_plain : ∀ m ∈ present fields, Json.repair m.1 = m.1 := by
  intro m hm
  obtain ⟨f, hf, hfm⟩ := List.mem_filterMap.mp hm
  obtain ⟨v, hv, rfl⟩ := Option.map_eq_some_iff.mp hfm
  refine hkeys.plain _ ?_
  rw [← hfields, List.map_map]
  exact List.mem_map_of_mem hf

theorem Spells.members {d : ℕ} (h : ∀ f ∈ fields, ∀ v, f.2 = some v → Spells d v) :
    Spells (d + 1) (Value.ofMembers (present fields)) := by
  have hnodup : ((present fields).map fun m => Json.repair m.1).Nodup := by
    rw [List.map_congr_left (present_plain hkeys hfields)]
    refine (present_sublist fields).nodup ?_
    have hnames : fields.map (fun f => lit f.1) = keys.map lit := by
      rw [← hfields, List.map_map]
      rfl
    rw [hnames]
    exact hkeys.nodup
  unfold Spells
  rw [mapStrings_ofMembers]
  refine Json.jsonValue_members hnodup fun m hm => ?_
  obtain ⟨f, hf, hfm⟩ := List.mem_filterMap.mp hm
  obtain ⟨v, hv, rfl⟩ := Option.map_eq_some_iff.mp hfm
  exact h f hf v hv

theorem mapStrings_present : (Value.ofMembers (present fields)).mapStrings Json.repair
    = Value.ofMembers (present (fields.map fun f => (f.1, f.2.map (Value.mapStrings Json.repair)))) := by
  have hmap : (present fields).map (fun m => (Json.repair m.1, m.2.mapStrings Json.repair))
      = present (fields.map fun f => (f.1, f.2.map (Value.mapStrings Json.repair))) := by
    rw [List.map_congr_left fun m hm => by rw [present_plain hkeys hfields m hm]]
    unfold present
    rw [List.map_filterMap, List.filterMap_map]
    refine List.filterMap_congr fun f _ => ?_
    simp [Function.comp_def]
  rw [mapStrings_ofMembers, hmap]

end members

/-- A field that is left out or written as it reads. -/
def SpellsField (d : ℕ) (o : Option Value) : Prop := ∀ v, o = some v → Spells d v

theorem SpellsField.some {d : ℕ} {v : Value} (h : Spells d v) : SpellsField d (some v) := by
  intro w hw
  cases hw
  exact h

theorem SpellsField.none (d : ℕ) : SpellsField d none := fun _ h => by cases h

theorem SpellsField.ite {d : ℕ} {c : Prop} [Decidable c] {o o' : Option Value}
    (h : SpellsField d o) (h' : SpellsField d o') : SpellsField d (if c then o else o') := by
  split
  · exact h
  · exact h'

theorem SpellsField.string (s : Bytes) (d : ℕ) : SpellsField (d + 1) (Option.some (Value.string s)) :=
  SpellsField.some (Spells.string s d)

theorem SpellsField.number (n : ℤ) (d : ℕ) : SpellsField (d + 1) (Option.some (numberValue n)) :=
  SpellsField.some (Spells.number n d)

theorem SpellsField.text (s : Bytes) (d : ℕ) : SpellsField (d + 1) (textOrNone s) :=
  SpellsField.ite (SpellsField.none _) (SpellsField.string s d)

theorem SpellsField.flag (b usual : Bool) (d : ℕ) : SpellsField (d + 1) (flagOrNone b usual) :=
  SpellsField.ite (SpellsField.none _) (SpellsField.some (Spells.boolean b d))

theorem spells_entryValue (e : CheatEntry) : Spells 3 (entryValue e) := by
  have hoffsets : Spells 2 (Value.ofItems (e.offsets.map fun o => numberValue o.toInt)) := by
    refine Spells.items fun v hv => ?_
    obtain ⟨o, -, rfl⟩ := List.mem_map.mp hv
    exact Spells.number _ 0
  have hunparsed : Spells 2 (Value.ofItems (e.unparsedOffsets.map Value.string)) := by
    refine Spells.items fun v hv => ?_
    obtain ⟨s, hs, rfl⟩ := List.mem_map.mp hv
    exact Spells.string s 0
  have horder : SpellsField 2 (match e.dataByteOrder with
      | .unknown => none
      | .big => some (Value.string (lit "big"))
      | .little => some (Value.string (lit "little"))) := by
    cases e.dataByteOrder with
    | unknown => exact SpellsField.none 2
    | big => exact SpellsField.string _ 1
    | little => exact SpellsField.string _ 1
  have hfields : ∀ f ∈ entryFields e, SpellsField 2 f.2 := by
    simp only [entryFields, List.forall_mem_cons, List.not_mem_nil, false_implies, implies_true,
      and_true]
    exact ⟨.number _ 1, .string _ 1, .ite (.none 2) (.string _ 1), .ite (.none 2) (.number _ 1),
      .ite (.none 2) (.string _ 1), .ite (.number _ 1) (.none 2), .ite (.none 2) (.text _ 1), .text _ 1,
      .ite (.none 2) (.some hoffsets), .ite (.none 2) (.string _ 1), .ite (.none 2) (.some hunparsed),
      .flag _ _ 1, .text _ 1, .text _ 1, .text _ 1, .flag _ _ 1, .flag _ _ 1, .flag _ _ 1, horder,
      .ite (.none 2) (.number _ 1), .ite (.none 2) (.number _ 1), .flag _ _ 1, .flag _ _ 1, .text _ 1,
      .text _ 1, .text _ 1, .flag _ _ 1, .flag _ _ 1, .text _ 1, .text _ 1, .text _ 1, .text _ 1, .text _ 1,
      .text _ 1, .text _ 1, .text _ 1, .ite (.number _ 1) (.none 2)⟩
  exact Spells.members entryKeys_names rfl hfields

def StructureField.texts (f : StructureField) : List Bytes :=
  [f.name, f.displayMethod, f.nestedStructure]

def StructureDefinition.texts (s : StructureDefinition) : List Bytes :=
  s.name :: s.fields.flatMap StructureField.texts

def DisassemblerComment.texts (c : DisassemblerComment) : List Bytes :=
  [c.address, c.comment, c.label]

theorem spells_structureFieldValue (f : StructureField) : Spells 2 (structureFieldValue f) := by
  have hfields : ∀ p ∈ structureFieldFields f, SpellsField 1 p.2 := by
    simp only [structureFieldFields, List.forall_mem_cons, List.not_mem_nil, false_implies,
      implies_true, and_true]
    exact ⟨.string _ 0, .number _ 0, .number _ 0, .number _ 0, .text _ 0, .text _ 0⟩
  exact Spells.members structureFieldKeys_names rfl hfields

theorem spells_structureValue (s : StructureDefinition) : Spells 4 (structureValue s) := by
  have hitems : Spells 3 (Value.ofItems (s.fields.map structureFieldValue)) := by
    refine Spells.items fun v hv => ?_
    obtain ⟨f, -, rfl⟩ := List.mem_map.mp hv
    exact spells_structureFieldValue f
  have hfields : ∀ p ∈ structureFields s, SpellsField 3 p.2 := by
    simp only [structureFields, List.forall_mem_cons, List.not_mem_nil, false_implies,
      implies_true, and_true]
    exact ⟨.string _ 2, .number _ 2, .some hitems⟩
  exact Spells.members structureKeys_names rfl hfields

theorem spells_commentValue (c : DisassemblerComment) : Spells 2 (commentValue c) := by
  have hfields : ∀ p ∈ commentFields c, SpellsField 1 p.2 := by
    simp only [commentFields, List.forall_mem_cons, List.not_mem_nil, false_implies,
      implies_true, and_true]
    exact ⟨.string _ 0, .text _ 0, .text _ 0⟩
  exact Spells.members commentKeys_names rfl hfields

/-! ### Repaired texts -/

theorem repair_eq_nil {s : Bytes} : Json.repair s = [] ↔ s = [] := by
  induction s using Json.escape_induction with
  | nil => exact ⟨fun _ => rfl, fun _ => rfl⟩
  | ascii c s hc _ => simp [Json.repair_ascii hc]
  | char ch s hc _ => simp [Json.repair_char hc]
  | bad c s hbad _ => simp [Json.repair_bad hbad, Utf8.replacement]

theorem isEmpty_repair (s : Bytes) : (Json.repair s).isEmpty = s.isEmpty := by
  rw [Bool.eq_iff_iff, List.isEmpty_iff, List.isEmpty_iff, repair_eq_nil]

@[simp] theorem map_textOrNone (s : Bytes) :
    (textOrNone s).map (Value.mapStrings Json.repair) = textOrNone (Json.repair s) := by
  unfold textOrNone
  rw [isEmpty_repair]
  split <;> rfl

@[simp] theorem map_flagOrNone (b usual : Bool) :
    (flagOrNone b usual).map (Value.mapStrings Json.repair) = flagOrNone b usual := by
  unfold flagOrNone
  split <;> rfl

@[simp] theorem mapStrings_string (s : Bytes) :
    (Value.string s).mapStrings Json.repair = Value.string (Json.repair s) := rfl

/-- A record with its texts as they read from JSON. -/
def CheatEntry.repaired (e : CheatEntry) : CheatEntry :=
  { e with
    description := Json.repair e.description
    addressString := Json.repair e.addressString
    value := Json.repair e.value
    autoAsmScript := Json.repair e.autoAsmScript
    luaScript := Json.repair e.luaScript
    color := Json.repair e.color
    dropdownList := Json.repair e.dropdownList
    dropdownAttributes := Json.repair e.dropdownAttributes
    hotkeyKeys := Json.repair e.hotkeyKeys
    increaseHotkeyKeys := Json.repair e.increaseHotkeyKeys
    decreaseHotkeyKeys := Json.repair e.decreaseHotkeyKeys
    setValueHotkeyKeys := Json.repair e.setValueHotkeyKeys
    setValueHotkeyValue := Json.repair e.setValueHotkeyValue
    hotkeyStep := Json.repair e.hotkeyStep
    extraHotkeysXml := Json.repair e.extraHotkeysXml
    optionsXml := Json.repair e.optionsXml
    customTypeName := Json.repair e.customTypeName
    unparsedAddress := Json.repair e.unparsedAddress
    extraXml := Json.repair e.extraXml
    unparsedOffsets := e.unparsedOffsets.map Json.repair }

theorem repair_hexText (a : UInt64) : Json.repair (hexText a) = hexText a := by
  refine Json.repair_valid ((Json.valid_literal (by decide)).append (Json.valid_of_ascii fun b hb => ?_))
  obtain ⟨d, hd, rfl⟩ := mem_digitsText (by decide) (by decide) hb
  rw [digitByte_toNat hd]
  split <;> omega

theorem mapStrings_entryValue (e : CheatEntry) :
    (entryValue e).mapStrings Json.repair = entryValue e.repaired := by
  have hfields : (entryFields e).map (fun f => (f.1, f.2.map (Value.mapStrings Json.repair)))
      = entryFields e.repaired := by
    have hrow : ∀ {k : String} {o o' : Option Value} {l l' : List (String × Option Value)},
        o.map (Value.mapStrings Json.repair) = o' →
        l.map (fun f => (f.1, f.2.map (Value.mapStrings Json.repair))) = l' →
        ((k, o) :: l).map (fun f => (f.1, f.2.map (Value.mapStrings Json.repair))) = (k, o') :: l' := by
      rintro k o o' l l' rfl rfl
      rfl
    have hgroup : ∀ {b : Bool} {o o' : Option Value}, o.map (Value.mapStrings Json.repair) = o' →
        (if b then none else o).map (Value.mapStrings Json.repair) = if b then none else o' := by
      rintro b o o' rfl
      cases b <;> rfl
    have hwritten : ∀ {c : Prop} [Decidable c] {v : Value}, v.mapStrings Json.repair = v →
        (if c then some v else none).map (Value.mapStrings Json.repair) = if c then some v else none := by
      intro c _ v hv
      split
      · exact congrArg some hv
      · rfl
    have hskipped : ∀ {c : Prop} [Decidable c] {v : Value}, v.mapStrings Json.repair = v →
        (if c then none else some v).map (Value.mapStrings Json.repair) = if c then none else some v := by
      intro c _ v hv
      split
      · rfl
      · exact congrArg some hv
    have hoffsets : (if e.offsets.isEmpty then none
        else some (Value.ofItems (e.offsets.map fun o => numberValue o.toInt))).map (Value.mapStrings Json.repair)
        = if e.offsets.isEmpty then none else some (Value.ofItems (e.offsets.map fun o => numberValue o.toInt)) := by
      refine hskipped ?_
      rw [mapStrings_ofItems, List.map_map]
      rfl
    have haddress : (if e.isGroup then none else some (Value.string (hexText e.address))).map
        (Value.mapStrings Json.repair) = if e.isGroup then none else some (Value.string (hexText e.address)) :=
      hskipped (by rw [mapStrings_string, repair_hexText])
    have hunparsed : (if e.unparsedOffsets.isEmpty then none
        else some (Value.ofItems (e.unparsedOffsets.map Value.string))).map (Value.mapStrings Json.repair)
        = if (e.unparsedOffsets.map Json.repair).isEmpty then none
          else some (Value.ofItems ((e.unparsedOffsets.map Json.repair).map Value.string)) := by
      rw [List.isEmpty_map, List.map_map]
      refine hgroup ?_
      rw [Option.map_some, mapStrings_ofItems, List.map_map]
      rfl
    have hunparsedAddress : (if e.unparsedOffsets.isEmpty then none
        else some (Value.string e.unparsedAddress)).map (Value.mapStrings Json.repair)
        = if (e.unparsedOffsets.map Json.repair).isEmpty then none
          else some (Value.string (Json.repair e.unparsedAddress)) := by
      rw [List.isEmpty_map]
      exact hgroup rfl
    refine hrow rfl (hrow rfl (hrow haddress (hrow (hskipped rfl) (hrow (hgroup rfl) (hrow (hwritten rfl)
      (hrow (hgroup (map_textOrNone _)) (hrow (map_textOrNone _) (hrow hoffsets (hrow hunparsedAddress
      (hrow hunparsed (hrow (map_flagOrNone _ _) (hrow (map_textOrNone _) (hrow (map_textOrNone _)
      (hrow (map_textOrNone _) (hrow (map_flagOrNone _ _) (hrow (map_flagOrNone _ _) (hrow (map_flagOrNone _ _)
      (hrow ?_ (hrow (hskipped rfl) (hrow (hskipped rfl) (hrow (map_flagOrNone _ _) (hrow (map_flagOrNone _ _)
      (hrow (map_textOrNone _) (hrow (map_textOrNone _) (hrow (map_textOrNone _) (hrow (map_flagOrNone _ _)
      (hrow (map_flagOrNone _ _) (hrow (map_textOrNone _) (hrow (map_textOrNone _) (hrow (map_textOrNone _)
      (hrow (map_textOrNone _) (hrow (map_textOrNone _) (hrow (map_textOrNone _) (hrow (map_textOrNone _)
      (hrow (map_textOrNone _) (hrow (hwritten rfl) rfl))))))))))))))))))))))))))))))))))))
    show Option.map (Value.mapStrings Json.repair) (match e.dataByteOrder with
      | .unknown => none
      | .big => some (Value.string (lit "big"))
      | .little => some (Value.string (lit "little"))) = match e.dataByteOrder with
      | .unknown => none
      | .big => some (Value.string (lit "big"))
      | .little => some (Value.string (lit "little"))
    cases e.dataByteOrder <;> rfl
  unfold entryValue
  rw [mapStrings_present entryKeys_names rfl, hfields]

theorem repaired_eq {e : CheatEntry} (h : ∀ s ∈ e.texts, Utf8.Valid s) : e.repaired = e := by
  have hrepair : ∀ s ∈ e.texts, Json.repair s = s := fun s hs => Json.repair_valid (h s hs)
  have hunparsed : e.unparsedOffsets.map Json.repair = e.unparsedOffsets := by
    rw [List.map_congr_left fun s hs => hrepair s (List.mem_append_right _ hs), List.map_id']
  have hmem : ∀ {s : Bytes}, s ∈ e.texts → Json.repair s = s := fun hs => hrepair _ hs
  unfold CheatEntry.repaired
  rw [hunparsed]
  unfold CheatEntry.texts at hmem
  simp only [List.mem_append, List.mem_cons] at hmem
  simp only [hmem, true_or, or_true]

def StructureField.repaired (f : StructureField) : StructureField :=
  { f with name := Json.repair f.name, displayMethod := Json.repair f.displayMethod,
           nestedStructure := Json.repair f.nestedStructure }

def StructureDefinition.repaired (s : StructureDefinition) : StructureDefinition :=
  { s with name := Json.repair s.name, fields := s.fields.map StructureField.repaired }

def DisassemblerComment.repaired (c : DisassemblerComment) : DisassemblerComment :=
  { address := Json.repair c.address, comment := Json.repair c.comment, label := Json.repair c.label }

theorem mapStrings_structureFieldValue (f : StructureField) :
    (structureFieldValue f).mapStrings Json.repair = structureFieldValue f.repaired := by
  unfold structureFieldValue
  rw [mapStrings_present structureFieldKeys_names rfl]
  simp [structureFieldFields, StructureField.repaired]
  rfl

theorem mapStrings_structureValue (s : StructureDefinition) :
    (structureValue s).mapStrings Json.repair = structureValue s.repaired := by
  unfold structureValue
  rw [mapStrings_present structureKeys_names rfl]
  have hmap : Value.mapStrings Json.repair ∘ structureFieldValue = structureFieldValue ∘ StructureField.repaired :=
    funext mapStrings_structureFieldValue
  simp [structureFields, StructureDefinition.repaired, mapStrings_ofItems, hmap]
  rfl

theorem mapStrings_commentValue (c : DisassemblerComment) :
    (commentValue c).mapStrings Json.repair = commentValue c.repaired := by
  unfold commentValue
  rw [mapStrings_present commentKeys_names rfl]
  simp [commentFields, DisassemblerComment.repaired]

end CheatEngine.CtFile
