import CheatEngineLinux.Core.XmlRecord

/-!
# Reading a record back

What the loader finds in the own part of a record that was written.

* `getTag_front` — **PROVED**: a field that is written in front of the kept XML is found.
* `ownXml_eq` — **PROVED**: what is left of a record without its hotkeys.
* `getTag_absent` — **PROVED**: a field that is not written is not found.
-/

namespace CheatEngine.CtFile

open JsonGrammar (Bytes isDigit)
open Markup (cut Lacks Seam Tagged)

/-! ### The own part of a record -/

/-- What stands in front of the fields. -/
def recordLead : Bytes := openTag "CheatEntry" ++ [0x0a]

/-- What stands after them, in front of a list or at the end of the record. -/
def recordTail (list : Bool) : Bytes := if list then spaces 6 else spaces 4 ++ closeTag "CheatEntry"

/-- The own part of a record, as the loader cuts it out. -/
def recordXml (list : Bool) (s : Bytes) : Bytes := recordLead ++ (s ++ recordTail list)

theorem leafXml_eq (s : Bytes) : leafXml s = recordXml false s := by
  simp [leafXml, recordXml, recordLead, recordTail]

theorem nodeXml_eq (s : Bytes) : nodeXml s = recordXml true s := by
  simp [nodeXml, recordXml, recordLead, recordTail]

def ownXml (list : Bool) (e : CheatEntry) : Bytes := eraseHotkeys (recordXml list (writeEntryFields e))

theorem tagged_recordLead : Tagged 0x3c 0x3e (· = lit "CheatEntry") recordLead := by
  have hsplit : recordLead = [] ++ 0x3c :: (lit "CheatEntry" ++ 0x3e :: [0x0a]) := by
    simp [recordLead, openTag]
  rw [hsplit]
  exact .tag (by simp) rfl (by decide) (by decide) (.plain (by decide))

theorem lacks_recordLead {n : String} (hn : tagName n = true) (hne : lit n ≠ lit "CheatEntry") :
    Lacks (openTag n) recordLead := lacks_open hn tagged_recordLead hne

theorem lacks_recordTail (list : Bool) {n : String} (hn : tagName n = true) :
    Lacks (openTag n) (recordTail list) := by
  have hclose : Tagged 0x3c 0x3e (fun t => t = closing "CheatEntry") (closeTag "CheatEntry" ++ []) :=
    tagged_closeTag (P := fun t => t = closing "CheatEntry") (by decide) rfl (.plain (by simp))
  rw [List.append_nil] at hclose
  cases list with
  | true => exact Markup.lacks_plain (plain_spaces 6).lt
  | false =>
    refine Markup.lacks_plain_append (plain_spaces 4).lt (lacks_open hn hclose fun heq => ?_)
    exact not_mem_tagName hn (b := 0x2f) (by decide) (heq ▸ List.mem_cons_self)

theorem endsLine_recordLead : EndsLine recordLead := endsLine_snoc _

/-! ### Fields in front of the kept XML -/

/-- The names of the fields in front of the kept XML. -/
def frontKeys : List String := ownKeys.take 21

/-- The fields in front of the kept XML. -/
def frontLines (e : CheatEntry) : List (String × Option Bytes) := (ownLines e).take 21

theorem frontLines_keys (e : CheatEntry) : (frontLines e).map Prod.fst = frontKeys := rfl

theorem written_append (a b : List (String × Option Bytes)) : written (a ++ b) = written a ++ written b := by
  simp [written]

theorem written_ownLines (e : CheatEntry) :
    written (ownLines e) = written (frontLines e) ++ written ((ownLines e).drop 21) := by
  rw [← written_append, frontLines, List.take_append_drop]

/-- The names the loader looks for with both tags. -/
def readNames : List String :=
  ["ID", "Description", "GroupHeader", "Collapsed", "Address", "Offsets", "VariableType", "Length", "Unicode",
    "ByteLength", "CustomType", "Value", "Activated", "ShowAsHex", "ShowAsSigned", "LinuxDataByteOrder",
    "LinuxPointerWidth", "freezeMode", "LuaScript", "Color", "DropdownList", "Hotkeys", "IncreaseHotkey",
    "SetValueHotkey", "SetValueHotkeyValue", "DecreaseHotkey", "HotkeyStep"]

theorem readNames_name : ∀ n ∈ readNames, tagName n = true := by decide +kernel

theorem readNames_apart : ∀ n ∈ readNames, lit n ≠ lit "CheatEntry" ∧
    ∀ k ∈ ownKeys, k ≠ n → lit n ∉ fieldTags k := by
  decide +kernel

theorem frontKeys_nonempty : "" ∉ frontKeys := by decide

theorem mem_frontLines {e : CheatEntry} {f : String × Option Bytes} (h : f ∈ frontLines e) :
    f ∈ ownLines e ∧ f.1 ≠ "" := by
  refine ⟨List.mem_of_mem_take h, fun heq => frontKeys_nonempty ?_⟩
  rw [← heq, ← frontLines_keys e]
  exact List.mem_map_of_mem h

theorem lacks_field {e : CheatEntry} {n : String} (hn : n ∈ readNames) {f : String × Option Bytes}
    (hf : f ∈ ownLines e) (hkept : f.1 ≠ "") (hne : f.1 ≠ n) {text : Bytes} (htext : text ∈ f.2) :
    Lacks (openTag n) text := by
  refine lacks_open (readNames_name n hn) (ownLines_ok e f hf hkept text htext).1 fun h => ?_
  exact h.elim ((readNames_apart n hn).2 f.1 (mem_ownKeys hf) hne) (not_rawTag_open (readNames_name n hn))

theorem lines_frontLines (e : CheatEntry) : Lines (frontLines e) :=
  fun f hf => lines_ownLines e f (mem_frontLines hf).1

theorem lacks_hotkeys_front (e : CheatEntry) : Lacks (openTag "Hotkeys") (written (frontLines e)) := by
  refine lacks_written_open (by decide) (lines_frontLines e) (fun f hf hne text htext => ?_) fun f hf heq => ?_
  · exact lacks_field (by decide) (mem_frontLines hf).1 (mem_frontLines hf).2 hne htext
  · have hmem : f.1 ∈ frontKeys := frontLines_keys e ▸ List.mem_map_of_mem hf
    rw [heq] at hmem
    exact absurd hmem (by decide)

theorem eraseHotkeys_append {p : Bytes} (h : Lacks (openTag "Hotkeys") p) (hends : EndsLine p) (rest : Bytes) :
    eraseHotkeys (p ++ rest) = p ++ eraseHotkeys rest := by
  have hcut := Markup.cut_append h (hends.seam (openTag_line_break (n := "Hotkeys") (by decide)) rest)
  unfold eraseHotkeys
  rw [hcut]
  cases cut (openTag "Hotkeys") rest with
  | none => rfl
  | some r =>
    dsimp only [Option.map_some]
    cases cut (closeTag "Hotkeys") (openTag "Hotkeys" ++ r.2) with
    | none => rfl
    | some c => simp

theorem ownXml_front (list : Bool) (e : CheatEntry) :
    ∃ rest, ownXml list e = recordLead ++ (written (frontLines e) ++ rest) := by
  have hlead := lacks_recordLead (n := "Hotkeys") (by decide) (by decide)
  refine ⟨eraseHotkeys (written ((ownLines e).drop 21) ++ ((hotkeysText e).getD [] ++ recordTail list)), ?_⟩
  unfold ownXml recordXml writeEntryFields
  rw [written_ownLines, List.append_assoc, List.append_assoc,
    eraseHotkeys_append hlead endsLine_recordLead,
    eraseHotkeys_append (lacks_hotkeys_front e) (endsLine_written (lines_frontLines e))]

theorem getTag_front (list : Bool) {e : CheatEntry} {n : String} (hn : n ∈ readNames) {text body : Bytes}
    (hmem : (n, some text) ∈ frontLines e) (hfound : Found text n body) :
    getTag (ownXml list e) n = body := by
  have hname := readNames_name n hn
  have hlines := lines_frontLines e
  have hkeys : ((frontLines e).map Prod.fst).Nodup := by
    rw [frontLines_keys]
    decide
  have hothers : ∀ f ∈ frontLines e, f.1 ≠ n → ∀ text ∈ f.2, Lacks (openTag n) text :=
    fun f hf hne text htext => lacks_field hn (mem_frontLines hf).1 (mem_frontLines hf).2 hne htext
  have hfront := (found_written hname hlines hothers hkeys hmem hfound)
  obtain ⟨rest, hrest⟩ := ownXml_front list e
  rw [hrest]
  exact ((hfront.append rest).after (lacks_recordLead hname (readNames_apart n hn).1)
    (endsLine_recordLead.seam (openTag_line_break hname) _)).getTag

/-! ### The record without its hotkeys -/

/-- The kept elements do not disturb where the hotkeys begin and end. -/
structure CheatEntry.Tame (e : CheatEntry) : Prop where
  extra : Lacks (openTag "Hotkeys") e.extraXml
  kept : Lacks (closeTag "Hotkeys") (keptXml e)

theorem CheatEntry.NoRaw.tame {e : CheatEntry} (h : e.NoRaw) : e.Tame where
  extra := by
    rw [h.extraXml]
    exact Markup.lacks_plain (by simp)
  kept := by
    rw [keptXml_nil h.extraHotkeysXml]
    exact Markup.lacks_plain (by simp)

theorem lacks_rawLine {pat s : Bytes} (h : Lacks (0x3c :: pat) s) (hbreak : 0x0a ∉ pat) (indent : ℕ) :
    Lacks (0x3c :: pat) (spaces indent ++ (s ++ [0x0a])) := by
  refine Markup.lacks_plain_append (plain_spaces indent).lt ?_
  refine Markup.lacks_append h (Markup.lacks_plain (by decide)) (Or.inr fun c hc => ?_)
  cases hc
  exact hbreak

theorem lacks_ownLines {e : CheatEntry} {n : String} (hn : n ∈ readNames)
    (hextra : Lacks (openTag n) e.extraXml) (hnone : ∀ f ∈ ownLines e, f.1 = n → f.2 = none) :
    Lacks (openTag n) (written (ownLines e)) := by
  have hname := readNames_name n hn
  refine lacks_written_open hname (lines_ownLines e) (fun f hf hne text htext => ?_) hnone
  by_cases hkey : f.1 = ""
  · rw [(mem_extraLine hf hkey htext).2]
    exact lacks_rawLine hextra (fun hmem => openTag_line_break hname (List.mem_cons_of_mem _ hmem)) 6
  · exact lacks_field hn hf hkey hne htext

/-- The hotkeys that are erased leave an empty line. -/
def recordGap (e : CheatEntry) : Bytes :=
  if (slotHotkeys e).isEmpty && (keptXml e).isEmpty then [] else spaces 6 ++ [0x0a]

theorem lacks_close_hotkeysContent {e : CheatEntry} (h : e.Tame) :
    Lacks (closeTag "Hotkeys") (hotkeysContent e) := by
  have hbreak := closeTag_line_break (n := "Hotkeys") (by decide)
  refine Markup.lacks_append ?_ ?_ ((endsLine_hotkeyTexts _ _).seam hbreak _)
  · exact lacks_close (by decide) (tagged_hotkeyTexts _ (slotHotkeys_action e)) (by decide)
  · split
    · exact Markup.lacks_plain (by simp)
    · exact lacks_rawLine h.kept (fun hmem => hbreak (List.mem_cons_of_mem _ hmem)) 8

theorem ownXml_eq (list : Bool) {e : CheatEntry} (h : e.Tame) :
    ownXml list e = recordLead ++ (written (ownLines e) ++ (recordGap e ++ recordTail list)) := by
  have hlead := lacks_recordLead (n := "Hotkeys") (by decide) (by decide)
  have hown : Lacks (openTag "Hotkeys") (written (ownLines e)) := by
    refine lacks_ownLines (by decide) h.extra fun f hf heq => ?_
    have hmem := mem_ownKeys hf
    rw [heq] at hmem
    exact absurd hmem (by decide)
  have htail := lacks_recordTail list (n := "Hotkeys") (by decide)
  unfold ownXml recordXml writeEntryFields
  rw [List.append_assoc, eraseHotkeys_append hlead endsLine_recordLead,
    eraseHotkeys_append hown (endsLine_written (lines_ownLines e)), hotkeysText_eq]
  congr 2
  unfold recordGap
  split
  · rw [Option.getD_none, List.nil_append, eraseHotkeys, htail.cut]
  · have hsplit : block 6 "Hotkeys" (hotkeysContent e) ++ recordTail list
        = spaces 6 ++ (openTag "Hotkeys" ++ ((0x0a :: (hotkeysContent e ++ spaces 6)) ++
          (closeTag "Hotkeys" ++ (0x0a :: recordTail list)))) := by
      simp [block, openLine, closeLine]
    have hopen := cut_openTag (n := "Hotkeys") (by decide) (Markup.lacks_plain (plain_spaces 6).lt)
      ((0x0a :: (hotkeysContent e ++ spaces 6)) ++ (closeTag "Hotkeys" ++ (0x0a :: recordTail list)))
    have hinside : Lacks (closeTag "Hotkeys")
        (openTag "Hotkeys" ++ (0x0a :: (hotkeysContent e ++ spaces 6))) := by
      have hcontent := lacks_pad (lacks_close_hotkeysContent h) (endsLine_hotkeysContent e)
        (closeTag_line_break (n := "Hotkeys") (by decide)) (by decide) 6
      exact Markup.lacks_append (by decide) (Markup.lacks_plain_append (x := [0x0a]) (by decide) hcontent)
        (Or.inr fun c hc => by cases hc; decide)
    have hclose := cut_closeTag (n := "Hotkeys") (by decide) hinside (0x0a :: recordTail list)
    rw [List.append_assoc] at hclose
    rw [Option.getD_some, hsplit, eraseHotkeys, hopen]
    dsimp only
    rw [hclose]
    simp

/-- A field that is not written is not found. -/
theorem getTag_absent (list : Bool) {e : CheatEntry} (h : e.Tame) {n : String} (hn : n ∈ readNames)
    (hextra : Lacks (openTag n) e.extraXml) (hnone : ∀ f ∈ ownLines e, f.1 = n → f.2 = none) :
    getTag (ownXml list e) n = [] := by
  have hname := readNames_name n hn
  have hbreak := openTag_line_break hname
  have hown := lacks_ownLines hn hextra hnone
  have htail := lacks_recordTail list hname
  have hgap : Lacks (openTag n) (recordGap e ++ recordTail list) := by
    unfold recordGap
    split
    · exact htail
    · exact Markup.lacks_plain_append (by decide) htail
  rw [ownXml_eq list h]
  refine getTag_of_lacks (Markup.lacks_append (lacks_recordLead hname (readNames_apart n hn).1) ?_
    (endsLine_recordLead.seam hbreak _))
  exact Markup.lacks_append hown hgap ((endsLine_written (lines_ownLines e)).seam hbreak _)

/-! ### Fields by name -/

/-- A name is that of one field. -/
theorem ownLines_unique {e : CheatEntry} {n : String} {o : Option Bytes} (hmem : (n, o) ∈ ownLines e)
    {f : String × Option Bytes} (hf : f ∈ ownLines e) (heq : f.1 = n) : f.2 = o := by
  have hnodup : ((ownLines e).map Prod.fst).Nodup := ownLines_keys e ▸ ownKeys_nodup
  have hsame : f = (n, o) := List.inj_on_of_nodup_map hnodup hf hmem heq
  rw [hsame]

theorem field_mem {e : CheatEntry} {n : String} {o : Option Bytes} (i : ℕ)
    (h : (frontLines e)[i]? = some (n, o)) : (n, o) ∈ frontLines e := List.mem_of_getElem? h

section fields

variable (list : Bool) {e : CheatEntry} (h : e.Tame) {n : String} (hn : n ∈ readNames)
  (hextra : Lacks (openTag n) e.extraXml)

include h hn hextra

theorem getTag_field {o : Option Bytes} (hmem : (n, o) ∈ frontLines e) {body : Bytes}
    (hfound : ∀ text ∈ o, Found text n body) (hnone : o = none → body = []) :
    getTag (ownXml list e) n = body := by
  cases o with
  | none =>
    rw [hnone rfl]
    exact getTag_absent list h hn hextra fun f hf => ownLines_unique (mem_frontLines hmem).1 hf
  | some text => exact getTag_front list hn hmem (hfound text rfl)

omit h hextra in
theorem getTag_line {body : Bytes} (hbody : Plain body) (hmem : (n, some (line 6 n body)) ∈ frontLines e) :
    getTag (ownXml list e) n = body :=
  getTag_front list hn hmem (found_plain_line (readNames_name n hn) hbody)

end fields

theorem readId_written (list : Bool) {e : CheatEntry} (hid : 0 ≤ e.id) :
    readId (getTag (ownXml list e) "ID") = some e.id := by
  have hrange : inInt e.id.toInt = true := by
    have hmin := Int32.le_toInt e.id
    have hmax := Int32.toInt_lt e.id
    unfold inInt
    simp only [Bool.and_eq_true, decide_eq_true_eq]
    omega
  have hnonneg : 0 ≤ e.id.toInt := Int32.le_iff_toInt_le.mp hid
  rw [getTag_line list (by decide) (plain_intText _) (field_mem 0 rfl), readId,
    fromCharsInt_intText hrange]
  dsimp only
  rw [if_pos hnonneg, Int32.ofInt_toInt]

theorem readFormat_written (list : Bool) {e : CheatEntry} (h : e.Tame)
    (hextra : ∀ n ∈ ["LinuxDataByteOrder", "LinuxPointerWidth"], Lacks (openTag n) e.extraXml)
    (hwidth : (e.pointerWidth == 0 || e.pointerWidth == 4 || e.pointerWidth == 8) = true) :
    parseRecordDataFormat (getTag (ownXml list e) "LinuxDataByteOrder") (getTag (ownXml list e) "LinuxPointerWidth")
      = some (e.dataByteOrder, e.pointerWidth) := by
  have horder : getTag (ownXml list e) "LinuxDataByteOrder" =
      if e.dataByteOrder = .unknown then []
      else if e.dataByteOrder = .big then lit "big" else lit "little" := by
    refine getTag_field list h (by decide) (hextra _ (by simp)) (field_mem 15 rfl) (fun text htext => ?_) fun hnone => ?_
    · cases horder : e.dataByteOrder with
      | unknown =>
        rw [horder] at htext
        cases htext
      | big =>
        rw [horder] at htext
        cases htext
        exact found_plain_line (by decide) (plain_of_all (by decide))
      | little =>
        rw [horder] at htext
        cases htext
        exact found_plain_line (by decide) (plain_of_all (by decide))
    · cases horder : e.dataByteOrder with
      | unknown => rfl
      | big =>
        rw [horder] at hnone
        cases hnone
      | little =>
        rw [horder] at hnone
        cases hnone
  have hwidthText : getTag (ownXml list e) "LinuxPointerWidth"
      = if e.pointerWidth = 0 then [] else intText e.pointerWidth.toNat := by
    refine getTag_field list h (by decide) (hextra _ (by simp)) (field_mem 16 rfl) (fun text htext => ?_) fun hnone => ?_
    · split at htext
      · cases htext
      · next hne =>
        cases htext
        rw [if_neg hne]
        exact found_plain_line (by decide) (plain_intText _)
    · split at hnone
      · next hzero => rw [if_pos hzero]
      · cases hnone
  have hwidths : e.pointerWidth = 0 ∨ e.pointerWidth = 4 ∨ e.pointerWidth = 8 := by
    simpa [or_assoc] using hwidth
  have hfour : intText ((4 : UInt8).toNat : ℤ) = lit "4" := by decide
  have height : intText ((8 : UInt8).toNat : ℤ) = lit "8" := by decide
  rw [horder, hwidthText]
  rcases hwidths with hw | hw | hw
  · rw [hw]
    cases e.dataByteOrder <;> decide
  · rw [hw, if_neg (by decide : ¬(4 : UInt8) = 0), hfour]
    cases e.dataByteOrder <;> decide
  · rw [hw, if_neg (by decide : ¬(8 : UInt8) = 0), height]
    cases e.dataByteOrder <;> decide

end CheatEngine.CtFile
