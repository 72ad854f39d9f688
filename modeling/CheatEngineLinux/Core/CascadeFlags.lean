import CheatEngineLinux.Core.TablePointers
import CheatEngineLinux.Core.TableRoundTrip

/-!
# The cascade flags of a saved group

A group has its two cascade flags twice: as fields, and in the `<Options>` element it keeps as text.
Both writers keep the text, and both readers take the flags from it.

* `CheatEntry.trimmed` — a record without what `writeTableJson` does not write; `tableText_trimmed` —
  **PROVED**: it is written the same.
* `loadJson_trimmed` — **PROVED**: the JSON text of any table is read back, trimmed and repaired.
* `readOptions_written` — **PROVED**: the element that is read back is the kept one, where it is one
  tag, and otherwise one made from the flags.
* `cascade_flags_round_trip` — **PROVED**: when the flags come back, from XML and from JSON.
-/

namespace CheatEngine.CtFile

open String (utf8EncodeChar)
open JsonGrammar (Bytes)
open Json (Value)
open Markup (cut Lacks Seam Tagged)

/-! ### Marks in a repaired text -/

section repair

variable {m : Bytes}

theorem infix_high_cons (hm : ∀ b ∈ m, b.toNat < 0x80) (hne : m ≠ []) {c : UInt8} (hc : 0x80 ≤ c.toNat) (s : Bytes) :
    m <:+: c :: s ↔ m <:+: s := by
  rw [List.infix_cons_iff]
  refine ⟨fun h => h.resolve_left fun hpre => ?_, Or.inr⟩
  obtain ⟨b, tail, rfl⟩ := List.exists_cons_of_ne_nil hne
  have hhead := (List.cons_prefix_cons.mp hpre).1
  have hlow := hm b List.mem_cons_self
  rw [hhead] at hlow
  omega

theorem infix_high_append (hm : ∀ b ∈ m, b.toNat < 0x80) (hne : m ≠ []) {x : Bytes} (hx : ∀ b ∈ x, 0x80 ≤ b.toNat)
    (s : Bytes) : m <:+: x ++ s ↔ m <:+: s := by
  induction x with
  | nil => rfl
  | cons c x ih =>
    obtain ⟨hc, hx⟩ := List.forall_mem_cons.mp hx
    rw [List.cons_append, infix_high_cons hm hne hc, ih hx]

theorem high_append_start (hm : ∀ b ∈ m, b.toNat < 0x80) {x s : Bytes} (hx : ∀ b ∈ x, 0x80 ≤ b.toNat) (hx' : x ≠ [])
    (h : m <+: x ++ s) : m = [] := by
  cases m with
  | nil => rfl
  | cons b m =>
    obtain ⟨c, x, rfl⟩ := List.exists_cons_of_ne_nil hx'
    have hhead := (List.cons_prefix_cons.mp h).1
    have hlow := hm b List.mem_cons_self
    have hhigh := hx c List.mem_cons_self
    rw [hhead] at hlow
    omega

theorem replacement_high : ∀ b ∈ Utf8.replacement, 0x80 ≤ b.toNat := by simp [Utf8.replacement]

theorem prefix_repair (hm : ∀ b ∈ m, b.toNat < 0x80) (s : Bytes) : m <+: Json.repair s ↔ m <+: s := by
  induction s using Json.escape_induction generalizing m with
  | nil => rfl
  | ascii c s hc ih =>
    rw [Json.repair_ascii hc]
    cases m with
    | nil => simp
    | cons b m => rw [List.cons_prefix_cons, List.cons_prefix_cons, ih (List.forall_mem_cons.mp hm).2]
  | char ch s hc ih =>
    have hne : utf8EncodeChar ch ≠ [] := String.utf8EncodeChar_ne_nil
    have hhigh := Json.encode_high hc
    rw [Json.repair_char hc]
    constructor
    · intro h
      rw [high_append_start hm hhigh hne h]
      exact List.nil_prefix
    · intro h
      rw [high_append_start hm hhigh hne h]
      exact List.nil_prefix
  | bad c s hbad ih =>
    have hhigh : ∀ b ∈ [c], 0x80 ≤ b.toNat := by simpa using Json.bad_high hbad
    rw [Json.repair_bad hbad]
    constructor
    · intro h
      rw [high_append_start hm replacement_high (by decide) h]
      exact List.nil_prefix
    · intro h
      rw [high_append_start hm hhigh (by simp) h]
      exact List.nil_prefix

theorem infix_repair (hm : ∀ b ∈ m, b.toNat < 0x80) (hne : m ≠ []) (s : Bytes) : m <:+: Json.repair s ↔ m <:+: s := by
  induction s using Json.escape_induction with
  | nil => rfl
  | ascii c s hc ih =>
    have hprefix := prefix_repair hm (c :: s)
    rw [Json.repair_ascii hc] at hprefix ⊢
    rw [List.infix_cons_iff, List.infix_cons_iff, hprefix, ih]
  | char ch s hc ih =>
    rw [Json.repair_char hc, infix_high_append hm hne (Json.encode_high hc), infix_high_append hm hne (Json.encode_high hc), ih]
  | bad c s hbad ih =>
    rw [Json.repair_bad hbad, infix_high_append hm hne replacement_high, infix_high_cons hm hne (Json.bad_high hbad), ih]

end repair

theorem contains_repair {mark : String} (hm : (lit mark).all (fun b => decide (b.toNat < 0x80)) = true)
    (hne : lit mark ≠ []) (s : Bytes) : contains (Json.repair s) (lit mark) = contains s (lit mark) := by
  rw [Bool.eq_iff_iff, contains_iff, contains_iff]
  exact infix_repair (fun b hb => of_decide_eq_true (List.all_eq_true.mp hm b hb)) hne s

/-! ### Any table as JSON -/

/-- A record without what is not written for it. -/
def CheatEntry.trimmed (e : CheatEntry) : CheatEntry :=
  { e with
    address := if e.isGroup then 0 else e.address
    type := if e.isGroup then .int32 else e.type
    value := if e.isGroup then [] else e.value
    length := if e.isGroup || decide (e.length.toInt < 0) then 0 else e.length
    customTypeName := if e.isGroup then [] else e.customTypeName
    unparsedAddress := if e.unparsedOffsets.isEmpty then [] else e.unparsedAddress
    parentId := if e.parentId.toInt < 0 then -1 else e.parentId }

theorem entryFields_trimmed (e : CheatEntry) : entryFields e.trimmed = entryFields e := by
  have hlength : ∀ b : Bool, (if !b && decide ((if b || decide (e.length.toInt < 0) then 0 else e.length).toInt > 0) then
      some (numberValue (if b || decide (e.length.toInt < 0) then 0 else e.length).toInt) else none)
      = if !b && decide (e.length.toInt > 0) then some (numberValue e.length.toInt) else none := by
    intro b
    cases b with
    | true => rfl
    | false =>
      by_cases hneg : e.length.toInt < 0
      · have hpos : ¬ e.length.toInt > 0 := by omega
        simp [hneg, hpos]
      · simp [hneg]
  have hparent : (if (if e.parentId.toInt < 0 then -1 else e.parentId).toInt ≥ 0 then
      some (numberValue (if e.parentId.toInt < 0 then -1 else e.parentId).toInt) else none)
      = if e.parentId.toInt ≥ 0 then some (numberValue e.parentId.toInt) else none := by
    by_cases hneg : e.parentId.toInt < 0
    · have hnot : ¬ e.parentId.toInt ≥ 0 := by omega
      rw [if_pos hneg, if_neg hnot]
      rfl
    · rw [if_neg hneg]
  have hunparsed : (if e.unparsedOffsets.isEmpty then none
      else some (Value.string (if e.unparsedOffsets.isEmpty then [] else e.unparsedAddress)))
      = if e.unparsedOffsets.isEmpty then none else some (Value.string e.unparsedAddress) := by
    split <;> rfl
  unfold entryFields CheatEntry.trimmed
  dsimp only
  rw [hlength, hparent, hunparsed]
  cases e.isGroup <;> rfl

theorem entryValue_trimmed (e : CheatEntry) : entryValue e.trimmed = entryValue e := by
  unfold entryValue
  rw [entryFields_trimmed]

theorem shaped_trimmed {e : CheatEntry} (hwidth : e.pointerWidth = 0 ∨ e.pointerWidth = 4 ∨ e.pointerWidth = 8) :
    e.trimmed.repaired.Shaped where
  group := fun hgroup => by
    have hisGroup : e.isGroup = true := hgroup
    simp [CheatEntry.trimmed, CheatEntry.repaired, hisGroup, Json.repair, Json.repairFrom]
  length_nonneg := by
    show 0 ≤ (if e.isGroup || decide (e.length.toInt < 0) then 0 else e.length).toInt
    split
    · decide
    · next h =>
      simp only [Bool.or_eq_true, decide_eq_true_eq, not_or] at h
      omega
  parent := by
    show -1 ≤ (if e.parentId.toInt < 0 then -1 else e.parentId).toInt
    split
    · decide
    · omega
  width := hwidth
  unparsed := fun hnil => by
    have hempty : e.unparsedOffsets = [] := List.map_eq_nil_iff.mp hnil
    show Json.repair (if e.unparsedOffsets.isEmpty then [] else e.unparsedAddress) = []
    rw [hempty]
    rfl

def CheatTable.trimmed (t : CheatTable) : CheatTable := { t with entries := t.entries.map CheatEntry.trimmed }

theorem tableText_trimmed (t : CheatTable) : tableText t.trimmed = tableText t := by
  have hentries : t.trimmed.entries.map (fun e => Json.write (entryValue e)) = t.entries.map fun e => Json.write (entryValue e) := by
    unfold CheatTable.trimmed
    rw [List.map_map]
    refine List.map_congr_left fun e _ => ?_
    rw [Function.comp_apply, entryValue_trimmed]
  unfold tableText
  rw [hentries]
  rfl

theorem loadJson_trimmed {t : CheatTable} {text : Bytes} (h : writeTableJson t = some text) :
    loadJsonFromString text = some t.trimmed.repaired.settled := by
  unfold writeTableJson at h
  split at h
  · next hformats =>
    cases h
    rw [← tableText_trimmed]
    refine loadJson_settled fun r hr => ?_
    have hmem : r ∈ (t.entries.map CheatEntry.trimmed).map CheatEntry.repaired := hr
    rw [List.map_map] at hmem
    obtain ⟨e, he, rfl⟩ := List.mem_map.mp hmem
    unfold validRecordFormats at hformats
    have hwidth := List.all_eq_true.mp hformats e he
    simp only [Bool.or_eq_true, beq_iff_eq, or_assoc] at hwidth
    exact shaped_trimmed hwidth
  · cases h

def activateMark : String := "moActivateChildrenAsWell=\"1\""

def deactivateMark : String := "moDeactivateChildrenAsWell=\"1\""

theorem settledFlag_repair {mark : String} (hm : (lit mark).all (fun b => decide (b.toNat < 0x80)) = true)
    (hne : lit mark ≠ []) (flag : Bool) (s : Bytes) : settledFlag flag (Json.repair s) mark = settledFlag flag s mark := by
  unfold settledFlag
  rw [isEmpty_repair, contains_repair hm hne]

theorem jsonFlags (t : CheatTable) :
    List.Forall₂ (fun r e => r.activateChildren = settledFlag e.activateChildren e.optionsXml activateMark ∧
      r.deactivateChildren = settledFlag e.deactivateChildren e.optionsXml deactivateMark)
      t.trimmed.repaired.settled.entries t.entries := by
  unfold CheatTable.settled CheatTable.repaired CheatTable.trimmed
  simp only [List.map_map]
  rw [List.forall₂_map_left_iff]
  refine List.forall₂_same.mpr fun e _ => ?_
  exact ⟨settledFlag_repair (by decide) (by decide) _ _, settledFlag_repair (by decide) (by decide) _ _⟩

/-! ### The element in a saved record -/

/-- The elements that are looked for by the start of their tag. -/
def startNames : List String := ["AssemblerScript", "Options", "DropDownList"]

theorem startNames_name : ∀ n ∈ startNames, tagName n = true := by decide

theorem startNames_apart : ∀ n ∈ startNames, ¬ lit n <+: lit "CheatEntry" ∧
    ∀ k ∈ ownKeys, k ≠ n → ∀ t ∈ fieldTags k, ¬ lit n <+: t := by decide +kernel

theorem start_line_break {n : String} (hn : tagName n = true) : 0x0a ∉ 0x3c :: lit n := by
  intro hmem
  rcases List.mem_cons.mp hmem with h | h
  · exact absurd h (by decide)
  · exact not_mem_tagName hn (by decide) h

theorem rawTag_start {field n : String} (hn : n ∈ startNames) (hne : field ≠ n) {t : Bytes} (h : RawTag field t) :
    ¬ lit n <+: t := by
  have hapart : ∀ n ∈ startNames, ∀ m ∈ startNames, m ≠ n → (lit m).head? ≠ (lit n).head? := by decide
  intro hpre
  have hfirst : ∀ {p : Bytes}, p <+: t → p ≠ [] → p.head? = t.head? := by
    rintro p ⟨q, rfl⟩ hp
    rw [List.head?_append_of_ne_nil _ hp]
  have hname := hfirst hpre (tagName_ne_nil (startNames_name n hn))
  rcases h with ⟨rfl, hraw, -⟩ | ⟨rfl, hraw⟩
  · exact hapart n hn "Options" (by decide) hne ((hfirst hraw (by decide)).trans hname.symm)
  · exact hapart n hn "DropDownList" (by decide) hne ((hfirst hraw (by decide)).trans hname.symm)

theorem lacks_start {e : CheatEntry} {n : String} (hn : n ∈ startNames) {f : String × Option Bytes}
    (hf : f ∈ ownLines e) (hkept : f.1 ≠ "") (hne : f.1 ≠ n) {text : Bytes} (htext : text ∈ f.2) :
    Lacks (0x3c :: lit n) text := by
  refine (ownLines_ok e f hf hkept text htext).1.lacks_word (by decide) (fun t ht => ?_)
    (plain_tagName (startNames_name n hn)).gt
  exact ht.elim ((startNames_apart n hn).2 f.1 (mem_ownKeys hf) hne t) (rawTag_start hn hne)

theorem lacks_start_lead {n : String} (hn : n ∈ startNames) : Lacks (0x3c :: lit n) recordLead := by
  refine tagged_recordLead.lacks_word (by decide) ?_ (plain_tagName (startNames_name n hn)).gt
  rintro t rfl
  exact (startNames_apart n hn).1

theorem lacks_start_tail (list : Bool) {n : String} (hn : n ∈ startNames) : Lacks (0x3c :: lit n) (recordTail list) := by
  have hclose : Tagged 0x3c 0x3e (fun t => t = closing "CheatEntry") (closeTag "CheatEntry" ++ []) :=
    tagged_closeTag (P := fun t => t = closing "CheatEntry") (by decide) rfl (.plain (by simp))
  rw [List.append_nil] at hclose
  cases list with
  | true => exact Markup.lacks_plain (plain_spaces 6).lt
  | false =>
    refine Markup.lacks_plain_append (plain_spaces 4).lt (hclose.lacks_word (by decide) ?_
      (plain_tagName (startNames_name n hn)).gt)
    rintro t rfl hpre
    obtain ⟨b, tail, hb⟩ := List.exists_cons_of_ne_nil (tagName_ne_nil (startNames_name n hn))
    rw [hb] at hpre
    have hslash : b = 0x2f := (List.cons_prefix_cons.mp hpre).1
    exact not_mem_tagName (startNames_name n hn) (b := 0x2f) (by decide) (hb ▸ hslash ▸ List.mem_cons_self)

theorem ownXml_lacks_start (list : Bool) {e : CheatEntry} (h : e.Tame) {n : String} (hn : n ∈ startNames)
    (hextra : Lacks (0x3c :: lit n) e.extraXml) (hnone : ∀ f ∈ ownLines e, f.1 = n → f.2 = none) :
    Lacks (0x3c :: lit n) (ownXml list e) := by
  have hbreak := start_line_break (startNames_name n hn)
  have hown : Lacks (0x3c :: lit n) (written (ownLines e)) := by
    refine lacks_written hbreak (by simp) (lines_ownLines e) fun f hf text htext => ?_
    by_cases hkey : f.1 = ""
    · rw [(mem_extraLine hf hkey htext).2]
      exact lacks_rawLine hextra (fun hmem => hbreak (List.mem_cons_of_mem _ hmem)) 6
    · by_cases hname : f.1 = n
      · rw [hnone f hf hname] at htext
        cases htext
      · exact lacks_start hn hf hkey hname htext
  have htail := lacks_start_tail list hn
  have hgap : Lacks (0x3c :: lit n) (recordGap e ++ recordTail list) := by
    unfold recordGap
    split
    · exact htail
    · exact Markup.lacks_plain_append (by decide) htail
  rw [ownXml_eq list h]
  refine Markup.lacks_append (lacks_start_lead hn) ?_ (endsLine_recordLead.seam hbreak _)
  exact Markup.lacks_append hown hgap ((endsLine_written (lines_ownLines e)).seam hbreak _)

/-- Where no `<Options>` element is written, and none is kept elsewhere, none is read. -/
theorem readOptions_absent (list : Bool) {e : CheatEntry} (h : e.Tame) (hextra : Lacks (lit "<Options") e.extraXml)
    (hnone : optionsText e = none) : readOptions (ownXml list e) = none := by
  have hname : lit "<Options" = 0x3c :: lit "Options" := by decide
  have hmem : ("Options", optionsText e) ∈ ownLines e := List.mem_of_getElem? (i := 21) rfl
  rw [hname] at hextra
  have hlacks := ownXml_lacks_start list h (n := "Options") (by decide) hextra fun f hf heq =>
    (ownLines_unique hmem hf heq).trans hnone
  unfold readOptions
  rw [hname, hlacks.cut]

theorem readOptions_written (list : Bool) {e : CheatEntry} {t : Bytes} (hplain : Plain t) (hpre : lit "Options" <+: t)
    (h : optionsText e = some (spaces 6 ++ 0x3c :: (t ++ 0x3e :: [0x0a]))) :
    readOptions (ownXml list e) = some (0x3c :: (t ++ [0x3e])) := by
  have hname : lit "<Options" = 0x3c :: lit "Options" := by decide
  have hbreak := start_line_break (n := "Options") (by decide)
  have hlead := lacks_recordLead (n := "Hotkeys") (by decide) (by decide)
  have hfront : Lacks (lit "<Options") (recordLead ++ (written (frontLines e) ++ spaces 6)) := by
    rw [hname]
    refine Markup.lacks_append (lacks_start_lead (by decide)) (Markup.lacks_append ?_
      (Markup.lacks_plain (plain_spaces 6).lt) ?_) (endsLine_recordLead.seam hbreak _)
    · refine lacks_written hbreak (by simp) (lines_frontLines e) fun f hf text htext => ?_
      refine lacks_start (by decide) (mem_frontLines hf).1 (mem_frontLines hf).2 (fun heq => ?_) htext
      have hkey : f.1 ∈ frontKeys := frontLines_keys e ▸ List.mem_map_of_mem hf
      rw [heq] at hkey
      exact absurd hkey (by decide)
    · exact (endsLine_written (lines_frontLines e)).seam hbreak _
  -- the hotkeys come after the element
  have hsplit : ∃ rest, ownXml list e
      = (recordLead ++ (written (frontLines e) ++ spaces 6)) ++ (0x3c :: (t ++ ([0x3e] ++ rest))) := by
    have hline : Lacks (openTag "Hotkeys") (spaces 6 ++ 0x3c :: (t ++ 0x3e :: [0x0a])) := by
      have hmem : ("Options", optionsText e) ∈ ownLines e := List.mem_of_getElem? (i := 21) rfl
      rw [h] at hmem
      exact lacks_field (by decide) hmem (by simp) (by simp) rfl
    have hends : EndsLine (spaces 6 ++ 0x3c :: (t ++ 0x3e :: [0x0a])) := by
      have hlast : spaces 6 ++ 0x3c :: (t ++ 0x3e :: [0x0a]) = (spaces 6 ++ 0x3c :: (t ++ [0x3e])) ++ [0x0a] := by simp
      rw [hlast]
      exact endsLine_snoc _
    have hdrop : written ((ownLines e).drop 21)
        = (spaces 6 ++ 0x3c :: (t ++ 0x3e :: [0x0a])) ++ written ((ownLines e).drop 22) := by
      show (optionsText e).getD [] ++ _ = _
      rw [h]
      rfl
    refine ⟨0x0a :: eraseHotkeys (written ((ownLines e).drop 22) ++ ((hotkeysText e).getD [] ++ recordTail list)), ?_⟩
    unfold ownXml recordXml writeEntryFields
    rw [written_ownLines, List.append_assoc, List.append_assoc, eraseHotkeys_append hlead endsLine_recordLead,
      eraseHotkeys_append (lacks_hotkeys_front e) (endsLine_written (lines_frontLines e)), hdrop, List.append_assoc,
      eraseHotkeys_append hline hends]
    simp
  obtain ⟨rest, hsplit⟩ := hsplit
  obtain ⟨attributes, rfl⟩ := hpre
  have hend : Lacks [0x3e] attributes := Markup.lacks_of_not_mem (List.mem_singleton_self _) fun hmem =>
    hplain.gt (List.mem_append_right _ hmem)
  have hseam : Seam (lit "<Options") (recordLead ++ (written (frontLines e) ++ spaces 6)) (lit "<Options") :=
    Or.inr fun c hc => by
      cases hc
      decide
  have hseamEnd : Seam [0x3e] attributes [0x3e] := Or.inr fun c hc => by
    cases hc
    decide
  have hstart := Markup.cut_pattern (by decide) hfront hseam (attributes ++ ([0x3e] ++ rest))
  have hclose := Markup.cut_pattern (by decide) hend hseamEnd rest
  have hwhole : ownXml list e = (recordLead ++ (written (frontLines e) ++ spaces 6)) ++
      (lit "<Options" ++ (attributes ++ ([0x3e] ++ rest))) := by
    rw [hsplit, hname]
    simp
  unfold readOptions
  rw [hwhole, hstart]
  dsimp only
  rw [hclose, Option.map_some, hname]
  simp

/-! ### The flags -/

/-- The kept `<Options>` text says what the flags say. -/
def CheatEntry.OptionsSay (e : CheatEntry) : Prop :=
  contains e.optionsXml (lit activateMark) = e.activateChildren ∧
  contains e.optionsXml (lit deactivateMark) = e.deactivateChildren

/-- Where no `<Options>` element is written, the other kept XML has none. -/
def CheatEntry.NoOtherOptions (e : CheatEntry) : Prop :=
  optionsText e = none → e.Tame ∧ Lacks (lit "<Options") e.extraXml

/-- Two records with the same cascade flags. -/
def SameFlags (r e : CheatEntry) : Prop :=
  r.activateChildren = e.activateChildren ∧ r.deactivateChildren = e.deactivateChildren

/-- The flags as they are read from an element, or by default. -/
def flagsOf (options : Option Bytes) : Bool × Bool :=
  (options.all fun xml => contains xml (lit activateMark), options.all fun xml => contains xml (lit deactivateMark))

theorem flagsOf_synthesized (activate deactivate : Bool) :
    flagsOf (some (0x3c :: (optionsTag activate deactivate ++ [0x3e]))) = (activate, deactivate) := by
  cases activate <;> cases deactivate <;> decide +kernel

theorem flagsOf_written (list : Bool) {e : CheatEntry} (hgroup : e.isGroup = true) (hother : e.NoOtherOptions) :
    flagsOf (readOptions (ownXml list e)) = if isOptionsElement e.optionsXml then flagsOf (some e.optionsXml)
      else (e.activateChildren, e.deactivateChildren) := by
  by_cases hkept : isOptionsElement e.optionsXml = true
  · rw [if_pos hkept]
    obtain ⟨t, heq, ht, hplain⟩ := isOptionsElement_eq hkept
    have htext : optionsText e = some (spaces 6 ++ 0x3c :: (t ++ 0x3e :: [0x0a])) := by
      unfold optionsText
      rw [if_pos hkept, heq]
      simp
    have hpre : lit "Options" <+: t := by
      rcases ht with ⟨-, hpre, -⟩ | ⟨hfield, -⟩
      · exact hpre
      · exact absurd hfield (by decide)
    rw [readOptions_written list hplain hpre htext, heq]
  · rw [if_neg hkept]
    have htext := optionsText_synthesized e (Bool.eq_false_iff.mpr hkept)
    rw [hgroup, Bool.true_and] at htext
    by_cases hoff : (!e.activateChildren || !e.deactivateChildren) = true
    · rw [if_pos hoff] at htext
      have hpre : lit "Options" <+: optionsTag e.activateChildren e.deactivateChildren := by
        rcases rawTag_optionsTag e.activateChildren e.deactivateChildren with ⟨-, hpre, -⟩ | ⟨hfield, -⟩
        · exact hpre
        · exact absurd hfield (by decide)
      rw [readOptions_written list (plain_optionsTag _ _) hpre htext, flagsOf_synthesized]
    · rw [if_neg hoff] at htext
      obtain ⟨htame, hextra⟩ := hother htext
      simp only [Bool.or_eq_true, Bool.not_eq_true', not_or, Bool.not_eq_false] at hoff
      rw [readOptions_absent list htame hextra htext, hoff.1, hoff.2]
      rfl

theorem sameFlags_placed (r e : CheatEntry) (id parentId : Int32) :
    SameFlags { r with id, parentId } e ↔ SameFlags r e := Iff.rfl

theorem sameFlags_readFields (xml : Bytes) (e : CheatEntry) : SameFlags (readFields xml).1 e ↔
    flagsOf (readOptions (eraseHotkeys xml)) = (e.activateChildren, e.deactivateChildren) := Prod.mk_inj.symm

theorem sameFlags_of_readFrom {entries : List CheatEntry} {r : CheatEntry} {i : ℕ} (h : ReadFrom (fieldsAt entries) r i)
    (hgroup : (entries.getD i {}).isGroup = true) (hother : (entries.getD i {}).NoOtherOptions) :
    SameFlags r (entries.getD i {}) ↔
      (isOptionsElement (entries.getD i {}).optionsXml = true → (entries.getD i {}).OptionsSay) := by
  obtain ⟨list, id, parentId, rfl⟩ := h
  have hflags := flagsOf_written list hgroup hother
  unfold ownXml at hflags
  have hread := sameFlags_readFields (recordXml list (fieldsAt entries i)) (entries.getD i {})
  unfold fieldsAt at hread
  rw [hflags] at hread
  rw [sameFlags_placed]
  refine hread.trans ?_
  split
  · next hkept => exact ⟨fun h _ => Prod.mk_inj.mp h, fun h => Prod.mk_inj.mpr (h hkept)⟩
  · next hkept => exact ⟨fun _ h => absurd h hkept, fun _ => rfl⟩

/-- The flags of a group in a saved XML table, whose records are loaded in the order of writing. -/
def XmlFlags (t : CheatTable) (condition : CheatEntry → Prop) : Prop :=
  ∀ (text : Bytes) (before : CheatTable), writeTableXml t = some text →
    List.Forall₂ (fun r i => (t.entries.getD i {}).isGroup = true → (t.entries.getD i {}).NoOtherOptions →
      (SameFlags r (t.entries.getD i {}) ↔ condition (t.entries.getD i {})))
      (loadFromString before text).2.entries (plan t.entries).toList

def Marked (flag : Bool) (text : Bytes) (mark : String) : Prop :=
  text ≠ [] → flag = true → contains text (lit mark) = true

def JsonFlags (t : CheatTable) : Prop :=
  ∀ text : Bytes, writeTableJson t = some text → ∃ t', loadJsonFromString text = some t' ∧
    List.Forall₂ (fun r e =>
      (Marked e.activateChildren e.optionsXml activateMark → r.activateChildren = e.activateChildren) ∧
      (Marked e.deactivateChildren e.optionsXml deactivateMark →
        r.deactivateChildren = e.deactivateChildren)) t'.entries t.entries

theorem settledFlag_marked {flag : Bool} {text : Bytes} {mark : String} (h : Marked flag text mark) :
    settledFlag flag text mark = flag := by
  unfold settledFlag
  cases flag with
  | false => simp
  | true =>
    cases text with
    | nil => rfl
    | cons b text => simp [h (List.cons_ne_nil _ _) rfl]

/-- From XML a group has its flags back exactly where the text it keeps is not an element or says
them; from JSON a flag comes back where it is off, there is no text or the text has its mark. -/
theorem cascade_flags_round_trip :
    (∀ t : CheatTable, (∀ e ∈ t.entries, Quiet (keptXml e)) →
      XmlFlags t fun e => isOptionsElement e.optionsXml = true → e.OptionsSay) ∧
    ∀ t : CheatTable, JsonFlags t := by
  constructor
  · intro t hquiet text before hwrite
    obtain ⟨rfl, -⟩ := writeTableXml_eq hwrite
    exact (savedText_reads hquiet before).imp fun r i h => sameFlags_of_readFrom h
  · intro t text hwrite
    refine ⟨_, loadJson_trimmed hwrite, (jsonFlags t).imp fun r e h => ?_⟩
    rw [h.1, h.2]
    exact ⟨settledFlag_marked, settledFlag_marked⟩

/-- A group whose kept text says one of its flags, and one whose text says both. -/
def flaggedTable : CheatTable where
  entries := [{ id := 1, isGroup := true, deactivateChildren := false, optionsXml := lit "<Options moActivateChildrenAsWell=\"1\"/>" },
    { id := 2, isGroup := true, activateChildren := false }]

theorem flaggedTable_flags :
    (∃ text, writeTableXml flaggedTable = some text) ∧ (∃ text, writeTableJson flaggedTable = some text) ∧
    (∀ e ∈ flaggedTable.entries, e.NoOtherOptions ∧ e.OptionsSay ∨ e.optionsXml = []) ∧
    XmlFlags flaggedTable (fun e => isOptionsElement e.optionsXml = true → e.OptionsSay) ∧
    JsonFlags flaggedTable := by
  have hquiet : ∀ e ∈ flaggedTable.entries, Quiet (keptXml e) := by
    simp only [flaggedTable, List.forall_mem_cons]
    refine ⟨?_, ?_, fun e he => by cases he⟩
    all_goals
      rw [keptXml_nil rfl]
      exact quiet_nil
  refine ⟨⟨_, rfl⟩, ⟨_, rfl⟩, ?_, cascade_flags_round_trip.1 flaggedTable hquiet, cascade_flags_round_trip.2 flaggedTable⟩
  simp only [flaggedTable, List.forall_mem_cons]
  refine ⟨Or.inl ⟨fun hnone => ?_, by decide +kernel, by decide +kernel⟩, Or.inr trivial, fun e he => by cases he⟩
  unfold optionsText at hnone
  rw [if_pos (by decide)] at hnone
  cases hnone

/-- A group with both flags on, and the text of a loaded record without them. -/
def staleGroup : CheatEntry := { id := 1, isGroup := true, optionsXml := lit "<Options moHideChildren=\"1\"/>" }

/-- The text wins over the flags. -/
theorem stale_options_win :
    (∃ xml, (readFields xml).1.isGroup = true ∧ (readFields xml).1.optionsXml = staleGroup.optionsXml) ∧
    ¬ ∀ t : CheatTable, XmlFlags t fun _ => True := by
  refine ⟨⟨lit "<GroupHeader>1</GroupHeader><Options moHideChildren=\"1\"/>", by decide +kernel, by decide +kernel⟩, fun h => ?_⟩
  let t : CheatTable := { entries := [staleGroup] }
  have hquiet : ∀ e ∈ t.entries, Quiet (keptXml e) := fun e he => by
    rw [List.mem_singleton.mp he, keptXml_nil rfl]
    exact quiet_nil
  have hwritten : optionsText staleGroup ≠ none := by
    unfold optionsText
    rw [if_pos (by decide)]
    simp
  have hwrite : writeTableXml t = some (savedText t) := rfl
  have hkeeps := h t (savedText t) {} hwrite
  have hplan : (plan t.entries).toList = [0] := List.perm_singleton.mp (plan_perm t.entries)
  have hreads := savedText_reads hquiet {}
  rw [hplan] at hreads hkeeps
  obtain ⟨r, rest, hr, -, hentries⟩ := List.forall₂_cons_right_iff.mp hkeeps
  obtain ⟨r', rest', hread, -, hentries'⟩ := List.forall₂_cons_right_iff.mp hreads
  have hsame : r = r' := (List.cons.inj (hentries.symm.trans hentries')).1
  have hother : (t.entries.getD 0 {}).NoOtherOptions := fun hnone => absurd hnone hwritten
  have hflags := (sameFlags_of_readFrom hread rfl hother).mp (hsame ▸ (hr rfl hother).mpr trivial) (by decide)
  exact absurd hflags.1 (by decide +kernel)

end CheatEngine.CtFile
