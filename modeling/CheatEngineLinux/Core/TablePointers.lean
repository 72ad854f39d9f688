import CheatEngineLinux.Core.XmlBlocks
import CheatEngineLinux.Core.TableHierarchy

/-!
# Pointer chains in a saved table

* `readAddress_eq` — **PROVED**: an address and its offsets are read back.
* `pointer_expression_round_trip` — **PROVED**: chains are read back from their text, and a saved
  record keeps the expression of its address.
-/

namespace CheatEngine.CtFile

open JsonGrammar (Bytes)
open Markup (cut Lacks Seam Tagged)

/-! ### Offsets -/

theorem fromCharsAll_hexDigits (n : UInt64) : fromCharsAll 16 (hexDigits n) = some n.toNat :=
  fromCharsAll_digitsText (by have := n.toNat_lt; unfold uint64Max; omega)

theorem readOffset_offsetDigits (off : Int64) : readOffset (offsetDigits off) = some off := by
  have hplain : ∀ n : UInt64, (hexDigits n).head? ≠ some 0x2d := by
    intro n hhead
    exact (hexDigits_plain n 0x2d (List.mem_of_mem_head? hhead)).2.2.2.2.1 rfl
  unfold offsetDigits
  split
  · next hneg =>
    have hhead : ((0x2d :: hexDigits (-off).toUInt64).head? == some 0x2d) = true := rfl
    unfold readOffset
    rw [hhead]
    simp only [if_true, List.tail_cons, fromCharsAll_hexDigits, Option.map_some, UInt64.ofNat_toNat]
    congr 1
    apply Int64.toBitVec_inj.mp
    simp
  · have hhead : ((hexDigits off.toUInt64).head? == some 0x2d) = false := by simpa using hplain off.toUInt64
    unfold readOffset
    rw [hhead]
    simp only [Bool.false_eq_true, if_false, fromCharsAll_hexDigits, Option.map_some, UInt64.ofNat_toNat]
    congr 1

theorem trimmedXmlText_eq {s : Bytes} (h : ∀ b ∈ s, isXmlSpace b = false) : trimmedXmlText s = s := by
  have hfront : s.dropWhile isXmlSpace = s := by
    cases s with
    | nil => rfl
    | cons b s => exact List.dropWhile_cons_of_neg (by simpa using h b List.mem_cons_self)
  rw [trimmedXmlText, hfront, List.rdropWhile_eq_self_iff]
  intro hne
  simpa using h _ (List.getLast_mem hne)

theorem escaped_plain {s : Bytes} (h : ∀ b ∈ s, b ≠ 0x26 ∧ b ≠ 0x3c) : Escaped s s := by
  induction s with
  | nil => exact .nil
  | cons b s ih =>
    obtain ⟨hb, hs⟩ := List.forall_mem_cons.mp h
    exact .plain b hb.1 hb.2 (ih hs)

theorem offsetDigits_chars (off : Int64) : ∀ b ∈ offsetDigits off, isXmlSpace b = false ∧ b ≠ 0x26 ∧ b ≠ 0x3c := by
  have hdigits : ∀ n : UInt64, ∀ b ∈ hexDigits n, isXmlSpace b = false ∧ b ≠ 0x26 ∧ b ≠ 0x3c := by
    intro n b hb
    obtain ⟨d, hd, rfl⟩ := mem_digitsText (by decide) (by decide) hb
    have hcases : ∀ d < 16, isXmlSpace (digitByte d) = false ∧ digitByte d ≠ 0x26 ∧ digitByte d ≠ 0x3c := by decide
    exact hcases d hd
  unfold offsetDigits
  split
  · exact List.forall_mem_cons.mpr ⟨by decide, hdigits _⟩
  · exact hdigits _

theorem offsetTexts_written (offsets : List Int64) :
    offsetTexts (0x0a :: ((offsets.flatMap fun off => line 8 "Offset" (offsetDigits off)) ++ spaces 6))
      = offsets.map offsetDigits := by
  have hlines : (offsets.flatMap fun off => line 8 "Offset" (offsetDigits off))
      = offsets.flatMap fun off => spaces 8 ++ (element "Offset" [] (offsetDigits off) ++ [0x0a]) := by
    simp only [line, elementLine_element]
  have hlacks : ∀ off : Int64, Lacks (closeTag "Offset") (offsetDigits off) :=
    fun off => Markup.lacks_plain (plain_offsetDigits off).lt
  have hname : tagName "Offset" = true := by decide
  have hblocks := blocksOf_elements hname (l := offsets) (fun off _ => hlacks off) 8
    (show 0x3c ∉ [0x0a] by decide) (Markup.lacks_plain (plain_spaces 6).lt)
  unfold offsetTexts
  rw [hlines]
  rw [List.singleton_append] at hblocks
  rw [hblocks, List.map_map]
  refine List.map_congr_left fun off _ => ?_
  have hchars := offsetDigits_chars off
  rw [Function.comp_apply, getTagWithAttributes_self hname attributes_nil (hlacks off),
    xmlUnescape_of_escaped (escaped_plain fun b hb => (hchars b hb).2),
    trimmedXmlText_eq fun b hb => (hchars b hb).1]

/-! ### Addresses -/

theorem xmlEscapeText_isEmpty (s : Bytes) : (xmlEscapeText s).isEmpty = s.isEmpty := by
  cases s with
  | nil => rfl
  | cons c s =>
    unfold xmlEscapeText
    rw [List.flatMap_cons]
    have hne : ∀ x : Bytes, x ≠ [] → (x ++ s.flatMap fun c => if c == 0x26 then lit "&amp;" else
        if c == 0x3c then lit "&lt;" else if c == 0x3e then lit "&gt;" else [c]).isEmpty = false := by
      intro x hx
      simp [hx]
    refine hne _ ?_
    split
    · decide
    split
    · decide
    split
    · decide
    · simp

def plainAddress (s : Bytes) : UInt64 := UInt64.ofNat ((fromCharsAll 16 (xmlEscapeText s)).getD 0)

theorem readAddress_eq {xml base : Bytes} {offsets : List Int64} (haddress : getTag xml "Address" = xmlEscapeText base)
    (hoffsets : offsetTexts (getTag xml "Offsets") = offsets.map offsetDigits) :
    readAddress xml = { addressString := base, address := plainAddress base, offsets } := by
  have hnone : (offsets.map offsetDigits).find? (fun offStr => (readOffset offStr).isNone) = none := by
    rw [List.find?_eq_none]
    intro text htext
    obtain ⟨off, -, rfl⟩ := List.mem_map.mp htext
    simp [readOffset_offsetDigits]
  have hread : (offsets.map offsetDigits).filterMap readOffset = offsets := by
    rw [List.filterMap_map]
    have hsome : readOffset ∘ offsetDigits = some := funext fun off => readOffset_offsetDigits off
    rw [hsome, List.filterMap_some]
  have hbase : (if (xmlEscapeText base).isEmpty then [] else xmlUnescape (xmlEscapeText base)) = base := by
    rw [xmlEscapeText_isEmpty, xmlUnescape_of_escaped (escaped_xmlEscapeText base)]
    cases base <;> rfl
  have hplain : (if (xmlEscapeText base).isEmpty then 0 else
      UInt64.ofNat ((fromCharsAll 16 (xmlEscapeText base)).getD 0)) = plainAddress base := by
    rw [xmlEscapeText_isEmpty]
    cases base <;> rfl
  unfold readAddress
  rw [haddress, hoffsets]
  dsimp only
  rw [hnone, hread, hbase, hplain]

/-! ### Data records -/

theorem peel_ne_nil {fuel : ℕ} {e base : Bytes} {taken offsets : List Int64}
    (h : peel fuel e taken = some (base, offsets)) : base ≠ [] := by
  induction fuel generalizing e taken with
  | zero => cases h
  | succ fuel ih =>
    unfold peel at h
    split at h
    · obtain ⟨r, -, h⟩ := Option.bind_eq_some_iff.mp h
      dsimp only at h
      split at h
      · exact ih h
      · obtain ⟨off, -, h⟩ := Option.bind_eq_some_iff.mp h
        exact ih h
    · cases h
    · next hne =>
      cases h
      exact fun heq => hne heq

theorem writtenChain_spec (e : CheatEntry) (hne : e.addressString ≠ []) :
    (writtenChain e).1 ≠ [] ∧
    buildPointerExpression (writtenChain e).1 (writtenChain e).2 = buildPointerExpression e.addressString e.offsets := by
  unfold writtenChain
  split
  · next hempty =>
    have hnil : e.offsets = [] := List.isEmpty_iff.mp hempty
    rw [hnil]
    split
    · next base offsets hparse =>
      split
      · next hbuild =>
        refine ⟨?_, eq_of_beq hbuild⟩
        unfold parsePointerExpression at hparse
        dsimp only at hparse
        split at hparse
        · exact peel_ne_nil hparse
        · cases hparse
      · exact ⟨hne, rfl⟩
    · exact ⟨hne, rfl⟩
  · exact ⟨hne, rfl⟩

/-- A data record with an address that is not the notice of an offset that could not be read. -/
structure CheatEntry.PlainData (e : CheatEntry) : Prop where
  data : e.isData = true
  address : e.addressString ≠ []
  notice : keepsUnparsedPointer e = false

/-- Where a record has no offsets, the XML it keeps has none either. -/
def CheatEntry.NoKeptOffsets (e : CheatEntry) : Prop :=
  (writtenChain e).2 = [] → e.Tame ∧ Lacks (openTag "Offsets") e.extraXml

theorem readAddress_written (list : Bool) {e : CheatEntry} (h : e.PlainData) (hkept : e.NoKeptOffsets) :
    readAddress (ownXml list e)
      = { addressString := (writtenChain e).1, address := plainAddress (writtenChain e).1, offsets := (writtenChain e).2 } := by
  have hdata := h.data
  unfold CheatEntry.isData at hdata
  simp only [Bool.and_eq_true, Bool.not_eq_true'] at hdata
  have hentry : entryAddress e = (some (line 6 "Address" (xmlEscapeText (writtenChain e).1)),
      if (writtenChain e).2.isEmpty then none
      else some (block 6 "Offsets" ((writtenChain e).2.flatMap fun off => line 8 "Offset" (offsetDigits off)))) := by
    have hbase : (writtenChain e).1.isEmpty = false := by simpa using (writtenChain_spec e h.address).1
    unfold entryAddress addressAndOffsets
    rw [hdata.1, hdata.2, h.notice]
    simp [hbase]
  have haddress : getTag (ownXml list e) "Address" = xmlEscapeText (writtenChain e).1 := by
    refine getTag_line list (by decide) (plain_xmlEscapeText _) (field_mem 4 ?_)
    show some ("Address", (entryAddress e).1) = _
    rw [hentry]
  have hoffsets : offsetTexts (getTag (ownXml list e) "Offsets") = (writtenChain e).2.map offsetDigits := by
    by_cases hnil : (writtenChain e).2 = []
    · have hnone : getTag (ownXml list e) "Offsets" = [] := by
        obtain ⟨htame, hextra⟩ := hkept hnil
        refine getTag_absent list htame (by decide) hextra fun f hf heq => ?_
        have hmem : ("Offsets", (entryAddress e).2) ∈ ownLines e := List.mem_of_getElem? (i := 5) rfl
        rw [ownLines_unique hmem hf heq, hentry, hnil]
        rfl
      rw [hnone, hnil]
      decide
    · have hlacks : Lacks (closeTag "Offsets")
          ((writtenChain e).2.flatMap fun off => line 8 "Offset" (offsetDigits off)) := by
        have htagged : Tagged 0x3c 0x3e (· ∈ innerTags "Offsets")
            ((writtenChain e).2.flatMap fun off => line 8 "Offset" (offsetDigits off)) :=
          Tagged.flatMap fun off _ => tagged_line (P := (· ∈ innerTags "Offsets")) (by decide) (by decide) (by decide)
            (plain_offsetDigits off)
        exact lacks_close (by decide) htagged (by decide)
      have hbody : getTag (ownXml list e) "Offsets"
          = 0x0a :: (((writtenChain e).2.flatMap fun off => line 8 "Offset" (offsetDigits off)) ++ spaces 6) := by
        refine getTag_front list (by decide) (field_mem 5 ?_) (found_block (by decide) hlacks)
        show some ("Offsets", (entryAddress e).2) = _
        rw [hentry, if_neg (by simpa using hnil)]
      rw [hbody, offsetTexts_written]
  exact readAddress_eq haddress hoffsets

/-! ### Saved tables -/

def CheatEntry.expression (e : CheatEntry) : Bytes := buildPointerExpression e.addressString e.offsets

/-- The data records of a table that meet a condition keep their expressions when the table is saved
and loaded: the loaded records are those of the table in the order of writing. -/
def KeepsExpressions (t : CheatTable) (condition : CheatEntry → Prop) : Prop :=
  ∀ (text : Bytes) (before : CheatTable), writeTableXml t = some text →
    (plan t.entries).toList.Perm (List.range t.entries.length) ∧
      List.Forall₂ (fun r i => (t.entries.getD i {}).PlainData → condition (t.entries.getD i {}) →
        r.expression = (t.entries.getD i {}).expression) (loadFromString before text).2.entries
        (plan t.entries).toList

/-- Where a record stands does not matter for its address. -/
theorem expression_placed (e : CheatEntry) (id parentId : Int32) :
    ({ e with id, parentId } : CheatEntry).expression = e.expression := rfl

theorem readFields_expression (xml : Bytes) : (readFields xml).1.expression
    = buildPointerExpression (readAddress (eraseHotkeys xml)).addressString (readAddress (eraseHotkeys xml)).offsets := rfl

theorem expression_of_readFrom {entries : List CheatEntry} {r : CheatEntry} {i : ℕ} (h : ReadFrom (fieldsAt entries) r i)
    (hdata : (entries.getD i {}).PlainData) (hkept : (entries.getD i {}).NoKeptOffsets) :
    r.expression = (entries.getD i {}).expression := by
  obtain ⟨list, id, parentId, rfl⟩ := h
  have haddress := readAddress_written list hdata hkept
  unfold ownXml at haddress
  have hread := readFields_expression (recordXml list (fieldsAt entries i))
  unfold fieldsAt at hread
  rw [haddress] at hread
  rw [expression_placed]
  exact hread.trans (writtenChain_spec _ hdata.address).2

/-- A chain is read back from its text, and a saved record keeps the expression of its address. -/
theorem pointer_expression_round_trip :
    (∀ (base : Bytes) (offsets : List Int64), base ≠ [] → Trimmed base → base.head? ≠ some 0x5b → offsets ≠ [] →
      parsePointerExpression (buildPointerExpression base offsets) = some (base, offsets)) ∧
    ∀ t : CheatTable, (∀ e ∈ t.entries, Quiet (keptXml e)) → KeepsExpressions t CheatEntry.NoKeptOffsets := by
  refine ⟨fun base offsets hne hbase hopen hoffsets => parsePointerExpression_build hbase hne hopen hoffsets, ?_⟩
  intro t hquiet text before hwrite
  obtain ⟨rfl, -⟩ := writeTableXml_eq hwrite
  refine ⟨plan_perm t.entries, ?_⟩
  exact (savedText_reads hquiet before).imp fun r i h => expression_of_readFrom h

def chainTable : CheatTable := { entries := [{ id := 1, addressString := lit "[[game.exe+1c]+8]-10" }] }

theorem chainTable_expressions :
    parsePointerExpression (buildPointerExpression (lit "game.exe+1c") [-16, 8]) = some (lit "game.exe+1c", [-16, 8]) ∧
    (chainTable.entries.getD 0 {}).PlainData ∧ (chainTable.entries.getD 0 {}).NoKeptOffsets ∧
    KeepsExpressions chainTable CheatEntry.NoKeptOffsets := by
  have hraw : ∀ e ∈ chainTable.entries, e.NoRaw := by
    simp only [chainTable, List.forall_mem_cons]
    exact ⟨⟨rfl, rfl, rfl, rfl⟩, fun e he => by cases he⟩
  have hplain : (chainTable.entries.getD 0 {}).PlainData := ⟨by decide, by decide, by decide⟩
  have hkept : (chainTable.entries.getD 0 {}).NoKeptOffsets := fun _ => by
    have hno := hraw _ (getD_mem (t := chainTable) (by decide : 0 < chainTable.entries.length))
    refine ⟨hno.tame, ?_⟩
    rw [hno.extraXml]
    exact Markup.lacks_plain (by simp)
  have hquiet : ∀ e ∈ chainTable.entries, Quiet (keptXml e) := fun e he => by
    rw [keptXml_nil (hraw e he).extraHotkeysXml]
    exact quiet_nil
  have htrimmed : Trimmed (lit "game.exe+1c") := ⟨fun c hc => by cases hc; decide, fun c hc => by cases hc; decide⟩
  refine ⟨pointer_expression_round_trip.1 _ _ (by decide) htrimmed (by decide) (by decide),
    hplain, hkept, pointer_expression_round_trip.2 chainTable hquiet⟩

def keptOffsetsEntry : CheatEntry :=
  { id := 1, addressString := lit "10", extraXml := lit "<Offsets><Offset>8</Offset></Offsets>" }

theorem keptOffsetsEntry_read (list : Bool) :
    (readAddress (ownXml list keptOffsetsEntry)).addressString = lit "10" ∧
    (readAddress (ownXml list keptOffsetsEntry)).offsets = [8] := by
  cases list <;> decide +kernel

/-- It is loaded as a chain. -/
theorem kept_offsets_become_chain : ¬ ∀ t : CheatTable, KeepsExpressions t fun _ => True := by
  intro h
  let t : CheatTable := { entries := [keptOffsetsEntry] }
  have hquiet : ∀ e ∈ t.entries, Quiet (keptXml e) := fun e he => by
    rw [List.mem_singleton.mp he, keptXml_nil rfl]
    exact quiet_nil
  have hwrite : ∃ text, writeTableXml t = some text := by
    unfold writeTableXml
    rw [if_pos (by decide)]
    exact ⟨_, rfl⟩
  obtain ⟨text, hwrite⟩ := hwrite
  obtain ⟨hperm, hkeeps⟩ := h t text {} hwrite
  obtain ⟨rfl, -⟩ := writeTableXml_eq hwrite
  have hplan : (plan t.entries).toList = [0] := List.perm_singleton.mp hperm
  have hreads := savedText_reads hquiet {}
  rw [hplan] at hreads hkeeps
  obtain ⟨r, rest, hr, -, hentries⟩ := List.forall₂_cons_right_iff.mp hkeeps
  obtain ⟨r', rest', hread, -, hentries'⟩ := List.forall₂_cons_right_iff.mp hreads
  have hsame : r = r' := (List.cons.inj (hentries.symm.trans hentries')).1
  have hexpression := hr ⟨by decide, by decide, by decide⟩ trivial
  obtain ⟨list, id, parentId, rfl⟩ := hread
  rw [hsame, expression_placed, readFields_expression] at hexpression
  obtain ⟨hbase, hoffsets⟩ := keptOffsetsEntry_read list
  unfold ownXml at hbase hoffsets
  have hfields : fieldsAt t.entries 0 = writeEntryFields keptOffsetsEntry := rfl
  rw [hfields, hbase, hoffsets] at hexpression
  exact absurd hexpression (by decide)

end CheatEngine.CtFile
