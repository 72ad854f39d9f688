import CheatEngineLinux.Core.XmlForest

/-!
# The fields of a written record

Which tags the lines of a record have, and that the loader finds each field under its name.

* `ownLines_ok` — **PROVED**: every field has the tags of its own only.
* `recordText_writeEntryFields` — **PROVED**: a record has no tag of a record or a list.
-/

namespace CheatEngine.CtFile

open JsonGrammar (Bytes isDigit)
open Markup (cut Lacks Seam Tagged)

/-! ### Tags by field -/

def optionsTag (activate deactivate : Bool) : Bytes :=
  lit "Options moActivateChildrenAsWell=\"" ++ (lit (if activate then "1" else "0") ++
    (lit "\" moDeactivateChildrenAsWell=\"" ++ (lit (if deactivate then "1" else "0") ++ lit "\"/")))

def innerTags (field : String) : List Bytes :=
  match field with
  | "Offsets" => [lit "Offset", closing "Offset"]
  | "AssemblerScript" => [lit "AssemblerScript Async=\"1\""]
  | "Hotkeys" =>
    ["Hotkey", "Action", "Keys", "Key", "Value", "ID"].flatMap fun n => [lit n, closing n]
  | _ => []

def fieldTags (field : String) : List Bytes := lit field :: closing field :: innerTags field

/-- A tag that is kept as it was read, or has attributes that are. -/
def RawTag (field : String) (t : Bytes) : Prop :=
  (field = "Options" ∧ lit "Options" <+: t ∧ t.getLast? = some 0x2f) ∨
  (field = "DropDownList" ∧ lit "DropDownList " <+: t)

def FieldTag (field : String) (t : Bytes) : Prop := t ∈ fieldTags field ∨ RawTag field t

/-- What is written for a field is lines with its tags only. -/
def FieldOk (field : String) (o : Option Bytes) : Prop :=
  ∀ text ∈ o, Tagged 0x3c 0x3e (FieldTag field) text ∧ EndsLine text

theorem not_rawTag_open {field n : String} (hn : tagName n = true) : ¬ RawTag field (lit n) := by
  rintro (⟨-, -, hlast⟩ | ⟨-, hspace⟩)
  · exact not_mem_tagName hn (b := 0x2f) (by decide) (List.mem_of_getLast? hlast)
  · exact not_mem_tagName hn (b := 0x20) (by decide) (hspace.subset (by decide))

theorem not_rawTag_close (field n : String) : ¬ RawTag field (closing n) := by
  have hfirst : ∀ p : Bytes, p.head? ≠ some 0x2f → p ≠ [] → ¬ p <+: closing n := by
    intro p hp hne hpre
    obtain ⟨b, p, rfl⟩ := List.exists_cons_of_ne_nil hne
    exact hp (by rw [List.head?_cons, (List.cons_prefix_cons.mp hpre).1])
  rintro (⟨-, hpre, -⟩ | ⟨-, hpre⟩)
  · exact hfirst _ (by decide) (by decide) hpre
  · exact hfirst _ (by decide) (by decide) hpre

section fields

variable {n : String}

theorem fieldOk_none : FieldOk n none := fun _ h => by cases h

theorem fieldOk_ite {c : Prop} [Decidable c] {a b : Option Bytes} (ha : FieldOk n a) (hb : FieldOk n b) :
    FieldOk n (if c then a else b) := by
  split
  · exact ha
  · exact hb

theorem fieldTag_open : FieldTag n (lit n) := Or.inl (by simp [fieldTags])

theorem fieldTag_close : FieldTag n (closing n) := Or.inl (by simp [fieldTags])

theorem fieldTag_inner {t : Bytes} (h : t ∈ innerTags n) : FieldTag n t :=
  Or.inl (List.mem_cons_of_mem _ (List.mem_cons_of_mem _ h))

theorem fieldOk_elementLine (hn : tagName n = true) {attributes text : Bytes}
    (hopen : FieldTag n (lit n ++ attributes)) (hattributes : Plain attributes) (htext : Plain text) :
    FieldOk n (some (elementLine 6 n attributes text)) := by
  intro text' h
  cases h
  exact ⟨tagged_elementLine hn hopen fieldTag_close hattributes (.plain htext.lt),
    endsLine_elementLine 6 n attributes text⟩

theorem fieldOk_line (hn : tagName n = true) {text : Bytes} (htext : Plain text) :
    FieldOk n (some (line 6 n text)) :=
  fieldOk_elementLine hn (by rw [List.append_nil]; exact fieldTag_open) plain_nil htext

theorem fieldOk_lineOrNone (hn : tagName n = true) {text : Bytes} (htext : Plain text) :
    FieldOk n (lineOrNone 6 n text) :=
  fieldOk_ite fieldOk_none (fieldOk_line hn htext)

theorem fieldOk_flagLine (hn : tagName n = true) (flag : Bool) : FieldOk n (flagLine 6 n flag) :=
  fieldOk_ite (fieldOk_line hn (plain_of_all (by decide))) fieldOk_none

theorem fieldOk_block (hn : tagName n = true) {content : Bytes}
    (h : Tagged 0x3c 0x3e (FieldTag n) content) : FieldOk n (some (block 6 n content)) := by
  intro text h'
  cases h'
  exact ⟨tagged_block hn fieldTag_open fieldTag_close h, endsLine_block 6 n content⟩

end fields

/-! ### The fields of a record -/

theorem plain_lit_typeToStr (vt : ValueType) : Plain (lit (typeToStr vt)) := by
  cases vt
  all_goals exact plain_of_all (by decide)

theorem plain_hexDigits (n : UInt64) : Plain (hexDigits n) := plain_digitsText n.toNat (by decide) (by decide)

theorem plain_offsetDigits (off : Int64) : Plain (offsetDigits off) := by
  unfold offsetDigits
  split
  · exact Plain.append (x := [0x2d]) (plain_of_all (by decide)) (plain_hexDigits _)
  · exact plain_hexDigits _

theorem plain_upperHex (n : ℕ) : Plain (upperHex n) := by
  have hdigit : ∀ d < 16, upperDigit d ≠ 0x3c ∧ upperDigit d ≠ 0x3e := by decide
  intro b hb
  rcases List.mem_cons.mp hb with rfl | hb
  · exact hdigit _ (Nat.mod_lt _ (by decide))
  · rw [List.mem_singleton.mp hb]
    exact hdigit _ (Nat.mod_lt _ (by decide))

theorem plain_colorToCE (color : Bytes) : Plain (colorToCE color) := by
  unfold colorToCE
  dsimp only
  generalize (if color.head? == some 0x23 then color.tail else color) = hex
  generalize (if hex.length = 8 then hex.drop 2 else hex) = digits
  split
  · split
    · exact (plain_upperHex _).append ((plain_upperHex _).append (plain_upperHex _))
    · exact plain_nil
  · exact plain_nil

theorem tagged_offsets {β : Type} {l : List β} {f : β → Bytes} (h : ∀ x, Plain (f x)) :
    Tagged 0x3c 0x3e (FieldTag "Offsets") (l.flatMap fun x => line 8 "Offset" (f x)) :=
  Tagged.flatMap fun x _ => tagged_line (by decide) (Or.inl (by decide)) (Or.inl (by decide)) (h x)

theorem addressAndOffsets_ok (e : CheatEntry) (numericFallback : Bool) :
    FieldOk "Address" (addressAndOffsets e numericFallback).1 ∧
    FieldOk "Offsets" (addressAndOffsets e numericFallback).2 := by
  have haddress : tagName "Address" = true := by decide
  have hoffsets : tagName "Offsets" = true := by decide
  unfold addressAndOffsets
  split
  · exact ⟨fieldOk_line haddress (plain_xmlEscapeText _),
      fieldOk_block hoffsets (tagged_offsets plain_xmlEscapeText)⟩
  · generalize writtenChain e = chain
    obtain ⟨base, offsets⟩ := chain
    dsimp only
    exact ⟨fieldOk_ite (fieldOk_line haddress (plain_xmlEscapeText _)) (fieldOk_ite
        (fieldOk_line haddress (plain_digitsText _ (by decide) (by decide))) fieldOk_none),
      fieldOk_ite fieldOk_none (fieldOk_block hoffsets (tagged_offsets plain_offsetDigits))⟩

theorem entryAddress_ok (e : CheatEntry) :
    FieldOk "Address" (entryAddress e).1 ∧ FieldOk "Offsets" (entryAddress e).2 := by
  unfold entryAddress
  split
  · split
    · exact addressAndOffsets_ok e false
    · exact ⟨fieldOk_none, fieldOk_none⟩
  · split
    · exact ⟨fieldOk_ite fieldOk_none (fieldOk_line (by decide) (plain_xmlEscapeText _)), fieldOk_none⟩
    · exact addressAndOffsets_ok e true

theorem plain_optionsTag (activate deactivate : Bool) : Plain (optionsTag activate deactivate) := by
  have hflag : ∀ b : Bool, Plain (lit (if b then "1" else "0")) := fun b => by
    cases b
    all_goals exact plain_of_all (by decide)
  exact (plain_of_all (by decide)).append ((hflag activate).append
    ((plain_of_all (by decide)).append ((hflag deactivate).append (plain_of_all (by decide)))))

theorem rawTag_optionsTag (activate deactivate : Bool) : RawTag "Options" (optionsTag activate deactivate) := by
  refine Or.inl ⟨rfl, ?_, ?_⟩
  · have hstart : lit "Options" <+: lit "Options moActivateChildrenAsWell=\"" := by decide
    exact hstart.trans (List.prefix_append _ _)
  · unfold optionsTag
    simp only [List.getLast?_append]
    rfl

theorem isOptionsElement_eq {s : Bytes} (h : isOptionsElement s = true) :
    ∃ t, s = 0x3c :: (t ++ [0x3e]) ∧ RawTag "Options" t ∧ Plain t := by
  unfold isOptionsElement at h
  simp only [Bool.and_eq_true, decide_eq_true_eq, Bool.not_eq_true', List.isPrefixOf_iff_prefix,
    List.isSuffixOf_iff_suffix] at h
  obtain ⟨⟨⟨⟨hpre, hlength⟩, q, hq⟩, hlt⟩, hgt⟩ := h
  have hend : lit "/>" = [0x2f, 0x3e] := by decide
  have hstart : lit "<Options" = 0x3c :: lit "Options" := by decide
  have height : (lit "<Options").length = 8 := by decide
  -- the two ends do not overlap
  have hqpre : lit "<Options" <+: q := by
    rw [← hq, hend, List.length_append, List.length_cons, List.length_cons, List.length_nil] at hlength
    exact List.prefix_of_prefix_length_le hpre (hq ▸ List.prefix_append q _) (by omega)
  obtain ⟨r, hr⟩ := hqpre
  have hs : s = 0x3c :: ((lit "Options" ++ (r ++ [0x2f])) ++ [0x3e]) := by
    rw [← hq, ← hr, hstart, hend]
    simp
  refine ⟨lit "Options" ++ (r ++ [0x2f]), hs, Or.inl ⟨rfl, List.prefix_append _ _, ?_⟩, fun b hb => ⟨?_, ?_⟩⟩
  · rw [← List.append_assoc, List.getLast?_concat]
  · rintro rfl
    have hmem : (0x3c : UInt8) ∈ s.tail := by
      rw [hs]
      exact List.mem_append_left _ hb
    rw [← List.elem_iff, List.elem_eq_contains, hlt] at hmem
    cases hmem
  · rintro rfl
    have hmem : (0x3e : UInt8) ∈ s.dropLast := by
      rw [hs, ← List.cons_append, List.dropLast_concat]
      exact List.mem_cons_of_mem _ hb
    rw [← List.elem_iff, List.elem_eq_contains, hgt] at hmem
    cases hmem

theorem optionsText_synthesized (e : CheatEntry) (h : isOptionsElement e.optionsXml = false) :
    optionsText e = if e.isGroup && (!e.activateChildren || !e.deactivateChildren) then
      some (spaces 6 ++ 0x3c :: (optionsTag e.activateChildren e.deactivateChildren ++ 0x3e :: [0x0a]))
      else none := by
  have hfirst : lit "      <Options moActivateChildrenAsWell=\""
      = spaces 6 ++ 0x3c :: lit "Options moActivateChildrenAsWell=\"" := by decide
  have hlast : lit "\"/>\n" = lit "\"/" ++ [0x3e, 0x0a] := by decide
  unfold optionsText optionsTag
  rw [h, hfirst, hlast]
  simp

theorem fieldOk_tag {n : String} {t : Bytes} (ht : RawTag n t) (hplain : Plain t) :
    FieldOk n (some (spaces 6 ++ 0x3c :: (t ++ 0x3e :: [0x0a]))) := by
  intro text htext
  cases htext
  refine ⟨.tag (plain_spaces 6).lt (Or.inr ht) hplain.lt hplain.gt (.plain (by decide)), ?_⟩
  have hsplit : spaces 6 ++ 0x3c :: (t ++ 0x3e :: [0x0a])
      = (spaces 6 ++ 0x3c :: (t ++ [0x3e])) ++ [0x0a] := by simp
  rw [hsplit]
  exact endsLine_snoc _

theorem optionsText_ok (e : CheatEntry) : FieldOk "Options" (optionsText e) := by
  by_cases hkept : isOptionsElement e.optionsXml = true
  · obtain ⟨t, heq, ht, hplain⟩ := isOptionsElement_eq hkept
    have htext : optionsText e = some (spaces 6 ++ 0x3c :: (t ++ 0x3e :: [0x0a])) := by
      unfold optionsText
      rw [if_pos hkept, heq]
      simp
    rw [htext]
    exact fieldOk_tag ht hplain
  · rw [optionsText_synthesized e (Bool.eq_false_iff.mpr hkept)]
    exact fieldOk_ite (fieldOk_tag (rawTag_optionsTag _ _) (plain_optionsTag _ _)) fieldOk_none

theorem plain_attributes {s : Bytes} (h : isAttributeText s = true) : Plain s := by
  unfold isAttributeText at h
  simp only [Bool.and_eq_true, Bool.not_eq_true', List.any_eq_false, Bool.or_eq_true,
    beq_iff_eq, not_or] at h
  exact h.1

theorem dropdown_ok (e : CheatEntry) :
    FieldOk "DropDownList" (if e.dropdownList.isEmpty then none
      else some (elementLine 6 "DropDownList"
        (if !e.dropdownAttributes.isEmpty && isAttributeText e.dropdownAttributes then
          0x20 :: e.dropdownAttributes else []) (xmlEscape e.dropdownList))) := by
  refine fieldOk_ite fieldOk_none ?_
  have hspace : lit "DropDownList" ++ [0x20] = lit "DropDownList " := by decide
  split
  · next h =>
    rw [Bool.and_eq_true] at h
    refine fieldOk_elementLine (by decide) (Or.inr (Or.inr ⟨rfl, ?_⟩)) ?_ (plain_xmlEscape _)
    · exact ⟨e.dropdownAttributes, by rw [← hspace]; simp⟩
    · exact Plain.append (x := [0x20]) (plain_of_all (by decide)) (plain_attributes h.2)
  · exact fieldOk_line (by decide) (plain_xmlEscape _)

theorem ownLines_ok (e : CheatEntry) : ∀ f ∈ ownLines e, f.1 ≠ "" → FieldOk f.1 f.2 := by
  have hdescription : Plain (0x22 :: (xmlEscape e.description ++ [0x22])) :=
    Plain.append (x := [0x22]) (plain_of_all (by decide))
      ((plain_xmlEscape e.description).append (plain_of_all (by decide)))
  have hasync : FieldTag "AssemblerScript"
      (lit "AssemblerScript" ++ (if e.asyncScript then lit " Async=\"1\"" else [])) ∧
      Plain (if e.asyncScript then lit " Async=\"1\"" else []) := by
    cases e.asyncScript with
    | true => exact ⟨Or.inl (by decide), plain_of_all (by decide)⟩
    | false => exact ⟨Or.inl (by decide), plain_nil⟩
  have hunicode : Plain (lit (if e.type = .unicodeString then "1" else "0")) := by
    split <;> exact plain_of_all (by decide)
  unfold ownLines
  simp only [List.forall_mem_cons]
  refine ⟨?_, ?_, ?_, ?_, ?_, ?_, ?_, ?_, ?_, ?_, ?_, ?_, ?_, ?_, ?_, ?_, ?_, ?_, ?_, ?_, ?_, ?_, ?_, ?_,
    fun f hf => by cases hf⟩
  · exact fun _ => fieldOk_line (by decide) (plain_intText _)
  · exact fun _ => fieldOk_line (by decide) hdescription
  · exact fun _ => fieldOk_flagLine (by decide) _
  · exact fun _ => fieldOk_flagLine (by decide) _
  · exact fun _ => (entryAddress_ok e).1
  · exact fun _ => (entryAddress_ok e).2
  · exact fun _ => fieldOk_ite fieldOk_none (fieldOk_ite (fieldOk_line (by decide) (plain_of_all (by decide)))
      (fieldOk_line (by decide) (plain_lit_typeToStr _)))
  · exact fun _ => fieldOk_ite (fieldOk_line (by decide) (plain_intText _)) fieldOk_none
  · exact fun _ => fieldOk_ite (fieldOk_line (by decide) hunicode) fieldOk_none
  · exact fun _ => fieldOk_ite (fieldOk_line (by decide) (plain_intText _)) fieldOk_none
  · exact fun _ => fieldOk_ite (fieldOk_lineOrNone (by decide) (plain_xmlEscapeText _)) fieldOk_none
  · exact fun _ => fieldOk_ite (fieldOk_lineOrNone (by decide) (plain_xmlEscape _)) fieldOk_none
  · exact fun _ => fieldOk_flagLine (by decide) _
  · exact fun _ => fieldOk_flagLine (by decide) _
  · exact fun _ => fieldOk_ite fieldOk_none (fieldOk_line (by decide) (plain_of_all (by decide)))
  · intro _
    cases e.dataByteOrder with
    | unknown => exact fieldOk_none
    | big => exact fieldOk_line (by decide) (plain_of_all (by decide))
    | little => exact fieldOk_line (by decide) (plain_of_all (by decide))
  · exact fun _ => fieldOk_ite fieldOk_none (fieldOk_line (by decide) (plain_intText _))
  · exact fun _ => fieldOk_ite fieldOk_none (fieldOk_line (by decide) (plain_intText _))
  · exact fun _ => fieldOk_ite fieldOk_none
      (fieldOk_elementLine (by decide) hasync.1 hasync.2 (plain_xmlEscape _))
  · exact fun _ => fieldOk_lineOrNone (by decide) (plain_xmlEscape _)
  · exact fun _ => fieldOk_lineOrNone (by decide) (plain_colorToCE _)
  · exact fun _ => optionsText_ok e
  · exact fun _ => dropdown_ok e
  · exact fun hne => absurd rfl hne

/-! ### Kept elements -/

/-- Neither tag of a record or a list. -/
def Quiet (s : Bytes) : Prop :=
  ∀ n ∈ ["CheatEntry", "CheatEntries"], Lacks (openTag n) s ∧ Lacks (closeTag n) s

theorem quiet_of_tagged {P : Bytes → Prop} {s : Bytes} (h : Tagged 0x3c 0x3e P s)
    (hP : ∀ n ∈ ["CheatEntry", "CheatEntries"], ¬ P (lit n) ∧ ¬ P (closing n)) : Quiet s :=
  fun n hn => ⟨lacks_open (listTags_name n hn) h (hP n hn).1, lacks_close (listTags_name n hn) h (hP n hn).2⟩

theorem Quiet.append {s t : Bytes} (hs : Quiet s) (ht : Quiet t) (hends : EndsLine s) : Quiet (s ++ t) :=
  fun n hn => ⟨Markup.lacks_append (hs n hn).1 (ht n hn).1 (hends.seam (openTag_line_break (listTags_name n hn)) _),
    Markup.lacks_append (hs n hn).2 (ht n hn).2 (hends.seam (closeTag_line_break (listTags_name n hn)) _)⟩

theorem quiet_rawLine {s : Bytes} (h : Quiet s) (indent : ℕ) : Quiet (spaces indent ++ (s ++ [0x0a])) := by
  intro n hn
  have hbreak := openTag_line_break (listTags_name n hn)
  have hbreak' := closeTag_line_break (listTags_name n hn)
  refine ⟨Markup.lacks_plain_append (plain_spaces indent).lt ?_,
    Markup.lacks_plain_append (plain_spaces indent).lt ?_⟩
  · exact Markup.lacks_append (h n hn).1 (Markup.lacks_plain (by decide)) (Or.inr fun c hc => by
      cases hc
      exact fun hmem => hbreak (List.mem_of_mem_tail hmem))
  · exact Markup.lacks_append (h n hn).2 (Markup.lacks_plain (by decide)) (Or.inr fun c hc => by
      cases hc
      exact fun hmem => hbreak' (List.mem_of_mem_tail hmem))

theorem endsLine_rawLine (s : Bytes) (indent : ℕ) : EndsLine (spaces indent ++ (s ++ [0x0a])) := by
  rw [← List.append_assoc]
  exact endsLine_snoc _

theorem quiet_of_isElementSequence {s : Bytes} {onlyName : Option String}
    (h : isElementSequence s onlyName = true) : Quiet s := by
  unfold isElementSequence at h
  rw [Bool.and_eq_true, Bool.not_eq_true', List.any_eq_false] at h
  have hbad : ∀ bad ∈ ["<CheatEntr", "</CheatEntr", "<CheatTable", "</CheatTable"],
      ∀ pat : Bytes, lit bad <+: pat → Lacks pat s := by
    intro bad hmem pat hpre hin
    exact h.1 bad hmem (contains_iff.mpr (hpre.isInfix.trans hin))
  intro n hn
  have hpre : ∀ n ∈ ["CheatEntry", "CheatEntries"], lit "<CheatEntr" <+: openTag n ∧
      lit "</CheatEntr" <+: closeTag n := by decide
  exact ⟨hbad _ (by simp) _ (hpre n hn).1, hbad _ (by simp) _ (hpre n hn).2⟩

/-! ### The hotkeys -/

theorem tagged_hotkeyText (id : ℤ) (hk : ℕ × Bytes × Bytes) (haction : hk.1 < 8) :
    Tagged 0x3c 0x3e (· ∈ innerTags "Hotkeys") (hotkeyText id hk) := by
  have hplain : ∀ i < 8, Plain (lit (kHotkeyActions.getD i "")) := by
    intro i hi
    interval_cases i
    all_goals exact plain_of_all (by decide)
  have htags : ∀ n ∈ ["Hotkey", "Action", "Keys", "Key", "Value", "ID"],
      lit n ∈ innerTags "Hotkeys" ∧ closing n ∈ innerTags "Hotkeys" := by decide
  have hline : ∀ (indent : ℕ) (n : String), n ∈ ["Hotkey", "Action", "Keys", "Key", "Value", "ID"] →
      ∀ text, Plain text → Tagged 0x3c 0x3e (· ∈ innerTags "Hotkeys") (line indent n text) := by
    intro indent n hn text htext
    have hname : ∀ n ∈ ["Hotkey", "Action", "Keys", "Key", "Value", "ID"], tagName n = true := by decide
    exact tagged_line (hname n hn) (htags n hn).1 (htags n hn).2 htext
  unfold hotkeyText
  refine tagged_block (by decide) (htags _ (by simp)).1 (htags _ (by simp)).2 ?_
  refine (hline 10 "Action" (by simp) _ (hplain _ haction)).append ?_
  refine (tagged_block (by decide) (htags _ (by simp)).1 (htags _ (by simp)).2 ?_).append ?_
  · exact Tagged.flatMap fun vk _ => hline 12 "Key" (by simp) _ (plain_intText vk)
  · refine Tagged.append ?_ (hline 10 "ID" (by simp) _ (plain_intText id))
    split
    · exact .plain (by simp)
    · exact hline 10 "Value" (by simp) _ (plain_xmlEscape _)

theorem tagged_hotkeyTexts (id : ℤ) {hks : List (ℕ × Bytes × Bytes)} (h : ∀ hk ∈ hks, hk.1 < 8) :
    Tagged 0x3c 0x3e (· ∈ innerTags "Hotkeys") (hotkeyTexts id hks) := by
  induction hks generalizing id with
  | nil => exact .plain (by simp [hotkeyTexts])
  | cons hk hks ih =>
    obtain ⟨hhk, hhks⟩ := List.forall_mem_cons.mp h
    exact (tagged_hotkeyText id hk hhk).append (ih (id + 1) hhks)

theorem endsLine_hotkeyTexts (id : ℤ) (hks : List (ℕ × Bytes × Bytes)) : EndsLine (hotkeyTexts id hks) := by
  induction hks generalizing id with
  | nil => exact endsLine_nil
  | cons hk hks ih => exact (endsLine_block 8 "Hotkey" _).append (ih (id + 1))

theorem slotHotkeys_action (e : CheatEntry) : ∀ hk ∈ slotHotkeys e, hk.1 < 8 := by
  intro hk hhk
  unfold slotHotkeys at hhk
  obtain ⟨hmem, -⟩ := List.mem_filter.mp hhk
  simp only [List.mem_cons, List.not_mem_nil, or_false] at hmem
  rcases hmem with rfl | rfl | rfl | rfl <;> simp

/-- What stands between the tags of `<Hotkeys>`. -/
def hotkeysContent (e : CheatEntry) : Bytes :=
  hotkeyTexts (if (keptXml e).isEmpty then 0 else firstHotkeyId (keptXml e)) (slotHotkeys e) ++
    if (keptXml e).isEmpty then [] else spaces 8 ++ (keptXml e ++ [0x0a])

theorem hotkeysText_eq (e : CheatEntry) :
    hotkeysText e = if (slotHotkeys e).isEmpty && (keptXml e).isEmpty then none
      else some (block 6 "Hotkeys" (hotkeysContent e)) := rfl

theorem endsLine_hotkeysContent (e : CheatEntry) : EndsLine (hotkeysContent e) := by
  refine (endsLine_hotkeyTexts _ _).append ?_
  split
  · exact endsLine_nil
  · exact endsLine_rawLine _ 8

/-! ### Whole records -/

/-- The names of the fields, in order. -/
def ownKeys : List String :=
  ["ID", "Description", "GroupHeader", "Collapsed", "Address", "Offsets", "VariableType", "Length", "Unicode",
    "ByteLength", "CustomType", "Value", "Activated", "ShowAsHex", "ShowAsSigned", "LinuxDataByteOrder",
    "LinuxPointerWidth", "freezeMode", "AssemblerScript", "LuaScript", "Color", "Options", "DropDownList", ""]

theorem ownLines_keys (e : CheatEntry) : (ownLines e).map Prod.fst = ownKeys := rfl

theorem ownKeys_nodup : ownKeys.Nodup := by decide

theorem mem_ownKeys {e : CheatEntry} {f : String × Option Bytes} (h : f ∈ ownLines e) : f.1 ∈ ownKeys :=
  ownLines_keys e ▸ List.mem_map_of_mem h

theorem fieldTags_quiet : ∀ k ∈ "Hotkeys" :: ownKeys, ∀ n ∈ ["CheatEntry", "CheatEntries"],
    lit n ∉ fieldTags k ∧ closing n ∉ fieldTags k := by
  decide +kernel

theorem fieldTag_quiet {k : String} (hk : k ∈ "Hotkeys" :: ownKeys) {n : String}
    (hn : n ∈ ["CheatEntry", "CheatEntries"]) : ¬ FieldTag k (lit n) ∧ ¬ FieldTag k (closing n) :=
  ⟨fun h => h.elim (fieldTags_quiet k hk n hn).1 (not_rawTag_open (listTags_name n hn)),
    fun h => h.elim (fieldTags_quiet k hk n hn).2 (not_rawTag_close k n)⟩

theorem mem_extraLine {e : CheatEntry} {f : String × Option Bytes} (hf : f ∈ ownLines e) (hkey : f.1 = "")
    {text : Bytes} (htext : text ∈ f.2) :
    isElementSequence e.extraXml none = true ∧ text = spaces 6 ++ (e.extraXml ++ [0x0a]) := by
  have hfield : f.2 = if !e.extraXml.isEmpty && isElementSequence e.extraXml none then
      some (spaces 6 ++ (e.extraXml ++ [0x0a])) else none := by
    have hall : ∀ f ∈ ownLines e, f.1 = "" → f.2 = if !e.extraXml.isEmpty && isElementSequence e.extraXml none then
        some (spaces 6 ++ (e.extraXml ++ [0x0a])) else none := by
      unfold ownLines
      simp
    exact hall f hf hkey
  rw [hfield] at htext
  split at htext
  · next h =>
    rw [Bool.and_eq_true] at h
    exact ⟨h.2, (Option.some.inj htext).symm⟩
  · cases htext

theorem lines_ownLines (e : CheatEntry) : Lines (ownLines e) := by
  intro f hf text htext
  by_cases hkey : f.1 = ""
  · rw [(mem_extraLine hf hkey htext).2]
    exact endsLine_rawLine _ 6
  · exact (ownLines_ok e f hf hkey text htext).2

theorem quiet_ownLines (e : CheatEntry) : Quiet (written (ownLines e)) := by
  have hfields : ∀ f ∈ ownLines e, ∀ text ∈ f.2, Quiet text := by
    intro f hf text htext
    by_cases hkey : f.1 = ""
    · obtain ⟨hseq, rfl⟩ := mem_extraLine hf hkey htext
      exact quiet_rawLine (quiet_of_isElementSequence hseq) 6
    · exact quiet_of_tagged (ownLines_ok e f hf hkey text htext).1 fun n hn =>
        fieldTag_quiet (List.mem_cons_of_mem _ (mem_ownKeys hf)) hn
  exact fun n hn => ⟨lacks_written (openTag_line_break (listTags_name n hn)) (openTag_ne_nil n)
      (lines_ownLines e) fun f hf text htext => (hfields f hf text htext n hn).1,
    lacks_written (closeTag_line_break (listTags_name n hn)) (closeTag_ne_nil n)
      (lines_ownLines e) fun f hf text htext => (hfields f hf text htext n hn).2⟩

theorem quiet_hotkeysText {e : CheatEntry} (h : Quiet (keptXml e)) : ∀ text ∈ hotkeysText e, Quiet text := by
  have htags : ∀ n ∈ ["CheatEntry", "CheatEntries"],
      ¬ FieldTag "Hotkeys" (lit n) ∧ ¬ FieldTag "Hotkeys" (closing n) :=
    fun n hn => fieldTag_quiet List.mem_cons_self hn
  have hopen : Quiet (openLine 6 "Hotkeys") := quiet_of_tagged (tagged_openLine (by decide) fieldTag_open) htags
  have hclose : Quiet (closeLine 6 "Hotkeys") := quiet_of_tagged (tagged_closeLine (by decide) fieldTag_close) htags
  have hcontent : Quiet (hotkeysContent e) := by
    have hslots := (tagged_hotkeyTexts (if (keptXml e).isEmpty then 0 else firstHotkeyId (keptXml e))
      (slotHotkeys_action e)).mono fun t ht => fieldTag_inner ht
    refine (quiet_of_tagged hslots htags).append ?_ (endsLine_hotkeyTexts _ _)
    split
    · exact quiet_of_tagged (P := fun _ => False) (.plain (by simp)) (by simp)
    · exact quiet_rawLine h 8
  intro text htext
  rw [hotkeysText_eq] at htext
  split at htext
  · cases htext
  · cases htext
    exact hopen.append (hcontent.append hclose (endsLine_hotkeysContent e)) (endsLine_openLine 6 "Hotkeys")

theorem recordText_writeEntryFields {e : CheatEntry} (h : Quiet (keptXml e)) :
    RecordText (writeEntryFields e) := by
  have hlines := endsLine_written (lines_ownLines e)
  have hhotkeys := quiet_hotkeysText h
  unfold writeEntryFields
  cases hfield : hotkeysText e with
  | none =>
    rw [Option.getD_none, List.append_nil]
    exact ⟨hlines, quiet_ownLines e⟩
  | some text =>
    have hends : EndsLine text := by
      rw [hotkeysText_eq] at hfield
      split at hfield
      · cases hfield
      · cases hfield
        exact endsLine_block 6 "Hotkeys" _
    exact ⟨hlines.append hends, (quiet_ownLines e).append (hhotkeys text hfield) hlines⟩

/-! ### Records without kept XML -/

/-- A record that keeps no XML of its own. -/
structure CheatEntry.NoRaw (e : CheatEntry) : Prop where
  optionsXml : e.optionsXml = []
  dropdownAttributes : e.dropdownAttributes = []
  extraXml : e.extraXml = []
  extraHotkeysXml : e.extraHotkeysXml = []

theorem keptHotkeys_nil {e : CheatEntry} (h : e.extraHotkeysXml = []) : keptHotkeys e = [] := by
  unfold keptHotkeys
  rw [h]
  rfl

theorem keptXml_nil {e : CheatEntry} (h : e.extraHotkeysXml = []) : keptXml e = [] := by
  unfold keptXml
  rw [keptHotkeys_nil h]
  rfl

theorem quiet_nil : Quiet [] := quiet_of_tagged (P := fun _ => False) (.plain (by simp)) (by simp)

end CheatEngine.CtFile
