import CheatEngineLinux.Core.XmlReadBack

/-!
# What stands around the records

The header of a written table, its structures and its comments.

* `headerOk_headerText` — **PROVED**: the tags in front of the records.
* `readEntriesXml_render` — **PROVED**: the loader finds the records behind them.
-/

namespace CheatEngine.CtFile

open JsonGrammar (Bytes)
open Markup (cut Lacks Seam Tagged)

/-! ### Tags in front of the records -/

def headerNames : List String :=
  ["CheatTable", "CheatTableVersion", "GameName", "GameVersion", "Author", "Comment", "LuaScript", "Structures",
    "Structure", "Name", "Size", "Elements", "Element", "Offset", "Type", "DisplayMethod", "NestedStructure",
    "DisassemblerComments", "DisassemblerComment", "Address", "Label"]

def declaration : Bytes := lit "?xml version=\"1.0\" encoding=\"utf-8\"?"

def HeaderTag (t : Bytes) : Prop := t = declaration ∨ ∃ n ∈ headerNames, t = lit n ∨ t = closing n

theorem headerNames_name : ∀ n ∈ headerNames, tagName n = true := by decide +kernel

def HeaderOk (text : Bytes) : Prop := Tagged 0x3c 0x3e HeaderTag text ∧ EndsLine text

section pieces

variable {n : String} (hn : n ∈ headerNames)

include hn

theorem headerOk_line (indent : ℕ) {text : Bytes} (htext : Plain text) : HeaderOk (line indent n text) :=
  ⟨tagged_line (headerNames_name n hn) (Or.inr ⟨n, hn, Or.inl rfl⟩) (Or.inr ⟨n, hn, Or.inr rfl⟩) htext,
    endsLine_elementLine indent n [] text⟩

theorem headerOk_block (indent : ℕ) {content : Bytes} (h : HeaderOk content) : HeaderOk (block indent n content) :=
  ⟨tagged_block (headerNames_name n hn) (Or.inr ⟨n, hn, Or.inl rfl⟩) (Or.inr ⟨n, hn, Or.inr rfl⟩) h.1,
    endsLine_block indent n content⟩

omit hn in
theorem HeaderOk.append {s t : Bytes} (hs : HeaderOk s) (ht : HeaderOk t) : HeaderOk (s ++ t) :=
  ⟨hs.1.append ht.1, hs.2.append ht.2⟩

omit hn in
theorem headerOk_flatMap {β : Type} {f : β → Bytes} {l : List β} (h : ∀ x ∈ l, HeaderOk (f x)) :
    HeaderOk (l.flatMap f) :=
  ⟨Tagged.flatMap fun x hx => (h x hx).1, endsLine_flatMap fun x hx => (h x hx).2⟩

omit hn in
def HeaderFields (fields : List (String × Option Bytes)) : Prop := ∀ f ∈ fields, ∀ text ∈ f.2, HeaderOk text

omit hn in
theorem HeaderFields.lines {fields : List (String × Option Bytes)} (h : HeaderFields fields) : Lines fields :=
  fun f hf text htext => (h f hf text htext).2

omit hn in
theorem headerOk_written {fields : List (String × Option Bytes)} (h : HeaderFields fields) :
    HeaderOk (written fields) :=
  ⟨tagged_written fun f hf text htext => (h f hf text htext).1, endsLine_written h.lines⟩

theorem headerField_line (indent : ℕ) {text : Bytes} (htext : Plain text) :
    ∀ t ∈ some (line indent n text), HeaderOk t := by
  rintro t h
  cases h
  exact headerOk_line hn indent htext

theorem headerField_lineOrNone (indent : ℕ) {text : Bytes} (htext : Plain text) :
    ∀ t ∈ lineOrNone indent n text, HeaderOk t := by
  unfold lineOrNone
  split
  · exact fun t h => by cases h
  · exact headerField_line hn indent htext

end pieces

theorem plain_lit_fieldTypeToStr (vt : ValueType) : Plain (lit (fieldTypeToStr vt)) := by
  cases vt
  all_goals exact plain_of_all (by decide)

theorem headerFields_field (f : StructureField) : HeaderFields (structureFieldLines f) := by
  unfold HeaderFields structureFieldLines
  simp only [List.forall_mem_cons]
  exact ⟨headerField_line (by decide) 10 (plain_xmlEscape _), headerField_line (by decide) 10 (plain_intText _),
    headerField_line (by decide) 10 (plain_lit_fieldTypeToStr _), headerField_line (by decide) 10 (plain_intText _),
    headerField_lineOrNone (by decide) 10 (plain_xmlEscape _),
    headerField_lineOrNone (by decide) 10 (plain_xmlEscape _), fun f hf => by cases hf⟩

theorem headerOk_structureField (f : StructureField) : HeaderOk (structureFieldText f) :=
  headerOk_block (by decide) 8 (headerOk_written (headerFields_field f))

theorem headerFields_structure (s : StructureDefinition) : HeaderFields (structureLines s) := by
  have helements : ∀ t ∈ some (block 6 "Elements" (s.fields.flatMap structureFieldText)), HeaderOk t := by
    rintro t h
    cases h
    exact headerOk_block (by decide) 6 (headerOk_flatMap fun f _ => headerOk_structureField f)
  unfold HeaderFields structureLines
  simp only [List.forall_mem_cons]
  exact ⟨headerField_line (by decide) 6 (plain_xmlEscape _), headerField_line (by decide) 6 (plain_intText _),
    helements, fun f hf => by cases hf⟩

theorem headerOk_structure (s : StructureDefinition) : HeaderOk (structureText s) :=
  headerOk_block (by decide) 4 (headerOk_written (headerFields_structure s))

theorem headerFields_comment (c : DisassemblerComment) : HeaderFields (commentLines c) := by
  unfold HeaderFields commentLines
  simp only [List.forall_mem_cons]
  exact ⟨headerField_line (by decide) 6 (plain_xmlEscape _), headerField_lineOrNone (by decide) 6 (plain_xmlEscape _),
    headerField_lineOrNone (by decide) 6 (plain_xmlEscape _), fun f hf => by cases hf⟩

theorem headerOk_comment (c : DisassemblerComment) : HeaderOk (commentText c) :=
  headerOk_block (by decide) 4 (headerOk_written (headerFields_comment c))

theorem headerFields_table (t : CheatTable) : HeaderFields (headerLines t) := by
  have hstructures : ∀ s ∈ (if t.structures.isEmpty then none
      else some (block 2 "Structures" (t.structures.flatMap structureText))), HeaderOk s := by
    intro s h
    split at h
    · cases h
    · cases h
      exact headerOk_block (by decide) 2 (headerOk_flatMap fun s _ => headerOk_structure s)
  have hcomments : ∀ s ∈ (if t.disassemblerComments.isEmpty then none
      else some (block 2 "DisassemblerComments" (t.disassemblerComments.flatMap commentText))), HeaderOk s := by
    intro s h
    split at h
    · cases h
    · cases h
      exact headerOk_block (by decide) 2 (headerOk_flatMap fun c _ => headerOk_comment c)
  unfold HeaderFields headerLines
  simp only [List.forall_mem_cons]
  exact ⟨headerField_line (by decide) 2 (plain_of_all (by decide)),
    headerField_lineOrNone (by decide) 2 (plain_xmlEscape _), headerField_lineOrNone (by decide) 2 (plain_xmlEscape _),
    headerField_lineOrNone (by decide) 2 (plain_xmlEscape _), headerField_lineOrNone (by decide) 2 (plain_xmlEscape _),
    headerField_lineOrNone (by decide) 2 (plain_xmlEscape _), hstructures, hcomments, fun f hf => by cases hf⟩

theorem headerOk_headerText (t : CheatTable) : HeaderOk (headerText t) := by
  have hdeclaration : HeaderOk (lit "<?xml version=\"1.0\" encoding=\"utf-8\"?>\n") := by
    have hsplit : lit "<?xml version=\"1.0\" encoding=\"utf-8\"?>\n" = [] ++ 0x3c :: (declaration ++ 0x3e :: [0x0a]) := by
      decide
    refine ⟨?_, by rw [hsplit]; exact endsLine_snoc (0x3c :: (declaration ++ [0x3e]))⟩
    rw [hsplit]
    exact .tag (by simp) (Or.inl rfl) (by decide) (by decide) (.plain (by decide))
  have hopen : HeaderOk (openLine 0 "CheatTable") :=
    ⟨tagged_openLine (by decide) (Or.inr ⟨"CheatTable", by decide, Or.inl rfl⟩), endsLine_openLine 0 "CheatTable"⟩
  exact hdeclaration.append (hopen.append (headerOk_written (headerFields_table t)))

theorem not_headerTag_list : ¬ HeaderTag (lit "CheatEntries") := by
  rintro (h | ⟨n, hn, h⟩)
  · exact absurd h (by decide)
  · have hall : ∀ n ∈ headerNames, lit "CheatEntries" ≠ lit n ∧ lit "CheatEntries" ≠ closing n := by decide +kernel
    exact h.elim (hall n hn).1 (hall n hn).2

theorem lacks_list_headerText (t : CheatTable) : Lacks (openTag "CheatEntries") (headerText t) :=
  lacks_open (by decide) (headerOk_headerText t).1 not_headerTag_list

/-! ### The records behind the header -/

section records

variable {α : Type} {own : α → Bytes}

theorem findMatchingClose_list {f : Forest α} (h : ∀ a ∈ f.toList, RecordText (own a)) (indent : ℕ) (rest : Bytes) :
    findMatchingClose "CheatEntries" (0x0a :: (f.render own ++ (spaces indent ++ (closeTag "CheatEntries" ++ rest))))
      = some (0x0a :: (f.render own ++ spaces indent), rest) := by
  have hpasses : Passes "CheatEntries" ([0x0a] ++ f.render own) :=
    (passes_plain (by decide)).append (passes_render (by simp) h)
  exact findMatchingClose_eq (by decide) hpasses (plain_spaces indent).lt rest

theorem cut_list {head : Bytes} (hhead : Lacks (openTag "CheatEntries") head) (hends : EndsLine head)
    (content rest : Bytes) :
    cut (openTag "CheatEntries") (head ++ (block 2 "CheatEntries" content ++ rest))
      = some (head ++ spaces 2, 0x0a :: (content ++ (spaces 2 ++ (closeTag "CheatEntries" ++ (0x0a :: rest))))) := by
  have hsplit : head ++ (block 2 "CheatEntries" content ++ rest) = (head ++ spaces 2) ++ (openTag "CheatEntries" ++
      (0x0a :: (content ++ (spaces 2 ++ (closeTag "CheatEntries" ++ (0x0a :: rest)))))) := by
    simp [block, openLine, closeLine]
  rw [hsplit]
  exact cut_openTag (by decide) (lacks_pad hhead hends (by decide) (by decide) 2) _

theorem readEntriesXml_render {f : Forest α} (h : ∀ a ∈ f.toList, RecordText (own a))
    (hdepth : f.depth ≤ kMaxEntryDepth) {head : Bytes} (hhead : Lacks (openTag "CheatEntries") head)
    (hends : EndsLine head) (rest : Bytes) :
    readEntriesXml (head ++ (block 2 "CheatEntries" (f.render own) ++ rest)) = loadForest own f (-1) {} := by
  unfold readEntriesXml
  rw [cut_list hhead hends]
  dsimp only
  rw [findMatchingClose_list h]
  exact parse_render h hdepth (plain_spaces 2).lt (-1) {}

end records

theorem contains_headerText (t : CheatTable) (rest : Bytes) : contains (headerText t ++ rest) (lit "<CheatTable") = true := by
  have hprefix : lit "<CheatTable" <+: openLine 0 "CheatTable" := by decide
  refine contains_iff.mpr (List.IsInfix.trans hprefix.isInfix ?_)
  exact ⟨lit "<?xml version=\"1.0\" encoding=\"utf-8\"?>\n", written (headerLines t) ++ rest, by simp [headerText]⟩

end CheatEngine.CtFile
