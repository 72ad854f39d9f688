import CheatEngineLinux.Core.HotkeyKeys

/-!
# The tag searches of the XML loader

`core/ct_file.cpp` reads a table with textual searches for tags.  A position in a text is the text
that is left from there; every loop has the length of its text as fuel.
-/

namespace CheatEngine.CtFile

open JsonGrammar (Bytes)
open Markup (cut)

/-- `<tag>` -/
def openTag (tag : String) : Bytes := 0x3c :: (lit tag ++ [0x3e])

/-- `</tag>` -/
def closeTag (tag : String) : Bytes := 0x3c :: 0x2f :: (lit tag ++ [0x3e])

/-! ### Elements by name -/

def getTag (xml : Bytes) (tag : String) : Bytes :=
  match cut (openTag tag) xml with
  | none => []
  | some (_, rest) =>
    match cut (closeTag tag) rest with
    | none => []
    | some (body, _) => body

/-- The loop of `getTagBlocks`. -/
def tagBlocks (tag : String) : ℕ → Bytes → List Bytes
  | 0, _ => []
  | fuel + 1, xml =>
    match cut (openTag tag) xml with
    | none => []
    | some (_, rest) =>
      match cut (closeTag tag) (openTag tag ++ rest) with
      | none => []
      | some (block, after) => (block ++ closeTag tag) :: tagBlocks tag fuel after

def getTagBlocks (xml : Bytes) (tag : String) : List Bytes := tagBlocks tag (xml.length + 1) xml

def endsTagName (b : UInt8) : Bool :=
  b == 0x3e || b == 0x20 || b == 0x09 || b == 0x0a || b == 0x0d || b == 0x2f

/-- The block that starts with `<tag` and the text after it; an unclosed one runs to the end. -/
def blockAt (tag : String) (rest : Bytes) : Bytes × Bytes :=
  if rest.head? == some 0x2f then
    match cut [0x3e] rest with
    | none => (0x3c :: (lit tag ++ rest), [])
    | some (inside, after) => (0x3c :: (lit tag ++ inside ++ [0x3e]), after)
  else
    match cut (closeTag tag) rest with
    | none => (0x3c :: (lit tag ++ rest), [])
    | some (inside, after) => (0x3c :: (lit tag ++ inside ++ closeTag tag), after)

/-- The loop of `tagBlockRanges`: the blocks, each with the text in front of it, and the text
after the last one.  `gap` is the text since the last block. -/
def blockRanges (tag : String) (withAttributesOnly : Bool) :
    ℕ → Bytes → Bytes → List (Bytes × Bytes) × Bytes
  | 0, gap, xml => ([], gap ++ xml)
  | fuel + 1, gap, xml =>
    match cut (0x3c :: lit tag) xml with
    | none => ([], gap ++ xml)
    | some (before, rest) =>
      match rest.head? with
      | none => ([], gap ++ xml)
      | some next =>
        if !endsTagName next || (withAttributesOnly && next == 0x3e) then
          blockRanges tag withAttributesOnly fuel (gap ++ before ++ [0x3c]) (lit tag ++ rest)
        else
          let (block, after) := blockAt tag rest
          let (ranges, last) := blockRanges tag withAttributesOnly fuel [] after
          ((gap ++ before, block) :: ranges, last)

def tagBlockRanges (xml : Bytes) (tag : String) (withAttributesOnly : Bool) :
    List (Bytes × Bytes) × Bytes :=
  blockRanges tag withAttributesOnly (xml.length + 1) [] xml

def blocksOf (xml : Bytes) (tag : String) : List Bytes := (tagBlockRanges xml tag false).1.map Prod.snd

def eraseBlocks (xml : Bytes) (tag : String) : Bytes :=
  (tagBlockRanges xml tag false).1.flatMap Prod.fst ++ (tagBlockRanges xml tag false).2

/-- The text and the attributes of an element that is a block by itself. -/
def blockParts (tag : String) (block : Bytes) : Bytes × Bytes :=
  match cut [0x3e] block with
  | none => ([], [])
  | some (start, rest) =>
    let selfClosing := start.getLast? == some 0x2f
    let attributes := trimmedXmlText
      ((if selfClosing then start.dropLast else start).drop (1 + (lit tag).length))
    if selfClosing || !(closeTag tag).isSuffixOf rest then ([], attributes)
    else (rest.take (rest.length - (closeTag tag).length), attributes)

/-- `getTagWithAttributes`: the text, and the attributes. -/
def getTagWithAttributes (xml : Bytes) (tag : String) : Bytes × Bytes :=
  match blocksOf xml tag with
  | [] => ([], [])
  | block :: _ => blockParts tag block

def quotedValue (after : Bytes) : Option (UInt8 × Bytes) :=
  match after.dropWhile isSpace with
  | 0x3d :: s =>
    match s.dropWhile isSpace with
    | q :: s => if q == 0x22 || q == 0x27 then some (q, s) else none
    | [] => none
  | _ => none

/-- The loop of `attributeValue`, with the character in front of the text. -/
def attributeLoop (name : Bytes) : ℕ → Option UInt8 → Bytes → Bytes
  | 0, _, _ => []
  | fuel + 1, previous, text =>
    match cut name text with
    | none => []
    | some (before, after) =>
      let previous := if before.isEmpty then previous else before.getLast?
      let next := attributeLoop name fuel name.head? (name.tail ++ after)
      if previous.all isSpace then
        match quotedValue after with
        | none => next
        | some (q, s) =>
          match cut [q] s with
          | none => []
          | some (value, _) => value
      else next

def attributeValue (attributes : Bytes) (name : String) : Bytes :=
  attributeLoop (lit name) (attributes.length + 1) none attributes

/-! ### Matching tags -/

/-- The loop of `findMatchingClose`: the text up to the close tag, and the text after it. -/
def matchingClose (tag : String) : ℕ → ℕ → Bytes → Option (Bytes × Bytes)
  | 0, _, _ => none
  | fuel + 1, depth, s =>
    match cut (closeTag tag) s with
    | none => none
    | some (before, after) =>
      let close := if depth = 1 then some (before, after)
        else (matchingClose tag fuel (depth - 1) after).map fun r =>
          (before ++ (closeTag tag ++ r.1), r.2)
      match cut (openTag tag) s with
      | none => close
      | some (before', after') =>
        if before'.length < before.length then
          (matchingClose tag fuel (depth + 1) after').map fun r =>
            (before' ++ (openTag tag ++ r.1), r.2)
        else close

/-- `findMatchingClose`, from the text after the open tag. -/
def findMatchingClose (tag : String) (s : Bytes) : Option (Bytes × Bytes) :=
  matchingClose tag (s.length + 1) 1 s

/-- `nameChar` -/
def nameChar (b : UInt8) : Bool :=
  (0x30 ≤ b && b ≤ 0x39) || (0x41 ≤ b && b ≤ 0x5a) || (0x61 ≤ b && b ≤ 0x7a) || b == 0x5f ||
    b == 0x2d || b == 0x2e || b == 0x3a

/-- The next `<tag` that is not a longer name. -/
def nextOpen (tag : Bytes) : ℕ → Bytes → Option (Bytes × Bytes)
  | 0, _ => none
  | fuel + 1, s =>
    match cut (0x3c :: tag) s with
    | none => none
    | some (before, after) =>
      if after.head?.any nameChar then
        (nextOpen tag fuel (tag ++ after)).map fun r => (before ++ (0x3c :: r.1), r.2)
      else some (before, after)

/-- The loop of `elementEnd`: the text up to the end of the element, and the text after it. -/
def elementLoop (tag : Bytes) : ℕ → ℕ → Bytes → Option (Bytes × Bytes)
  | 0, _, _ => none
  | fuel + 1, depth, s =>
    let close := 0x3c :: 0x2f :: (tag ++ [0x3e])
    match cut close s with
    | none => none
    | some (before, after) =>
      let closed := if depth = 1 then some (before ++ close, after)
        else (elementLoop tag fuel (depth - 1) after).map fun r => (before ++ (close ++ r.1), r.2)
      match nextOpen tag (s.length + 1) s with
      | none => closed
      | some (before', after') =>
        if before'.length < before.length then
          match cut [0x3e] after' with
          | none => none
          | some (inside, rest) =>
            if before'.length + (tag.length + 1) + inside.length < before.length then
              let depth := if inside.getLast? == some 0x2f then depth else depth + 1
              (elementLoop tag fuel depth rest).map fun r =>
                (before' ++ (0x3c :: (tag ++ (inside ++ (0x3e :: r.1)))), r.2)
            else none
        else closed

/-- `elementEnd`, whose callers search to the end of the text: the name of the element that
starts the text, the element, and the text after it. -/
def elementEnd (s : Bytes) : Option (Bytes × Bytes × Bytes) :=
  let name := s.tail.takeWhile nameChar
  let rest := s.tail.drop name.length
  if name.isEmpty || rest.isEmpty then none
  else
    match cut [0x3e] rest with
    | none => none
    | some (inside, after) =>
      let start := 0x3c :: (name ++ (inside ++ [0x3e]))
      if inside.getLast? == some 0x2f then some (name, start, after)
      else (elementLoop name (after.length + 1) 1 after).map fun r => (name, start ++ r.1, r.2)

/-! ### Raw elements -/

/-- The loop of `isElementSequence`. -/
def elementSequence (onlyName : Option Bytes) : ℕ → Bytes → Bool
  | 0, _ => false
  | fuel + 1, text =>
    match text.dropWhile isXmlSpace with
    | [] => true
    | c :: s =>
      if c == 0x3c then
        match elementEnd (c :: s) with
        | none => false
        | some (name, _, rest) => onlyName.all (· == name) && elementSequence onlyName fuel rest
      else false

def isElementSequence (text : Bytes) (onlyName : Option String) : Bool :=
  !(["<CheatEntr", "</CheatEntr", "<CheatTable", "</CheatTable"].any fun bad => contains text (lit bad)) &&
    elementSequence (onlyName.map lit) (text.length + 1) text

def isOptionsElement (s : Bytes) : Bool :=
  (lit "<Options").isPrefixOf s && s.length ≥ 10 && (lit "/>").isSuffixOf s &&
    !s.tail.contains 0x3c && !s.dropLast.contains 0x3e

def isAttributeText (s : Bytes) : Bool :=
  !s.any (fun b => b == 0x3c || b == 0x3e) && (s.filter (· == 0x22)).length % 2 == 0

/-- The loop of `withoutSlotMarks` for one name; `before` is the text that was passed. -/
def eraseMarks (name : Bytes) : ℕ → Bytes → Bytes → Bytes
  | 0, before, s => before ++ s
  | fuel + 1, before, s =>
    match cut name s with
    | none => before ++ s
    | some (a, after) =>
      let front := before ++ a
      if front.contains 0x3e then before ++ s
      else
        match front.getLast?.any isSpace, quotedValue after with
        | true, some (q, rest) =>
          match cut [q] rest with
          | none => before ++ s
          | some (_, after) => eraseMarks name fuel front.dropLast after
        | _, _ => eraseMarks name fuel (front ++ name.take 1) (name.tail ++ after)

def withoutSlotMarks (block : Bytes) : Bytes :=
  let block := eraseMarks (lit "LinuxSlotStep") (block.length + 1) [] block
  eraseMarks (lit "LinuxSlot") (block.length + 1) [] block

/-- `kRecordElements` -/
def kRecordElements : List String :=
  ["ID", "Description", "Options", "DropDownList", "DropdownList", "ShowAsHex", "ShowAsSigned", "Color",
    "GroupHeader", "Collapsed", "CheatEntries", "VariableType", "CustomType", "Length", "ByteLength",
    "Unicode", "Address", "Offsets", "Hotkeys", "AssemblerScript", "LuaScript", "Value", "Activated",
    "freezeMode", "LinuxDataByteOrder", "LinuxPointerWidth", "IncreaseHotkey", "SetValueHotkey",
    "SetValueHotkeyValue", "DecreaseHotkey", "HotkeyStep"]

/-- The loop of `unknownRecordElements`. -/
def unknownElements : ℕ → Bytes → List Bytes
  | 0, _ => []
  | fuel + 1, s =>
    match s.dropWhile (· != 0x3c) with
    | [] => []
    | c :: s =>
      if (lit "</").isPrefixOf (c :: s) then []
      else if (lit "<!--").isPrefixOf (c :: s) then
        match cut (lit "-->") (c :: s) with
        | none => []
        | some (_, rest) => unknownElements fuel rest
      else
        match elementEnd (c :: s) with
        | none => []
        | some (name, element, rest) =>
          if kRecordElements.any (lit · == name) then unknownElements fuel rest
          else element :: unknownElements fuel rest

def joinWith (separator : Bytes) : List Bytes → Bytes
  | [] => []
  | [s] => s
  | s :: s' :: more => s ++ (separator ++ joinWith separator (s' :: more))

def unknownRecordElements (own : Bytes) : Bytes :=
  match cut [0x3e] own with
  | none => []
  | some (_, rest) => joinWith (lit "\n      ") (unknownElements (rest.length + 1) rest)

end CheatEngine.CtFile
