import CheatEngineLinux.Core.XmlTags
import CheatEngineLinux.Core.PointerText

/-!
# Cheat tables as XML: the writer

`writeTableXml` of `core/ct_file.cpp`.  A list of fields holds, for every element a record can have,
what is written for it, in the order of the source.
-/

namespace CheatEngine.CtFile

open JsonGrammar (Bytes)
open Markup (cut)

/-! ### Lines -/

def spaces (n : ℕ) : Bytes := List.replicate n 0x20

def elementLine (indent : ℕ) (tag : String) (attributes text : Bytes) : Bytes :=
  spaces indent ++ (0x3c :: (lit tag ++ (attributes ++ (0x3e :: (text ++ (closeTag tag ++ [0x0a]))))))

def line (indent : ℕ) (tag : String) (text : Bytes) : Bytes := elementLine indent tag [] text

def openLine (indent : ℕ) (tag : String) : Bytes := spaces indent ++ (openTag tag ++ [0x0a])

def closeLine (indent : ℕ) (tag : String) : Bytes := spaces indent ++ (closeTag tag ++ [0x0a])

/-- An element whose content is lines of its own. -/
def block (indent : ℕ) (tag : String) (content : Bytes) : Bytes :=
  openLine indent tag ++ (content ++ closeLine indent tag)

def lineOrNone (indent : ℕ) (tag : String) (text : Bytes) : Option Bytes :=
  if text.isEmpty then none else some (line indent tag text)

/-- A flag as `1`, when it is set. -/
def flagLine (indent : ℕ) (tag : String) (flag : Bool) : Option Bytes :=
  if flag then some (line indent tag (lit "1")) else none

def written (fields : List (String × Option Bytes)) : Bytes := fields.flatMap fun f => f.2.getD []

/-! ### Names of types and colours -/

def typeToStr (vt : ValueType) : String :=
  match vt with
  | .byte => "Byte"
  | .int16 => "2 Bytes"
  | .int32 => "4 Bytes"
  | .int64 => "8 Bytes"
  | .float => "Float"
  | .double => "Double"
  | .string => "String"
  | .unicodeString => "String"
  | .byteArray => "Array of byte"
  | .binary => "Binary"
  | .pointer => "Pointer"
  | .custom => "Custom"
  | .all => "4 Bytes"
  | .grouped => "4 Bytes"

def fieldTypeToStr (vt : ValueType) : String :=
  if vt = .unicodeString then "Unicode String" else typeToStr vt

/-- A digit of `%X`. -/
def upperDigit (d : ℕ) : UInt8 := if d < 10 then UInt8.ofNat (0x30 + d) else UInt8.ofNat (0x37 + d)

/-- `%02X` of the low byte. -/
def upperHex (n : ℕ) : Bytes := [upperDigit (n / 16 % 16), upperDigit (n % 16)]

/-- The three low bytes of a number, the lowest first. -/
def bytesUpward (v : ℕ) : Bytes := upperHex v ++ (upperHex (v / 256) ++ upperHex (v / 65536))

/-- `std::from_chars` over all of a text, for a `uint32_t` in hex. -/
def fromCharsWord (s : Bytes) : Option ℕ := (fromCharsAll 16 s).filter (· < 2 ^ 32)

def colorToCE (color : Bytes) : Bytes :=
  let hex := if color.head? == some 0x23 then color.tail else color
  let hex := if hex.length = 8 then hex.drop 2 else hex
  if hex.length = 6 then
    match fromCharsWord hex with
    | some v => bytesUpward v
    | none => []
  else []

/-! ### Addresses -/

/-- `keepsUnparsedPointer` -/
def keepsUnparsedPointer (e : CheatEntry) : Bool :=
  !e.unparsedOffsets.isEmpty && e.offsets.isEmpty && (lit "(unsupported offset ").isPrefixOf e.addressString

def offsetDigits (off : Int64) : Bytes :=
  if off < 0 then 0x2d :: hexDigits (-off).toUInt64 else hexDigits off.toUInt64

/-- The base and the offsets that are written: an expression that is exactly what
`buildPointerExpression` makes is split. -/
def writtenChain (e : CheatEntry) : Bytes × List Int64 :=
  if e.offsets.isEmpty then
    match parsePointerExpression e.addressString with
    | some (base, offsets) =>
      if buildPointerExpression base offsets == e.addressString then (base, offsets)
      else (e.addressString, [])
    | none => (e.addressString, [])
  else (e.addressString, e.offsets)

/-- `writeAddressAndOffsets`: the two elements. -/
def addressAndOffsets (e : CheatEntry) (numericFallback : Bool) : Option Bytes × Option Bytes :=
  if keepsUnparsedPointer e then
    (some (line 6 "Address" (xmlEscapeText e.unparsedAddress)),
      some (block 6 "Offsets" (e.unparsedOffsets.flatMap fun text => line 8 "Offset" (xmlEscapeText text))))
  else
    let (base, offsets) := writtenChain e
    (if !base.isEmpty then some (line 6 "Address" (xmlEscapeText base))
      else if numericFallback then some (line 6 "Address" (digitsText 16 e.address.toNat))
      else none,
      if offsets.isEmpty then none
      else some (block 6 "Offsets" (offsets.flatMap fun off => line 8 "Offset" (offsetDigits off))))

/-! ### Hotkeys -/

/-- `ParsedHotkey` -/
structure ParsedHotkey where
  block : Bytes
  keys : Bytes
  value : Bytes
  action : ℕ
  usable : Bool
  slotBound : Bool
  slotStep : Bytes
  deriving DecidableEq

/-- One element of `parseHotkeyBlocks`. -/
def parseHotkey (block : Bytes) : ParsedHotkey :=
  let (hk, attributes) := getTagWithAttributes block "Hotkey"
  let vks := (getTagBlocks (getTag hk "Keys") "Key").filterMap fun kb => stoi (getTag kb "Key")
  let keys := vksToKeyString vks
  { block
    keys
    action := hotkeyActionFromText (trimmedXmlText (xmlUnescape (getTag hk "Action")))
    value := xmlUnescape (getTag hk "Value")
    usable := !keys.isEmpty && attributeValue attributes "Active" != lit "0"
    slotBound := attributeValue attributes "LinuxSlot" == lit "1"
    slotStep := xmlUnescape (attributeValue attributes "LinuxSlotStep") }

def parseHotkeyBlocks (xml : Bytes) : List ParsedHotkey := (blocksOf xml "Hotkey").map parseHotkey

/-- `slotHolds` -/
def slotHolds (e : CheatEntry) (h : ParsedHotkey) : Bool :=
  match hotkeySlot h.action with
  | 0 => h.keys == e.hotkeyKeys
  | 1 => h.keys == e.setValueHotkeyKeys && h.value == e.setValueHotkeyValue
  | 2 => h.keys == e.increaseHotkeyKeys && h.slotStep == e.hotkeyStep
  | _ => h.keys == e.decreaseHotkeyKeys && h.slotStep == e.hotkeyStep

/-- `kept`: the hotkeys of `extraHotkeysXml` that are written. -/
def keptHotkeys (e : CheatEntry) : List ParsedHotkey :=
  if !e.extraHotkeysXml.isEmpty && isElementSequence e.extraHotkeysXml (some "Hotkey") then
    (parseHotkeyBlocks e.extraHotkeysXml).filter fun h => !(h.slotBound && !(h.usable && slotHolds e h))
  else []

/-- `keptXml` -/
def keptXml (e : CheatEntry) : Bytes :=
  joinWith (lit "\n        ") ((keptHotkeys e).map fun h => if h.slotBound then withoutSlotMarks h.block else h.block)

/-- `keptBinds` -/
def keptBinds (e : CheatEntry) (action : ℕ) (keys : Bytes) : Bool :=
  (keptHotkeys e).any fun h => h.usable && hotkeySlot h.action == hotkeySlot action && h.keys == keys

/-- `hks`: action, keys and value of the hotkeys of the slots. -/
def slotHotkeys (e : CheatEntry) : List (ℕ × Bytes × Bytes) :=
  [(0, e.hotkeyKeys, []), (5, e.setValueHotkeyKeys, e.setValueHotkeyValue),
    (6, e.increaseHotkeyKeys, e.hotkeyStep), (7, e.decreaseHotkeyKeys, e.hotkeyStep)].filter
    fun hk => !hk.2.1.isEmpty && !keptBinds e hk.1 hk.2.1

def firstHotkeyId (keptXml : Bytes) : ℤ :=
  (getTagBlocks keptXml "ID").foldl (fun hkId block =>
    let id := ((fromCharsInt (getTag block "ID")).map Prod.fst).getD (-1)
    if id ≥ hkId ∧ id < 2 ^ 31 - 1 then id + 1 else hkId) 0

def hotkeyText (id : ℤ) (hk : ℕ × Bytes × Bytes) : Bytes :=
  block 8 "Hotkey" (line 10 "Action" (lit (kHotkeyActions.getD hk.1 "")) ++
    (block 10 "Keys" ((keyStringToVKs hk.2.1).flatMap fun vk => line 12 "Key" (intText vk)) ++
    ((if hk.2.2.isEmpty then [] else line 10 "Value" (xmlEscape hk.2.2)) ++ line 10 "ID" (intText id))))

def hotkeyTexts : ℤ → List (ℕ × Bytes × Bytes) → Bytes
  | _, [] => []
  | id, hk :: hks => hotkeyText id hk ++ hotkeyTexts (id + 1) hks

/-- The `<Hotkeys>` element. -/
def hotkeysText (e : CheatEntry) : Option Bytes :=
  let hks := slotHotkeys e
  let kept := keptXml e
  if hks.isEmpty && kept.isEmpty then none
  else some (block 6 "Hotkeys" (hotkeyTexts (if kept.isEmpty then 0 else firstHotkeyId kept) hks ++
    if kept.isEmpty then [] else spaces 8 ++ (kept ++ [0x0a])))

/-! ### Records -/

/-- The `<Address>` and `<Offsets>` of a record. -/
def entryAddress (e : CheatEntry) : Option Bytes × Option Bytes :=
  if e.isGroup then
    if !e.addressString.isEmpty || !e.offsets.isEmpty || keepsUnparsedPointer e then
      addressAndOffsets e false
    else (none, none)
  else if !e.autoAsmScript.isEmpty then
    (if e.addressString.isEmpty then none else some (line 6 "Address" (xmlEscapeText e.addressString)), none)
  else addressAndOffsets e true

def CheatEntry.isData (e : CheatEntry) : Bool := !e.isGroup && e.autoAsmScript.isEmpty

def CheatEntry.isText (e : CheatEntry) : Bool := e.type = .string || e.type = .unicodeString

/-- The `<Options>` element. -/
def optionsText (e : CheatEntry) : Option Bytes :=
  if isOptionsElement e.optionsXml then some (spaces 6 ++ (e.optionsXml ++ [0x0a]))
  else if e.isGroup && (!e.activateChildren || !e.deactivateChildren) then
    some (lit "      <Options moActivateChildrenAsWell=\"" ++ (lit (if e.activateChildren then "1" else "0") ++
      (lit "\" moDeactivateChildrenAsWell=\"" ++ (lit (if e.deactivateChildren then "1" else "0") ++
      lit "\"/>\n"))))
  else none

/-- The lines `writeEntryFields` writes for a record in front of its hotkeys, in order; `""` stands
for `extraXml`. -/
def ownLines (e : CheatEntry) : List (String × Option Bytes) :=
  [("ID", some (line 6 "ID" (intText e.id.toInt))),
    ("Description", some (line 6 "Description" (0x22 :: (xmlEscape e.description ++ [0x22])))),
    ("GroupHeader", flagLine 6 "GroupHeader" e.isGroup),
    ("Collapsed", flagLine 6 "Collapsed" (e.isGroup && e.collapsed)),
    ("Address", (entryAddress e).1),
    ("Offsets", (entryAddress e).2),
    ("VariableType", if e.isGroup then none
      else if !e.autoAsmScript.isEmpty then some (line 6 "VariableType" (lit "Auto Assembler Script"))
      else some (line 6 "VariableType" (lit (typeToStr e.type)))),
    ("Length", if e.isData && e.isText && decide (e.length.toInt > 0) then
      some (line 6 "Length" (intText e.length.toInt)) else none),
    ("Unicode", if e.isData && e.isText then
      some (line 6 "Unicode" (lit (if e.type = .unicodeString then "1" else "0"))) else none),
    ("ByteLength", if e.isData && e.type = .byteArray && decide (e.length.toInt > 0) then
      some (line 6 "ByteLength" (intText e.length.toInt)) else none),
    ("CustomType", if e.isData && e.type = .custom then
      lineOrNone 6 "CustomType" (xmlEscapeText e.customTypeName) else none),
    ("Value", if e.isData then lineOrNone 6 "Value" (xmlEscape e.value) else none),
    ("Activated", flagLine 6 "Activated" e.active),
    ("ShowAsHex", flagLine 6 "ShowAsHex" e.showAsHex),
    ("ShowAsSigned", if e.showAsSigned then none else some (line 6 "ShowAsSigned" (lit "0"))),
    ("LinuxDataByteOrder", match e.dataByteOrder with
      | .unknown => none
      | .big => some (line 6 "LinuxDataByteOrder" (lit "big"))
      | .little => some (line 6 "LinuxDataByteOrder" (lit "little"))),
    ("LinuxPointerWidth", if e.pointerWidth = 0 then none
      else some (line 6 "LinuxPointerWidth" (intText e.pointerWidth.toNat))),
    ("freezeMode", if e.freezeMode = .normal then none
      else some (line 6 "freezeMode" (intText (freezeNumber e.freezeMode)))),
    ("AssemblerScript", if e.autoAsmScript.isEmpty then none
      else some (elementLine 6 "AssemblerScript" (if e.asyncScript then lit " Async=\"1\"" else [])
        (xmlEscape e.autoAsmScript))),
    ("LuaScript", lineOrNone 6 "LuaScript" (xmlEscape e.luaScript)),
    ("Color", lineOrNone 6 "Color" (colorToCE e.color)),
    ("Options", optionsText e),
    ("DropDownList", if e.dropdownList.isEmpty then none
      else some (elementLine 6 "DropDownList"
        (if !e.dropdownAttributes.isEmpty && isAttributeText e.dropdownAttributes then
          0x20 :: e.dropdownAttributes else []) (xmlEscape e.dropdownList))),
    ("", if !e.extraXml.isEmpty && isElementSequence e.extraXml none then
      some (spaces 6 ++ (e.extraXml ++ [0x0a])) else none)]

/-- `writeEntryFields` -/
def writeEntryFields (e : CheatEntry) : Bytes := written (ownLines e) ++ (hotkeysText e).getD []

/-! ### The hierarchy -/

def kMaxEntryDepth : ℕ := 64

def idToIndex (entries : List CheatEntry) (id : Int32) : Option ℕ :=
  entries.findIdx? fun e => e.id == id

/-- The index of the record that a record is written under. -/
def parentIndex (entries : List CheatEntry) (i : ℕ) : Option ℕ :=
  match entries[i]? with
  | none => none
  | some e =>
    if e.parentId = -1 then none
    else (idToIndex entries e.parentId).filter (· ≠ i)

/-- `children[i]` -/
def children (entries : List CheatEntry) (i : ℕ) : List ℕ :=
  (List.range entries.length).filter fun c => parentIndex entries c == some i

/-- The loop over the children of a record, or over the roots, with `done`. -/
def writeEach (write : ℕ → List ℕ → Bytes × List ℕ) : List ℕ → List ℕ → Bytes × List ℕ
  | [], done => ([], done)
  | i :: rest, done =>
    let (text, done) := write i done
    let (texts, done) := writeEach write rest done
    (text ++ texts, done)

/-- `writeEntry`, with the levels that are left and the indices that are done; `fields` is the text
of `writeEntryFields` by index. -/
def writeEntry (entries : List CheatEntry) : ℕ → ℕ → List ℕ → Bytes × List ℕ
  | levels, i, done =>
    if done.contains i then ([], done)
    else
      let done := i :: done
      let fields := writeEntryFields (entries.getD i {})
      let (list, done) : Bytes × List ℕ :=
        match levels with
        | levels + 1 =>
          if (children entries i).isEmpty then ([], done)
          else
            let (texts, done) := writeEach (writeEntry entries levels) (children entries i) done
            (block 6 "CheatEntries" texts, done)
        | 0 => ([], done)
      (openLine 4 "CheatEntry" ++ (fields ++ (list ++ closeLine 4 "CheatEntry")), done)

/-- The text of all records: the roots, and then what cycles and the depth limit left. -/
def writeEntries (entries : List CheatEntry) : Bytes :=
  let indices := List.range entries.length
  let roots := indices.filter fun i => (parentIndex entries i).isNone
  let (rootTexts, done) := writeEach (writeEntry entries (kMaxEntryDepth - 1)) roots []
  let (orphanTexts, _) := writeEach (writeEntry entries (kMaxEntryDepth - 1)) indices done
  rootTexts ++ orphanTexts

/-! ### The table -/

def structureFieldLines (f : StructureField) : List (String × Option Bytes) :=
  [("Name", some (line 10 "Name" (xmlEscape f.name))),
    ("Offset", some (line 10 "Offset" (intText f.offset.toNat))),
    ("Type", some (line 10 "Type" (lit (fieldTypeToStr f.type)))),
    ("Size", some (line 10 "Size" (intText f.size.toNat))),
    ("DisplayMethod", lineOrNone 10 "DisplayMethod" (xmlEscape f.displayMethod)),
    ("NestedStructure", lineOrNone 10 "NestedStructure" (xmlEscape f.nestedStructure))]

def structureFieldText (f : StructureField) : Bytes := block 8 "Element" (written (structureFieldLines f))

def structureLines (s : StructureDefinition) : List (String × Option Bytes) :=
  [("Name", some (line 6 "Name" (xmlEscape s.name))),
    ("Size", some (line 6 "Size" (intText s.size.toNat))),
    ("Elements", some (block 6 "Elements" (s.fields.flatMap structureFieldText)))]

def structureText (s : StructureDefinition) : Bytes := block 4 "Structure" (written (structureLines s))

def commentLines (c : DisassemblerComment) : List (String × Option Bytes) :=
  [("Address", some (line 6 "Address" (xmlEscape c.address))),
    ("Comment", lineOrNone 6 "Comment" (xmlEscape c.comment)),
    ("Label", lineOrNone 6 "Label" (xmlEscape c.label))]

def commentText (c : DisassemblerComment) : Bytes := block 4 "DisassemblerComment" (written (commentLines c))

/-- What is written in front of the records. -/
def headerLines (t : CheatTable) : List (String × Option Bytes) :=
  [("CheatTableVersion", some (line 2 "CheatTableVersion" (lit "45"))),
    ("GameName", lineOrNone 2 "GameName" (xmlEscape t.gameName)),
    ("GameVersion", lineOrNone 2 "GameVersion" (xmlEscape t.gameVersion)),
    ("Author", lineOrNone 2 "Author" (xmlEscape t.author)),
    ("Comment", lineOrNone 2 "Comment" (xmlEscape t.comment)),
    ("LuaScript", lineOrNone 2 "LuaScript" (xmlEscape t.luaScript)),
    ("Structures", if t.structures.isEmpty then none
      else some (block 2 "Structures" (t.structures.flatMap structureText))),
    ("DisassemblerComments", if t.disassemblerComments.isEmpty then none
      else some (block 2 "DisassemblerComments" (t.disassemblerComments.flatMap commentText)))]

def headerText (t : CheatTable) : Bytes :=
  lit "<?xml version=\"1.0\" encoding=\"utf-8\"?>\n" ++ (openLine 0 "CheatTable" ++ written (headerLines t))

/-- What is written after the records. -/
def footerText (t : CheatTable) : Bytes :=
  (if t.rawFormsXml.isEmpty then [] else line 2 "Forms" t.rawFormsXml) ++
    (t.rawSectionsXml ++ closeLine 0 "CheatTable")

/-- `writeTableXml` -/
def writeTableXml (t : CheatTable) : Option Bytes :=
  if validRecordFormats t.entries then
    some (headerText t ++ (block 2 "CheatEntries" (writeEntries t.entries) ++ footerText t))
  else none

end CheatEngine.CtFile
