import CheatEngineLinux.Core.TableXml

/-!
# Cheat tables as XML: the loader

`parseCheatEntriesBlock` and `CheatTable::loadFromString` of `core/ct_file.cpp`.  A position in the
text is the text that is left from there, and the end of a block is the room up to it.
-/

namespace CheatEngine.CtFile

open JsonGrammar (Bytes isDigit)
open Markup (cut)

/-! ### Scalars -/

/-- `normalizedTypeName` -/
def normalizedTypeName (s : Bytes) : Bytes :=
  (s.filter fun c => (0x30 ≤ c && c ≤ 0x39) || (0x41 ≤ c && c ≤ 0x5a) || (0x61 ≤ c && c ≤ 0x7a)).map
    fun c => if 0x41 ≤ c && c ≤ 0x5a then c + 0x20 else c

/-- `std::atoi` on digits: a value that does not fit a `long` is the largest one, and the low
32 bits are taken. -/
def atoi (s : Bytes) : ℤ := (Int32.ofInt (min (readDigits 10 s) (2 ^ 63 - 1))).toInt

def typeNumbers : List (ℤ × ValueType) :=
  [(0, .byte), (1, .int16), (2, .int32), (3, .int64), (4, .float), (5, .double), (6, .string),
    (8, .byteArray), (9, .binary), (10, .all), (12, .custom), (13, .pointer)]

def typeNames : List (String × ValueType) :=
  [("byte", .byte), ("1byte", .byte), ("2bytes", .int16), ("short", .int16), ("4bytes", .int32),
    ("integer", .int32), ("int", .int32), ("8bytes", .int64), ("long", .int64), ("int64", .int64),
    ("float", .float), ("single", .float), ("double", .double), ("string", .string), ("text", .string),
    ("unicodestring", .unicodeString), ("widestring", .unicodeString), ("arrayofbyte", .byteArray),
    ("bytearray", .byteArray), ("aob", .byteArray), ("binary", .binary), ("bits", .binary),
    ("pointer", .pointer), ("custom", .custom), ("customtype", .custom)]

def strToType (s : Bytes) : ValueType :=
  if !s.isEmpty && s.all isDigit then (typeNumbers.lookup (atoi s)).getD .int32
  else ((typeNames.find? fun p => lit p.1 == normalizedTypeName s).map Prod.snd).getD .int32

def colorFromCE (text : Bytes) : Bytes :=
  if text.isEmpty || text.head? == some 0x23 then text
  else
    match fromCharsWord text with
    | some v => if v < 2 ^ 24 then bytesUpward v else []
    | none => []

/-- The `<Offset>` texts of a chain. -/
def offsetTexts (offsetsXml : Bytes) : List Bytes :=
  (blocksOf offsetsXml "Offset").map fun block =>
    trimmedXmlText (xmlUnescape (getTagWithAttributes block "Offset").1)

/-- An offset: hex, with an optional sign. -/
def readOffset (offStr : Bytes) : Option Int64 :=
  let negative := offStr.head? == some 0x2d
  let digits := if negative then offStr.tail else offStr
  (fromCharsAll 16 digits).map fun magnitude =>
    if negative then (0 - UInt64.ofNat magnitude).toInt64 else (UInt64.ofNat magnitude).toInt64

/-! ### Hotkeys -/

/-- What a record's hotkeys are read into, and what is known of each of them so far: whether it
is kept, and by slot the one that fills it. -/
structure HotkeyState where
  hotkeyKeys : Bytes := []
  increaseHotkeyKeys : Bytes := []
  decreaseHotkeyKeys : Bytes := []
  setValueHotkeyKeys : Bytes := []
  setValueHotkeyValue : Bytes := []
  hotkeyStep : Bytes := []
  stepTaken : Bool := false
  keep : List Bool := []
  boundBy : List (Option ℕ) := [none, none, none, none]

/-- The step of an increase or decrease key that is bound. -/
def HotkeyState.takeStep (st : HotkeyState) (h : ParsedHotkey) : HotkeyState :=
  if !st.stepTaken && !h.value.isEmpty then { st with hotkeyStep := h.value, stepTaken := true } else st

/-- The slot that an enabled hotkey fills, `none` if it fills none. -/
def HotkeyState.fill (plainToggle : Bool) (st : HotkeyState) (h : ParsedHotkey) : Option HotkeyState :=
  if h.action = 0 then
    if st.hotkeyKeys.isEmpty then some { st with hotkeyKeys := h.keys } else none
  else if h.action ≤ 4 then
    if !plainToggle && st.hotkeyKeys.isEmpty then some { st with hotkeyKeys := h.keys } else none
  else if h.action = 5 then
    if st.setValueHotkeyKeys.isEmpty then
      some { st with setValueHotkeyKeys := h.keys, setValueHotkeyValue := h.value }
    else none
  else if h.action = 6 then
    if st.increaseHotkeyKeys.isEmpty then some ({ st with increaseHotkeyKeys := h.keys }.takeStep h)
    else none
  else if h.action = 7 then
    if st.decreaseHotkeyKeys.isEmpty then some ({ st with decreaseHotkeyKeys := h.keys }.takeStep h)
    else none
  else none

/-- One turn of the first loop over the hotkeys. -/
def HotkeyState.bind (plainToggle : Bool) (st : HotkeyState) (h : ParsedHotkey) : HotkeyState :=
  let index := st.keep.length
  match if h.usable then st.fill plainToggle h else none with
  | some st => { st with keep := st.keep ++ [false], boundBy := st.boundBy.set (hotkeySlot h.action) (some index) }
  | none => { st with keep := st.keep ++ [true] }

/-- One turn of the loop over the slots: a hotkey whose slot cannot say what it says is kept. -/
def HotkeyState.keepFiller (parsed : List ParsedHotkey) (st : HotkeyState) (slot : ℕ) : HotkeyState :=
  match st.boundBy.getD slot none with
  | none => st
  | some index =>
    match parsed[index]? with
    | none => st
    | some h =>
      let otherAction := slot == 0 && h.action != 0
      let otherStep := decide (slot ≥ 2) && h.value != st.hotkeyStep
      let shared := (parsed.zip st.keep).any fun (other, keep) =>
        keep && other.usable && hotkeySlot other.action == slot && other.keys == h.keys
      if otherAction || otherStep || shared then { st with keep := st.keep.set index true } else st

def HotkeyState.keptElement (st : HotkeyState) (index : ℕ) (h : ParsedHotkey) : Option Bytes :=
  if st.keep.getD index false && isElementSequence h.block (some "Hotkey") then
    let block := withoutSlotMarks h.block
    let slot := hotkeySlot h.action
    if st.boundBy.getD slot none == some index && (lit "<Hotkey").isPrefixOf block then
      let mark := lit " LinuxSlot=\"1\"" ++
        if slot ≥ 2 then lit " LinuxSlotStep=\"" ++ (xmlEscape st.hotkeyStep ++ [0x22]) else []
      some (block.take 7 ++ (mark ++ block.drop 7))
    else some block
  else none

def bindHotkeys (parsed : List ParsedHotkey) : HotkeyState × Bytes :=
  let plainToggle := parsed.any fun h => h.usable && h.action == 0
  let st := parsed.foldl (HotkeyState.bind plainToggle) {}
  let st := [0, 1, 2, 3].foldl (HotkeyState.keepFiller parsed) st
  (st, joinWith (lit "\n        ") (parsed.zipIdx.filterMap fun (h, index) => st.keptElement index h))

/-- The hotkeys of a record: the nested form, or the flat one of older tables. -/
def readHotkeys (hotkeysXml ownXml : Bytes) : HotkeyState × Bytes :=
  let hkXml := getTag hotkeysXml "Hotkeys"
  if contains hkXml (lit "<Hotkey") then bindHotkeys (parseHotkeyBlocks hkXml)
  else
    ({ hotkeyKeys := xmlUnescape hkXml
       increaseHotkeyKeys := xmlUnescape (getTag ownXml "IncreaseHotkey")
       setValueHotkeyKeys := xmlUnescape (getTag ownXml "SetValueHotkey")
       setValueHotkeyValue := xmlUnescape (getTag ownXml "SetValueHotkeyValue")
       decreaseHotkeyKeys := xmlUnescape (getTag ownXml "DecreaseHotkey")
       hotkeyStep := xmlUnescape (getTag ownXml "HotkeyStep") }, [])

/-! ### One record -/

/-- The record without its `<Hotkeys>`. -/
def eraseHotkeys (hotkeysXml : Bytes) : Bytes :=
  match cut (openTag "Hotkeys") hotkeysXml with
  | none => hotkeysXml
  | some (before, rest) =>
    match cut (closeTag "Hotkeys") (openTag "Hotkeys" ++ rest) with
    | none => before
    | some (_, after) => before ++ after

/-- The id a record gives itself. -/
def readId (idStr : Bytes) : Option Int32 :=
  match fromCharsInt idStr with
  | some (id, []) => if 0 ≤ id then some (Int32.ofInt id) else none
  | _ => none

def stripQuotes (s : Bytes) : Bytes :=
  if s.length ≥ 2 && s.head? == some 0x22 && s.getLast? == some 0x22 then s.tail.dropLast else s

/-- The address, the offsets and what is kept of a chain that cannot be read. -/
structure AddressParts where
  addressString : Bytes := []
  address : UInt64 := 0
  offsets : List Int64 := []
  unparsedAddress : Bytes := []
  unparsedOffsets : List Bytes := []

def readAddress (ownXml : Bytes) : AddressParts :=
  let addrStr := getTag ownXml "Address"
  let addressString := if addrStr.isEmpty then [] else xmlUnescape addrStr
  let address := if addrStr.isEmpty then 0 else UInt64.ofNat ((fromCharsAll 16 addrStr).getD 0)
  let texts := offsetTexts (getTag ownXml "Offsets")
  match texts.find? fun offStr => (readOffset offStr).isNone with
  | none => { addressString, address, offsets := texts.filterMap readOffset }
  | some offStr =>
    { addressString := lit "(unsupported offset " ++ (offStr ++ lit ")")
      unparsedAddress := addressString
      unparsedOffsets := texts }

def readLength (ownXml : Bytes) : Int32 :=
  let ln := getTag ownXml "ByteLength"
  let ln := if ln.isEmpty then getTag ownXml "Length" else ln
  match stoi ln with
  | some n => Int32.ofInt (max 0 (min n 65536))
  | none => 0

def readType (ownXml : Bytes) : ValueType :=
  let type := strToType (getTag ownXml "VariableType")
  if type = .string && getTag ownXml "Unicode" == lit "1" then .unicodeString else type

def readFreezeMode (fm : Bytes) : FreezeMode :=
  match stoi fm with
  | some mode => if 0 ≤ mode then freezeModes.getD mode.toNat .normal else .normal
  | none => .normal

/-- The text and the attributes of the list of choices. -/
def readDropdown (ownXml : Bytes) : Bytes × Bytes :=
  let (text, attributes) := getTagWithAttributes ownXml "DropDownList"
  let list := xmlUnescape text
  let list := if list.isEmpty then xmlUnescape (getTag ownXml "DropdownList") else list
  (list.filter (· != 0x0d), attributes)

/-- The kept `<Options>` start tag. -/
def readOptions (ownXml : Bytes) : Option Bytes :=
  match cut (lit "<Options") ownXml with
  | none => none
  | some (_, rest) => (cut [0x3e] rest).map fun r => lit "<Options" ++ (r.1 ++ [0x3e])

/-- The fields of a record, all but its id and its parent, and whether its formats are valid. -/
def readFields (hotkeysXml : Bytes) : CheatEntry × Bool :=
  let ownXml := eraseHotkeys hotkeysXml
  let isGroup := getTag ownXml "GroupHeader" == lit "1"
  let address := readAddress ownXml
  let type := if isGroup then .int32 else readType ownXml
  let order := getTag ownXml "LinuxDataByteOrder"
  let format := parseRecordDataFormat order (getTag ownXml "LinuxPointerWidth")
  let (script, scriptAttributes) := getTagWithAttributes ownXml "AssemblerScript"
  let (dropdownList, dropdownAttributes) := readDropdown ownXml
  let options := readOptions ownXml
  let (hotkeys, extraHotkeysXml) := readHotkeys hotkeysXml ownXml
  ({ description := stripQuotes (xmlUnescape (getTag ownXml "Description"))
     isGroup, type, dropdownList, dropdownAttributes, extraHotkeysXml
     collapsed := getTag ownXml "Collapsed" == lit "1"
     addressString := address.addressString
     address := address.address
     offsets := address.offsets
     unparsedAddress := address.unparsedAddress
     unparsedOffsets := address.unparsedOffsets
     length := if isGroup then 0 else readLength ownXml
     customTypeName := if !isGroup && type = .custom then xmlUnescape (getTag ownXml "CustomType") else []
     value := if isGroup then [] else xmlUnescape (getTag ownXml "Value")
     active := getTag ownXml "Activated" == lit "1"
     showAsHex := getTag ownXml "ShowAsHex" == lit "1"
     -- the order is set before the width is looked at
     dataByteOrder := ((parseRecordDataFormat order []).map Prod.fst).getD .unknown
     pointerWidth := (format.map Prod.snd).getD 0
     showAsSigned := getTag ownXml "ShowAsSigned" != lit "0"
     freezeMode := readFreezeMode (getTag ownXml "freezeMode")
     autoAsmScript := xmlUnescape script
     asyncScript := attributeValue scriptAttributes "Async" == lit "1"
     luaScript := xmlUnescape (getTag ownXml "LuaScript")
     color := colorFromCE (trimmedXmlText (xmlUnescape (getTag ownXml "Color")))
     optionsXml := options.getD []
     activateChildren := options.all fun xml => contains xml (lit "moActivateChildrenAsWell=\"1\"")
     deactivateChildren := options.all fun xml => contains xml (lit "moDeactivateChildrenAsWell=\"1\"")
     extraXml := unknownRecordElements ownXml
     hotkeyKeys := hotkeys.hotkeyKeys
     increaseHotkeyKeys := hotkeys.increaseHotkeyKeys
     decreaseHotkeyKeys := hotkeys.decreaseHotkeyKeys
     setValueHotkeyKeys := hotkeys.setValueHotkeyKeys
     setValueHotkeyValue := hotkeys.setValueHotkeyValue
     hotkeyStep := hotkeys.hotkeyStep }, format.isSome)

/-! ### All records -/

/-- The records so far, `validFormat` and the ids that are taken. -/
structure LoadState where
  entries : List CheatEntry := []
  validFormat : Bool := true
  usedIds : List Int32 := []

/-- The first id from `n` on that is not taken. -/
def firstGap (used : List Int32) : ℕ → ℕ → Int32
  | 0, n => Int32.ofNat n
  | fuel + 1, n => if used.contains (Int32.ofNat n) then firstGap used fuel (n + 1) else Int32.ofNat n

def freshId (used : List Int32) : Int32 :=
  match (used.map Int32.toInt).max? with
  | none => 1
  | some largest =>
    if largest < 2 ^ 31 - 1 then Int32.ofInt (largest + 1) else firstGap used (used.length + 1) 1

/-- A record is appended, under its own id where it is free. -/
def LoadState.add (st : LoadState) (hotkeysXml : Bytes) (parentId : Int32) : LoadState × Int32 :=
  let (e, valid) := readFields hotkeysXml
  let id := match readId (getTag (eraseHotkeys hotkeysXml) "ID") with
    | some id => if st.usedIds.contains id then freshId st.usedIds else id
    | none => freshId st.usedIds
  ({ entries := st.entries ++ [{ e with id, parentId }]
     validFormat := st.validFormat && valid
     usedIds := id :: st.usedIds }, id)

/-- The own part of a record and, where it has one, its list: the text from there on and its
length.  `inside` is the text between the tags of the record, `rest` the text after them. -/
def splitRecord (inside rest : Bytes) : Bytes × Option (Bytes × ℕ) :=
  let record := openTag "CheatEntry" ++ inside
  match cut (openTag "CheatEntries") record with
  | none => (record ++ closeTag "CheatEntry", none)
  | some (own, after) =>
    let after := after ++ (closeTag "CheatEntry" ++ rest)
    match findMatchingClose "CheatEntries" after with
    | none => (own, none)
    | some (list, _) =>
      if own.length + (openTag "CheatEntries").length + list.length < record.length && !list.isEmpty then
        (own, some (after, list.length))
      else (own, none)

/-- The loop of `parseCheatEntriesBlock`, over the text that is left and the room in it. -/
def entriesLoop (child : Bytes → ℕ → Int32 → LoadState → LoadState) :
    ℕ → Bytes → ℕ → Int32 → LoadState → LoadState
  | 0, _, _, _, st => st
  | fuel + 1, xml, room, parentId, st =>
    match cut (openTag "CheatEntry") xml with
    | none => st
    | some (before, after) =>
      if before.length ≥ room then st
      else
        match findMatchingClose "CheatEntry" after with
        | none => st
        | some (inside, rest) =>
          let size := before.length + (openTag "CheatEntry").length + inside.length +
            (closeTag "CheatEntry").length
          if size > room then st
          else
            let (own, list) := splitRecord inside rest
            let (st, id) := st.add own parentId
            let st := match list with
              | none => st
              | some (text, length) => child text length id st
            entriesLoop child fuel rest (room - size) parentId st

/-- `parseCheatEntriesBlock`, with the levels that are left. -/
def parseCheatEntriesBlock : ℕ → Bytes → ℕ → Int32 → LoadState → LoadState
  | 0, _, _, _, st => { st with validFormat := false }
  | levels + 1, xml, room, parentId, st =>
    entriesLoop (parseCheatEntriesBlock levels) (xml.length + 1) xml room parentId st

/-! ### The table -/

def readStructureElement (elementXml : Bytes) : StructureField :=
  { name := xmlUnescape (getTag elementXml "Name")
    offset := (stoullAnyBase (getTag elementXml "Offset")).getD 0
    size := (stoullAnyBase (getTag elementXml "Size")).getD 4
    type := strToType (getTag elementXml "Type")
    displayMethod := xmlUnescape (getTag elementXml "DisplayMethod")
    nestedStructure := xmlUnescape (getTag elementXml "NestedStructure") }

def readStructureXml (structureXml : Bytes) : StructureDefinition :=
  { name := xmlUnescape (getTag structureXml "Name")
    size := (stoullAnyBase (getTag structureXml "Size")).getD 0
    fields := (getTagBlocks (getTag structureXml "Elements") "Element").map readStructureElement }

def readCommentXml (cXml : Bytes) : DisassemblerComment :=
  { address := xmlUnescape (getTag cXml "Address")
    comment := xmlUnescape (getTag cXml "Comment")
    label := xmlUnescape (getTag cXml "Label") }

/-- `headerXml`: what stands around the records, without the sections that have tags of the same
names. -/
def headerXml (xml : Bytes) : Bytes :=
  let outside := match cut (openTag "CheatEntries") xml with
    | none => xml
    | some (before, after) =>
      match findMatchingClose "CheatEntries" after with
      | none => xml
      | some (_, rest) => before ++ rest
  ["DisassemblerComments", "Structures", "Forms", "UserdefinedSymbols", "Files"].foldl eraseBlocks outside

/-- `rawSectionsXml`: the sections that are kept as they are. -/
def rawSections (xml : Bytes) : Bytes :=
  [("UserdefinedSymbols", false), ("Files", false), ("Structures", true)].flatMap fun (name, attributesOnly) =>
    (tagBlockRanges xml name attributesOnly).1.flatMap fun range => lit "  " ++ (range.2 ++ [0x0a])

/-- The records of the outermost list. -/
def readEntriesXml (xml : Bytes) : LoadState :=
  match cut (openTag "CheatEntries") xml with
  | none => {}
  | some (_, after) =>
    match findMatchingClose "CheatEntries" after with
    | none => {}
    | some (list, _) => parseCheatEntriesBlock kMaxEntryDepth after list.length (-1) {}

/-- What `loadFromString` makes of a text that is a table, and whether it is valid. -/
def readTableXml (xml : Bytes) : CheatTable × Bool :=
  let header := headerXml xml
  let st := readEntriesXml xml
  ({ rawSectionsXml := rawSections xml
     gameName := xmlUnescape (getTag header "GameName")
     gameVersion := xmlUnescape (getTag header "GameVersion")
     author := xmlUnescape (getTag header "Author")
     comment := xmlUnescape (getTag header "Comment")
     luaScript := xmlUnescape (getTag header "LuaScript")
     rawFormsXml := getTag xml "Forms"
     structures := ((getTagBlocks (getTag xml "Structures") "Structure").map readStructureXml).filter
       fun s => !s.name.isEmpty || !s.fields.isEmpty
     disassemblerComments :=
       ((getTagBlocks (getTag xml "DisassemblerComments") "DisassemblerComment").map readCommentXml).filter
         fun c => !c.address.isEmpty && (!c.comment.isEmpty || !c.label.isEmpty)
     entries := st.entries }, st.validFormat)

/-- `CheatTable::loadFromString` on a table: what it returns, and the table after it. -/
def loadFromString (t : CheatTable) (xml : Bytes) : Bool × CheatTable :=
  if contains xml (lit "<CheatTable") || contains xml (openTag "CheatEntries") then
    let (loaded, valid) := readTableXml xml
    (valid, loaded)
  else (false, t)

end CheatEngine.CtFile
