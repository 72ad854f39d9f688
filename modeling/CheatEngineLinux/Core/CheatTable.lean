import CheatEngineLinux.Core.Json
import CheatEngineLinux.Scanner.ScanConfig

/-!
# Cheat tables and their JSON form

`core/ct_file.hpp` and the JSON half of `core/ct_file.cpp`: the records of a table, what
`writeTableJson` writes, what `readTableJson` reads, and the obfuscated file around it.  A thrown
`std::invalid_argument` and a returned `false` are both `none`.  `CheatEntry::childIds` is left
out, no function of the repository reads or writes it.
-/

namespace CheatEngine.CtFile

open JsonGrammar (Bytes)
open Json (Value)

/-- The bytes of a literal of the source, all of them ASCII. -/
def lit (s : String) : Bytes := s.toList.map fun c => UInt8.ofNat c.toNat

/-! ### Records -/

inductive FreezeMode
  | normal | increaseOnly | decreaseOnly | neverIncrease | neverDecrease
  deriving DecidableEq, Repr

structure CheatEntry where
  id : Int32 := 0
  description : Bytes := []
  address : UInt64 := 0
  addressString : Bytes := []
  offsets : List Int64 := []
  type : ValueType := .int32
  value : Bytes := []
  active : Bool := false
  showAsHex : Bool := false
  showAsSigned : Bool := true
  dataByteOrder : ByteOrder := .unknown
  pointerWidth : UInt8 := 0
  freezeMode : FreezeMode := .normal
  autoAsmScript : Bytes := []
  luaScript : Bytes := []
  parentId : Int32 := -1
  isGroup : Bool := false
  collapsed : Bool := false
  color : Bytes := []
  dropdownList : Bytes := []
  dropdownAttributes : Bytes := []
  hotkeyKeys : Bytes := []
  increaseHotkeyKeys : Bytes := []
  decreaseHotkeyKeys : Bytes := []
  setValueHotkeyKeys : Bytes := []
  setValueHotkeyValue : Bytes := []
  hotkeyStep : Bytes := []
  extraHotkeysXml : Bytes := []
  activateChildren : Bool := true
  deactivateChildren : Bool := true
  optionsXml : Bytes := []
  length : Int32 := 0
  customTypeName : Bytes := []
  asyncScript : Bool := false
  unparsedAddress : Bytes := []
  unparsedOffsets : List Bytes := []
  extraXml : Bytes := []
  deriving DecidableEq

structure StructureField where
  name : Bytes := []
  offset : UInt64 := 0
  type : ValueType := .int32
  size : UInt64 := 4
  displayMethod : Bytes := []
  nestedStructure : Bytes := []
  deriving DecidableEq

structure StructureDefinition where
  name : Bytes := []
  size : UInt64 := 0
  fields : List StructureField := []
  deriving DecidableEq

structure DisassemblerComment where
  address : Bytes := []
  comment : Bytes := []
  label : Bytes := []
  deriving DecidableEq

structure CheatTable where
  gameName : Bytes := []
  gameVersion : Bytes := []
  author : Bytes := []
  comment : Bytes := []
  luaScript : Bytes := []
  entries : List CheatEntry := []
  disassemblerComments : List DisassemblerComment := []
  structures : List StructureDefinition := []
  rawFormsXml : Bytes := []
  rawSectionsXml : Bytes := []
  deriving DecidableEq

/-- The enumerators of `ValueType` in the order of their numbers. -/
def valueTypes : List ValueType :=
  [.byte, .int16, .int32, .int64, .float, .double, .string, .unicodeString, .byteArray, .binary,
    .all, .grouped, .custom, .pointer]

def typeNumber (t : ValueType) : ℕ := valueTypes.idxOf t

def freezeModes : List FreezeMode :=
  [.normal, .increaseOnly, .decreaseOnly, .neverIncrease, .neverDecrease]

def freezeNumber (m : FreezeMode) : ℕ := freezeModes.idxOf m

/-! ### Numbers as text -/

def digitByte (d : ℕ) : UInt8 := if d < 10 then UInt8.ofNat (0x30 + d) else UInt8.ofNat (0x57 + d)

/-- A number in a base, in lower case. -/
def digitsText (base n : ℕ) : Bytes :=
  if n = 0 then [0x30] else (Nat.digits base n).reverse.map digitByte

/-- What an `ostream` and `std::to_string` write for an integer. -/
def intText (n : ℤ) : Bytes :=
  if n < 0 then 0x2d :: digitsText 10 n.natAbs else digitsText 10 n.natAbs

/-- `0x%lx` -/
def hexText (n : UInt64) : Bytes := lit "0x" ++ digitsText 16 n.toNat

def numberValue (n : ℤ) : Value := Value.numberText (intText n)

/-! ### The writer -/

def present (fields : List (String × Option Value)) : List (Bytes × Value) :=
  fields.filterMap fun f => f.2.map fun v => (lit f.1, v)

def textOrNone (s : Bytes) : Option Value := if s.isEmpty then none else some (Value.string s)

/-- A flag that is written only when it differs from its default. -/
def flagOrNone (flag usual : Bool) : Option Value :=
  if flag = usual then none else some (Value.boolean flag)

/-- The members `writeTableJson` writes for a record, in order. -/
def entryFields (e : CheatEntry) : List (String × Option Value) :=
  [("id", some (numberValue e.id.toInt)),
    ("desc", some (Value.string e.description)),
    ("addr", if e.isGroup then none else some (Value.string (hexText e.address))),
    ("type", if e.isGroup then none else some (numberValue (typeNumber e.type))),
    ("value", if e.isGroup then none else some (Value.string e.value)),
    ("length", if !e.isGroup && decide (e.length.toInt > 0) then some (numberValue e.length.toInt)
      else none),
    ("customType", if e.isGroup then none else textOrNone e.customTypeName),
    ("addrString", textOrNone e.addressString),
    ("offsets", if e.offsets.isEmpty then none
      else some (Value.ofItems (e.offsets.map fun o => numberValue o.toInt))),
    ("unparsedAddress", if e.unparsedOffsets.isEmpty then none
      else some (Value.string e.unparsedAddress)),
    ("unparsedOffsets", if e.unparsedOffsets.isEmpty then none
      else some (Value.ofItems (e.unparsedOffsets.map Value.string))),
    ("async", flagOrNone e.asyncScript false),
    ("dropdownAttributes", textOrNone e.dropdownAttributes),
    ("extraHotkeys", textOrNone e.extraHotkeysXml),
    ("extraXml", textOrNone e.extraXml),
    ("active", flagOrNone e.active false),
    ("showAsHex", flagOrNone e.showAsHex false),
    ("showAsSigned", flagOrNone e.showAsSigned true),
    ("dataByteOrder", match e.dataByteOrder with
      | .unknown => none
      | .big => some (Value.string (lit "big"))
      | .little => some (Value.string (lit "little"))),
    ("pointerWidth", if e.pointerWidth = 0 then none
      else some (numberValue e.pointerWidth.toNat)),
    ("freezeMode", if e.freezeMode = .normal then none
      else some (numberValue (freezeNumber e.freezeMode))),
    ("group", flagOrNone e.isGroup false),
    ("collapsed", flagOrNone e.collapsed false),
    ("asm", textOrNone e.autoAsmScript),
    ("lua", textOrNone e.luaScript),
    ("options", textOrNone e.optionsXml),
    ("activateChildren", flagOrNone e.activateChildren true),
    ("deactivateChildren", flagOrNone e.deactivateChildren true),
    ("color", textOrNone e.color),
    ("dropdown", textOrNone e.dropdownList),
    ("hotkeys", textOrNone e.hotkeyKeys),
    ("increaseHotkey", textOrNone e.increaseHotkeyKeys),
    ("setValueHotkey", textOrNone e.setValueHotkeyKeys),
    ("setValueHotkeyValue", textOrNone e.setValueHotkeyValue),
    ("decreaseHotkey", textOrNone e.decreaseHotkeyKeys),
    ("hotkeyStep", textOrNone e.hotkeyStep),
    ("parent", if e.parentId.toInt ≥ 0 then some (numberValue e.parentId.toInt) else none)]

def entryValue (e : CheatEntry) : Value := Value.ofMembers (present (entryFields e))

def structureFieldFields (f : StructureField) : List (String × Option Value) :=
  [("name", some (Value.string f.name)),
    ("offset", some (numberValue f.offset.toNat)),
    ("type", some (numberValue (typeNumber f.type))),
    ("size", some (numberValue f.size.toNat)),
    ("display", textOrNone f.displayMethod),
    ("nested", textOrNone f.nestedStructure)]

def structureFieldValue (f : StructureField) : Value :=
  Value.ofMembers (present (structureFieldFields f))

def structureFields (s : StructureDefinition) : List (String × Option Value) :=
  [("name", some (Value.string s.name)),
    ("size", some (numberValue s.size.toNat)),
    ("fields", some (Value.ofItems (s.fields.map structureFieldValue)))]

def structureValue (s : StructureDefinition) : Value := Value.ofMembers (present (structureFields s))

def commentFields (c : DisassemblerComment) : List (String × Option Value) :=
  [("address", some (Value.string c.address)),
    ("comment", textOrNone c.comment),
    ("label", textOrNone c.label)]

def commentValue (c : DisassemblerComment) : Value := Value.ofMembers (present (commentFields c))

/-- `  "key": "text",` -/
def stringLine (key : String) (s : Bytes) : Bytes :=
  lit "  \"" ++ (lit key ++ (lit "\": \"" ++ (Json.escape s ++ lit "\",\n")))

/-- The lines of a list, each but the last with a comma. -/
def rows : List Bytes → Bytes
  | [] => []
  | [row] => lit "    " ++ (row ++ lit "\n")
  | row :: row' :: more => lit "    " ++ (row ++ (lit ",\n" ++ rows (row' :: more)))

/-- The text of `writeTableJson`.  Inside a line of the lists, and for the comments, the source
puts the braces, quotes, colons and commas where `Json.write` does. -/
def tableText (t : CheatTable) : Bytes :=
  lit "\x7b\n" ++ (stringLine "game" t.gameName ++ (stringLine "version" t.gameVersion ++
    (stringLine "author" t.author ++ (stringLine "comment" t.comment ++
    (stringLine "luaScript" t.luaScript ++ (stringLine "rawFormsXml" t.rawFormsXml ++
    (stringLine "rawSectionsXml" t.rawSectionsXml ++
    (lit "  \"structures\": [\n" ++
    (rows (t.structures.map fun s => Json.write (structureValue s)) ++ (lit "  ],\n" ++
    (lit "  \"disassemblerComments\": " ++
    (Json.write (Value.ofItems (t.disassemblerComments.map commentValue)) ++ (lit ",\n" ++
    (lit "  \"entries\": [\n" ++ (rows (t.entries.map fun e => Json.write (entryValue e)) ++
    lit "  ]\n\x7d\n")))))))))))))))

/-- `validRecordFormats` -/
def validRecordFormats (entries : List CheatEntry) : Bool :=
  entries.all fun e => e.pointerWidth == 0 || e.pointerWidth == 4 || e.pointerWidth == 8

def writeTableJson (t : CheatTable) : Option Bytes :=
  if validRecordFormats t.entries then some (tableText t) else none

/-! ### Integers of a table -/

/-- `std::isspace` -/
def isSpace (b : UInt8) : Bool := b == 0x20 || (decide (0x09 ≤ b) && decide (b ≤ 0x0d))

def trimSpace (s : Bytes) : Bytes := ((s.dropWhile isSpace).reverse.dropWhile isSpace).reverse

/-- The digits of `std::from_chars`. -/
def charDigit (b : UInt8) : ℕ :=
  if 0x30 ≤ b && b ≤ 0x39 then b.toNat - 0x30
  else if 0x61 ≤ b && b ≤ 0x7a then b.toNat - 0x61 + 10
  else if 0x41 ≤ b && b ≤ 0x5a then b.toNat - 0x41 + 10
  else 255

def uint64Max : ℕ := 2 ^ 64 - 1

def readDigits (base : ℕ) (s : Bytes) : ℕ := s.foldl (fun n b => n * base + charDigit b) 0

/-- `std::from_chars` over all of a text. -/
def fromCharsAll (base : ℕ) (s : Bytes) : Option ℕ :=
  if s.isEmpty || s.any (fun b => decide (base ≤ charDigit b)) then none
  else if readDigits base s > uint64Max then none else some (readDigits base s)

def quotedMagnitude (token : Bytes) : Option ℕ :=
  if token.length > 1 && token.head? == some 0x30 then
    if token.getD 1 0 == 0x78 || token.getD 1 0 == 0x58 then fromCharsAll 16 (token.drop 2)
    else fromCharsAll 8 token
  else fromCharsAll 10 token

def isExponentMark (b : UInt8) : Bool := b == 0x65 || b == 0x45

/-- The loop over the digits of the exponent. -/
def exponentOf (bound : ℕ) : ℕ → Bytes → Option ℕ
  | exponent, [] => some exponent
  | exponent, c :: s =>
    let digit := c.toNat - 0x30
    if exponent > (bound - digit) / 10 then none else exponentOf bound (exponent * 10 + digit) s

/-- The loop that accumulates the magnitude. -/
def accumulate : ℕ → Bytes → Option ℕ
  | magnitude, [] => some magnitude
  | magnitude, c :: s =>
    let digit := c.toNat - 0x30
    if magnitude > (uint64Max - digit) / 10 then none else accumulate (magnitude * 10 + digit) s

def sizeMax : ℕ := 2 ^ 64 - 1

def exponentPart (token : Bytes) : Option (Bool × ℕ) :=
  match token.dropWhile (fun b => !isExponentMark b) with
  | [] => some (false, 0)
  | _ :: s =>
    let negative := s.head? == some 0x2d
    let s := if negative || s.head? == some 0x2b then s.tail else s
    if token.length > sizeMax - 20 then none
    else (exponentOf (token.length + 20) 0 s).map fun e => (negative, e)

/-- How many digits go and how many zeros come. -/
def scaleBy (digits fractional : ℕ) : Bool × ℕ → Option (ℕ × ℕ)
  | (true, exponent) =>
    if exponent > digits || fractional > digits - exponent then none
    else some (fractional + exponent, 0)
  | (false, exponent) =>
    if exponent ≥ fractional then some (0, exponent - fractional)
    else some (fractional - exponent, 0)

/-- The magnitude of a number token: the coefficient without its leading zeros, moved by the
exponent.  A coefficient of zeros is 0 whatever follows. -/
def plainMagnitude (token : Bytes) : Option ℕ :=
  let mantissa := token.takeWhile fun b => !isExponentMark b
  let fractional := ((mantissa.dropWhile (· != 0x2e)).filter (· != 0x2e)).length
  let digits := (mantissa.filter (· != 0x2e)).dropWhile (· == 0x30)
  if digits.isEmpty then some 0
  else do
    let exponent ← exponentPart token
    let (remove, append) ← scaleBy digits.length fractional exponent
    if remove > digits.length || append > 20 then none
    else
      let kept := digits.take (digits.length - remove)
      if (digits.drop (digits.length - remove)).any (· != 0x30) then none
      else accumulate 0 (kept ++ List.replicate append 0x30)

/-- The value of an integer type of some bits. -/
def inRange (signed : Bool) (bits : ℕ) (negative : Bool) (magnitude : ℕ) : Option ℤ :=
  if signed then
    if magnitude > 2 ^ (bits - 1) - 1 + (if negative then 1 else 0) then none
    else some (if negative then -(magnitude : ℤ) else magnitude)
  else if (negative && magnitude != 0) || decide (magnitude > 2 ^ bits - 1) then none
  else some magnitude

/-- `jsonInteger` -/
def jsonInteger (signed : Bool) (bits : ℕ) (value : Value) : Option ℤ :=
  match value with
  | .mk .number _ token _ _ =>
    if token.isEmpty then none
    else
      let negative := token.head? == some 0x2d
      let token := if negative then token.tail else token
      if token.isEmpty then none
      else (plainMagnitude token).bind (inRange signed bits negative)
  | .mk .string _ text _ _ =>
    let token := trimSpace text
    if token.isEmpty then none
    else
      let negative := token.head? == some 0x2d
      let token := if negative || token.head? == some 0x2b then token.tail else token
      if token.isEmpty then none
      else (quotedMagnitude token).bind (inRange signed bits negative)
  | _ => none

/-! ### The reader -/

def getField (obj : Value) (key : String) : Option Value := obj.get (lit key)

def jsonStringField (obj : Value) (key : String) : Bytes :=
  match getField obj key with
  | some (.mk .string _ text _ _) => text
  | _ => []

def jsonBoolField (obj : Value) (key : String) : Bool :=
  match getField obj key with
  | some (.mk .bool b _ _ _) => b
  | some (.mk .number _ text _ _) =>
    (text.takeWhile fun c => !isExponentMark c).any fun c => decide (0x31 ≤ c) && decide (c ≤ 0x39)
  | some (.mk .string _ text _ _) => text == lit "true" || text == lit "1"
  | _ => false

/-- `jsonIntegerField` -/
def jsonIntegerField (signed : Bool) (bits : ℕ) (obj : Value) (key : String) (fallback : ℤ) :
    Option ℤ :=
  match getField obj key with
  | none => some fallback
  | some field => jsonInteger signed bits field

def jsonIntField (obj : Value) (key : String) (fallback : ℤ) : Option Int32 :=
  (jsonIntegerField true 32 obj key fallback).map Int32.ofInt

def jsonSizeField (obj : Value) (key : String) (fallback : ℤ) : Option UInt64 :=
  (jsonIntegerField false 64 obj key fallback).map fun n => UInt64.ofNat n.toNat

def jsonAddressField (obj : Value) (key : String) : Option UInt64 :=
  (jsonIntegerField false 64 obj key 0).map fun n => UInt64.ofNat n.toNat

/-- The names of value types that `jsonValueTypeField` knows. -/
def valueTypeNames : List (String × ValueType) :=
  [("byte", .byte), ("i16", .int16), ("i32", .int32), ("i64", .int64), ("float", .float),
    ("double", .double), ("string", .string), ("aob", .byteArray), ("pointer", .pointer),
    ("unicode", .unicodeString), ("binary", .binary), ("grouped", .grouped), ("custom", .custom),
    ("all", .all)]

def numericType (v : Value) : Option ValueType :=
  (jsonInteger true 32 v).bind fun n => if n < 0 then none else valueTypes[n.toNat]?

def jsonValueTypeField (obj : Value) : Option ValueType :=
  match getField obj "type" with
  | none => some .int32
  | some v =>
    if v.type = .number then numericType v
    else match v with
      | .mk .string _ text _ _ =>
        match valueTypeNames.find? fun p => lit p.1 == text with
        | some p => some p.2
        | none => numericType v
      | _ => none

def eitherKey (obj : Value) (key other : String) : String :=
  if (getField obj key).isSome then key else other

/-- `parseRecordDataFormat` -/
def parseRecordDataFormat (order width : Bytes) : Option (ByteOrder × UInt8) := do
  let order ← if order.isEmpty || order == lit "auto" then some .unknown
    else if order == lit "little" then some .little
    else if order == lit "big" then some .big
    else none
  let width ← if width.isEmpty || width == lit "0" then some 0
    else if width == lit "4" then some 4
    else if width == lit "8" then some 8
    else none
  some (order, width)

/-- `std::string::find` -/
def contains (text sub : Bytes) : Bool := text.tails.any fun t => sub.isPrefixOf t

def arrayField (obj : Value) (key : String) : Option (List Value) :=
  match getField obj key with
  | none => some []
  | some v => if v.type = .array then some v.arrayValue else none

/-- The cascade flags: the kept `<Options>` element, then the members of their own. -/
def cascadeFlag (obj : Value) (key : String) (optionsXml : Bytes) (flag : String) : Bool :=
  if (getField obj key).isSome then jsonBoolField obj key
  else if optionsXml.isEmpty then true else contains optionsXml (lit flag)

def stringItem : Value → Option Bytes
  | .mk .string _ text _ _ => some text
  | _ => none

/-- One record of `readTableJson`; `items` are all of them. -/
def readEntry (items : List Value) (item : Value) : Option CheatEntry := do
  if item.type ≠ .object then none
  let id ← jsonIntField item "id" 0
  let description := jsonStringField item (eitherKey item "desc" "description")
  let address ← jsonAddressField item (eitherKey item "addr" "address")
  let addressString := jsonStringField item (eitherKey item "addrString" "addressExpr")
  let type ← jsonValueTypeField item
  let offsets ← (← arrayField item "offsets").mapM fun v => (jsonInteger true 64 v).map Int64.ofInt
  let length ← jsonIntField item (eitherKey item "length" "byteCount") 0
  let length := if length.toInt > 65536 then 65536 else length
  if length.toInt < 0 then none
  let showAsSigned := if (getField item "showAsSigned").isSome then jsonBoolField item "showAsSigned"
    else true
  if (getField item "dataByteOrder").any (fun v => v.type ≠ .string) then none
  if (getField item "pointerWidth").any (fun v => v.type ≠ .number) then none
  let width ← jsonIntField item "pointerWidth" 0
  let format ← parseRecordDataFormat (jsonStringField item "dataByteOrder") (intText width.toInt)
  let dataByteOrder := if (getField item "dataByteOrder").isNone && jsonBoolField item "bigEndian"
    then .big else format.1
  let freeze ← jsonIntField item "freezeMode" 0
  if freeze.toInt < 0 then none
  let freezeMode ← freezeModes[freeze.toInt.toNat]?
  let optionsXml := jsonStringField item (eitherKey item "options" "optionsXml")
  let unparsedOffsets ← (← arrayField item "unparsedOffsets").mapM stringItem
  let parent ← jsonIntField item "parent" (-1)
  -- a table of the GUI names the row of the parent, not its id
  let parentId ← if (getField item "description").isSome && (getField item "desc").isNone &&
      decide (parent.toInt ≥ 0) && decide (parent.toInt.toNat < items.length)
    then jsonIntField (items.getD parent.toInt.toNat Value.null) "id" parent.toInt
    else some parent
  some {
    id, description, address, addressString, type, offsets, length, showAsSigned, dataByteOrder,
    freezeMode, optionsXml, unparsedOffsets, parentId,
    value := jsonStringField item "value",
    active := jsonBoolField item "active",
    showAsHex := jsonBoolField item "showAsHex",
    pointerWidth := format.2,
    isGroup := jsonBoolField item "group",
    collapsed := jsonBoolField item "collapsed",
    autoAsmScript := jsonStringField item "asm",
    luaScript := jsonStringField item "lua",
    activateChildren := cascadeFlag item "activateChildren" optionsXml
      "moActivateChildrenAsWell=\"1\"",
    deactivateChildren := cascadeFlag item "deactivateChildren" optionsXml
      "moDeactivateChildrenAsWell=\"1\"",
    customTypeName := jsonStringField item "customType",
    asyncScript := jsonBoolField item "async",
    unparsedAddress := jsonStringField item "unparsedAddress",
    extraHotkeysXml := jsonStringField item "extraHotkeys",
    extraXml := jsonStringField item "extraXml",
    dropdownAttributes := jsonStringField item "dropdownAttributes",
    color := jsonStringField item "color",
    dropdownList := jsonStringField item "dropdown",
    hotkeyKeys := jsonStringField item "hotkeys",
    increaseHotkeyKeys := jsonStringField item "increaseHotkey",
    setValueHotkeyKeys := jsonStringField item "setValueHotkey",
    setValueHotkeyValue := jsonStringField item "setValueHotkeyValue",
    decreaseHotkeyKeys := jsonStringField item "decreaseHotkey",
    hotkeyStep := jsonStringField item "hotkeyStep" }

def readStructureField (item : Value) : Option StructureField := do
  if item.type ≠ .object then none
  let offset ← jsonSizeField item "offset" 0
  let type ← jsonValueTypeField item
  let size ← jsonSizeField item "size" 4
  some {
    offset, type, size,
    name := jsonStringField item "name",
    displayMethod := jsonStringField item "display",
    nestedStructure := jsonStringField item "nested" }

def readStructure (item : Value) : Option StructureDefinition := do
  if item.type ≠ .object then none
  let size ← jsonSizeField item "size" 0
  let fields ← (← arrayField item "fields").mapM readStructureField
  some { name := jsonStringField item "name", size, fields }

def readComment (item : Value) : Option DisassemblerComment :=
  if item.type ≠ .object then none
  else some {
    address := jsonStringField item "address",
    comment := jsonStringField item "comment",
    label := jsonStringField item "label" }

/-- `readTableJson` -/
def readTableJson (root : Value) : Option CheatTable := do
  let structures ← (← arrayField root "structures").mapM readStructure
  let comments ← (← arrayField root "disassemblerComments").mapM readComment
  let items ← arrayField root "entries"
  let entries ← items.mapM (readEntry items)
  some {
    structures, entries,
    gameName := jsonStringField root (eitherKey root "game" "process"),
    gameVersion := jsonStringField root "version",
    author := jsonStringField root "author",
    comment := jsonStringField root "comment",
    luaScript := jsonStringField root "luaScript",
    rawFormsXml := jsonStringField root "rawFormsXml",
    rawSectionsXml := jsonStringField root "rawSectionsXml",
    disassemblerComments := comments.filter fun c => !c.address.isEmpty }

def loadJsonFromString (json : Bytes) : Option CheatTable := do
  let root ← Json.parse json
  if root.type ≠ .object then none else readTableJson root

/-! ### Protected tables -/

def kFnvOffset : UInt64 := 1469598103934665603
def kFnvPrime : UInt64 := 1099511628211

def fnv1a (text : Bytes) : UInt64 :=
  text.foldl (fun hash c => (hash ^^^ c.toUInt64) * kFnvPrime) kFnvOffset

def xorshift64 (state : UInt64) : UInt64 :=
  let state := state ^^^ (state <<< 13)
  let state := state ^^^ (state >>> 7)
  state ^^^ (state <<< 17)

/-- The loop that `xorCrypt` and `xorDecrypt` share, from a state. -/
def xorStream : UInt64 → Bytes → Bytes
  | _, [] => []
  | state, b :: s => (b ^^^ ((xorshift64 state) &&& 0xff).toUInt8) :: xorStream (xorshift64 state) s

def seed (password : Bytes) : UInt64 := fnv1a (if password.isEmpty then lit "cecore" else password)

def xorCrypt (input password : Bytes) : Bytes := xorStream (seed password) input

def xorDecrypt (input password : Bytes) : Bytes := xorStream (seed password) input

/-- The bytes `saveProtected` writes to its file. -/
def saveProtected (t : CheatTable) (password : Bytes) : Option Bytes :=
  (writeTableJson t).map fun json => lit "CETRAINER1\n" ++ (digitsText 10 (fnv1a password).toNat ++
    (lit "\n" ++ xorCrypt json password))

/-- `std::getline`: the line, and what is left behind it. -/
def getline : Bytes → Option (Bytes × Bytes)
  | [] => none
  | s => some (s.takeWhile (· != 0x0a), (s.dropWhile (· != 0x0a)).tail)

/-- `std::stoull`: the number a text starts with. -/
def stoull (text : Bytes) : Option UInt64 :=
  let s := text.dropWhile isSpace
  let negative := s.head? == some 0x2d
  let s := if negative || s.head? == some 0x2b then s.tail else s
  let digits := s.takeWhile JsonGrammar.isDigit
  if digits.isEmpty || decide (readDigits 10 digits > uint64Max) then none
  else if negative then some (-UInt64.ofNat (readDigits 10 digits))
  else some (UInt64.ofNat (readDigits 10 digits))

/-- `loadProtected` on the bytes of its file.  The temporary file in between holds what was
written to it. -/
def loadProtected (file password : Bytes) : Option CheatTable := do
  if file.length > 64 * 1024 * 1024 then none
  let (magic, rest) ← getline file
  let (hashLine, encrypted) ← getline rest
  if magic ≠ lit "CETRAINER1" then none
  let expected ← stoull hashLine
  if expected ≠ fnv1a password then none
  loadJsonFromString (xorDecrypt encrypted password)

end CheatEngine.CtFile
