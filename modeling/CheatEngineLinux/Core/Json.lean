import CheatEngineLinux.Library.JsonGrammar

/-!
# JSON values, their parser and their writer

`core/json.cpp`.  The parser is written on the bytes that are left, the depth guard as what is
left of `kMaxDepth`; every loop of the source has its own function, with the number of bytes left
as fuel.
-/

namespace CheatEngine.Json

open JsonGrammar

/-! ### Values -/

inductive ValueType
  | null | bool | number | string | array | object
  deriving DecidableEq, Repr

/-- `json::Value`.  `members` is `objectValue` in the order of `objectOrder`: `parse` and `set`
append a key to `objectOrder` exactly when they add it to `objectValue`.  The fields that `type`
does not select keep what they held. -/
inductive Value
  | mk (type : ValueType) (boolValue : Bool) (stringValue : Bytes) (arrayValue : List Value)
      (members : List (Bytes × Value))

namespace Value

def type : Value → ValueType
  | mk t _ _ _ _ => t

def arrayValue : Value → List Value
  | mk _ _ _ items _ => items

def members : Value → List (Bytes × Value)
  | mk _ _ _ _ ms => ms

/-- A default-constructed `Value`. -/
def null : Value := mk .null false [] [] []

def boolean (b : Bool) : Value := mk .bool b [] [] []

/-- `Value::string` -/
def string (s : Bytes) : Value := mk .string false s [] []

/-- A fresh value whose type was set to `Number` and whose text was stored. -/
def numberText (text : Bytes) : Value := mk .number false text [] []

def ofItems (items : List Value) : Value := mk .array false [] items []

def ofMembers (ms : List (Bytes × Value)) : Value := mk .object false [] [] ms

end Value

/-- `insert_or_assign` with the key order kept in `objectOrder`. -/
def assign {V : Type*} (ms : List (Bytes × V)) (key : Bytes) (v : V) : List (Bytes × V) :=
  if ms.any (fun m => m.1 == key) then ms.map fun m => if m.1 == key then (key, v) else m
  else ms ++ [(key, v)]

namespace Value

/-- `Value::set` -/
def set : Value → Bytes → Value → Value
  | mk _ b s items ms, key, v => mk .object b s items (assign ms key v)

/-- `Value::push` -/
def push : Value → Value → Value
  | mk _ b s items ms, v => mk .array b s (items ++ [v]) ms

/-- `Value::get` -/
def get (v : Value) (key : Bytes) : Option Value :=
  if v.type = .object then v.members.lookup key else none

end Value

/-! ### The parser -/

def skipWs (s : Bytes) : Bytes := s.dropWhile isWs

def consume (expected : UInt8) (s : Bytes) : Option Bytes :=
  match skipWs s with
  | [] => none
  | c :: rest => if c == expected then some rest else none

/-- The four hex digits of a `\u` escape. -/
def unit : Bytes → Option (ℕ × Bytes)
  | a :: b :: c :: d :: rest => do
    let w ← hexValue a
    let x ← hexValue b
    let y ← hexValue c
    let z ← hexValue d
    some (((w <<< 4 ||| x) <<< 4 ||| y) <<< 4 ||| z, rest)
  | _ => none

/-- The bytes a `\u` escape appends. -/
def encodeUtf8 (code : ℕ) : Bytes :=
  if code ≤ 0x7f then [UInt8.ofNat code]
  else if code ≤ 0x7ff then [UInt8.ofNat (0xc0 ||| code >>> 6), UInt8.ofNat (0x80 ||| (code &&& 63))]
  else if code ≤ 0xffff then
    [UInt8.ofNat (0xe0 ||| code >>> 12), UInt8.ofNat (0x80 ||| (code >>> 6 &&& 63)),
      UInt8.ofNat (0x80 ||| (code &&& 63))]
  else
    [UInt8.ofNat (0xf0 ||| code >>> 18), UInt8.ofNat (0x80 ||| (code >>> 12 &&& 63)),
      UInt8.ofNat (0x80 ||| (code >>> 6 &&& 63)), UInt8.ofNat (0x80 ||| (code &&& 63))]

/-- `case 'u'`: one code unit, or two that form a pair. -/
def parseUnicode (s : Bytes) : Option (Bytes × Bytes) := do
  let (code, s) ← unit s
  if 0xd800 ≤ code ∧ code ≤ 0xdbff then
    match s with
    | 0x5c :: 0x75 :: s =>
      let (low, s) ← unit s
      if low < 0xdc00 ∨ 0xdfff < low then none
      else some (encodeUtf8 (0x10000 + (code - 0xd800) <<< 10 + (low - 0xdc00)), s)
    | _ => none
  else if 0xdc00 ≤ code ∧ code ≤ 0xdfff then none
  else some (encodeUtf8 code, s)

/-- The `switch` on the character after a backslash. -/
def parseEscape : Bytes → Option (Bytes × Bytes)
  | [] => none
  | esc :: s =>
    if esc == 0x22 then some ([0x22], s)
    else if esc == 0x5c then some ([0x5c], s)
    else if esc == 0x2f then some ([0x2f], s)
    else if esc == 0x62 then some ([0x08], s)
    else if esc == 0x66 then some ([0x0c], s)
    else if esc == 0x6e then some ([0x0a], s)
    else if esc == 0x72 then some ([0x0d], s)
    else if esc == 0x74 then some ([0x09], s)
    else if esc == 0x75 then parseUnicode s
    else none

/-- The loop of `parseString`, with what `value` holds so far. -/
def parseChars : ℕ → Bytes → Bytes → Option (Bytes × Bytes)
  | 0, _, _ => none
  | _, _, [] => none
  | fuel + 1, value, c :: s =>
    if c == 0x22 then some (value, s)
    else if c != 0x5c then
      if c < 0x20 then none else parseChars fuel (value ++ [c]) s
    else do
      let (bytes, s) ← parseEscape s
      parseChars fuel (value ++ bytes) s

def parseString (s : Bytes) : Option (Bytes × Bytes) :=
  match s with
  | [] => none
  | c :: rest => if c == 0x22 then parseChars rest.length [] rest else none

/-- `digit()` -/
def digit (s : Bytes) : Bool := s.head?.any isDigit

def skipDigits (s : Bytes) : Bytes := s.dropWhile isDigit

def skipMinus (s : Bytes) : Bytes := if s.head? == some 0x2d then s.tail else s

def skipInt (s : Bytes) : Option Bytes :=
  if digit s then
    if s.head? == some 0x30 then
      if digit s.tail then none else some s.tail
    else some (skipDigits s)
  else none

def skipFrac (s : Bytes) : Option Bytes :=
  if s.head? == some 0x2e then
    if digit s.tail then some (skipDigits s.tail) else none
  else some s

def skipSign (s : Bytes) : Bytes :=
  if s.head? == some 0x2b || s.head? == some 0x2d then s.tail else s

def skipExp (s : Bytes) : Option Bytes :=
  if s.head? == some 0x65 || s.head? == some 0x45 then
    if digit (skipSign s.tail) then some (skipDigits (skipSign s.tail)) else none
  else some s

/-- `parseNumber`: the text up to where the number ends. -/
def parseNumber (s : Bytes) : Option (Bytes × Bytes) := do
  let rest ← skipInt (skipMinus s)
  let rest ← skipFrac rest
  let rest ← skipExp rest
  some (s.take (s.length - rest.length), rest)

/-- The loop of `parseArray`. -/
def parseItems (parseValue : Bytes → Option (Value × Bytes)) :
    ℕ → List Value → Bytes → Option (List Value × Bytes)
  | 0, _, _ => none
  | fuel + 1, items, s => do
    let (item, s) ← parseValue s
    let items := items ++ [item]
    let s := skipWs s
    if s.head? == some 0x5d then some (items, s.tail)
    else
      let s ← consume 0x2c s
      parseItems parseValue fuel items s

/-- `parseArray` -/
def parseArray (parseValue : Bytes → Option (Value × Bytes)) (s : Bytes) :
    Option (Value × Bytes) := do
  let s ← consume 0x5b s
  let s := skipWs s
  if s.head? == some 0x5d then some (Value.ofItems [], s.tail)
  else
    let (items, s) ← parseItems parseValue s.length [] s
    some (Value.ofItems items, s)

/-- The loop of `parseObject`. -/
def parseMembers (parseValue : Bytes → Option (Value × Bytes)) :
    ℕ → List (Bytes × Value) → Bytes → Option (List (Bytes × Value) × Bytes)
  | 0, _, _ => none
  | fuel + 1, ms, s => do
    let s := skipWs s
    let (key, s) ← parseString s
    let s ← consume 0x3a s
    let (value, s) ← parseValue s
    let ms := assign ms key value
    let s := skipWs s
    if s.head? == some 0x7d then some (ms, s.tail)
    else
      let s ← consume 0x2c s
      parseMembers parseValue fuel ms s

/-- `parseObject` -/
def parseObject (parseValue : Bytes → Option (Value × Bytes)) (s : Bytes) :
    Option (Value × Bytes) := do
  let s ← consume 0x7b s
  let s := skipWs s
  if s.head? == some 0x7d then some (Value.ofMembers [], s.tail)
  else
    let (ms, s) ← parseMembers parseValue s.length [] s
    some (Value.ofMembers ms, s)

/-- `parseValue`, with the levels that `kMaxDepth` leaves. -/
def parseValue : ℕ → Bytes → Option (Value × Bytes)
  | 0, _ => none
  | levels + 1, s =>
    let s := skipWs s
    match s with
    | [] => none
    | c :: _ =>
      if c == 0x22 then (parseString s).map fun (text, s) => (Value.string text, s)
      else if c == 0x7b then parseObject (parseValue levels) s
      else if c == 0x5b then parseArray (parseValue levels) s
      else if c == 0x2d || isDigit c then
        (parseNumber s).map fun (text, s) => (Value.numberText text, s)
      else if s.take 4 == [0x74, 0x72, 0x75, 0x65] then some (Value.boolean true, s.drop 4)
      else if s.take 5 == [0x66, 0x61, 0x6c, 0x73, 0x65] then some (Value.boolean false, s.drop 5)
      else if s.take 4 == [0x6e, 0x75, 0x6c, 0x6c] then some (Value.null, s.drop 4)
      else none

def kMaxDepth : ℕ := 128

/-- `json::parse` into a fresh value. -/
def parse (input : Bytes) : Option Value := do
  let s := if input.take 3 == [0xef, 0xbb, 0xbf] then input.drop 3 else input
  let s := skipWs s
  let (v, s) ← parseValue kMaxDepth s
  let s := skipWs s
  if s.isEmpty then some v else none

/-! ### The writer -/

def leadLength (lead : UInt8) : ℕ :=
  if 0xc2 ≤ lead ∧ lead ≤ 0xdf then 2
  else if 0xe0 ≤ lead ∧ lead ≤ 0xef then 3
  else if 0xf0 ≤ lead ∧ lead ≤ 0xf4 then 4
  else 0

/-- `low` and `high`: the range of the second byte. -/
def secondLow (lead : UInt8) : UInt8 :=
  if lead = 0xe0 then 0xa0 else if lead = 0xf0 then 0x90 else 0x80

def secondHigh (lead : UInt8) : UInt8 :=
  if lead = 0xed then 0x9f else if lead = 0xf4 then 0x8f else 0xbf

/-- `utf8Sequence`: the length of the well-formed sequence that starts here, 0 if there is
none. -/
def utf8Sequence : Bytes → ℕ
  | [] => 0
  | lead :: s =>
    if leadLength lead = 0 then 0
    else if s.length + 1 < leadLength lead then 0
    else if s.headD 0 < secondLow lead ∨ secondHigh lead < s.headD 0 then 0
    else if ((s.take (leadLength lead - 1)).drop 1).any (fun b => b &&& 0xc0 != 0x80) then 0
    else leadLength lead

def hexDigit (n : UInt8) : UInt8 := if n < 10 then 0x30 + n else 0x61 + (n - 10)

/-- What `escape` writes for a byte below 0x80. -/
def escapeAscii (c : UInt8) : Bytes :=
  if c == 0x5c then [0x5c, 0x5c]
  else if c == 0x22 then [0x5c, 0x22]
  else if c == 0x0a then [0x5c, 0x6e]
  else if c == 0x0d then [0x5c, 0x72]
  else if c == 0x09 then [0x5c, 0x74]
  else if c == 0x08 then [0x5c, 0x62]
  else if c == 0x0c then [0x5c, 0x66]
  else if c < 0x20 then [0x5c, 0x75, 0x30, 0x30, hexDigit (c >>> 4), hexDigit (c &&& 15)]
  else [c]

/-- The loop of `escape`; `skip` counts the bytes of the sequence that was just copied. -/
def escapeFrom : ℕ → Bytes → Bytes
  | _, [] => []
  | skip + 1, _ :: s => escapeFrom skip s
  | 0, c :: s =>
    if 0x80 ≤ c then
      if utf8Sequence (c :: s) = 0 then [0x5c, 0x75, 0x66, 0x66, 0x66, 0x64] ++ escapeFrom 0 s
      else (c :: s).take (utf8Sequence (c :: s)) ++ escapeFrom (utf8Sequence (c :: s) - 1) s
    else escapeAscii c ++ escapeFrom 0 s

def escape (s : Bytes) : Bytes := escapeFrom 0 s

/-- A quoted string. -/
def quote (s : Bytes) : Bytes := 0x22 :: (escape s ++ [0x22])

mutual
/-- `write`, with the text it appends. -/
def write : Value → Bytes
  | .mk .null _ _ _ _ => [0x6e, 0x75, 0x6c, 0x6c]
  | .mk .bool b _ _ _ => if b then [0x74, 0x72, 0x75, 0x65] else [0x66, 0x61, 0x6c, 0x73, 0x65]
  | .mk .number _ text _ _ => if text.isEmpty then [0x30] else text
  | .mk .string _ text _ _ => quote text
  | .mk .array _ _ items _ => 0x5b :: (writeItems items ++ [0x5d])
  | .mk .object _ _ _ ms => 0x7b :: (writeMembers ms ++ [0x7d])
def writeItems : List Value → Bytes
  | [] => []
  | [v] => write v
  | v :: w :: vs => write v ++ 0x2c :: writeItems (w :: vs)
def writeMembers : List (Bytes × Value) → Bytes
  | [] => []
  | [(key, v)] => quote key ++ 0x3a :: write v
  | (key, v) :: m :: ms => quote key ++ 0x3a :: (write v ++ 0x2c :: writeMembers (m :: ms))
end

/-- `json::dump` -/
def dump (v : Value) : Bytes := write v

end CheatEngine.Json
