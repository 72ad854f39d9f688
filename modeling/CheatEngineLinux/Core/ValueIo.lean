import CheatEngineLinux.Core.Expression
import CheatEngineLinux.Core.IntegerText

/-!
# Typed values and their text

`encodeTypedValue` and `decodeTypedValue` (`src/core/value_io.cpp`): the bytes of a value that the
user types, and the text of bytes of the target.  String encodings and the conversions of
floating-point texts are parameters.

* `Converters`: the conversions of other code.
* `encodeTypedValue`, `decodeTypedValue`: the functions.

* **PROVED `integer_round_trip`**: bytes of an integer or a pointer survive their text.
* **PROVED `byteArray_round_trip`**: so do the bytes of an array.
* **PROVED `typed_values_round_trip`**: the round trip, and which integers are accepted.
-/

namespace CheatEngine.ValueIo

open AutoAssembler (Text isBlank)
open RecordFile
open Numerals

/-! ### Options -/

structure ValueIoOptions where
  hex : Bool := false
  isSigned : Bool := true
  bigEndian : Bool := false
  /-- Overrides `bigEndian`. -/
  byteOrder : Option ByteOrder := none
  terminate : Bool := false
  pointerWidth : ℕ := 8
  pointerWidthOverride : Option ℕ := none
  encoding : Text := "UTF-8".toList
  codec : ValueCodec := {}
  deriving Repr, DecidableEq

/-- What other code makes of strings and of floating-point texts. -/
structure Converters where
  /-- `encodeStringBytes`, with the message of what it throws. -/
  encodeString : Text → Text → Except Text (List UInt8)
  /-- `decodeStringBytes` -/
  decodeString : List UInt8 → Text → Text
  /-- `std::from_chars` for `double`, of a text that is read to its end. -/
  double : Text → Option UInt64
  /-- `std::from_chars` for `float`, where it is in range. -/
  float : Text → Option UInt32
  /-- `std::abs(number) > 1` -/
  large : UInt64 → Bool
  /-- `static_cast<float>` -/
  toFloat : UInt64 → UInt32
  /-- `formatFloatScalar` -/
  floatText : UInt32 → Text
  doubleText : UInt64 → Text

def scalarWidth : ValueType → ℕ
  | .byte => 1
  | .int16 => 2
  | .int32 | .float => 4
  | .int64 | .double | .pointer => 8
  | _ => 0

def isIntegerScalar (type : ValueType) : Bool :=
  type == .byte || type == .int16 || type == .int32 || type == .int64

/-- `width` -/
def widthOf (type : ValueType) (options : ValueIoOptions) : ℕ :=
  if type = .pointer then options.pointerWidthOverride.getD options.pointerWidth
  else scalarWidth type

/-- `integer` -/
def isInteger (type : ValueType) : Bool := isIntegerScalar type || type == .pointer

def bigEndianEncoding (options : ValueIoOptions) : Bool :=
  match options.byteOrder with
  | some order => order == .big
  | none => options.bigEndian

def trim (s : Text) : Text := Slices.trim isBlank s

/-! ### Encoding -/

/-- A character between the bytes of an array. -/
def isByteSeparator (c : Char) : Bool := c == ' ' || c == ',' || c == '\t' || c == '\r' || c == '\n'

/-- One byte of an array: hexadecimal, with or without a mark. -/
def parseByte (token : Text) : Option UInt8 :=
  let digits := match token with
    | '0' :: 'x' :: rest => rest
    | '0' :: 'X' :: rest => rest
    | _ => token
  if digits.isEmpty then none
  else if digits.all fun c => (digitValue c).isSome then
    if value 16 digits ≤ 255 then some (UInt8.ofNat (value 16 digits)) else none
  else none

def parseBytes : ℕ → Text → Option (List UInt8)
  | 0, _ => some []
  | turns + 1, text =>
    if text.isEmpty then some []
    else do
      let byte ← parseByte (text.takeWhile fun c => !isByteSeparator c)
      let rest ← parseBytes turns
        ((text.dropWhile fun c => !isByteSeparator c).dropWhile isByteSeparator)
      return byte :: rest

/-- `bytes[bigEndian ? count - 1 - i : i] = bits >> (8 * i)` -/
def wordBytes (bits : UInt64) (count : ℕ) (bigEndian : Bool) : List UInt8 :=
  (List.range count).map fun k =>
    let i := if bigEndian then count - 1 - k else k
    (bits >>> UInt64.ofNat (8 * i)).toUInt8

def integerBits (options : ValueIoOptions) (count : ℕ) (text : Text) : Except Text UInt64 :=
  match parseIntegerScalar text options.hex with
  | none => .error "Enter a decimal integer or a hexadecimal value beginning with 0x".toList
  | some parsed =>
    let bits := parsed.toUInt64
    let negative := text.head? == some '-'
    if count < 8 ∧ (negative = true ∧ parsed.toInt < -2 ^ (count * 8 - 1) ∨
        negative = false ∧ bits > ValueCodec.maskFor count) then
      .error ("The value does not fit in ".toList ++ Nat.toDigits 10 count ++ " bytes".toList)
    else .ok (if options.codec.active then options.codec.encode bits count else bits)

def floatBits (conv : Converters) (type : ValueType) (text : Text) : Except Text UInt64 :=
  let text := text.map fun c => if c = ',' then '.' else c
  let token := match text with
    | '+' :: '-' :: _ => []
    | '+' :: rest => rest
    | _ => text
  match (if token.isEmpty then none else conv.double token) with
  | none => .error "Enter a floating-point value, for example 2.5 or 2,5".toList
  | some number =>
    if type = .float then
      match conv.float token with
      | some converted => .ok converted.toUInt64
      | none =>
        if conv.large number then
          .error "The value exceeds the float range; use double instead".toList
        else .ok (conv.toFloat number).toUInt64
    else .ok number

def knownOrder (order : ByteOrder) : Bool := order == .little || order == .big

def stringEncoding (type : ValueType) (options : ValueIoOptions) : Text :=
  if type = .unicodeString then
    if bigEndianEncoding options then "UTF-16BE".toList else "UTF-16LE".toList
  else options.encoding

def encodeTypedValue (conv : Converters) (type : ValueType) (value : Text)
    (options : ValueIoOptions) : Except Text (List UInt8) :=
  if type ≠ .byteArray ∧ type ≠ .string ∧ options.byteOrder.any (!knownOrder ·) then
    .error "Invalid data byte order".toList
  else if type = .pointer ∧ widthOf type options ≠ 4 ∧ widthOf type options ≠ 8 then
    .error "Pointer width must be 4 or 8 bytes".toList
  else if options.codec.active ∧ isInteger type = false then
    .error "Value codecs require an integer or pointer type".toList
  else if type = .string ∨ type = .unicodeString then
    conv.encodeString (if options.terminate then value ++ ['\x00'] else value)
      (stringEncoding type options)
  else if type = .byteArray then
    match parseBytes (trim value).length (trim value) with
    | none => .error
      "Byte arrays need concrete hexadecimal bytes, for example '90 90 48 8B'".toList
    | some [] => .error "Enter at least one byte".toList
    | some bytes => .ok bytes
  else
    let count := widthOf type options
    if count ≠ 1 ∧ count ≠ 2 ∧ count ≠ 4 ∧ count ≠ 8 then
      .error "This type describes a scan, not a single editable value".toList
    else
      match if isInteger type then integerBits options count (trim value)
        else floatBits conv type (trim value) with
      | .error e => .error e
      | .ok bits => .ok (wordBytes bits count (bigEndianEncoding options))

/-! ### Decoding -/

def hexDigit (d : ℕ) : Char := "0123456789ABCDEF".toList.getD d '0'

def byteText (b : UInt8) : Text := [hexDigit (b.toNat / 16), hexDigit (b.toNat % 16)]

/-- `AA BB …` -/
def bytesText : List UInt8 → Text
  | [] => []
  | [b] => byteText b
  | b :: rest => byteText b ++ ' ' :: bytesText rest

def decodeTypedValue (conv : Converters) (type : ValueType) (bytes : List UInt8)
    (options : ValueIoOptions) : Except Text Text :=
  let scalar := widthOf type options
  let string : Bool := type == .string || type == .unicodeString
  if type ≠ .byteArray ∧ type ≠ .string ∧ options.byteOrder.any (!knownOrder ·) then
    .error "Invalid captured data byte order".toList
  else if type = .pointer ∧ scalar ≠ 4 ∧ scalar ≠ 8 then
    .error "Captured pointer width must be 4 or 8 bytes".toList
  else if scalar = 0 ∧ string = false ∧ type ≠ .byteArray then
    .error "This type describes a scan, not a single readable value".toList
  else if options.codec.active ∧ isInteger type = false then
    .error "Value codecs require an integer or pointer type".toList
  else if bytes = [] ∨ scalar ≠ 0 ∧ bytes.length ≠ scalar then
    .error "Captured value has an incomplete or incorrect width".toList
  else if options.byteOrder = some .unknown ∧ (scalar > 1 ∨ type = .unicodeString) then
    .error "Captured value byte order is unknown".toList
  else if string then
    match conv.encodeString [] (stringEncoding type options) with
    | .error e => .error e
    | .ok _ => .ok ((conv.decodeString bytes (stringEncoding type options)).takeWhile (· != '\x00'))
  else if type = .byteArray then .ok (bytesText bytes)
  else
    match Expression.decodeTargetUnsigned bytes
        (if bigEndianEncoding options then .big else .little) with
    | none => .error []
    | some stored =>
      let bits := if options.codec.active then options.codec.decode stored scalar else stored
      if isInteger type then
        .ok (formatIntegerScalar bits scalar (options.isSigned && type != .pointer)
          (options.hex || type == .pointer))
      else if type = .float then .ok (conv.floatText bits.toUInt32)
      else .ok (conv.doubleText bits)

/-! ### Words and bytes -/

theorem leBytes_eq_map (k n : ℕ) :
    leBytes k n = (List.range k).map fun i => UInt8.ofNat (n / 256 ^ i % 256) := by
  induction k generalizing n with
  | zero => rfl
  | succ k ih =>
    rw [leBytes, ih, List.range_succ_eq_map, List.map_cons, List.map_map, pow_zero, Nat.div_one]
    congr 1
    refine List.map_congr_left fun i _ => ?_
    rw [Function.comp_apply, Nat.div_div_eq_div_mul, pow_succ']

theorem wordBytes_little {count : ℕ} (hcount : count ≤ 8) (bits : UInt64) :
    wordBytes bits count false = leBytes count bits.toNat := by
  rw [leBytes_eq_map, wordBytes]
  refine List.map_congr_left fun i hi => ?_
  have hi : i < count := List.mem_range.mp hi
  have hshift : (UInt64.ofNat (8 * i)).toNat % 64 = 8 * i := by
    rw [UInt64.toNat_ofNat_of_lt' (by change _ < 2 ^ 64; omega), Nat.mod_eq_of_lt (by omega)]
  refine UInt8.toNat_inj.mp ?_
  rw [if_neg Bool.false_ne_true, UInt64.toNat_toUInt8, UInt64.toNat_shiftRight, hshift,
    Nat.shiftRight_eq_div_pow, pow_mul, UInt8.toNat_ofNat', Nat.mod_mod]
  rfl

theorem wordBytes_big (bits : UInt64) (count : ℕ) :
    wordBytes bits count true = (wordBytes bits count false).reverse := by
  unfold wordBytes
  rw [← List.map_reverse, List.range_eq_range', List.reverse_range', List.map_map,
    ← List.range_eq_range']
  refine List.map_congr_left fun k _ => ?_
  simp

def orderedBytes (bytes : List UInt8) (bigEndian : Bool) : List UInt8 :=
  if bigEndian then bytes.reverse else bytes

theorem foldr_toNat {bytes : List UInt8} (h : bytes.length ≤ 8) :
    (bytes.foldr (fun (b : UInt8) (value : UInt64) => value <<< 8 ||| b.toUInt64) 0).toNat =
      leNat bytes := by
  induction bytes with
  | nil => rfl
  | cons b bytes ih =>
    rw [List.length_cons] at h
    have ih := ih (by omega)
    have hlt := leNat_lt bytes
    have hfits : leNat bytes * 2 ^ 8 < 2 ^ 64 := by
      have hpow : (256 : ℕ) ^ bytes.length ≤ 256 ^ 7 := Nat.pow_le_pow_right (by omega) (by omega)
      omega
    have hb : b.toNat < 2 ^ 8 := b.toNat_lt
    rw [List.foldr_cons, UInt64.toNat_or, UInt64.toNat_shiftLeft, ih, leNat,
      show (8 : UInt64).toNat % 64 = 8 from rfl, Nat.shiftLeft_eq, Nat.mod_eq_of_lt hfits,
      UInt8.toNat_toUInt64, ← Nat.shiftLeft_eq, ← Nat.shiftLeft_add_eq_or_of_lt hb,
      Nat.shiftLeft_eq]
    omega

theorem decode_toNat {bytes : List UInt8} (hne : bytes ≠ []) (h : bytes.length ≤ 8)
    (bigEndian : Bool) : ∃ bits, Expression.decodeTargetUnsigned bytes
      (if bigEndian then .big else .little) = some bits ∧
        bits.toNat = leNat (orderedBytes bytes bigEndian) := by
  unfold Expression.decodeTargetUnsigned orderedBytes
  rw [if_neg (by simp [hne]; omega)]
  cases bigEndian with
  | true =>
    refine ⟨_, rfl, ?_⟩
    rw [if_pos rfl, ← foldr_toNat (by simpa using h), List.foldr_reverse]
  | false =>
    refine ⟨_, rfl, ?_⟩
    rw [if_neg Bool.false_ne_true, ← foldr_toNat h, List.foldl_reverse]

theorem wordBytes_decode {bytes : List UInt8} {bits : UInt64} (h : bytes.length ≤ 8)
    {bigEndian : Bool} (hbits : bits.toNat = leNat (orderedBytes bytes bigEndian)) :
    wordBytes bits bytes.length bigEndian = bytes := by
  cases bigEndian with
  | false =>
    rw [wordBytes_little h, hbits]
    exact leBytes_leNat bytes
  | true =>
    have hback := leBytes_leNat bytes.reverse
    rw [List.length_reverse] at hback
    rw [wordBytes_big, wordBytes_little h, hbits]
    exact List.reverse_eq_iff.mpr hback

theorem decode_wordBytes {count : ℕ} (hcount : ValueCodec.IsWidth count) (bits : UInt64)
    (bigEndian : Bool) : Expression.decodeTargetUnsigned (wordBytes bits count bigEndian)
      (if bigEndian then .big else .little) = some (bits &&& ValueCodec.maskFor count) := by
  have hle : count ≤ 8 := by rcases hcount with rfl | rfl | rfl | rfl <;> omega
  have hpos : 0 < count := by rcases hcount with rfl | rfl | rfl | rfl <;> omega
  have hlength : (wordBytes bits count bigEndian).length = count := by simp [wordBytes]
  have hordered : orderedBytes (wordBytes bits count bigEndian) bigEndian =
      leBytes count bits.toNat := by
    cases bigEndian with
    | false => exact wordBytes_little hle bits
    | true =>
      rw [orderedBytes, if_pos rfl, wordBytes_big, List.reverse_reverse, wordBytes_little hle]
  obtain ⟨stored, hstored, hnat⟩ := @decode_toNat (wordBytes bits count bigEndian)
    (by intro h; rw [h] at hlength; simp at hlength; omega) (by omega) bigEndian
  rw [hstored]
  congr 1
  refine UInt64.toNat_inj.mp ?_
  rw [hnat, hordered, ValueCodec.toNat_and_maskFor hcount, leNat_leBytes_mod, pow_mul]
  rfl

theorem leBytes_mod (k n : ℕ) : leBytes k (n % 256 ^ k) = leBytes k n := by
  have h := leBytes_leNat (leBytes k n)
  rwa [leBytes_length, leNat_leBytes_mod] at h

theorem wordBytes_and_mask {count : ℕ} (hcount : ValueCodec.IsWidth count) (bits : UInt64)
    (bigEndian : Bool) :
    wordBytes (bits &&& ValueCodec.maskFor count) count bigEndian =
      wordBytes bits count bigEndian := by
  have hle : count ≤ 8 := by rcases hcount with rfl | rfl | rfl | rfl <;> omega
  have hlittle : wordBytes (bits &&& ValueCodec.maskFor count) count false =
      wordBytes bits count false := by
    rw [wordBytes_little hle, wordBytes_little hle, ValueCodec.toNat_and_maskFor hcount, pow_mul]
    exact leBytes_mod count bits.toNat
  cases bigEndian with
  | false => exact hlittle
  | true => rw [wordBytes_big, wordBytes_big, hlittle]

/-! ### Integers -/

variable {conv : Converters} {type : ValueType} {options : ValueIoOptions}

def IntegerType (type : ValueType) (options : ValueIoOptions) : Prop :=
  isInteger type = true ∧ (type = .pointer → widthOf type options = 4 ∨ widthOf type options = 8)

theorem IntegerType.width (h : IntegerType type options) :
    ValueCodec.IsWidth (widthOf type options) := by
  obtain ⟨hinteger, hpointer⟩ := h
  cases type <;> first
    | exact .inl rfl
    | exact .inr (.inl rfl)
    | exact .inr (.inr (.inl rfl))
    | exact .inr (.inr (.inr rfl))
    | exact .inr (.inr (hpointer rfl))
    | cases hinteger

def KnownOrder (options : ValueIoOptions) : Prop := options.byteOrder.any (!knownOrder ·) = false

theorem IntegerType.not_string (h : IntegerType type options) :
    type ≠ .string ∧ type ≠ .unicodeString ∧ type ≠ .byteArray := by
  obtain ⟨hinteger, -⟩ := h
  refine ⟨?_, ?_, ?_⟩ <;> rintro rfl <;> cases hinteger

/-- Whether decimals are shown with a sign, and whether hexadecimals are shown at all. -/
def showsSigned (type : ValueType) (options : ValueIoOptions) : Bool :=
  options.isSigned && type != .pointer

def showsHex (type : ValueType) (options : ValueIoOptions) : Bool :=
  options.hex || type == .pointer

def storedWord (options : ValueIoOptions) (count : ℕ) (bits : UInt64) : UInt64 :=
  if options.codec.active then options.codec.encode bits count else bits

def logicalWord (options : ValueIoOptions) (count : ℕ) (bits : UInt64) : UInt64 :=
  if options.codec.active then options.codec.decode bits count else bits

theorem logicalWord_storedWord {count : ℕ} (h : ValueCodec.IsWidth count) (bits : UInt64) :
    logicalWord options count (storedWord options count bits &&& ValueCodec.maskFor count) &&&
      ValueCodec.maskFor count = bits &&& ValueCodec.maskFor count := by
  unfold logicalWord storedWord
  split
  · rw [ValueCodec.decode_and_mask, ValueCodec.decode_encode h, ValueCodec.and_mask_and_mask]
  · rw [ValueCodec.and_mask_and_mask]

theorem storedWord_logicalWord {count : ℕ} (h : ValueCodec.IsWidth count) {bits : UInt64}
    (hbits : bits &&& ValueCodec.maskFor count = bits) {word : UInt64}
    (hword : word &&& ValueCodec.maskFor count =
      logicalWord options count bits &&& ValueCodec.maskFor count) :
    storedWord options count word &&& ValueCodec.maskFor count = bits := by
  unfold logicalWord at hword
  unfold storedWord
  split
  · rename_i hactive
    rw [if_pos hactive] at hword
    rw [← ValueCodec.encode_and_mask, hword, ValueCodec.encode_and_mask,
      ValueCodec.encode_decode h, ValueCodec.and_mask_and_mask, hbits]
  · rename_i hactive
    rw [if_neg hactive, hbits] at hword
    exact hword

theorem encode_integer (h : IntegerType type options) (horder : KnownOrder options)
    (value : Text) : encodeTypedValue conv type value options =
      match integerBits options (widthOf type options) (trim value) with
      | .error e => .error e
      | .ok bits => .ok (wordBytes bits (widthOf type options) (bigEndianEncoding options)) := by
  obtain ⟨hstring, hunicode, hbytes⟩ := h.not_string
  have hwidth := h.width
  unfold encodeTypedValue
  rw [if_neg fun hbad => by rw [horder] at hbad; exact absurd hbad.2.2 (by simp),
    if_neg fun hbad => by rcases h.2 hbad.1 with hw | hw; exact hbad.2.1 hw; exact hbad.2.2 hw,
    if_neg (by rw [h.1]; simp), if_neg (by simp [hstring, hunicode]), if_neg hbytes]
  dsimp only
  rw [if_neg fun hbad => by rcases hwidth with hw | hw | hw | hw <;> simp [hw] at hbad, if_pos h.1]

theorem decode_integer (h : IntegerType type options) (horder : KnownOrder options)
    {bytes : List UInt8} (hlength : bytes.length = widthOf type options) {stored : UInt64}
    (hstored : Expression.decodeTargetUnsigned bytes
      (if bigEndianEncoding options then .big else .little) = some stored) :
    decodeTypedValue conv type bytes options =
      .ok (formatIntegerScalar (logicalWord options (widthOf type options) stored)
        (widthOf type options) (showsSigned type options) (showsHex type options)) := by
  obtain ⟨hstring, hunicode, hbytes⟩ := h.not_string
  have hwidth := h.width
  have hpos : widthOf type options ≠ 0 := by
    rcases hwidth with hw | hw | hw | hw <;> rw [hw] <;> decide
  have hne : bytes ≠ [] := by
    rintro rfl
    exact hpos hlength.symm
  have hknown : options.byteOrder ≠ some .unknown := by
    intro hbad
    rw [KnownOrder, hbad] at horder
    cases horder
  unfold decodeTypedValue
  dsimp only
  rw [if_neg fun hbad => by rw [horder] at hbad; exact absurd hbad.2.2 (by simp),
    if_neg fun hbad => by rcases h.2 hbad.1 with hw | hw; exact hbad.2.1 hw; exact hbad.2.2 hw,
    if_neg fun hbad => hpos hbad.1, if_neg (by rw [h.1]; simp),
    if_neg (by simp [hne, hlength]), if_neg fun hbad => hknown hbad.1,
    if_neg (by simp [hstring, hunicode]), if_neg hbytes, hstored]
  dsimp only
  rw [if_pos h.1]
  rfl

theorem IntegerText.sign {hex : Bool} {t : Text} {v : ℤ} (h : IntegerText hex t v) :
    (t.head? = some '-' → v ≤ 0) ∧ (t.head? ≠ some '-' → 0 ≤ v) := by
  have hv := (integerText_iff.mp h).2.2
  unfold splitSign at hv
  split at hv
  · rw [if_pos rfl] at hv
    exact ⟨fun _ => by omega, fun hne => absurd rfl hne⟩
  · rw [if_neg Bool.false_ne_true] at hv
    exact ⟨fun heq => (by cases heq), fun _ => by omega⟩
  · rename_i hne _
    rw [if_neg Bool.false_ne_true] at hv
    refine ⟨fun heq => ?_, fun _ => by omega⟩
    obtain ⟨rest, rfl⟩ := List.head?_eq_some_iff.mp heq
    exact absurd rfl (hne rest)

theorem toInt_of_emod {p : Int64} {v : ℤ} (h : (p.toUInt64.toNat : ℤ) = v % 2 ^ 64)
    (hlow : -2 ^ 63 ≤ v) (hhigh : v < 2 ^ 63) : p.toInt = v := by
  have hp : p.toInt = (p.toUInt64.toNat : ℤ).bmod (2 ^ 64) := toInt_toInt64 p.toUInt64
  rw [hp, h, Int.bmod_def]
  omega

/-- The integers that fit a width, signed or unsigned. -/
def Fits (count : ℕ) (v : ℤ) : Prop := -2 ^ (8 * count - 1) ≤ v ∧ v ≤ 2 ^ (8 * count) - 1

/-- **An integer text is accepted** if and only if its value fits the width. -/
theorem integerBits_ok_iff {count : ℕ} (hcount : ValueCodec.IsWidth count) {t : Text}
    (htrim : Slices.trim (fun c => c == ' ' || c == '\t') t = t) {bits : UInt64} :
    integerBits options count t = .ok bits ↔ ∃ v word, IntegerText options.hex t v ∧
      Fits count v ∧ (word.toNat : ℤ) = v % 2 ^ 64 ∧ bits = storedWord options count word := by
  unfold integerBits Fits
  cases hp : parseIntegerScalar t options.hex with
  | none =>
    constructor
    · intro h
      cases h
    · rintro ⟨v, word, htext, ⟨hlow, hhigh⟩, hword, -⟩
      have hsome := (parseIntegerScalar_eq_some_iff (p := word.toInt64) htrim).mpr
        ⟨v, htext, by rcases hcount with rfl | rfl | rfl | rfl <;> simp at hlow <;> omega,
          by rcases hcount with rfl | rfl | rfl | rfl <;> simp at hhigh <;> omega, hword⟩
      rw [hp] at hsome
      cases hsome
  | some p =>
    obtain ⟨v, htext, hlow, hhigh, hv⟩ := (parseIntegerScalar_eq_some_iff htrim).mp hp
    have hsign := IntegerText.sign htext
    dsimp only
    have hfits : (count < 8 ∧ ((t.head? == some '-') = true ∧ p.toInt < -2 ^ (count * 8 - 1) ∨
        (t.head? == some '-') = false ∧ p.toUInt64 > ValueCodec.maskFor count)) ↔
        ¬(-2 ^ (8 * count - 1) ≤ v ∧ v ≤ 2 ^ (8 * count) - 1) := by
      have hmask := ValueCodec.toNat_maskFor hcount
      rw [gt_iff_lt, UInt64.lt_iff_toNat_lt, hmask]
      by_cases hneg : t.head? = some '-'
      · have hle := hsign.1 hneg
        rw [toInt_of_emod hv hlow (by omega), hneg]
        rcases hcount with rfl | rfl | rfl | rfl <;> simp <;> omega
      · have hge := hsign.2 hneg
        have hbeq : (t.head? == some '-') = false := by simpa using hneg
        rw [hbeq]
        rcases hcount with rfl | rfl | rfl | rfl <;> simp <;> omega
    constructor
    · intro h
      split at h
      · cases h
      · rename_i hnot
        rw [hfits, not_not] at hnot
        cases h
        exact ⟨v, p.toUInt64, htext, hnot, hv, rfl⟩
    · rintro ⟨v', word, htext', hin, hword, rfl⟩
      obtain rfl := htext.unique htext'
      rw [if_neg (by rw [hfits, not_not]; exact hin),
        UInt64.toNat_inj.mp (Int.ofNat.inj (hword.trans hv.symm))]
      rfl

theorem trim_tabs (value : Text) :
    Slices.trim (fun c => c == ' ' || c == '\t') (trim value) = trim value := by
  refine Slices.trim_trim_of_imp (fun c hc => ?_) value
  simp only [Bool.or_eq_true, beq_iff_eq] at hc
  rcases hc with rfl | rfl <;> rfl

theorem emod_of_emod {x y : ℤ} {count : ℕ} (hcount : ValueCodec.IsWidth count)
    (h : x = y % 2 ^ 64) : x % 2 ^ (8 * count) = y % 2 ^ (8 * count) := by
  subst h
  rcases hcount with rfl | rfl | rfl | rfl <;> simp only [Nat.reduceMul, Int.reducePow] <;> omega

/-- **What was typed is displayed** in its canonical form. -/
theorem integer_displayed (h : IntegerType type options) (horder : KnownOrder options)
    {value : Text} {bytes : List UInt8}
    (hencode : encodeTypedValue conv type value options = .ok bytes) :
    ∃ v, IntegerText options.hex (trim value) v ∧ Fits (widthOf type options) v ∧
      decodeTypedValue conv type bytes options = .ok (canonicalText v (widthOf type options)
        (showsSigned type options) (showsHex type options)) := by
  have hwidth := h.width
  rw [encode_integer h horder] at hencode
  cases hbits : integerBits options (widthOf type options) (trim value) with
  | error e =>
    rw [hbits] at hencode
    cases hencode
  | ok bits =>
    rw [hbits] at hencode
    cases hencode
    obtain ⟨v, word, htext, hfits, hword, rfl⟩ :=
      (integerBits_ok_iff hwidth (trim_tabs value)).mp hbits
    refine ⟨v, htext, hfits, ?_⟩
    rw [decode_integer h horder (by simp [wordBytes]) (decode_wordBytes hwidth _ _),
      formatIntegerScalar_eq (v := v) hwidth]
    rw [logicalWord_storedWord hwidth, ValueCodec.toNat_and_maskFor hwidth, Int.natCast_mod,
      two_pow_cast]
    exact emod_of_emod hwidth hword

theorem integer_accepted_iff (h : IntegerType type options) (horder : KnownOrder options)
    {value : Text} {v : ℤ} (htext : IntegerText options.hex (trim value) v) :
    (∃ bytes, encodeTypedValue conv type value options = .ok bytes) ↔
      Fits (widthOf type options) v := by
  have hwidth := h.width
  rw [encode_integer h horder]
  constructor
  · rintro ⟨bytes, hencode⟩
    cases hbits : integerBits options (widthOf type options) (trim value) with
    | error e =>
      rw [hbits] at hencode
      cases hencode
    | ok bits =>
      obtain ⟨v', word, htext', hfits, -, -⟩ :=
        (integerBits_ok_iff hwidth (trim_tabs value)).mp hbits
      rwa [htext.unique htext']
  · intro hfits
    have hpos : (0 : ℤ) ≤ v % 2 ^ 64 := Int.emod_nonneg _ (by decide)
    obtain ⟨n, hn⟩ := Int.eq_ofNat_of_zero_le hpos
    have hlt : n < 2 ^ 64 := by
      have := Int.emod_lt_of_pos v (show (0 : ℤ) < 2 ^ 64 by decide)
      omega
    rw [(integerBits_ok_iff hwidth (trim_tabs value)).mpr
      ⟨v, UInt64.ofNat n, htext, hfits, by rw [UInt64.toNat_ofNat_of_lt' hlt, hn], rfl⟩]
    exact ⟨_, rfl⟩

theorem digit_not_blank {c : Char} {d : ℕ} (h : digitValue c = some d) : isBlank c = false := by
  by_contra hblank
  simp only [isBlank, Bool.not_eq_false, Bool.or_eq_true, beq_iff_eq] at hblank
  rcases hblank with ((rfl | rfl) | rfl) | rfl <;> cases h

theorem trim_canonicalText (v : ℤ) (width : ℕ) (isSigned hex : Bool) :
    trim (canonicalText v width isSigned hex) = canonicalText v width isSigned hex := by
  have hplain := canonicalText_plain (p := isBlank) rfl (fun _ _ => digit_not_blank) rfl v width
    isSigned hex
  exact Slices.trim_eq_self (fun b hb => hplain b (List.mem_of_mem_head? hb))
    fun b hb => hplain b (List.mem_of_getLast? hb)

/-- **The bytes of an integer survive their text.** -/
theorem integer_round_trip (h : IntegerType type options) (horder : KnownOrder options)
    {bytes : List UInt8} (hlength : bytes.length = widthOf type options) :
    ∃ text, decodeTypedValue conv type bytes options = .ok text ∧
      encodeTypedValue conv type text options = .ok bytes := by
  have hwidth := h.width
  have hle : bytes.length ≤ 8 := by
    rw [hlength]
    rcases hwidth with hw | hw | hw | hw <;> omega
  have hne : bytes ≠ [] := by
    rintro rfl
    rcases hwidth with hw | hw | hw | hw <;> rw [hw] at hlength <;> cases hlength
  obtain ⟨stored, hstored, hnat⟩ := decode_toNat hne hle (bigEndianEncoding options)
  refine ⟨_, decode_integer h horder hlength hstored, ?_⟩
  obtain ⟨logical, hlogical⟩ :
      ∃ x, logicalWord options (widthOf type options) stored = x := ⟨_, rfl⟩
  rw [hlogical, formatIntegerScalar_eq (v := (logical.toNat : ℤ)) hwidth (by
    rw [ValueCodec.toNat_and_maskFor hwidth, Int.natCast_mod, two_pow_cast])]
  have htext := @canonicalText_text options.hex (showsHex type options)
    (fun hshows => by
      unfold showsHex at hshows
      simp only [Bool.or_eq_false_iff] at hshows
      exact hshows.1) (logical.toNat : ℤ) (widthOf type options) (showsSigned type options)
  have hemod := shownValue_emod (logical.toNat : ℤ) (widthOf type options)
    (showsSigned type options) (showsHex type options)
  have hbounds := shownValue_bounds hwidth (logical.toNat : ℤ) (showsSigned type options)
    (showsHex type options)
  generalize shownValue (logical.toNat : ℤ) (widthOf type options) (showsSigned type options)
    (showsHex type options) = shown at htext hemod hbounds
  generalize ht : canonicalText (logical.toNat : ℤ) (widthOf type options)
    (showsSigned type options) (showsHex type options) = t at htext
  have htrim : trim t = t := by rw [← ht]; exact trim_canonicalText _ _ _ _
  have hpos : (0 : ℤ) ≤ shown % 2 ^ 64 := Int.emod_nonneg _ (by decide)
  obtain ⟨n, hn⟩ := Int.eq_ofNat_of_zero_le hpos
  have hlt : n < 2 ^ 64 := by
    have := Int.emod_lt_of_pos shown (show (0 : ℤ) < 2 ^ 64 by decide)
    omega
  have hword : ((UInt64.ofNat n).toNat : ℤ) = shown % 2 ^ 64 := by
    rw [UInt64.toNat_ofNat_of_lt' hlt, hn]
  rw [encode_integer h horder, (integerBits_ok_iff hwidth (trim_tabs t)).mpr
    ⟨shown, UInt64.ofNat n, htrim.symm ▸ htext, ⟨hbounds.1, by omega⟩, hword, rfl⟩]
  dsimp only
  -- The word of the text and the word that was shown agree in the low part.
  have hmasked : stored &&& ValueCodec.maskFor (widthOf type options) = stored := by
    refine UInt64.toNat_inj.mp ?_
    have hlt := leNat_lt (orderedBytes bytes (bigEndianEncoding options))
    have hordered : (orderedBytes bytes (bigEndianEncoding options)).length = bytes.length := by
      unfold orderedBytes
      split <;> simp
    rw [ValueCodec.toNat_and_maskFor hwidth, hnat, pow_mul, ← hlength, ← hordered]
    exact Nat.mod_eq_of_lt hlt
  have hsame : UInt64.ofNat n &&& ValueCodec.maskFor (widthOf type options) =
      logicalWord options (widthOf type options) stored &&&
        ValueCodec.maskFor (widthOf type options) := by
    refine UInt64.toNat_inj.mp (Int.ofNat.inj ?_)
    rw [ValueCodec.toNat_and_maskFor hwidth, ValueCodec.toNat_and_maskFor hwidth, hlogical]
    change ((_ % _ : ℕ) : ℤ) = ((_ % _ : ℕ) : ℤ)
    rw [Int.natCast_mod, Int.natCast_mod, two_pow_cast, ← hemod]
    exact emod_of_emod hwidth hword
  have hback := storedWord_logicalWord hwidth hmasked hsame
  rw [← wordBytes_and_mask hwidth, hback, ← hlength, wordBytes_decode hle hnat]

/-! ### Byte arrays -/

theorem hexDigit_plain {d : ℕ} (h : d < 16) :
    isByteSeparator (hexDigit d) = false ∧ isBlank (hexDigit d) = false := by
  interval_cases d <;> exact ⟨rfl, rfl⟩

theorem byteText_plain (b : UInt8) {c : Char} (hc : c ∈ byteText b) :
    isByteSeparator c = false ∧ isBlank c = false := by
  have hb : b.toNat < 256 := b.toNat_lt
  unfold byteText at hc
  rcases List.mem_cons.mp hc with rfl | hc
  · exact hexDigit_plain (by omega)
  · rw [List.mem_singleton.mp hc]
    exact hexDigit_plain (by omega)

theorem parseByte_digits : ∀ i < 16, ∀ j < 16,
    parseByte [hexDigit i, hexDigit j] = some (UInt8.ofNat (16 * i + j)) := by
  decide

theorem parseByte_byteText (b : UInt8) : parseByte (byteText b) = some b := by
  have hb : b.toNat < 256 := b.toNat_lt
  rw [byteText, parseByte_digits _ (by omega) _ (by omega), Nat.div_add_mod, UInt8.ofNat_toNat]

theorem bytesText_cons_cons (b c : UInt8) (rest : List UInt8) :
    bytesText (b :: c :: rest) = byteText b ++ ' ' :: bytesText (c :: rest) :=
  rfl

theorem bytesText_cons (b : UInt8) (rest : List UInt8) :
    ∃ tail, bytesText (b :: rest) = hexDigit (b.toNat / 16) :: tail := by
  cases rest with
  | nil => exact ⟨_, rfl⟩
  | cons c rest => exact ⟨_, rfl⟩

theorem bytesText_getLast (b : UInt8) (rest : List UInt8) :
    ∃ d < 16, (bytesText (b :: rest)).getLast? = some (hexDigit d) := by
  induction rest generalizing b with
  | nil => exact ⟨b.toNat % 16, by omega, rfl⟩
  | cons c rest ih =>
    obtain ⟨d, hd, hlast⟩ := ih c
    refine ⟨d, hd, ?_⟩
    rw [bytesText_cons_cons, List.getLast?_append, List.getLast?_cons, hlast]
    rfl

theorem length_bytesText (bytes : List UInt8) : bytes.length ≤ (bytesText bytes).length := by
  fun_induction bytesText bytes with
  | case1 => exact le_rfl
  | case2 b => simp [byteText]
  | case3 b rest _ ih =>
    simp only [List.length_append, List.length_cons, byteText]
    omega

theorem trim_bytesText {bytes : List UInt8} (h : bytes ≠ []) :
    trim (bytesText bytes) = bytesText bytes := by
  obtain ⟨b, rest, rfl⟩ := List.exists_cons_of_ne_nil h
  obtain ⟨tail, hhead⟩ := bytesText_cons b rest
  obtain ⟨d, hd, hlast⟩ := bytesText_getLast b rest
  have hb : b.toNat < 256 := b.toNat_lt
  refine Slices.trim_eq_self (fun c hc => ?_) fun c hc => ?_
  · rw [hhead, List.head?_cons, Option.some.injEq] at hc
    rw [← hc]
    exact (hexDigit_plain (by omega)).2
  · rw [hlast, Option.some.injEq] at hc
    rw [← hc]
    exact (hexDigit_plain hd).2

theorem parseBytes_nil (turns : ℕ) : parseBytes turns [] = some [] := by
  cases turns <;> rfl

theorem parseBytes_bytesText (bytes : List UInt8) {turns : ℕ} (h : bytes.length ≤ turns) :
    parseBytes turns (bytesText bytes) = some bytes := by
  induction bytes generalizing turns with
  | nil => exact parseBytes_nil turns
  | cons b rest ih =>
    obtain ⟨turns, rfl⟩ : ∃ n, turns = n + 1 := ⟨turns - 1, by rw [List.length_cons] at h; omega⟩
    have hplain : ∀ c ∈ byteText b, (!isByteSeparator c) = true := fun c hc => by
      rw [(byteText_plain b hc).1]
      rfl
    cases rest with
    | nil =>
      rw [bytesText, parseBytes, if_neg (by simp [byteText]), List.takeWhile_eq_self_iff.mpr hplain,
        List.dropWhile_eq_nil_iff.mpr hplain, parseByte_byteText]
      simp [parseBytes_nil]
    | cons c rest =>
      have ih := @ih turns (by simpa using h)
      obtain ⟨tail, hhead⟩ := bytesText_cons c rest
      have hc : c.toNat < 256 := c.toNat_lt
      have hskip : (bytesText (c :: rest)).dropWhile isByteSeparator = bytesText (c :: rest) := by
        refine Slices.dropWhile_of_head fun x hx => ?_
        rw [hhead, List.head?_cons, Option.some.injEq] at hx
        rw [← hx]
        exact (hexDigit_plain (by omega)).1
      rw [bytesText_cons_cons, parseBytes, if_neg (by simp [byteText]),
        List.takeWhile_append_of_pos hplain, List.dropWhile_append_of_pos hplain,
        List.takeWhile_cons_of_neg (by decide), List.dropWhile_cons_of_neg (by decide),
        List.dropWhile_cons_of_pos rfl, hskip, ih, List.append_nil, parseByte_byteText]
      rfl

/-- **The bytes of an array survive their text.** -/
theorem byteArray_round_trip (hcodec : options.codec.active = false) {bytes : List UInt8}
    (hne : bytes ≠ []) : ∃ text, decodeTypedValue conv .byteArray bytes options = .ok text ∧
      encodeTypedValue conv .byteArray text options = .ok bytes := by
  refine ⟨bytesText bytes, ?_, ?_⟩
  · simp [decodeTypedValue, hcodec, hne, widthOf, scalarWidth]
  · obtain ⟨b, rest, rfl⟩ := List.exists_cons_of_ne_nil hne
    simp [encodeTypedValue, hcodec, trim_bytesText,
      parseBytes_bytesText (b :: rest) (length_bytesText _)]

theorem byteArray_codec (hcodec : options.codec.active = true) (bytes : List UInt8)
    (text : Text) :
    decodeTypedValue conv .byteArray bytes options =
        .error "Value codecs require an integer or pointer type".toList ∧
      encodeTypedValue conv .byteArray text options =
        .error "Value codecs require an integer or pointer type".toList := by
  constructor
  · simp [decodeTypedValue, hcodec, isInteger, isIntegerScalar]
  · simp [encodeTypedValue, hcodec, isInteger, isIntegerScalar]

/-! ### The round trip -/

/-- **Typed values survive their text.**  Bytes of an integer or of a pointer are written back as
they were, whatever the codec; those of an array too, where no codec is active, and with one both
functions refuse.  An integer text is accepted if and only if its value fits the width, and what
it wrote is shown as the canonical text of that value. -/
theorem typed_values_round_trip (conv : Converters) (options : ValueIoOptions)
    (horder : KnownOrder options) :
    (∀ type bytes, IntegerType type options → bytes.length = widthOf type options →
      ∃ text, decodeTypedValue conv type bytes options = .ok text ∧
        encodeTypedValue conv type text options = .ok bytes) ∧
    (options.codec.active = false → ∀ bytes, bytes ≠ [] →
      ∃ text, decodeTypedValue conv .byteArray bytes options = .ok text ∧
        encodeTypedValue conv .byteArray text options = .ok bytes) ∧
    (options.codec.active = true → ∀ bytes text,
      decodeTypedValue conv .byteArray bytes options =
          .error "Value codecs require an integer or pointer type".toList ∧
        encodeTypedValue conv .byteArray text options =
          .error "Value codecs require an integer or pointer type".toList) ∧
    (∀ type value bytes, IntegerType type options →
      encodeTypedValue conv type value options = .ok bytes →
      ∃ v, IntegerText options.hex (trim value) v ∧ Fits (widthOf type options) v ∧
        decodeTypedValue conv type bytes options = .ok (canonicalText v (widthOf type options)
          (showsSigned type options) (showsHex type options))) ∧
    ∀ type value v, IntegerType type options → IntegerText options.hex (trim value) v →
      ((∃ bytes, encodeTypedValue conv type value options = .ok bytes) ↔
        Fits (widthOf type options) v) :=
  ⟨fun _ _ h => integer_round_trip h horder,
    fun hcodec _ => byteArray_round_trip hcodec,
    fun hcodec => byteArray_codec hcodec,
    fun _ _ _ h => integer_displayed h horder,
    fun _ _ _ h => integer_accepted_iff h horder⟩

/-- Conversions where there is no string and no floating-point number. -/
def integerConverters : Converters where
  encodeString _ _ := .ok []
  decodeString _ _ := []
  double _ := none
  float _ := none
  large _ := false
  toFloat _ := 0
  floatText _ := []
  doubleText _ := []

theorem rotated_int16_round_trip : ∃ text,
    decodeTypedValue integerConverters .int16 [0x34, 0x92]
        { bigEndian := true, codec := { op := .rol, key := 21 } } = .ok text ∧
      encodeTypedValue integerConverters .int16 text
        { bigEndian := true, codec := { op := .rol, key := 21 } } = .ok [0x34, 0x92] :=
  (typed_values_round_trip integerConverters
    { bigEndian := true, codec := { op := .rol, key := 21 } } rfl).1 .int16 [0x34, 0x92]
    ⟨rfl, by decide⟩ rfl

/-- With a codec, the bytes of an array have no text. -/
theorem xored_bytes_refused : ¬∃ text,
    decodeTypedValue integerConverters .byteArray [0x90] { codec := { op := .xor, key := 5 } } =
        .ok text ∧
      encodeTypedValue integerConverters .byteArray text { codec := { op := .xor, key := 5 } } =
        .ok [0x90] := by
  rintro ⟨text, hdecode, -⟩
  have hrefused := (@byteArray_codec integerConverters
    { codec := { op := .xor, key := 5 } } rfl [0x90] text).1
  rw [hrefused] at hdecode
  cases hdecode

end CheatEngine.ValueIo
