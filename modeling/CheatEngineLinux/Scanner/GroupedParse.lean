import CheatEngineLinux.Core.XmlText
import CheatEngineLinux.Scanner.ScanNumber

/-!
# Grouped expressions

The pieces of `ScanConfig::parseGrouped` (`scanner/memory_scanner.cpp`) that other readers use as
well: C's integers (`strtoll`), the words of a text, and `parseAOB`, which reads a byte pattern with
wildcards (`48 8B ??`) into bytes and masks.
-/

namespace CheatEngine

open JsonGrammar (Bytes)
open CtFile (readDigits charDigit detectBase)

namespace Grouped

/-! ### Texts -/

/-- What `c_str()` is read as. -/
def cString (s : Bytes) : Bytes := s.takeWhile (· != 0)

/-- The pieces `operator>>` reads. -/
def tokens (s : Bytes) : List Bytes := (s.splitOnP CtFile.isSpace).filter (!·.isEmpty)

/-! ### Integers -/

/-- The sign, the digits in the base they are written in, and the rest; none without digits. -/
def scanInteger (s : Bytes) : Option (Bool × ℕ × Bytes) :=
  let s := s.dropWhile CtFile.isSpace
  let negative := s.head? == some 0x2d
  let s := if negative || s.head? == some 0x2b then s.tail else s
  let (base, s) := detectBase s
  let digits := s.takeWhile fun b => decide (charDigit b < base)
  if digits.isEmpty then none
  else some (negative, readDigits base digits, s.drop digits.length)

/-- `std::strtoll` with the base 0; none where it sets `errno` or converts nothing. -/
def strtoll (s : Bytes) : Option (ℤ × Bytes) :=
  match scanInteger s with
  | none => none
  | some (negative, magnitude, rest) =>
    let value : ℤ := if negative then -magnitude else magnitude
    if -2 ^ 63 ≤ value ∧ value < 2 ^ 63 then some (value, rest) else none

/-! ### Byte patterns -/

def isHex (c : UInt8) : Bool := decide (charDigit c < 16)

def isWildcard (c : UInt8) : Bool := c == 0x3f || c == 0x2a

/-- A nibble of a pattern: its value, its mask, and whether the character is one. -/
def nib (c : UInt8) : UInt8 × UInt8 × Bool :=
  if isWildcard c then (0, 0, true)
  else if isHex c then (UInt8.ofNat (charDigit c), 0xf, true)
  else (0, 0, false)

structure AobState where
  valid : Bool := true
  bytes : Bytes := []
  mask : Bytes := []
  deriving Repr, DecidableEq

/-- Adds a byte of two characters. -/
def AobState.pushPair (st : AobState) (a b : UInt8) : AobState :=
  let (hv, hm, hok) := nib a
  let (lv, lm, lok) := nib b
  ⟨st.valid && hok && lok, st.bytes ++ [(hv <<< 4) ||| lv], st.mask ++ [(hm <<< 4) ||| lm]⟩

/-- Adds the bytes of a run of digits. -/
def AobState.pushPairs : AobState → Bytes → AobState
  | st, a :: b :: rest => (st.pushPair a b).pushPairs rest
  | st, _ => st

def aobStep (st : AobState) (token : Bytes) : AobState :=
  if token = [0x3f, 0x3f] || token = [0x3f] || token = [0x2a] then
    { st with bytes := st.bytes ++ [0], mask := st.mask ++ [0] }
  else
    match token with
    | [a, b] => st.pushPair a b
    | [c] =>
      ⟨st.valid && isHex c, st.bytes ++ [if isHex c then UInt8.ofNat (charDigit c) else 0],
        st.mask ++ [0xff]⟩
    | _ =>
      if !(st.valid && token.all isHex) || token.length % 2 ≠ 0 then { st with valid := false }
      else st.pushPairs token

/-- `parseAOB`: the verdict, the bytes and the masks. -/
def parseAOB (pattern : Bytes) : Bool × Bytes × Bytes :=
  let st := (tokens pattern).foldl aobStep {}
  (st.valid && !st.bytes.isEmpty, st.bytes, st.mask)

end Grouped

end CheatEngine
