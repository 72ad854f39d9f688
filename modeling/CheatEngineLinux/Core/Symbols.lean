import CheatEngineLinux.Core.AutoAssembler
import CheatEngineLinux.Core.ScriptText

/-!
# Symbols of a script

`AutoAssembler::resolveAddress` (`src/core/autoasm.cpp`): what a name or an address expression of a
script stands for.

* `Symbols`: the names a script can use, those it makes itself and those of the target.
* `resolveAddress`: names first, then sums and differences from the right, then numbers.
-/

namespace CheatEngine.AutoAssembler

open Numerals

structure NamedAddress where
  name : Text
  address : UInt64
  deriving Repr, DecidableEq

structure Define where
  name : Text
  value : Text
  deriving Repr, DecidableEq

/-- What names can stand for. -/
structure Symbols where
  allocs : List NamedAddress
  labels : List NamedAddress
  defines : List Define
  globalSymbols : List NamedAddress
  /-- The base addresses of the modules. -/
  targetModules : List NamedAddress
  hookSites : List NamedAddress
  /-- The symbol table of the process, where there is a process. -/
  processSymbols : Option (List NamedAddress)
  deriving Repr, DecidableEq

def findName (names : List NamedAddress) (name : Text) : Option UInt64 :=
  (names.find? fun entry => entry.name == name).map NamedAddress.address

/-- `std::stoull` of the whole text, with base 16. -/
def stoullHex (s : Text) : Option UInt64 :=
  let s := s.dropWhile isSpace
  let (neg, s) := match s with
    | '-' :: rest => (true, rest)
    | '+' :: rest => (false, rest)
    | _ => (false, s)
  let digits := match s with
    | '0' :: 'x' :: rest => rest
    | '0' :: 'X' :: rest => rest
    | _ => s
  if digits.isEmpty || !digits.all fun c => (digitValue c).isSome then none
  else if Numerals.value 16 digits < 2 ^ 64 then
    let v := UInt64.ofNat (Numerals.value 16 digits)
    some (if neg then 0 - v else v)
  else none

/-- `parseWholeUnsigned(text, 16, value)` -/
def parseWholeUnsigned (text : Text) : Option UInt64 :=
  let s := trim text
  if s.isEmpty then none else stoullHex s

def isAlpha (c : Char) : Bool := ('a' ≤ c && c ≤ 'z') || ('A' ≤ c && c ≤ 'Z')

/-- Only identifier-like names are looked up. -/
def processSymbol (table : Option (List NamedAddress)) (name : Text) : UInt64 :=
  match table, name with
  | some table, c :: _ =>
    if (isAlpha c || c == '_') && !name.any fun c => "+-*[] ".toList.contains c then
      (findName table name).getD 0
    else 0
  | _, _ => 0

/-- The place of the last `+` or `-` outside quotes, other than the first character. -/
def lastOperator (i : ℕ) (quote : Option Char) (op : Option ℕ) : Text → Option ℕ
  | [] => op
  | c :: rest =>
    match quote with
    | some q => lastOperator (i + 1) (if c = q then none else some q) op rest
    | none =>
      if isQuote c then lastOperator (i + 1) (some c) op rest
      else lastOperator (i + 1) none (if i ≠ 0 ∧ (c = '+' ∨ c = '-') then some i else op) rest

/-- The names that are no definitions of the script. -/
def Symbols.known (symbols : Symbols) (name : Text) : Option UInt64 :=
  let bare := stripOptionalQuotes name
  (findName symbols.globalSymbols bare).or
    (((symbols.targetModules.reverse.find? fun m => !m.name.isEmpty && m.name == bare).map
      NamedAddress.address).or
    ((findName symbols.hookSites bare).or
    (let symbol := processSymbol symbols.processSymbols bare
      if symbol ≠ 0 then some symbol else none)))

/-- `resolve`, with the number of levels that are left. -/
def Symbols.resolve (symbols : Symbols) : ℕ → Text → UInt64
  | 0, _ => 0
  | levels + 1, expression =>
    let name := trim expression
    if name.isEmpty then 0
    else match findName symbols.allocs name with
    | some address => address
    | none =>
    match findName symbols.labels name with
    | some address => address
    | none =>
    match symbols.defines.find? fun d => d.name == name with
    | some d => symbols.resolve levels d.value
    | none =>
    match symbols.known name with
    | some address => address
    | none =>
    match lastOperator 0 none none name with
    | some op =>
      let base := symbols.resolve levels (name.take op)
      match parseWholeUnsigned (trim (name.drop (op + 1))) with
      | none => 0
      | some offset =>
        if base = 0 then 0
        else if name[op]? = some '+' then
          if offset ≤ 0xffffffffffffffff - base then base + offset else 0
        else if offset ≤ base then base - offset else 0
    | none => (parseWholeUnsigned name).getD 0

def Symbols.resolveAddress (symbols : Symbols) (expr : Text) : UInt64 := symbols.resolve 33 expr

end CheatEngine.AutoAssembler
