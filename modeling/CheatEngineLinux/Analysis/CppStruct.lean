import CheatEngineLinux.Core.TableIntegers
import CheatEngineLinux.Library.BinarySearch
import CheatEngineLinux.Library.CLexer
import CheatEngineLinux.Library.Packing
import Mathlib.Data.List.DropRight

/-!
# The C++ struct of a dissected structure

`generateCppStruct` (`analysis/structure_tools.cpp`): a packed struct with explicit padding, and
assertions on the offset of each member and on the size.

* `placeField`, `generateCppStruct`: the source; `GeneratedStruct.text` is what it writes.
* `placedFields`, `gaps`: which fields have a place of their own, and what lies between them.
* `Scope`: the C++ around the struct, and what names it leaves.
* `Compiles`: the text is these members and assertions, their names can be used and are distinct,
  each member is where the field was dissected, and every assertion holds.
* **PROVED `tokens_text`**: what the text is to C++, for all names of fields.
* **PROVED `generate_layout`**: the members are the placed fields, each at its offset.
* **PROVED `compiles_iff`**: the struct compiles if and only if no two members get one name, none of
  the names is taken, and the struct has a member.
-/

namespace CheatEngine.CppStruct

open JsonGrammar (Bytes isDigit)
open CtFile (StructureField StructureDefinition lit digitsText)
open Packing

/-! ### Names and types -/

/-- `std::isalnum(c) || c == '_'` -/
def isIdentifierByte (c : UInt8) : Bool :=
  isDigit c || (0x41 ≤ c && c ≤ 0x5a) || (0x61 ≤ c && c ≤ 0x7a) || c == 0x5f

/-- Other bytes become an underscore, unless one is there or nothing is. -/
def sanitizeByte (out : Bytes) (c : UInt8) : Bytes :=
  if isIdentifierByte c then out ++ [c]
  else if !out.isEmpty && out.getLast? != some 0x5f then out ++ [0x5f]
  else out

def sanitizeIdentifier (input fallback : Bytes) : Bytes :=
  let out := (input.foldl sanitizeByte []).rdropWhile (· == 0x5f)
  let out := if out.isEmpty then fallback else out
  if out.head?.any isDigit then 0x5f :: out else out

/-- A type: a name, or an array of `uint8_t`. -/
inductive CppType
  | named (name : Bytes)
  | bytes (count : UInt64)
  deriving DecidableEq

def cppTypeFor (type : ValueType) (size : UInt64) : CppType :=
  let array := CppType.bytes (max 1 size)
  match type with
  | .byte => if size = 1 then .named (lit "uint8_t") else array
  | .int16 | .int32 | .int64 =>
    if size = 1 then .named (lit "int8_t")
    else if size = 2 then .named (lit "int16_t")
    else if size = 4 then .named (lit "int32_t")
    else if size = 8 then .named (lit "int64_t")
    else array
  | .pointer =>
    if size = 4 then .named (lit "uint32_t")
    else if size = 8 then .named (lit "uint64_t")
    else array
  | .float => if size = 4 then .named (lit "float") else array
  | .double => if size = 8 then .named (lit "double") else array
  | _ => array

def defaultSizeFor (type : ValueType) (explicitSize : UInt64) : UInt64 :=
  if explicitSize ≠ 0 then explicitSize
  else match type with
    | .byte => 1
    | .int16 => 2
    | .int32 | .float => 4
    | .int64 | .pointer | .double => 8
    | _ => 1

/-! ### The generator -/

inductive Line
  | pad (index : ℕ) (count : UInt64)
  | member (type : CppType) (name : Bytes) (offset : UInt64)
  | omitted (name : Bytes) (offset cursor : UInt64)
  deriving DecidableEq

/-- The body so far, the members to be checked, and where the next member would be. -/
structure Body where
  lines : List Line := []
  placed : List (Bytes × UInt64) := []
  cursor : UInt64 := 0
  padIndex : ℕ := 0

def fieldSize (field : StructureField) : UInt64 := defaultSizeFor field.type field.size

def fieldName (field : StructureField) : Bytes :=
  sanitizeIdentifier field.name (lit "field_" ++ digitsText 10 field.offset.toNat)

def fieldType (field : StructureField) : CppType :=
  if field.nestedStructure.isEmpty then cppTypeFor field.type (fieldSize field)
  else .named (sanitizeIdentifier field.nestedStructure (lit "NestedStruct"))

/-- Padding up to an offset. -/
def Body.padTo (b : Body) (offset : UInt64) : Body :=
  if offset > b.cursor then
    { b with
      lines := b.lines ++ [.pad b.padIndex (offset - b.cursor)]
      padIndex := b.padIndex + 1
      cursor := offset }
  else b

/-- A field below the cursor is left out, so that those after it keep their offsets. -/
def placeField (b : Body) (field : StructureField) : Body :=
  if field.offset < b.cursor then
    { b with lines := b.lines ++ [.omitted (fieldName field) field.offset b.cursor] }
  else
    let b := b.padTo field.offset
    { b with
      lines := b.lines ++ [.member (fieldType field) (fieldName field) field.offset]
      placed := b.placed ++ [(fieldName field, field.offset)]
      cursor := max b.cursor (field.offset + fieldSize field) }

/-- `std::stable_sort` by offset. -/
def sortedFields (s : StructureDefinition) : List StructureField :=
  BinarySearch.sortBy (fun f : StructureField => f.offset.toNat) s.fields

structure GeneratedStruct where
  structName : Bytes
  body : Body

def generateCppStruct (s : StructureDefinition) : GeneratedStruct :=
  ⟨sanitizeIdentifier s.name (lit "GeneratedStruct"),
    ((sortedFields s).foldl placeField {}).padTo s.size⟩

/-! ### The text -/

def hex (n : UInt64) : Bytes := lit "0x" ++ digitsText 16 n.toNat

def padName (index : ℕ) : Bytes := lit "_pad" ++ digitsText 10 index

def Line.text : Line → Bytes
  | .pad index count =>
    lit "    uint8_t " ++ padName index ++ lit "[" ++ hex count ++ lit "];\n"
  | .member (.named type) name offset =>
    lit "    " ++ type ++ lit " " ++ name ++ lit "; // " ++ hex offset ++ lit "\n"
  | .member (.bytes count) name offset =>
    lit "    uint8_t " ++ name ++ lit "[" ++ digitsText 10 count.toNat ++ lit "]; // " ++
      hex offset ++ lit "\n"
  | .omitted name offset cursor =>
    lit "    // " ++ name ++ lit " at " ++ hex offset ++ lit " overlaps previous field (ends at " ++
      hex cursor ++ lit "); omitted to preserve layout\n"

def offsetAssertText (structName : Bytes) (p : Bytes × UInt64) : Bytes :=
  lit "static_assert(offsetof(" ++ structName ++ lit ", " ++ p.1 ++ lit ") == " ++ hex p.2 ++
    lit ");\n"

/-- The members, and after them an assertion for each one and one for the size. -/
def GeneratedStruct.text (g : GeneratedStruct) : Bytes :=
  lit "#include <cstddef>\n#include <cstdint>\n\n" ++ lit "#pragma pack(push, 1)\n" ++
    lit "struct " ++ g.structName ++ lit " \x7b\n" ++ g.body.lines.flatMap Line.text ++
    lit "\x7d;\n" ++ lit "#pragma pack(pop)\n\n" ++
    g.body.placed.flatMap (offsetAssertText g.structName) ++
    lit "static_assert(sizeof(" ++ g.structName ++ lit ") == " ++ hex g.body.cursor ++ lit ");\n"

section tokens

open CLexer

def punct (s : String) : Token := .punct (lit s)

/-- A member, or a comment of which no token is left. -/
def Line.tokens : Line → List Token
  | .pad index count =>
    [.word (lit "uint8_t"), .word (padName index), punct "[", .number (hex count), punct "]",
      punct ";", .newline]
  | .member (.named type) name _ => [.word type, .word name, punct ";", .newline]
  | .member (.bytes count) name _ =>
    [.word (lit "uint8_t"), .word name, punct "[", .number (digitsText 10 count.toNat), punct "]",
      punct ";", .newline]
  | .omitted .. => [.newline]

def offsetAssertTokens (structName : Bytes) (p : Bytes × UInt64) : List Token :=
  [.word (lit "static_assert"), punct "(", .word (lit "offsetof"), punct "(", .word structName,
    punct ",", .word p.1, punct ")", punct "==", .number (hex p.2), punct ")", punct ";", .newline]

/-- `#include` lines and `#pragma pack(push, 1)` -/
def openingTokens : List Token :=
  [punct "#", .word (lit "include"), punct "<", .word (lit "cstddef"), punct ">", .newline,
    punct "#", .word (lit "include"), punct "<", .word (lit "cstdint"), punct ">", .newline,
    .newline, punct "#", .word (lit "pragma"), .word (lit "pack"), punct "(", .word (lit "push"),
    punct ",", .number (lit "1"), punct ")", .newline]

/-- A struct of its members, and the assertions after it. -/
def GeneratedStruct.tokens (g : GeneratedStruct) : List Token :=
  openingTokens ++ [.word (lit "struct"), .word g.structName, punct "\x7b", .newline] ++
    g.body.lines.flatMap Line.tokens ++ [punct "\x7d", punct ";", .newline] ++
    [punct "#", .word (lit "pragma"), .word (lit "pack"), punct "(", .word (lit "pop"), punct ")",
      .newline, .newline] ++
    g.body.placed.flatMap (offsetAssertTokens g.structName) ++
    [.word (lit "static_assert"), punct "(", .word (lit "sizeof"), punct "(", .word g.structName,
      punct ")", punct "==", .number (hex g.body.cursor), punct ")", punct ";", .newline]

end tokens

/-! ### What the struct means -/

/-- The keywords of C++, and the words that stand for an operator. -/
def keywords : List Bytes :=
  ["alignas", "alignof", "and", "and_eq", "asm", "auto", "bitand", "bitor", "bool", "break", "case",
    "catch", "char", "char8_t", "char16_t", "char32_t", "class", "compl", "concept", "const",
    "consteval", "constexpr", "constinit", "const_cast", "continue", "co_await", "co_return",
    "co_yield", "decltype", "default", "delete", "do", "double", "dynamic_cast", "else", "enum",
    "explicit", "export", "extern", "false", "float", "for", "friend", "goto", "if", "inline",
    "int", "long", "mutable", "namespace", "new", "noexcept", "not", "not_eq", "nullptr",
    "operator", "or", "or_eq", "private", "protected", "public", "register", "reinterpret_cast",
    "requires", "return", "short", "signed", "sizeof", "static", "static_assert", "static_cast",
    "struct", "switch", "template", "this", "thread_local", "throw", "true", "try", "typedef",
    "typeid", "typename", "union", "unsigned", "using", "virtual", "void", "volatile", "wchar_t",
    "while", "xor", "xor_eq"].map lit

/-- The C++ around the struct. -/
structure Scope where
  /-- Words that the compiler and the headers take beside the keywords: macros that are replaced
  wherever they stand. -/
  macros : List Bytes
  /-- Known before the struct: types, by names that a line can begin with, and namespaces. -/
  known : List Bytes
  sizeof : Bytes → ℕ
  /-- The size of the largest object. -/
  largest : ℕ

/-- What no member and no struct can be called. -/
def Scope.reserved (scope : Scope) : List Bytes := keywords ++ scope.macros

/-- The sizes of types: those of the language, and a nested structure is as large as its field. -/
structure Sizes (s : StructureDefinition) (sizeof : Bytes → ℕ) : Prop where
  uint8 : sizeof (lit "uint8_t") = 1
  uint32 : sizeof (lit "uint32_t") = 4
  uint64 : sizeof (lit "uint64_t") = 8
  int8 : sizeof (lit "int8_t") = 1
  int16 : sizeof (lit "int16_t") = 2
  int32 : sizeof (lit "int32_t") = 4
  int64 : sizeof (lit "int64_t") = 8
  float : sizeof (lit "float") = 4
  double : sizeof (lit "double") = 8
  nested : ∀ f ∈ s.fields, f.nestedStructure ≠ [] →
    sizeof (sanitizeIdentifier f.nestedStructure (lit "NestedStruct")) = (fieldSize f).toNat

/-- The types that a member has when it is no nested structure. -/
def languageTypes : List String :=
  ["uint8_t", "uint32_t", "uint64_t", "int8_t", "int16_t", "int32_t", "int64_t", "float", "double"]

/-- The types of the language are known, and the nested structures. -/
structure Scope.Suits (scope : Scope) (s : StructureDefinition) : Prop
    extends Sizes s scope.sizeof where
  language : ∀ t ∈ languageTypes, lit t ∈ scope.known
  structures : ∀ f ∈ s.fields, f.nestedStructure ≠ [] →
    sanitizeIdentifier f.nestedStructure (lit "NestedStruct") ∈ scope.known

section meaning

variable (sizeof : Bytes → ℕ)

def CppType.name : CppType → Bytes
  | .named name => name
  | .bytes _ => lit "uint8_t"

def CppType.size : CppType → ℕ
  | .named name => sizeof name
  | .bytes count => count.toNat * sizeof (lit "uint8_t")

def Line.width : Line → ℕ
  | .pad _ count => (CppType.bytes count).size sizeof
  | .member type _ _ => type.size sizeof
  | .omitted .. => 0

def Line.name? : Line → Option Bytes
  | .pad index _ => some (padName index)
  | .member _ name _ => some name
  | .omitted .. => none

def Line.typeName? : Line → Option Bytes
  | .pad .. => some (lit "uint8_t")
  | .member type _ _ => some type.name
  | .omitted .. => none

def Line.isMember : Line → Bool
  | .member .. => true
  | _ => false

def Line.padIndex? : Line → Option ℕ
  | .pad index _ => some index
  | _ => none

def packed (lines : List Line) : List (ℕ × Line) := laid (Line.width sizeof) 0 lines

/-- `offsetof` -/
def offsetOf (lines : List Line) (name : Bytes) : Option ℕ :=
  ((packed sizeof lines).find? fun p => p.2.name? == some name).map Prod.fst

/-- `sizeof` of the struct; an empty one has size one. -/
def structSize (lines : List Line) : ℕ :=
  if lines.filterMap Line.name? = [] then 1 else extent (Line.width sizeof) lines

end meaning

/-! ### Which fields have a place -/

def fieldEnd (f : StructureField) : ℕ := f.offset.toNat + (fieldSize f).toNat

/-- A field is left out if its offset is below the end of one that is placed. -/
def placeIfFree (placed : List StructureField) (f : StructureField) : List StructureField :=
  if ∀ g ∈ placed, fieldEnd g ≤ f.offset.toNat then placed ++ [f] else placed

def placedFields (s : StructureDefinition) : List StructureField :=
  (sortedFields s).foldl placeIfFree []

def lastEnd (placed : List StructureField) : ℕ := placed.foldl (fun e f => max e (fieldEnd f)) 0

/-- The number of gaps before fields that follow each other, from an offset on. -/
def gapsFrom : ℕ → List StructureField → ℕ
  | _, [] => 0
  | e, f :: fs => (if e < f.offset.toNat then 1 else 0) + gapsFrom (max e (fieldEnd f)) fs

def gaps (s : StructureDefinition) : ℕ :=
  gapsFrom 0 (placedFields s) + if lastEnd (placedFields s) < s.size.toNat then 1 else 0

def memberLine (f : StructureField) : Line := .member (fieldType f) (fieldName f) f.offset

example : (memberLine ⟨lit "mana value", 4, .float, 4, [], []⟩).text =
    lit "    float mana_value; // 0x4\n" := by
  decide

structure Layout (s : StructureDefinition) (sizeof : Bytes → ℕ) (b : Body) : Prop where
  /-- The fields that are not left out, in order. -/
  members : b.lines.filter Line.isMember = (placedFields s).map memberLine
  offsets : ∀ p ∈ packed sizeof b.lines, ∀ type name offset, p.2 = .member type name offset →
    p.1 = offset.toNat
  /-- Padding lies where no placed field does. -/
  padding : ∀ x, (∃ p ∈ packed sizeof b.lines, p.2.padIndex?.isSome ∧
      p.1 ≤ x ∧ x < p.1 + p.2.width sizeof) ↔
    x < extent (Line.width sizeof) b.lines ∧
      ∀ f ∈ placedFields s, ¬ (f.offset.toNat ≤ x ∧ x < fieldEnd f)
  total : extent (Line.width sizeof) b.lines = max s.size.toNat (lastEnd (placedFields s))
  /-- Every member that is not padding is asserted to be at its offset. -/
  asserted : b.placed = (placedFields s).map fun f => (fieldName f, f.offset)
  cursor : b.cursor.toNat = max s.size.toNat (lastEnd (placedFields s))

/-- The generated text is a struct that C++ takes, with the dissected layout, distinct members and
true assertions. -/
structure Compiles (s : StructureDefinition) (scope : Scope) (g : GeneratedStruct) : Prop
    extends Layout s scope.sizeof g.body where
  reads : CLexer.tokens g.text = g.tokens
  names : (g.body.lines.filterMap Line.name?).Nodup
  usable : ∀ name ∈ g.body.lines.filterMap Line.name?, name ∉ scope.reserved
  types : ∀ t ∈ g.body.lines.filterMap Line.typeName?, t ∈ scope.known
  /-- A type means the same in the whole struct: no member has its name. -/
  unchanged : ∀ t ∈ g.body.lines.filterMap Line.typeName?, t ∉ g.body.lines.filterMap Line.name?
  /-- The struct is new. -/
  fresh : g.structName ∉ scope.reserved ∧ g.structName ∉ scope.known
  offsetAsserts : ∀ p ∈ g.body.placed,
    offsetOf scope.sizeof g.body.lines p.1 = some p.2.toNat
  sizeAssert : structSize scope.sizeof g.body.lines = g.body.cursor.toNat
  object : structSize scope.sizeof g.body.lines ≤ scope.largest

/-- The types of the members: those of the placed fields, and that of padding. -/
def usedTypes (s : StructureDefinition) : List Bytes :=
  ((placedFields s).map fun f => (fieldType f).name) ++
    List.replicate (gaps s) (lit "uint8_t")

/-- No two members get the same name, none of the names is taken, and there is a member. -/
structure Nameable (s : StructureDefinition) (scope : Scope) : Prop where
  distinct : ((placedFields s).map fieldName).Nodup
  apart : ∀ f ∈ placedFields s, ∀ i < gaps s, fieldName f ≠ padName i
  usable : ∀ f ∈ placedFields s, fieldName f ∉ scope.reserved
  padding : ∀ i < gaps s, padName i ∉ scope.reserved
  unchanged : ∀ t ∈ usedTypes s,
    (∀ f ∈ placedFields s, fieldName f ≠ t) ∧ ∀ i < gaps s, padName i ≠ t
  fresh : sanitizeIdentifier s.name (lit "GeneratedStruct") ∉ scope.reserved ∧
    sanitizeIdentifier s.name (lit "GeneratedStruct") ∉ scope.known
  nonempty : s.fields ≠ [] ∨ s.size ≠ 0
  object : max s.size.toNat (lastEnd (placedFields s)) ≤ scope.largest

/-! ### Sizes -/

section layout

variable {s : StructureDefinition} {sizeof : Bytes → ℕ} {f : StructureField}

theorem toNat_max (a b : UInt64) : (max a b).toNat = max a.toNat b.toNat := by
  change (if a ≤ b then b else a).toNat = _
  split
  · rename_i h
    rw [UInt64.le_iff_toNat_le] at h
    omega
  · rename_i h
    rw [UInt64.le_iff_toNat_le] at h
    omega

theorem fieldSize_ne_zero : fieldSize f ≠ 0 := by
  unfold fieldSize defaultSizeFor
  split
  · assumption
  · split <;> decide

theorem size_cppTypeFor (hsizes : Sizes s sizeof) (type : ValueType) {size : UInt64}
    (hsize : size ≠ 0) : (cppTypeFor type size).size sizeof = size.toNat := by
  have harray : (CppType.bytes (max 1 size)).size sizeof = size.toNat := by
    have hmax : max 1 size = size := by
      have hpos : 0 < size.toNat := by
        rw [Nat.pos_iff_ne_zero]
        exact fun h => hsize (UInt64.toNat_inj.mp h)
      rw [← UInt64.toNat_inj, toNat_max]
      exact max_eq_right hpos
    rw [CppType.size, hmax, hsizes.uint8, Nat.mul_one]
  cases type <;> unfold cppTypeFor <;> dsimp only <;> (repeat' split) <;>
    first
    | exact harray
    | simp_all [CppType.size, hsizes.uint8, hsizes.uint32, hsizes.uint64, hsizes.int8,
        hsizes.int16, hsizes.int32, hsizes.int64, hsizes.float, hsizes.double]

theorem size_fieldType (hsizes : Sizes s sizeof) (hf : f ∈ s.fields) :
    (fieldType f).size sizeof = (fieldSize f).toNat := by
  unfold fieldType
  split
  · exact size_cppTypeFor hsizes _ fieldSize_ne_zero
  · rename_i hnested
    exact hsizes.nested f hf (by simpa using hnested)

/-! ### One line after another -/

structure Laying (sizeof : Bytes → ℕ) (b : Body) (placed : List StructureField) : Prop where
  cursor : extent (Line.width sizeof) b.lines = b.cursor.toNat
  offsets : ∀ p ∈ packed sizeof b.lines, ∀ type name offset, p.2 = .member type name offset →
    p.1 = offset.toNat
  members : b.lines.filter Line.isMember = placed.map memberLine
  asserted : b.placed = placed.map fun f => (fieldName f, f.offset)
  pads : b.lines.filterMap Line.padIndex? = List.range b.padIndex

variable {b : Body} {placed : List StructureField}

theorem packed_snoc (lines : List Line) (l : Line) : packed sizeof (lines ++ [l]) =
    packed sizeof lines ++ [(extent (Line.width sizeof) lines, l)] := by
  rw [packed, laid_append, Nat.zero_add]
  rfl

theorem cursor_padTo (b : Body) (offset : UInt64) :
    (b.padTo offset).cursor.toNat = max b.cursor.toNat offset.toNat := by
  unfold Body.padTo
  split
  · rename_i h
    rw [gt_iff_lt, UInt64.lt_iff_toNat_lt] at h
    dsimp only
    omega
  · rename_i h
    rw [gt_iff_lt, UInt64.lt_iff_toNat_lt] at h
    omega

theorem padIndex_padTo (b : Body) (offset : UInt64) : (b.padTo offset).padIndex =
    b.padIndex + if b.cursor.toNat < offset.toNat then 1 else 0 := by
  unfold Body.padTo
  simp only [gt_iff_lt, UInt64.lt_iff_toNat_lt]
  split <;> rfl

theorem Laying.padTo (hsizes : Sizes s sizeof) (h : Laying sizeof b placed) (offset : UInt64) :
    Laying sizeof (b.padTo offset) placed := by
  unfold Body.padTo
  split
  · rename_i hlt
    rw [gt_iff_lt, UInt64.lt_iff_toNat_lt] at hlt
    have hwidth : (Line.pad b.padIndex (offset - b.cursor)).width sizeof =
        offset.toNat - b.cursor.toNat := by
      rw [Line.width, CppType.size, hsizes.uint8, Nat.mul_one,
        UInt64.toNat_sub_of_le _ _ (UInt64.le_iff_toNat_le.mpr hlt.le)]
    constructor
    · rw [extent_append, extent_cons, extent_nil, hwidth, h.cursor]
      dsimp only
      omega
    · intro p hp type name offset' hmember
      rw [packed_snoc, List.mem_append, List.mem_singleton] at hp
      rcases hp with hp | rfl
      · exact h.offsets p hp type name offset' hmember
      · cases hmember
    · rw [List.filter_append, h.members]
      exact List.append_nil _
    · exact h.asserted
    · rw [List.filterMap_append, h.pads, List.range_succ]
      rfl
  · exact h

theorem Laying.member (hsizes : Sizes s sizeof) (h : Laying sizeof b placed) (hf : f ∈ s.fields)
    (hend : fieldEnd f < 2 ^ 64) (hoffset : f.offset.toNat = b.cursor.toNat) :
    Laying sizeof { b with
      lines := b.lines ++ [memberLine f]
      placed := b.placed ++ [(fieldName f, f.offset)]
      cursor := max b.cursor (f.offset + fieldSize f) } (placed ++ [f]) := by
  have hwidth : (memberLine f).width sizeof = (fieldSize f).toNat := size_fieldType hsizes hf
  constructor
  · rw [extent_append, extent_cons, extent_nil, hwidth, h.cursor, toNat_max, UInt64.toNat_add,
      Nat.mod_eq_of_lt (show f.offset.toNat + (fieldSize f).toNat < 2 ^ 64 from hend)]
    omega
  · intro p hp type name offset hmember
    rw [packed_snoc, List.mem_append, List.mem_singleton] at hp
    rcases hp with hp | rfl
    · exact h.offsets p hp type name offset hmember
    · cases hmember
      exact h.cursor.trans hoffset.symm
  · rw [List.filter_append, h.members, List.map_append]
    rfl
  · rw [h.asserted, List.map_append]
    rfl
  · rw [List.filterMap_append, h.pads]
    exact List.append_nil _

theorem Laying.omitted (h : Laying sizeof b placed) (name : Bytes) (offset cursor : UInt64) :
    Laying sizeof { b with lines := b.lines ++ [.omitted name offset cursor] } placed := by
  constructor
  · rw [extent_append, h.cursor]
    rfl
  · intro p hp type name' offset' hmember
    rw [packed_snoc, List.mem_append, List.mem_singleton] at hp
    rcases hp with hp | rfl
    · exact h.offsets p hp type name' offset' hmember
    · cases hmember
  · rw [List.filter_append, h.members]
    exact List.append_nil _
  · exact h.asserted
  · rw [List.filterMap_append, h.pads]
    exact List.append_nil _

@[simp] theorem lastEnd_append (f : StructureField) :
    lastEnd (placed ++ [f]) = max (lastEnd placed) (fieldEnd f) := by
  rw [lastEnd, List.foldl_append]
  rfl

theorem lastEnd_le_iff {e : ℕ} : lastEnd placed ≤ e ↔ ∀ g ∈ placed, fieldEnd g ≤ e := by
  induction placed using List.reverseRecOn with
  | nil => simp [lastEnd]
  | append_singleton placed f ih =>
    rw [lastEnd_append, max_le_iff, ih]
    simp only [List.mem_append, List.mem_singleton]
    constructor
    · rintro ⟨hall, hf⟩ g (hg | rfl)
      · exact hall g hg
      · exact hf
    · exact fun h => ⟨fun g hg => h g (.inl hg), h f (.inr rfl)⟩

theorem gapsFrom_append (e : ℕ) (f : StructureField) : gapsFrom e (placed ++ [f]) =
    gapsFrom e placed +
      if placed.foldl (fun e f => max e (fieldEnd f)) e < f.offset.toNat then 1 else 0 := by
  induction placed generalizing e with
  | nil => rw [List.nil_append, gapsFrom, gapsFrom, gapsFrom, Nat.add_comm]; rfl
  | cons g placed ih =>
    rw [List.cons_append, gapsFrom, gapsFrom, ih, List.foldl_cons, Nat.add_assoc]

structure Placing (sizeof : Bytes → ℕ) (b : Body) (placed : List StructureField) : Prop
    extends Laying sizeof b placed where
  ends : b.cursor.toNat = lastEnd placed
  count : b.padIndex = gapsFrom 0 placed

theorem Placing.placeField (hsizes : Sizes s sizeof) (h : Placing sizeof b placed)
    (hf : f ∈ s.fields) (hend : fieldEnd f < 2 ^ 64) :
    Placing sizeof (placeField b f) (placeIfFree placed f) := by
  have hfree : (∀ g ∈ placed, fieldEnd g ≤ f.offset.toNat) ↔
      ¬ f.offset < b.cursor := by
    rw [← lastEnd_le_iff, UInt64.lt_iff_toNat_lt, h.ends, not_lt]
  unfold CppStruct.placeField placeIfFree
  split
  · rename_i hbelow
    rw [if_neg (mt hfree.mp (not_not_intro hbelow))]
    exact ⟨h.toLaying.omitted _ _ _, h.ends, h.count⟩
  · rename_i habove
    rw [if_pos (hfree.mpr habove)]
    rw [UInt64.lt_iff_toNat_lt, not_lt] at habove
    have hcursor := cursor_padTo b f.offset
    have hoffset : f.offset.toNat = (b.padTo f.offset).cursor.toNat := by omega
    have hwrap : (f.offset + fieldSize f).toNat = fieldEnd f := by
      rw [UInt64.toNat_add]
      exact Nat.mod_eq_of_lt hend
    refine ⟨(h.toLaying.padTo hsizes f.offset).member hsizes hf hend hoffset, ?_, ?_⟩
    · dsimp only
      rw [toNat_max, hwrap, lastEnd_append, ← h.ends, ← hoffset]
      have : f.offset.toNat ≤ fieldEnd f := Nat.le_add_right _ _
      omega
    · dsimp only
      rw [padIndex_padTo, gapsFrom_append, h.count, h.ends]
      rfl

theorem Placing.foldl (hsizes : Sizes s sizeof) (h : Placing sizeof b placed)
    {fields : List StructureField} (hfields : ∀ f ∈ fields, f ∈ s.fields)
    (hends : ∀ f ∈ s.fields, fieldEnd f < 2 ^ 64) :
    Placing sizeof (fields.foldl CppStruct.placeField b) (fields.foldl placeIfFree placed) := by
  induction fields generalizing b placed with
  | nil => exact h
  | cons f fields ih =>
    obtain ⟨hf, hrest⟩ := List.forall_mem_cons.mp hfields
    exact ih (h.placeField hsizes hf (hends f hf)) hrest

theorem placing_start : Placing sizeof {} [] := by
  refine ⟨⟨rfl, ?_, rfl, rfl, rfl⟩, rfl, rfl⟩
  intro p hp
  cases hp

theorem mem_sortedFields : f ∈ sortedFields s ↔ f ∈ s.fields :=
  (BinarySearch.sortBy_perm _ _).mem_iff

theorem generate_laying (hsizes : Sizes s sizeof) (hends : ∀ f ∈ s.fields, fieldEnd f < 2 ^ 64) :
    Laying sizeof (generateCppStruct s).body (placedFields s) ∧
      (generateCppStruct s).body.cursor.toNat = max s.size.toNat (lastEnd (placedFields s)) ∧
      (generateCppStruct s).body.padIndex = gaps s := by
  have h : Placing sizeof ((sortedFields s).foldl CppStruct.placeField {}) (placedFields s) :=
    placing_start.foldl hsizes (fun f hf => mem_sortedFields.mp hf) hends
  refine ⟨h.toLaying.padTo hsizes s.size, ?_, ?_⟩
  · rw [generateCppStruct, cursor_padTo, h.ends, max_comm]
  · rw [generateCppStruct, padIndex_padTo, h.ends, h.count]
    rfl

theorem mem_lines_iff {lines : List Line} {l : Line} :
    l ∈ lines ↔ ∃ p ∈ packed sizeof lines, p.2 = l := by
  rw [← List.mem_map, packed, map_snd_laid]

theorem Laying.member_iff (h : Laying sizeof b placed) {l : Line} :
    (l ∈ b.lines ∧ l.isMember = true) ↔ ∃ f ∈ placed, memberLine f = l := by
  rw [← List.mem_filter, h.members, List.mem_map]

theorem Laying.padding (hsizes : Sizes s sizeof) (h : Laying sizeof b placed)
    (hplaced : ∀ f ∈ placed, f ∈ s.fields) (x : ℕ) :
    (∃ p ∈ packed sizeof b.lines, p.2.padIndex?.isSome ∧
      p.1 ≤ x ∧ x < p.1 + p.2.width sizeof) ↔
    x < extent (Line.width sizeof) b.lines ∧
      ∀ f ∈ placed, ¬ (f.offset.toNat ≤ x ∧ x < fieldEnd f) := by
  have hwidth : ∀ f ∈ placed, (memberLine f).width sizeof = (fieldSize f).toNat := fun f hf =>
    size_fieldType hsizes (hplaced f hf)
  constructor
  · rintro ⟨p, hp, hpad, hx⟩
    have hbelow := (covered_iff.mp ⟨p, hp, hx⟩).2
    refine ⟨by omega, fun f hf hin => ?_⟩
    obtain ⟨q, hq, hline⟩ := mem_lines_iff.mp (h.member_iff.mpr ⟨f, hf, rfl⟩).1
    have hstart : q.1 = f.offset.toNat := h.offsets q hq _ _ _ hline
    have hcover : q.1 ≤ x ∧ x < q.1 + q.2.width sizeof := by
      rw [hstart, hline, hwidth f hf]
      exact hin
    obtain rfl := eq_of_covered hp hq hx hcover
    rw [hline] at hpad
    cases hpad
  · rintro ⟨hbelow, hfree⟩
    obtain ⟨p, hp, hx⟩ := covered_iff.mpr
      (⟨Nat.zero_le x, by omega⟩ : 0 ≤ x ∧ x < 0 + extent (Line.width sizeof) b.lines)
    refine ⟨p, hp, ?_, hx⟩
    obtain ⟨start, l⟩ := p
    cases l with
    | pad index count => rfl
    | member type name offset =>
      obtain ⟨f, hf, hline⟩ := h.member_iff.mp ⟨mem_lines_iff.mpr ⟨_, hp, rfl⟩, rfl⟩
      replace hline : memberLine f = .member type name offset := hline
      have hstart : start = f.offset.toNat := h.offsets _ hp _ _ _ hline.symm
      refine absurd ?_ (hfree f hf)
      dsimp only at hx
      rw [← hline, hwidth f hf, hstart] at hx
      exact hx
    | omitted name offset cursor =>
      dsimp only [Line.width] at hx
      omega

theorem mem_placedFields (hf : f ∈ placedFields s) : f ∈ s.fields := by
  have hsub : ∀ (fields placed : List StructureField), ∀ f ∈ fields.foldl placeIfFree placed,
      f ∈ fields ∨ f ∈ placed := by
    intro fields
    induction fields with
    | nil => exact fun placed f hf => .inr hf
    | cons g fields ih =>
      intro placed f hf
      rcases ih _ f hf with hf | hf
      · exact .inl (List.mem_cons_of_mem _ hf)
      · unfold placeIfFree at hf
        split at hf
        · rcases List.mem_append.mp hf with hf | hf
          · exact .inr hf
          · exact .inl (List.mem_cons.mpr (.inl (List.mem_singleton.mp hf)))
        · exact .inr hf
  rcases hsub _ _ f hf with hf | hf
  · exact mem_sortedFields.mp hf
  · cases hf

theorem generate_layout (hsizes : Sizes s sizeof) (hends : ∀ f ∈ s.fields, fieldEnd f < 2 ^ 64) :
    Layout s sizeof (generateCppStruct s).body := by
  obtain ⟨h, hcursor, -⟩ := generate_laying hsizes hends
  exact ⟨h.members, h.offsets, h.padding hsizes fun f hf => mem_placedFields hf,
    h.cursor.trans hcursor, h.asserted, hcursor⟩

/-! ### Names -/

theorem padName_injective {i j : ℕ} (h : padName i = padName j) : i = j := by
  have hdigits := List.append_cancel_left h
  rw [← CtFile.readDigits_digitsText (n := i) (by decide : 1 < 10) (by decide), hdigits,
    CtFile.readDigits_digitsText (by decide) (by decide)]

theorem names_perm (lines : List Line) : (lines.filterMap Line.name?).Perm
    ((lines.filterMap Line.padIndex?).map padName ++
      (lines.filter Line.isMember).filterMap Line.name?) := by
  induction lines with
  | nil => exact List.Perm.refl _
  | cons l lines ih =>
    cases l with
    | pad index count => exact ih.cons _
    | member type name offset => exact (ih.cons name).trans List.perm_middle.symm
    | omitted name offset cursor => exact ih

theorem Laying.nodup_names_iff (h : Laying sizeof b placed) :
    (b.lines.filterMap Line.name?).Nodup ↔
      (placed.map fieldName).Nodup ∧ ∀ f ∈ placed, ∀ i < b.padIndex, fieldName f ≠ padName i := by
  have hnames : (placed.map memberLine).filterMap Line.name? = placed.map fieldName := by
    rw [List.filterMap_map, ← List.filterMap_eq_map]
    rfl
  have hpads : ((List.range b.padIndex).map padName).Nodup :=
    List.nodup_range.map fun _ _ => padName_injective
  rw [(names_perm b.lines).nodup_iff, h.pads, h.members, hnames, List.nodup_append']
  simp only [hpads, true_and, and_congr_right_iff]
  refine fun _ => ⟨fun hdisjoint f hf i hi heq => ?_, fun hapart name hpad hname => ?_⟩
  · refine hdisjoint (List.mem_map.mpr ⟨i, List.mem_range.mpr hi, rfl⟩) ?_
    rw [← heq]
    exact List.mem_map_of_mem hf
  · obtain ⟨i, hi, rfl⟩ := List.mem_map.mp hpad
    obtain ⟨f, hf, heq⟩ := List.mem_map.mp hname
    exact hapart f hf i (List.mem_range.mp hi) heq

theorem offsetOf_eq {lines : List Line} (hnames : (lines.filterMap Line.name?).Nodup)
    {p : ℕ × Line} (hp : p ∈ packed sizeof lines) {name : Bytes} (hname : p.2.name? = some name) :
    offsetOf sizeof lines name = some p.1 := by
  have hsymm : Std.Symm fun p q : ℕ × Line =>
      ∀ a, p.2.name? = some a → ∀ c, q.2.name? = some c → a ≠ c :=
    ⟨fun p q hpq a ha c hc => (hpq c hc a ha).symm⟩
  have hpairwise : (packed sizeof lines).Pairwise fun p q =>
      ∀ a, p.2.name? = some a → ∀ c, q.2.name? = some c → a ≠ c := by
    have hlines : (packed sizeof lines).map Prod.snd = lines := map_snd_laid
    rw [← hlines, List.filterMap_map, List.Nodup, List.pairwise_filterMap] at hnames
    exact hnames
  unfold offsetOf
  cases hfind : (packed sizeof lines).find? fun p => p.2.name? == some name with
  | none =>
    have := List.find?_eq_none.mp hfind p hp
    simp [hname] at this
  | some q =>
    have hq := List.mem_of_find?_eq_some hfind
    have hqname : q.2.name? = some name := by simpa using List.find?_some hfind
    obtain rfl : q = p := by
      by_contra hne
      exact hpairwise.forall hq hp hne name hqname name hname rfl
    rfl

theorem Laying.mem_names_iff (h : Laying sizeof b placed) (name : Bytes) :
    name ∈ b.lines.filterMap Line.name? ↔
      (∃ f ∈ placed, fieldName f = name) ∨ ∃ i < b.padIndex, padName i = name := by
  have hnames : (placed.map memberLine).filterMap Line.name? = placed.map fieldName := by
    rw [List.filterMap_map, ← List.filterMap_eq_map]
    rfl
  rw [(names_perm b.lines).mem_iff, h.pads, h.members, hnames, List.mem_append, List.mem_map,
    List.mem_map, or_comm]
  simp only [List.mem_range]

theorem types_perm (lines : List Line) : (lines.filterMap Line.typeName?).Perm
    ((lines.filter Line.isMember).filterMap Line.typeName? ++
      List.replicate (lines.filterMap Line.padIndex?).length (lit "uint8_t")) := by
  induction lines with
  | nil => exact List.Perm.refl _
  | cons l lines ih =>
    cases l with
    | pad index count => exact (ih.cons _).trans List.perm_middle.symm
    | member type name offset => exact ih.cons _
    | omitted name offset cursor => exact ih

theorem Laying.mem_types_iff (h : Laying sizeof b placed) (t : Bytes) :
    t ∈ b.lines.filterMap Line.typeName? ↔
      t ∈ (placed.map fun f => (fieldType f).name) ++
        List.replicate b.padIndex (lit "uint8_t") := by
  have htypes : (placed.map memberLine).filterMap Line.typeName? =
      placed.map fun f => (fieldType f).name := by
    rw [List.filterMap_map, ← List.filterMap_eq_map]
    rfl
  rw [(types_perm b.lines).mem_iff, h.pads, h.members, htypes, List.length_range]

theorem name_cppTypeFor (type : ValueType) (size : UInt64) :
    ∃ t ∈ languageTypes, (cppTypeFor type size).name = lit t := by
  cases type <;> unfold cppTypeFor <;> dsimp only <;> (repeat' split) <;>
    simp [CppType.name, languageTypes]

theorem name_fieldType {scope : Scope} (hscope : scope.Suits s) (hf : f ∈ s.fields) :
    (fieldType f).name ∈ scope.known := by
  unfold fieldType
  split
  · obtain ⟨t, ht, hname⟩ := name_cppTypeFor f.type (fieldSize f)
    rw [hname]
    exact hscope.language t ht
  · rename_i hnested
    exact hscope.structures f hf (by simpa using hnested)

/-! ### The text -/

section text

open CLexer

theorem isIdentifierByte_eq (c : UInt8) : isIdentifierByte c = isIdent c := by
  unfold isIdentifierByte isIdent isIdentStart JsonGrammar.isDigit CLexer.isDigit
  rw [Bool.or_assoc, Bool.or_assoc, Bool.or_comm]
  simp only [Bool.or_assoc]

/-- Whatever a field is called, the member's name is an identifier. -/
theorem isWord_sanitizeIdentifier (input : Bytes) {fallback : Bytes} (hne : fallback ≠ [])
    (hfallback : ∀ c ∈ fallback, isIdent c = true) :
    IsWord (sanitizeIdentifier input fallback) := by
  have hfold : ∀ (cs out : Bytes), (∀ c ∈ out, isIdent c = true) →
      ∀ c ∈ cs.foldl sanitizeByte out, isIdent c = true := by
    intro cs
    induction cs with
    | nil => exact fun out hout => hout
    | cons c cs ih =>
      refine fun out hout => ih _ fun d hd => ?_
      unfold sanitizeByte at hd
      split at hd
      · rename_i hident
        rw [isIdentifierByte_eq] at hident
        rcases List.mem_append.mp hd with hd | hd
        · exact hout d hd
        · rwa [List.mem_singleton.mp hd]
      · split at hd
        · rcases List.mem_append.mp hd with hd | hd
          · exact hout d hd
          · rw [List.mem_singleton.mp hd]
            rfl
        · exact hout d hd
  have hkept : ∀ c ∈ (input.foldl sanitizeByte []).rdropWhile (· == 0x5f), isIdent c = true :=
    fun c hc => hfold input [] (fun d hd => absurd hd List.not_mem_nil) c
      ((List.rdropWhile_prefix _ _).subset hc)
  unfold sanitizeIdentifier
  generalize (input.foldl sanitizeByte []).rdropWhile (· == 0x5f) = kept at hkept ⊢
  obtain ⟨out, hout, hone, hall⟩ : ∃ out, (if kept.isEmpty then fallback else kept) = out ∧
      out ≠ [] ∧ ∀ c ∈ out, isIdent c = true := by
    split
    · exact ⟨_, rfl, hne, hfallback⟩
    · rename_i hkeeps
      exact ⟨_, rfl, by simpa using hkeeps, hkept⟩
  dsimp only
  rw [hout]
  cases out with
  | nil => exact absurd rfl hone
  | cons c rest =>
    have hc := hall c (List.mem_cons_self ..)
    split
    · exact ⟨rfl, List.forall_mem_cons.mpr ⟨rfl, hall⟩⟩
    · rename_i hdigit
      refine ⟨?_, hall⟩
      rw [isIdent, Bool.or_eq_true] at hc
      exact hc.resolve_right hdigit

theorem isIdent_digitsText {base n : ℕ} (hbase : 1 < base) (hbase' : base ≤ 16) :
    ∀ c ∈ digitsText base n, isIdent c = true := by
  intro c hc
  obtain ⟨d, hd, rfl⟩ := CtFile.mem_digitsText hbase hbase' hc
  have hcases : ∀ d < 16, isIdent (CtFile.digitByte d) = true := by decide
  exact hcases d (by omega)

theorem isIdent_append {s t : Bytes} (hs : ∀ c ∈ s, isIdent c = true)
    (ht : ∀ c ∈ t, isIdent c = true) : ∀ c ∈ s ++ t, isIdent c = true := fun c hc =>
  (List.mem_append.mp hc).elim (hs c) (ht c)

theorem isNumber_hex (n : UInt64) : IsNumber (hex n) :=
  ⟨rfl, isIdent_append (List.all_eq_true.mp rfl) (isIdent_digitsText (by decide) (by decide))⟩

theorem isNumber_digitsText (n : ℕ) : IsNumber (digitsText 10 n) := by
  refine ⟨?_, isIdent_digitsText (by decide) (by decide)⟩
  have hall : ∀ c ∈ digitsText 10 n, CLexer.isDigit c = true := by
    intro c hc
    obtain ⟨d, hd, rfl⟩ := CtFile.mem_digitsText (by decide) (by decide) hc
    have hcases : ∀ d < 10, CLexer.isDigit (CtFile.digitByte d) = true := by decide
    exact hcases d hd
  cases htext : digitsText 10 n with
  | nil => exact absurd htext CtFile.digitsText_ne_nil
  | cons c rest => exact hall c (by rw [htext]; exact List.mem_cons_self ..)

theorem isWord_padName (index : ℕ) : IsWord (padName index) :=
  ⟨rfl, isIdent_append (List.all_eq_true.mp rfl) (isIdent_digitsText (by decide) (by decide))⟩

theorem isWord_fieldName (f : StructureField) : IsWord (fieldName f) :=
  isWord_sanitizeIdentifier _ (by simp [lit])
    (isIdent_append (List.all_eq_true.mp rfl) (isIdent_digitsText (by decide) (by decide)))

def Line.Worded : Line → Prop
  | .member (.named type) name _ => IsWord type ∧ IsWord name
  | .member (.bytes _) name _ | .omitted name _ _ => IsWord name
  | .pad .. => True

theorem lexes_line {l : Line} (h : l.Worded) : Lexes l.text .code l.tokens := by
  have hstart : Lexes (lit "    uint8_t ") .code [.word (lit "uint8_t")] := ⟨by decide, by decide⟩
  have hblank : Lexes (lit "    ") .code [] := ⟨by decide, by decide⟩
  cases l with
  | pad index count =>
    exact (((hstart.word (isWord_padName index)).code (b := lit "[") (by decide) rfl).number
      (isNumber_hex count)).code (b := lit "];\n") (by decide) rfl
  | member type name offset =>
    cases type with
    | named type =>
      exact (((((hblank.word h.1).code (b := lit " ") (by decide) rfl).word h.2).code
        (b := lit "; // ") (by decide) rfl).comment (isNumber_hex offset).all).code
        (b := lit "\n") (by decide) rfl
    | bytes count =>
      exact (((((hstart.word h).code (b := lit "[") (by decide) rfl).number
        (isNumber_digitsText count.toNat)).code (b := lit "]; // ") (by decide) rfl).comment
        (isNumber_hex offset).all).code (b := lit "\n") (by decide) rfl
  | omitted name offset cursor =>
    have hcomment : Lexes (lit "    // ") .line [] := ⟨by decide, by decide⟩
    exact (((((hcomment.comment h.all).code (b := lit " at ") (by decide) rfl).comment
      (isNumber_hex offset).all).code (b := lit " overlaps previous field (ends at ")
      (by decide) rfl).comment (isNumber_hex cursor).all).code
      (b := lit "); omitted to preserve layout\n") (by decide) rfl

theorem lexes_offsetAssert {structName : Bytes} {p : Bytes × UInt64} (hname : IsWord structName)
    (hp : IsWord p.1) :
    Lexes (offsetAssertText structName p) .code (offsetAssertTokens structName p) := by
  have hstart : Lexes (lit "static_assert(offsetof(") .code
      [.word (lit "static_assert"), punct "(", .word (lit "offsetof"), punct "("] :=
    ⟨by decide, by decide⟩
  exact (((((hstart.word hname).code (b := lit ", ") (by decide) rfl).word hp).code
    (b := lit ") == ") (by decide) rfl).number (isNumber_hex p.2)).code (b := lit ");\n")
    (by decide) rfl

structure Body.Worded (b : Body) : Prop where
  lines : ∀ l ∈ b.lines, l.Worded
  placed : ∀ p ∈ b.placed, IsWord p.1

theorem Body.Worded.padTo {b : Body} (h : b.Worded) (offset : UInt64) :
    (b.padTo offset).Worded := by
  unfold Body.padTo
  split
  · refine ⟨fun l hl => ?_, h.placed⟩
    rcases List.mem_append.mp hl with hl | hl
    · exact h.lines l hl
    · rw [List.mem_singleton.mp hl]
      trivial
  · exact h

theorem worded_member (f : StructureField) : (memberLine f).Worded := by
  unfold memberLine
  cases htype : fieldType f with
  | bytes count => exact isWord_fieldName f
  | named name =>
    refine ⟨?_, isWord_fieldName f⟩
    unfold fieldType at htype
    split at htype
    · obtain ⟨t, ht, hname⟩ := name_cppTypeFor f.type (fieldSize f)
      rw [htype] at hname
      rw [show name = lit t from hname]
      have hwords : languageTypes.all fun t => ((lit t).head?.any isIdentStart : Bool) &&
        (lit t).all isIdent := by decide
      have hword := List.all_eq_true.mp hwords t ht
      rw [Bool.and_eq_true] at hword
      exact ⟨hword.1, List.all_eq_true.mp hword.2⟩
    · cases htype
      exact isWord_sanitizeIdentifier _ (by decide) (List.all_eq_true.mp rfl)

theorem Body.Worded.placeField {b : Body} (h : b.Worded) (f : StructureField) :
    (placeField b f).Worded := by
  unfold CppStruct.placeField
  split
  · refine ⟨fun l hl => ?_, h.placed⟩
    rcases List.mem_append.mp hl with hl | hl
    · exact h.lines l hl
    · rw [List.mem_singleton.mp hl]
      exact isWord_fieldName f
  · have hpad := h.padTo f.offset
    refine ⟨fun l hl => ?_, fun p hp => ?_⟩
    · rcases List.mem_append.mp hl with hl | hl
      · exact hpad.lines l hl
      · rw [List.mem_singleton.mp hl]
        exact worded_member f
    · rcases List.mem_append.mp hp with hp | hp
      · exact hpad.placed p hp
      · rw [List.mem_singleton.mp hp]
        exact isWord_fieldName f

/-- **What the generated text is to C++**, whatever the fields are called: the struct of the members
and the assertions. -/
theorem tokens_text (s : StructureDefinition) :
    CLexer.tokens (generateCppStruct s).text = (generateCppStruct s).tokens := by
  have hworded : (generateCppStruct s).body.Worded := by
    refine Body.Worded.padTo ?_ s.size
    generalize sortedFields s = fields
    have hstart : Body.Worded {} :=
      ⟨fun l hl => absurd hl List.not_mem_nil, fun p hp => absurd hp List.not_mem_nil⟩
    generalize ({} : Body) = b at hstart ⊢
    induction fields generalizing b with
    | nil => exact hstart
    | cons f fields ih => exact ih _ (hstart.placeField f)
  have hname : IsWord (generateCppStruct s).structName :=
    isWord_sanitizeIdentifier _ (by decide) (List.all_eq_true.mp rfl)
  have hopen : Lexes (lit "#include <cstddef>\n#include <cstdint>\n\n" ++
      lit "#pragma pack(push, 1)\n") .code openingTokens := ⟨by decide, by decide⟩
  have hstruct := ((hopen.code (b := lit "struct ") (by decide) rfl).word hname).code
    (b := lit " \x7b\n") (by decide) rfl
  have hbody := ((hstruct.append (Lexes.flatMap fun l hl => lexes_line (hworded.lines l hl))).code
    (b := lit "\x7d;\n") (by decide) rfl).code (b := lit "#pragma pack(pop)\n\n") (by decide) rfl
  have hasserts := hbody.append
    (Lexes.flatMap fun p hp => lexes_offsetAssert hname (hworded.placed p hp))
  have htext := ((((hasserts.code (b := lit "static_assert(sizeof(") (by decide) rfl).word
    hname).code (b := lit ") == ") (by decide) rfl).number
    (isNumber_hex (generateCppStruct s).body.cursor)).code (b := lit ");\n") (by decide) rfl
  refine (Lexes.tokens htext).trans ?_
  simp [GeneratedStruct.tokens]
  rfl

end text

/-! ### The assertions -/

theorem extent_of_unnamed {lines : List Line} (h : lines.filterMap Line.name? = []) :
    extent (Line.width sizeof) lines = 0 := by
  induction lines with
  | nil => rfl
  | cons l lines ih =>
    cases l with
    | pad index count => cases h
    | member type name offset => cases h
    | omitted name offset cursor =>
      rw [extent_cons, ih h]
      rfl

theorem lastEnd_placedFields_pos (h : s.fields ≠ []) : 0 < lastEnd (placedFields s) := by
  have hgrow : ∀ (fields placed : List StructureField), 0 < lastEnd placed →
      0 < lastEnd (fields.foldl placeIfFree placed) := by
    intro fields
    induction fields with
    | nil => exact fun placed hpos => hpos
    | cons g fields ih =>
      refine fun placed hpos => ih _ ?_
      unfold placeIfFree
      split
      · rw [lastEnd_append]
        exact lt_of_lt_of_le hpos (le_max_left _ _)
      · exact hpos
  unfold placedFields
  cases hsorted : sortedFields s with
  | nil =>
    have hperm := BinarySearch.sortBy_perm (fun f : StructureField => f.offset.toNat) s.fields
    have hnil : ([] : List StructureField).Perm s.fields := hsorted ▸ hperm
    exact absurd hnil.nil_eq.symm h
  | cons f fields =>
    refine hgrow fields _ ?_
    have hsize : 0 < (fieldSize f).toNat := by
      rw [Nat.pos_iff_ne_zero]
      exact fun h => fieldSize_ne_zero (UInt64.toNat_inj.mp h)
    have hfirst : placeIfFree [] f = [f] := if_pos fun g hg => absurd hg List.not_mem_nil
    have hend : lastEnd [f] = max 0 (fieldEnd f) := rfl
    rw [hfirst, hend, fieldEnd]
    omega

/-- **The generated struct compiles to the dissected layout** if and only if no two members get
the same name, none of the names is taken, and there is a member. -/
theorem compiles_iff {scope : Scope} (hscope : scope.Suits s)
    (hends : ∀ f ∈ s.fields, fieldEnd f < 2 ^ 64) :
    Compiles s scope (generateCppStruct s) ↔ Nameable s scope := by
  obtain ⟨h, hcursor, hcount⟩ := generate_laying hscope.toSizes hends
  have hlayout := generate_layout hscope.toSizes hends
  have hnodup := h.nodup_names_iff
  have hnames := h.mem_names_iff
  have htypes := h.mem_types_iff
  rw [hcount] at hnodup
  simp only [hcount] at hnames htypes
  constructor
  · intro hcompiles
    obtain ⟨hdistinct, hapart⟩ := hnodup.mp hcompiles.names
    refine ⟨hdistinct, hapart, fun f hf => hcompiles.usable _ ((hnames _).mpr (.inl ⟨f, hf, rfl⟩)),
      fun i hi => hcompiles.usable _ ((hnames _).mpr (.inr ⟨i, hi, rfl⟩)), fun t ht => ?_,
      hcompiles.fresh, ?_, ?_⟩
    · have hunchanged := mt (hnames _).mpr (hcompiles.unchanged t ((htypes _).mpr ht))
      rw [not_or] at hunchanged
      exact ⟨fun f hf heq => hunchanged.1 ⟨f, hf, heq⟩, fun i hi heq => hunchanged.2 ⟨i, hi, heq⟩⟩
    · by_contra hempty
      push Not at hempty
      obtain ⟨name, size, fields⟩ := s
      obtain ⟨rfl, rfl⟩ : fields = [] ∧ size = 0 := hempty
      have hsize := hcompiles.sizeAssert
      simp [generateCppStruct, sortedFields, BinarySearch.sortBy, Body.padTo, structSize] at hsize
    · rw [← hcursor, ← hcompiles.sizeAssert]
      exact hcompiles.object
  · intro hnameable
    have hdistinct := hnodup.mpr ⟨hnameable.distinct, hnameable.apart⟩
    have hsize : structSize scope.sizeof (generateCppStruct s).body.lines =
        (generateCppStruct s).body.cursor.toNat := by
      have hpos : 0 < (generateCppStruct s).body.cursor.toNat := by
        rw [hcursor, lt_max_iff]
        rcases hnameable.nonempty with hfields | hsize
        · exact .inr (lastEnd_placedFields_pos hfields)
        · exact .inl (Nat.pos_iff_ne_zero.mpr fun h => hsize (UInt64.toNat_inj.mp h))
      rw [structSize, if_neg, h.cursor]
      intro hunnamed
      rw [← h.cursor, extent_of_unnamed hunnamed] at hpos
      omega
    refine ⟨hlayout, tokens_text s, hdistinct, fun name hname => ?_, fun t ht => ?_,
      fun t ht hname => ?_, hnameable.fresh, fun p hp => ?_, hsize, ?_⟩
    · rcases (hnames _).mp hname with ⟨f, hf, rfl⟩ | ⟨i, hi, rfl⟩
      · exact hnameable.usable f hf
      · exact hnameable.padding i hi
    · rcases List.mem_append.mp ((htypes _).mp ht) with ht | ht
      · obtain ⟨f, hf, rfl⟩ := List.mem_map.mp ht
        exact name_fieldType hscope (mem_placedFields hf)
      · rw [List.eq_of_mem_replicate ht]
        exact hscope.language "uint8_t" (List.mem_cons_self ..)
    · obtain ⟨hfields, hpads⟩ := hnameable.unchanged t ((htypes _).mp ht)
      rcases (hnames _).mp hname with ⟨f, hf, heq⟩ | ⟨i, hi, heq⟩
      · exact hfields f hf heq
      · exact hpads i hi heq
    · rw [hlayout.asserted] at hp
      obtain ⟨f, hf, rfl⟩ := List.mem_map.mp hp
      obtain ⟨q, hq, hline⟩ := mem_lines_iff.mp (h.member_iff.mpr ⟨f, hf, rfl⟩).1
      have hname : q.2.name? = some (fieldName f) := by
        rw [hline]
        rfl
      rw [offsetOf_eq hdistinct hq hname, h.offsets q hq _ _ _ hline]
    · rw [hsize, hcursor]
      exact hnameable.object

end layout

/-! ### Two structures -/

/-- The headers of a structure, where one nested structure is known. -/
def plainScope : Scope where
  macros := ["NULL", "INT32_MAX", "SIZE_MAX", "__INT32_TYPE__"].map lit
  known := ["uint8_t", "uint16_t", "uint32_t", "uint64_t", "int8_t", "int16_t", "int32_t",
    "int64_t", "float", "double", "size_t", "std", "Vector2"].map lit
  sizeof name :=
    if name = lit "uint8_t" ∨ name = lit "int8_t" then 1
    else if name = lit "int16_t" then 2
    else if name = lit "uint32_t" ∨ name = lit "int32_t" ∨ name = lit "float" then 4
    else 8
  largest := 2 ^ 63 - 1

theorem padName_not_reserved (index : ℕ) : padName index ∉ plainScope.reserved := by
  have hall : ∀ w ∈ plainScope.reserved, w.take 4 ≠ lit "_pad" := by decide +kernel
  exact fun hmem => hall _ hmem rfl

theorem plainScope_suits {s : StructureDefinition} (h : ∀ f ∈ s.fields, f.nestedStructure ≠ [] →
    plainScope.sizeof (sanitizeIdentifier f.nestedStructure (lit "NestedStruct")) =
        (fieldSize f).toNat ∧
      sanitizeIdentifier f.nestedStructure (lit "NestedStruct") ∈ plainScope.known) :
    plainScope.Suits s := by
  refine ⟨?_, by decide, fun f hf hnested => (h f hf hnested).2⟩
  constructor <;> first | exact fun f hf hnested => (h f hf hnested).1 | decide

/-- A field after a gap, listed first, and one that overlaps the other. -/
def playerState : StructureDefinition where
  name := lit "Player State"
  size := 24
  fields := [⟨lit "coords", 8, .byteArray, 8, [], lit "Vector2"⟩,
    ⟨lit "health", 0, .int32, 4, [], []⟩, ⟨lit "low", 2, .int16, 2, [], []⟩]

theorem placedFields_playerState : placedFields playerState =
    [⟨lit "health", 0, .int32, 4, [], []⟩,
      ⟨lit "coords", 8, .byteArray, 8, [], lit "Vector2"⟩] := by
  have hsorted : sortedFields playerState = [⟨lit "health", 0, .int32, 4, [], []⟩,
      ⟨lit "low", 2, .int16, 2, [], []⟩,
      ⟨lit "coords", 8, .byteArray, 8, [], lit "Vector2"⟩] := by
    simp [sortedFields, BinarySearch.sortBy, List.mergeSort, playerState]
  rw [placedFields, hsorted]
  decide

theorem compiles_iff_playerState :
    Compiles playerState plainScope (generateCppStruct playerState) := by
  refine (compiles_iff (plainScope_suits (by decide)) (by decide)).mpr
    ⟨?_, ?_, ?_, fun i _ => padName_not_reserved i, ?_, by decide +kernel, .inr (by decide), ?_⟩
  · rw [placedFields_playerState]
    decide
  · rw [gaps, placedFields_playerState]
    decide
  · rw [placedFields_playerState]
    decide +kernel
  · rw [usedTypes, gaps, placedFields_playerState]
    decide +kernel
  · rw [placedFields_playerState]
    decide

/-- Two fields of one name. -/
def twins : StructureDefinition where
  name := lit "Twins"
  size := 8
  fields := [⟨lit "hp", 0, .int32, 4, [], []⟩, ⟨lit "hp", 4, .int32, 4, [], []⟩]

theorem twins_not_compiled : (∀ f ∈ twins.fields, fieldEnd f < 2 ^ 64) ∧ plainScope.Suits twins ∧
    ¬ Compiles twins plainScope (generateCppStruct twins) := by
  refine ⟨by decide, plainScope_suits (by decide), fun h => ?_⟩
  have hlines : (generateCppStruct twins).body.lines =
      [.member (.named (lit "int32_t")) (lit "hp") 0,
        .member (.named (lit "int32_t")) (lit "hp") 4] := by
    simp [generateCppStruct, sortedFields, BinarySearch.sortBy, List.mergeSort, twins]
    decide
  have hnames := h.names
  rw [hlines] at hnames
  exact absurd hnames (by decide)

end CheatEngine.CppStruct
