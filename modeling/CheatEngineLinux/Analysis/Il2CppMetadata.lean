import CheatEngineLinux.Library.BufferReads

/-!
# IL2CPP metadata

`src/analysis/il2cpp_metadata.cpp`: the two string pools of a `global-metadata.dat` and, for some
versions, the tables of its types, fields, methods and images.

* `Region`: a part of the file that was checked to lie inside of it.
* `stringLoop`, `literalLoop`: the two pools.
* `decodeTables`: the tables, or none where they cannot be decoded.
* `parseIl2CppMetadata`.

An `int32_t` is a `BitVec 32`, and arithmetic on such is checked.
-/

namespace CheatEngine.Il2Cpp

open BufferReads

abbrev Bytes := List UInt8

/-- What is read is not told apart. -/
abbrev Run := Reader Unit

def kIl2CppMagic : ℕ := 0xfab11baf

def kMinHeader : ℕ := 32

def kTableHeaderEnd : ℕ := 0xb0

def kOffMethods : ℕ := 0x30

structure TableLayout where
  typeDefSize : ℕ
  tdNameOff : ℕ
  tdNamespaceOff : ℕ
  tdFieldStartOff : ℕ
  tdFieldCountOff : ℕ
  tdMethodStartOff : ℕ
  tdMethodCountOff : ℕ
  tdTokenOff : ℕ
  tdParentOff : ℕ
  imageSize : ℕ
  imgNameOff : ℕ
  imgTypeStartOff : ℕ
  imgTypeCountOff : ℕ

def kFieldRecSize : ℕ := 12

def kLayoutByrefless : TableLayout where
  typeDefSize := 0x58
  tdNameOff := 0x00
  tdNamespaceOff := 0x04
  tdFieldStartOff := 0x20
  tdFieldCountOff := 0x44
  tdMethodStartOff := 0x24
  tdMethodCountOff := 0x40
  tdTokenOff := 0x54
  tdParentOff := 0x10
  imageSize := 0x28
  imgNameOff := 0x00
  imgTypeStartOff := 0x08
  imgTypeCountOff := 0x0c

def layoutFor (version : BitVec 32) : Option TableLayout :=
  if 27 ≤ version.toInt ∧ version.toInt ≤ 31 then some kLayoutByrefless else none

/-! ### Regions -/

/-- `regionValid` -/
def regionValid (off size : BitVec 32) (total : ℕ) : Prop :=
  0 ≤ off.toInt ∧ 0 ≤ size.toInt ∧ off.toNat + size.toNat ≤ total

instance (off size : BitVec 32) (total : ℕ) : Decidable (regionValid off size total) :=
  inferInstanceAs (Decidable (_ ∧ _))

/-- A part of the file that lies inside of it; its size is that of an `int32_t`. -/
structure Region (b : Buffer) where
  off : ℕ
  size : ℕ
  fits : off + size ≤ b.size
  small : size < 2 ^ 31
  deriving DecidableEq

theorem toNat_lt_of_nonneg {v : BitVec 32} (h : 0 ≤ v.toInt) : v.toNat < 2 ^ 31 := by
  rw [BitVec.toInt_eq_toNat_cond] at h
  split at h <;> omega

def Region.of (b : Buffer) (off size : BitVec 32) : Option (Region b) :=
  if h : regionValid off size b.size then
    some ⟨off.toNat, size.toNat, h.2.2, toNat_lt_of_nonneg h.2.1⟩
  else none

def readRegion (b : Buffer) (offset : ℕ) : Run (Option (Region b)) := do
  let off ← int32 b () offset
  let size ← int32 b () (offset + 4)
  pure (Region.of b off size)

def stringAt (b : Buffer) (str : Region b) (idx : BitVec 32) : Run Bytes := do
  if idx.toInt < 0 ∨ idx.toInt ≥ str.size then pure []
  else
    let left ← subInt str.size idx.toInt
    let bytes ← read b () (str.off + idx.toNat) (min left.toNat 1024)
    pure (bytes.takeWhile (· ≠ 0))

/-! ### Tables -/

structure Il2CppFieldDef where
  name : Bytes
  typeIndex : BitVec 32
  token : ℕ
  deriving Repr, DecidableEq

structure Il2CppMethodDef where
  name : Bytes
  token : ℕ
  deriving Repr, DecidableEq

structure Il2CppTypeDef where
  name : Bytes
  namespaceName : Bytes
  fields : List Il2CppFieldDef := []
  methods : List Il2CppMethodDef := []
  token : ℕ
  parentTypeIndex : BitVec 32
  deriving Repr, DecidableEq

structure Il2CppImageDef where
  name : Bytes
  typeStart : ℕ := 0
  typeCount : ℕ := 0
  deriving Repr, DecidableEq

/-- A sum of `uint64_t`. -/
def sum64 (xs : List ℕ) : ℕ := xs.foldl (fun total x => (total + x) % 2 ^ 64) 0

def fieldAt (b : Buffer) (str fields : Region b) (k : ℕ) : Run Il2CppFieldDef := do
  let record := fields.off + k * kFieldRecSize
  let idx ← int32 b () record
  let name ← stringAt b str idx
  let typeIndex ← int32 b () (record + 4)
  let token ← uint b () (record + 8) 4
  pure ⟨name, typeIndex, token⟩

def typeAt (b : Buffer) (L : TableLayout) (str td : Region b) (allFields : List Il2CppFieldDef)
    (nFields k copiedFields : ℕ) : Run (Il2CppTypeDef × ℕ) := do
  let record := td.off + k * L.typeDefSize
  let nameIdx ← int32 b () (record + L.tdNameOff)
  let name ← stringAt b str nameIdx
  let namespaceIdx ← int32 b () (record + L.tdNamespaceOff)
  let namespaceName ← stringAt b str namespaceIdx
  let token ← uint b () (record + L.tdTokenOff) 4
  let parentTypeIndex ← int32 b () (record + L.tdParentOff)
  let fieldStart ← int32 b () (record + L.tdFieldStartOff)
  let fieldCount ← uint b () (record + L.tdFieldCountOff) 2
  let t : Il2CppTypeDef :=
    { name, namespaceName, token, parentTypeIndex }
  if 0 ≤ fieldStart.toInt ∧ fieldStart.toNat + fieldCount ≤ nFields ∧
      copiedFields + fieldCount ≤ nFields then
    pure ({ t with fields := (allFields.drop fieldStart.toNat).take fieldCount },
      copiedFields + fieldCount)
  else pure (t, copiedFields)

def typeLoop (b : Buffer) (L : TableLayout) (str td : Region b) (allFields : List Il2CppFieldDef)
    (nFields : ℕ) : List ℕ → ℕ → Run (List Il2CppTypeDef)
  | [], _ => pure []
  | k :: rest, copiedFields => do
    let (t, copiedFields) ← typeAt b L str td allFields nFields k copiedFields
    let ts ← typeLoop b L str td allFields nFields rest copiedFields
    pure (t :: ts)

/-- `(v >> 24) == 0x06 && (v & 0xFFFFFF) != 0` -/
def isMethodToken (v : ℕ) : Bool := decide (v / 2 ^ 24 = 6) && decide (v % 2 ^ 24 ≠ 0)

/-- The offset of the token in the first record. -/
def findToken (b : Buffer) (base recSize : ℕ) : ℕ → ℕ → Run (Option ℕ)
  | 0, _ => throw .running
  | turns + 1, o => do
    if recSize ≥ 8 ∧ o + 4 ≤ recSize then
      let v ← uint b () (base + o) 4
      if isMethodToken v then pure (some o) else findToken b base recSize turns (o + 4)
    else pure none

def kMaxMethodNameBytes : ℕ := 256 * 2 ^ 20

structure MethodTable (b : Buffer) where
  region : Region b
  total : ℕ
  recSize : ℕ
  tokenOff : ℕ

def methodAt (b : Buffer) (str : Region b) (m : MethodTable b) (index : ℕ) :
    Run Il2CppMethodDef := do
  let mrec := m.region.off + index * m.recSize
  let idx ← int32 b () mrec
  let name ← stringAt b str idx
  let token ← uint b () (mrec + m.tokenOff) 4
  pure ⟨name, token⟩

/-- The methods of the types from the `k`-th on. -/
def methodLoop (b : Buffer) (L : TableLayout) (str td : Region b) (m : MethodTable b) :
    ℕ → List Il2CppTypeDef → ℕ → Run (List Il2CppTypeDef)
  | _, [], _ => pure []
  | k, t :: rest, nameBytes => do
    if ¬nameBytes < kMaxMethodNameBytes then pure (t :: rest)
    else
      let trec := td.off + k * L.typeDefSize
      let mStart ← int32 b () (trec + L.tdMethodStartOff)
      let mCount ← uint b () (trec + L.tdMethodCountOff) 2
      if mStart.toInt < 0 ∨ mStart.toNat + mCount > m.total then
        let ts ← methodLoop b L str td m (k + 1) rest nameBytes
        pure (t :: ts)
      else
        let methods ← readMap (fun j => methodAt b str m (mStart.toNat + j)) (List.range mCount)
        let ts ← methodLoop b L str td m (k + 1) rest
          (nameBytes + (methods.map fun method => method.name.length).sum)
        pure ({ t with methods } :: ts)

def addMethods (b : Buffer) (L : TableLayout) (str td : Region b) (types : List Il2CppTypeDef) :
    Run (List Il2CppTypeDef) := do
  if b.size < kOffMethods + 8 then pure types
  else
    match ← readRegion b kOffMethods with
    | none => pure types
    | some region =>
      if ¬region.size > 0 then pure types
      else
        let counts ← readMap
          (fun k => uint b () (td.off + k * L.typeDefSize + L.tdMethodCountOff) 2)
          (List.range types.length)
        let total := sum64 counts
        if total = 0 ∨ region.size % total ≠ 0 then pure types
        else
          let recSize := region.size / total
          match ← findToken b region.off recSize (recSize + 1) 0 with
          | none => pure types
          | some tokenOff => methodLoop b L str td ⟨region, total, recSize, tokenOff⟩ 0 types 0

def imageAt (b : Buffer) (L : TableLayout) (str img : Region b) (nTypes k : ℕ) :
    Run Il2CppImageDef := do
  let record := img.off + k * L.imageSize
  let idx ← int32 b () (record + L.imgNameOff)
  let name ← stringAt b str idx
  let typeStart ← uint b () (record + L.imgTypeStartOff) 4
  let typeCount ← uint b () (record + L.imgTypeCountOff) 4
  if typeStart + typeCount ≤ nTypes then pure { name, typeStart, typeCount } else pure { name }

structure Tables where
  types : List Il2CppTypeDef := []
  images : List Il2CppImageDef := []
  deriving DecidableEq

def decodeRegions (b : Buffer) (L : TableLayout) (str fields td img : Region b) :
    Run (Option Tables) := do
  let nImages := img.size / L.imageSize
  let counts ← readMap (fun k => uint b () (img.off + k * L.imageSize + L.imgTypeCountOff) 4)
    (List.range nImages)
  let totalTypes := sum64 counts
  if totalTypes = 0 ∨ L.typeDefSize = 0 then pure none
  else if totalTypes > td.size / L.typeDefSize then pure none
  else if td.size ≠ totalTypes * L.typeDefSize % 2 ^ 64 then pure none
  else
    let nFields := fields.size / kFieldRecSize
    let allFields ← readMap (fieldAt b str fields) (List.range nFields)
    let types ← typeLoop b L str td allFields nFields (List.range totalTypes) 0
    let types ← addMethods b L str td types
    let images ← readMap (imageAt b L str img totalTypes) (List.range nImages)
    pure (some ⟨types, images⟩)

def decodeTables (b : Buffer) (version : BitVec 32) (str : Region b) : Run (Option Tables) := do
  match layoutFor version with
  | none => pure none
  | some L =>
    if b.size < kTableHeaderEnd then pure none
    else
      let fields ← readRegion b 0x60
      let td ← readRegion b 0xa0
      let img ← readRegion b 0xa8
      match fields, td, img with
      | some fields, some td, some img => decodeRegions b L str fields td img
      | _, _, _ => pure none

/-! ### String pools -/

def kMaxStrings : ℕ := 2 ^ 23

/-- The identifier pool from an index on. -/
def stringLoop (b : Buffer) (str : Region b) : ℕ → ℤ → List Bytes → Run (List Bytes)
  | 0, _, _ => throw .running
  | turns + 1, i, out => do
    if i < str.size ∧ out.length < kMaxStrings then
      let left ← subInt str.size i
      let bytes ← read b () (str.off + i.toNat) left.toNat
      let text := bytes.takeWhile (· ≠ 0)
      let out := if text = [] then out else out ++ [text]
      if text.length = left.toNat then pure out
      else
        let step ← addInt text.length 1
        let i ← addInt i step
        stringLoop b str turns i out
    else pure out

def literalLoop (b : Buffer) (lit litData : Region b) :
    ℕ → ℤ → ℕ → List Bytes → Run (List Bytes)
  | 0, _, _, _ => throw .running
  | turns + 1, i, copiedLiterals, out => do
    let stop ← addInt i 8
    if stop ≤ lit.size then
      let length ← uint b () (lit.off + i.toNat) 4
      let dataIndex ← int32 b () (lit.off + i.toNat + 4)
      if dataIndex.toInt < 0 ∨ dataIndex.toNat + length > litData.size then
        let i ← addInt i 8
        literalLoop b lit litData turns i copiedLiterals out
      else
        let copiedLiterals := (copiedLiterals + length) % 2 ^ 64
        if copiedLiterals > litData.size then pure out
        else
          let text ← read b () (litData.off + dataIndex.toNat) length
          let i ← addInt i 8
          literalLoop b lit litData turns i copiedLiterals (out ++ [text])
    else pure out

structure Il2CppMetadata where
  version : BitVec 32
  strings : List Bytes
  stringLiterals : List Bytes
  tablesDecoded : Bool
  tables : Tables
  deriving DecidableEq

/-- The string literals, where their two regions lie in the file. -/
def readLiterals (b : Buffer) : Run (List Bytes) := do
  let lit ← readRegion b 8
  let litData ← readRegion b 16
  match lit, litData with
  | some lit, some litData => literalLoop b lit litData (lit.size / 8 + 2) 0 0 []
  | _, _ => pure []

/-- `parseIl2CppMetadata`, of a buffer or a null pointer. -/
def parseIl2CppMetadata (data : Option Buffer) : Run (Option Il2CppMetadata) := do
  match data with
  | none => pure none
  | some b =>
    if b.size < kMinHeader then pure none
    else
      let magic ← uint b () 0 4
      if magic ≠ kIl2CppMagic then pure none
      else
        let version ← int32 b () 4
        match ← readRegion b 24 with
        | none => pure none
        | some str =>
          let strings ← stringLoop b str (str.size + 1) 0 []
          let stringLiterals ← readLiterals b
          let tables ← decodeTables b version str
          pure (some ⟨version, strings, stringLiterals, tables.isSome, tables.getD {}⟩)

end CheatEngine.Il2Cpp
