import Mathlib.Data.List.DropRight
import CheatEngineLinux.Core.AobSearch
import CheatEngineLinux.Library.JsonGrammar

/-!
# Signatures of code

The model of `src/analysis/signature.cpp`: the pattern grows instruction by instruction, with the
bytes that move with the module masked, until it is found at one place of the scope.

* `countInBuffer`, `countMatches`: the two searches, of a copy and of the process in chunks.
* `makeSignatureWith`: `makeSignatureIn`, for either of them.
* **PROVED `countMatches_eq`**: of a readable range the chunks count what a search of the copy does.
* **PROVED `countMatches_readable`**: a search in chunks that found one match and missed nothing has
  read the range.
* **PROVED `countScope_one`**: a count of one over the scope is of the only place.

The memory is static, and every search stops at a second match.
-/

namespace CheatEngine.Signature

open AutoAssembler (AobPattern Found noteMatch Matches matchesFrom kChunk)
open ByteOverlay
open JsonGrammar (Bytes)

/-! ### Patterns -/

/-- A pattern byte: a concrete value or a wildcard. -/
structure PatByte where
  value : UInt8
  wild : Bool
  deriving Repr, DecidableEq

/-- The pattern without its trailing wildcards. -/
def trimmed (pat : List PatByte) : List PatByte := pat.rdropWhile (·.wild)

/-- `pat[j].wild || buffer[p + j] == pat[j].value` for all `j`. -/
def matchedAt (pat : List PatByte) (buffer : List UInt8) (p : ℕ) : Bool :=
  (List.range pat.length).all fun j =>
    (pat.getD j ⟨0, true⟩).wild || buffer.getD (p + j) 0 == (pat.getD j ⟨0, true⟩).value

/-- The positions of a buffer that holds the bytes from `base` on, stopping once a second match is
found. -/
def countPlaces (pat : List PatByte) (buffer : List UInt8) (base : ℕ) : List ℕ → Found → Found
  | [], found => found
  | p :: rest, found =>
    if matchedAt pat buffer p then
      let found := noteMatch found (base + p)
      if found.count > 1 then found else countPlaces pat buffer base rest found
    else countPlaces pat buffer base rest found

/-- `countInBuffer` -/
def countInBuffer (pat : List PatByte) (buffer : List UInt8) (base : ℕ) : Found :=
  if pat.length = 0 ∨ pat.length > buffer.length then ⟨0, 0⟩
  else countPlaces pat buffer base (List.range (buffer.length + 1 - pat.length)) ⟨0, 0⟩

/-! ### The target -/

/-- A process whose memory does not change.  A read returns readable bytes, all of them when every
byte it asks for is readable; it may fail or fall short otherwise. -/
structure StaticTarget where
  mem : ℕ → UInt8
  readable : ℕ → Prop
  read : ℕ → ℕ → Option Bytes
  read_sound : ∀ a n bytes, read a n = some bytes → bytes.length ≤ n ∧
    bytes = slice mem a bytes.length ∧ ∀ i < bytes.length, readable (a + i)
  read_whole : ∀ a n, 0 < n → (∀ i < n, readable (a + i)) → read a n = some (slice mem a n)

structure SearchRange where
  base : ℕ
  size : ℕ
  fits : base + size ≤ 2 ^ 64
  deriving DecidableEq

/-- Every byte of the range can be read. -/
def SearchRange.Readable (target : StaticTarget) (r : SearchRange) : Prop :=
  ∀ i < r.size, target.readable (r.base + i)

/-- The loop of `countMatches`, with what it found and whether a read fell short.  Every turn moves
on by at least a byte. -/
def countChunks (target : StaticTarget) (pat : List PatByte) (base size : ℕ) :
    ℕ → ℕ → Found → Bool → Found × Bool
  | 0, _, found, incomplete => (found, incomplete)
  | turns + 1, offset, found, incomplete =>
    if offset + pat.length ≤ size then
      let want := min (kChunk + pat.length - 1) (size - offset)
      match target.read (base + offset) want with
      | none => (found, true)
      | some buffer =>
        let incomplete := incomplete || decide (buffer.length < want)
        if buffer.length < pat.length then (found, incomplete)
        else
          let limit := buffer.length - pat.length + 1
          let found := countPlaces pat buffer (base + offset) (List.range limit) found
          if found.count > 1 ∨ buffer.length < want then (found, incomplete)
          else countChunks target pat base size turns (offset + limit) found incomplete
    else (found, incomplete)

/-- `countMatches` -/
def countMatches (target : StaticTarget) (pat : List PatByte) (r : SearchRange)
    (incomplete : Bool) : Found × Bool :=
  if pat.length = 0 ∨ pat.length > r.size then (⟨0, 0⟩, incomplete)
  else countChunks target pat r.base r.size r.size 0 ⟨0, 0⟩ incomplete

/-- `cached[i]` -/
def cachedCopy (target : StaticTarget) (r : SearchRange) : Bytes :=
  ((target.read r.base r.size).getD []).take r.size

/-- One range of the scope, from its copy or from the process. -/
def countRange (target : StaticTarget) (useCache : Bool) (pat : List PatByte) (r : SearchRange)
    (incomplete : Bool) : Found × Bool :=
  if useCache then (countInBuffer pat (cachedCopy target r) r.base, incomplete)
  else countMatches target pat r incomplete

/-- `if (c && !found) first = at; found += c;` -/
def addFound (found c : Found) : Found :=
  ⟨found.count + c.count, if c.count ≠ 0 ∧ found.count = 0 then c.first else found.first⟩

/-- The loop of `count`. -/
def countScope (target : StaticTarget) (useCache : Bool) (pat : List PatByte) :
    List SearchRange → Found → Bool → Found × Bool
  | [], found, incomplete => (found, incomplete)
  | r :: scope, found, incomplete =>
    if found.count < 2 then
      let (c, incomplete) := countRange target useCache pat r incomplete
      countScope target useCache pat scope (addFound found c) incomplete
    else (found, incomplete)

/-! ### Instructions -/

/-- `MemoryOperand`: whether there is one, and its base register. -/
structure MemoryOperand where
  present : Bool := false
  baseReg : String := ""
  deriving Repr, DecidableEq

structure Instruction where
  bytes : Bytes
  ripTarget : ℕ := 0
  memory : MemoryOperand := {}
  dispOffset : ℕ := 0
  dispSize : ℕ := 0
  immOffset : ℕ := 0
  immSize : ℕ := 0
  deriving Repr, DecidableEq

/-- `n` bytes of the instruction as a little-endian number. -/
def Instruction.littleEndian (insn : Instruction) (offset n : ℕ) : ℕ :=
  (List.range n).foldr (fun b v => (insn.bytes.getD (offset + b) 0).toNat + 256 * v) 0

/-- Whether a byte of the instruction moves with the module. -/
def Instruction.relocatable (insn : Instruction) (k : ℕ) : Bool :=
  let ripWild := insn.ripTarget ≠ 0
  let inDisp (n : ℕ) : Bool := decide (insn.dispOffset ≤ k ∧ k < insn.dispOffset + n)
  let disp := insn.littleEndian insn.dispOffset 4
  let imm := insn.littleEndian insn.immOffset (min insn.immSize 8)
  (ripWild && insn.dispSize ≠ 0 && inDisp insn.dispSize)
    -- an absolute address in a displacement of 32-bit code
    || (!ripWild && insn.dispSize = 4 && inDisp 4
      && ((insn.memory.present && insn.memory.baseReg.isEmpty)
        || (0x10000 ≤ disp && disp < 0xFFFF0000)))
    || (insn.immSize ≥ 4 && insn.immOffset ≤ k && k < insn.immOffset + insn.immSize
      && 0x10000 ≤ imm && imm ≤ 0x7fffffffffff)

def Instruction.patBytes (insn : Instruction) : List PatByte :=
  insn.bytes.mapIdx fun k b => ⟨b, insn.relocatable k⟩

/-! ### The signature -/

/-- `%02X` -/
def hexDigit (n : ℕ) : UInt8 := UInt8.ofNat (if n < 10 then 0x30 + n else 0x41 + (n - 10))

def PatByte.text (b : PatByte) : Bytes :=
  if b.wild then [0x3f, 0x3f] else [hexDigit (b.value.toNat / 16), hexDigit (b.value.toNat % 16)]

/-- `toAob` -/
def toAob (pat : List PatByte) : Bytes := [0x20].intercalate ((trimmed pat).map PatByte.text)

structure SignatureResult where
  pattern : Bytes := []
  length : ℕ := 0
  unique : Bool := false
  moduleWide : Bool := false
  incomplete : Bool := false
  deriving Repr, DecidableEq

/-- The instructions one after the other: the pattern, whether it is unique, and whether a read
fell short. -/
def grow (count : List PatByte → Bool → Found × Bool) (address maxBytes : ℕ) :
    List Instruction → List PatByte → Bool → List PatByte × Bool × Bool
  | [], pat, incomplete => (pat, false, incomplete)
  | insn :: insns, pat, incomplete =>
    let pat := pat ++ insn.patBytes
    let (found, incomplete) := count (trimmed pat) incomplete
    if found.count = 1 then (pat, found.first == address, incomplete)
    else if pat.length ≥ maxBytes then (pat, false, incomplete)
    else grow count address maxBytes insns pat incomplete

/-- From `std::vector<PatByte> pat` on. -/
def signatureOf (count : List PatByte → Bool → Found × Bool) (address maxBytes : ℕ)
    (insns : List Instruction) (incomplete : Bool) : SignatureResult :=
  let (pat, unique, incomplete) := grow count address maxBytes insns [] incomplete
  let pat := trimmed pat
  let (unique, incomplete) :=
    if unique then (true, incomplete)
    else
      let (found, incomplete) := count pat incomplete
      (found.count == 1 && found.first == address, incomplete)
  { pattern := toAob pat, length := pat.length, unique := unique && !incomplete, incomplete }

def copiesIncomplete (target : StaticTarget) (scope : List SearchRange) : Bool :=
  scope.any fun r => decide ((cachedCopy target r).length < r.size)

/-- `makeSignatureIn`, from copies of the ranges or in chunks.  `disassemble` takes an address and
the bytes there; there is none without an architecture. -/
def makeSignatureWith (target : StaticTarget) (disassemble : ℕ → Bytes → Option (List Instruction))
    (useCache : Bool) (address : ℕ) (codeRegion : SearchRange) (scope : List SearchRange)
    (maxBytes : ℕ) : SignatureResult :=
  if codeRegion.size = 0 ∨ address < codeRegion.base
      ∨ address - codeRegion.base ≥ codeRegion.size then {}
  else
    let codeOff := address - codeRegion.base
    match target.read address (min (codeRegion.size - codeOff) ((maxBytes + 16) % 2 ^ 64)) with
    | none | some [] => {}
    | some code =>
      match disassemble address code with
      | none => {}
      | some insns =>
        signatureOf (fun pat => countScope target useCache pat scope ⟨0, 0⟩) address maxBytes insns
          (useCache && copiesIncomplete target scope)

/-- Ranges of ordinary total size are searched in memory. -/
def useCacheFor (scope : List SearchRange) : Bool :=
  decide (scope.foldl (fun total r => total + min r.size (2 ^ 64 - 1 - total)) 0 ≤ 128 * 2 ^ 20)

def makeSignatureIn (target : StaticTarget) (disassemble : ℕ → Bytes → Option (List Instruction))
    (address : ℕ) (codeRegion : SearchRange) (scope : List SearchRange) (maxBytes : ℕ) :
    SignatureResult :=
  makeSignatureWith target disassemble (useCacheFor scope) address codeRegion scope maxBytes

/-- `makeSignature` within a range.  The default of `maxBytes` is 64. -/
def makeSignatureInRange (target : StaticTarget)
    (disassemble : ℕ → Bytes → Option (List Instruction)) (address regionBase regionSize
    maxBytes : ℕ) : SignatureResult :=
  if h : regionSize ≠ 0 ∧ regionBase + regionSize ≤ 2 ^ 64 then
    makeSignatureIn target disassemble address ⟨regionBase, regionSize, h.2⟩
      [⟨regionBase, regionSize, h.2⟩] maxBytes
  else {}

/-- A mapping as `queryRegions` lists it. -/
structure Mapping extends SearchRange where
  path : String
  read : Bool
  deriving DecidableEq

/-- `makeSignature` across the readable mappings of the file that has the address, or within the
anonymous mapping that has it. -/
def makeSignature (target : StaticTarget) (disassemble : ℕ → Bytes → Option (List Instruction))
    (mappings : List Mapping) (address maxBytes : ℕ) : SignatureResult :=
  match mappings.find? fun r => decide (r.base ≤ address ∧ address < r.base + r.size) with
  | none => {}
  | some region =>
    let fileBacked := region.path.startsWith "/"
    let scope := if fileBacked then
        mappings.filter fun r => r.path == region.path && r.read && r.size ≠ 0
      else []
    let moduleWide := !scope.isEmpty
    let ranges := if moduleWide then scope.map Mapping.toSearchRange else [region.toSearchRange]
    { makeSignatureIn target disassemble address region.toSearchRange ranges maxBytes with
      moduleWide }

/-! ### Matches -/

variable {target : StaticTarget} {pat : List PatByte}

def toPattern (pat : List PatByte) : AobPattern :=
  ⟨pat.map fun b => if b.wild then 0 else b.value, pat.map fun b => if b.wild then 0 else 0xff⟩

@[simp] theorem toPattern_size : (toPattern pat).size = pat.length := List.length_map _

theorem accepts_toPattern {j : ℕ} (hj : j < pat.length) (b : UInt8) :
    (toPattern pat).accepts j b =
      ((pat.getD j ⟨0, true⟩).wild || b == (pat.getD j ⟨0, true⟩).value) := by
  have hget : pat[j]? = some pat[j] := List.getElem?_eq_getElem hj
  simp only [AobPattern.accepts, toPattern, List.getD_eq_getElem?_getD, List.getElem?_map, hget,
    Option.map_some, Option.getD_some]
  cases pat[j].wild with
  | true => simp
  | false => simp [show (0xff : UInt8) = -1 from rfl]

theorem matchedAt_eq (buffer : List UInt8) (p : ℕ) :
    matchedAt pat buffer p = (toPattern pat).matchedAt buffer p := by
  rw [matchedAt, AobPattern.matchedAt, toPattern_size, Bool.eq_iff_iff, List.all_eq_true,
    List.all_eq_true]
  refine forall₂_congr fun j hj => ?_
  rw [accepts_toPattern (List.mem_range.mp hj)]

def noteTwo (addresses : List ℕ) (found : Found) : Found :=
  (addresses.take (2 - found.count)).foldl noteMatch found

@[simp] theorem noteTwo_nil (found : Found) : noteTwo [] found = found := by
  rw [noteTwo, List.take_nil]
  rfl

theorem noteTwo_full {found : Found} (h : 2 ≤ found.count) (addresses : List ℕ) :
    noteTwo addresses found = found := by
  rw [noteTwo, Nat.sub_eq_zero_of_le h]
  rfl

theorem noteTwo_cons {found : Found} (h : found.count < 2) (a : ℕ) (addresses : List ℕ) :
    noteTwo (a :: addresses) found = noteTwo addresses (noteMatch found a) := by
  have hcount : 2 - found.count = (2 - (noteMatch found a).count) + 1 := by
    simp only [noteMatch]
    omega
  rw [noteTwo, hcount, List.take_succ_cons, List.foldl_cons, ← noteTwo]

theorem noteTwo_append (xs ys : List ℕ) (found : Found) :
    noteTwo (xs ++ ys) found = noteTwo ys (noteTwo xs found) := by
  induction xs generalizing found with
  | nil => rw [List.nil_append, noteTwo_nil]
  | cons a xs ih =>
    by_cases h : found.count < 2
    · rw [List.cons_append, noteTwo_cons h, noteTwo_cons h, ih]
    · rw [noteTwo_full (Nat.le_of_not_lt h), noteTwo_full (Nat.le_of_not_lt h),
        noteTwo_full (Nat.le_of_not_lt h)]

theorem countPlaces_eq {buffer : List UInt8} {base : ℕ} (places : List ℕ) {found : Found}
    (h : found.count < 2) :
    countPlaces pat buffer base places found =
      noteTwo ((places.filter (matchedAt pat buffer ·)).map (base + ·)) found := by
  induction places generalizing found with
  | nil => exact (noteTwo_nil found).symm
  | cons p rest ih =>
    rw [countPlaces]
    by_cases hp : matchedAt pat buffer p = true
    · rw [if_pos hp, List.filter_cons_of_pos hp, List.map_cons, noteTwo_cons h]
      dsimp only
      split
      · next hfull => rw [noteTwo_full hfull]
      · next hfew => exact ih (by omega)
    · rw [if_neg hp, List.filter_cons_of_neg hp, ih h]

/-- The first `limit` places of a buffer of `n` bytes. -/
theorem countPlaces_slice {base n limit : ℕ} (hlimit : limit + pat.length ≤ n + 1) {found : Found}
    (h : found.count < 2) :
    countPlaces pat (slice target.mem base n) base (List.range limit) found =
      noteTwo (matchesFrom target.mem (toPattern pat) base limit) found := by
  rw [countPlaces_eq _ h, matchesFrom, List.range'_eq_map_range, List.filter_map]
  congr 2
  refine List.filter_congr fun p hp => ?_
  have hp := List.mem_range.mp hp
  rw [matchedAt_eq, AutoAssembler.matchedAt_slice (by rw [toPattern_size]; omega)]
  rfl

/-! ### Ranges -/

def rangeMatches (target : StaticTarget) (pat : List PatByte) (r : SearchRange) : List ℕ :=
  matchesFrom target.mem (toPattern pat) r.base (r.size + 1 - pat.length)

theorem cachedCopy_eq {r : SearchRange} (h : r.Readable target) :
    cachedCopy target r = slice target.mem r.base r.size := by
  rcases Nat.eq_zero_or_pos r.size with hzero | hpos
  · rw [cachedCopy, hzero, List.take_zero]
    rfl
  · rw [cachedCopy, target.read_whole _ _ hpos h, Option.getD_some,
      List.take_of_length_le (le_of_eq (slice_length _ _ _))]

theorem readable_of_cachedCopy {r : SearchRange} (h : r.size ≤ (cachedCopy target r).length) :
    r.Readable target := by
  intro i hi
  rw [cachedCopy] at h
  cases hread : target.read r.base r.size with
  | none =>
    rw [hread, Option.getD_none, List.take_nil, List.length_nil] at h
    omega
  | some bytes =>
    rw [hread, Option.getD_some, List.length_take] at h
    exact (target.read_sound _ _ _ hread).2.2 i (by omega)

theorem countInBuffer_eq (hpat : pat ≠ []) {r : SearchRange} (h : r.Readable target) :
    countInBuffer pat (cachedCopy target r) r.base =
      noteTwo (rangeMatches target pat r) ⟨0, 0⟩ := by
  have hlength : pat.length ≠ 0 := by simpa using hpat
  rw [countInBuffer, cachedCopy_eq h, slice_length]
  split
  · rw [rangeMatches, show r.size + 1 - pat.length = 0 by omega]
    rfl
  · exact countPlaces_slice (by omega) Nat.two_pos

theorem countChunks_eq (hpat : pat ≠ []) {base size turns offset : ℕ} {found : Found}
    (hturns : size - offset ≤ turns) (hread : ∀ i < size, target.readable (base + i))
    (h : found.count < 2) (incomplete : Bool) :
    countChunks target pat base size turns offset found incomplete =
      (noteTwo (matchesFrom target.mem (toPattern pat) (base + offset)
        (size + 1 - pat.length - offset)) found, incomplete) := by
  have hlength : 0 < pat.length := List.length_pos_iff.mpr hpat
  induction turns generalizing offset found with
  | zero =>
    rw [show size + 1 - pat.length - offset = 0 by omega]
    exact congrArg (·, incomplete) (noteTwo_nil found).symm
  | succ turns ih =>
    rw [countChunks]
    split
    · next hfits =>
      have hkChunk : 0 < kChunk := by decide
      dsimp only
      set want := min (kChunk + pat.length - 1) (size - offset) with hwant
      rw [target.read_whole (base + offset) want (by omega) fun i hi => by
        rw [Nat.add_assoc]
        exact hread _ (by omega)]
      dsimp only
      rw [slice_length, decide_eq_false (Nat.lt_irrefl want), Bool.or_false,
        if_neg (by omega), countPlaces_slice (by omega) h]
      generalize hlimit : want - pat.length + 1 = limit
      have hsplit : size + 1 - pat.length - offset =
          limit + (size + 1 - pat.length - (offset + limit)) := by omega
      rw [hsplit, AutoAssembler.matchesFrom_add, noteTwo_append]
      split
      · next hfull => rw [noteTwo_full (hfull.resolve_right (Nat.lt_irrefl want))]
      · next hmore => rw [ih (by omega) (by omega), Nat.add_assoc]
    · rw [show size + 1 - pat.length - offset = 0 by omega]
      exact congrArg (·, incomplete) (noteTwo_nil found).symm

theorem countMatches_eq (hpat : pat ≠ []) {r : SearchRange} (h : r.Readable target)
    (incomplete : Bool) :
    countMatches target pat r incomplete =
      (noteTwo (rangeMatches target pat r) ⟨0, 0⟩, incomplete) := by
  have hlength : pat.length ≠ 0 := by simpa using hpat
  rw [countMatches]
  split
  · rw [rangeMatches, show r.size + 1 - pat.length = 0 by omega]
    exact congrArg (·, incomplete) (noteTwo_nil _).symm
  · exact countChunks_eq hpat (Nat.sub_le _ _) h Nat.two_pos incomplete

theorem countChunks_readable (hpat : pat ≠ []) {base size turns offset : ℕ} {found : Found}
    {incomplete : Bool} (hturns : size - offset ≤ turns)
    (hwhole : (countChunks target pat base size turns offset found incomplete).2 = false)
    (hcount : (countChunks target pat base size turns offset found incomplete).1.count < 2) :
    incomplete = false ∧ (offset + pat.length ≤ size →
      ∀ i, offset ≤ i → i < size → target.readable (base + i)) := by
  have hlength : 0 < pat.length := List.length_pos_iff.mpr hpat
  induction turns generalizing offset found incomplete with
  | zero => exact ⟨hwhole, fun hfits => by omega⟩
  | succ turns ih =>
    rw [countChunks] at hwhole hcount
    split at hwhole
    · next hfits =>
      rw [if_pos hfits] at hcount
      have hkChunk : 0 < kChunk := by decide
      dsimp only at hwhole hcount
      set want := min (kChunk + pat.length - 1) (size - offset) with hwant
      cases hread : target.read (base + offset) want with
      | none =>
        rw [hread] at hwhole
        cases hwhole
      | some buffer =>
        rw [hread] at hwhole hcount
        dsimp only at hwhole hcount
        obtain ⟨hle, -, hsound⟩ := target.read_sound _ _ _ hread
        split at hwhole
        · -- a buffer shorter than the pattern is a short read
          next hshort =>
          rw [decide_eq_true (by omega), Bool.or_true] at hwhole
          cases hwhole
        · next hlong =>
          rw [if_neg hlong] at hcount
          split at hwhole
          · next hstop =>
            rw [if_pos hstop] at hcount
            have hshort : buffer.length < want :=
              hstop.resolve_left (Nat.not_lt.mpr (Nat.le_of_lt_succ hcount))
            rw [decide_eq_true hshort, Bool.or_true] at hwhole
            cases hwhole
          · next hmore =>
            rw [if_neg hmore] at hcount
            obtain ⟨hincomplete, hrest⟩ := ih (by omega) hwhole hcount
            rw [Bool.or_eq_false_iff, decide_eq_false_iff_not] at hincomplete
            refine ⟨hincomplete.1, fun _ i hi hsize => ?_⟩
            rcases Nat.lt_or_ge i (offset + want) with hin | hout
            · have := hsound (i - offset) (by omega)
              rwa [Nat.add_assoc, Nat.add_sub_cancel' hi] at this
            · exact hrest (by omega) i (by omega) hsize
    · next hdone => exact ⟨hwhole, fun hfits => absurd hfits hdone⟩

theorem countMatches_readable (hpat : pat ≠ []) {r : SearchRange} {incomplete : Bool}
    (hwhole : (countMatches target pat r incomplete).2 = false)
    (hcount : (countMatches target pat r incomplete).1.count < 2) :
    incomplete = false ∧ (pat.length ≤ r.size → r.Readable target) := by
  have hlength : pat.length ≠ 0 := by simpa using hpat
  rw [countMatches] at hwhole hcount
  split at hwhole
  · exact ⟨hwhole, fun hfits => by omega⟩
  · next hfits =>
    rw [if_neg hfits] at hcount
    obtain ⟨hincomplete, hread⟩ := countChunks_readable hpat (Nat.sub_le _ _) hwhole hcount
    exact ⟨hincomplete, fun hle i hi => hread (by omega) i (Nat.zero_le i) hi⟩

/-! ### The scope -/

theorem countRange_eq (hpat : pat ≠ []) {r : SearchRange} (h : r.Readable target)
    (useCache incomplete : Bool) :
    countRange target useCache pat r incomplete =
      (noteTwo (rangeMatches target pat r) ⟨0, 0⟩, incomplete) := by
  cases useCache with
  | true => exact congrArg (·, incomplete) (countInBuffer_eq hpat h)
  | false => exact countMatches_eq hpat h incomplete

theorem countRange_nil (useCache : Bool) (r : SearchRange) (incomplete : Bool) :
    countRange target useCache [] r incomplete = (⟨0, 0⟩, incomplete) := by
  cases useCache with
  | true => rfl
  | false =>
    rw [countRange, if_neg Bool.false_ne_true, countMatches, if_pos (Or.inl List.length_nil)]

theorem countScope_nil (useCache : Bool) (scope : List SearchRange) (incomplete : Bool) :
    countScope target useCache [] scope ⟨0, 0⟩ incomplete = (⟨0, 0⟩, incomplete) := by
  induction scope with
  | nil => rfl
  | cons r scope ih =>
    rw [countScope, if_pos Nat.two_pos, countRange_nil]
    exact ih

theorem countScope_modes {scope : List SearchRange} (h : ∀ r ∈ scope, r.Readable target)
    (pat : List PatByte) (incomplete : Bool) :
    countScope target true pat scope ⟨0, 0⟩ incomplete =
      countScope target false pat scope ⟨0, 0⟩ incomplete := by
  rcases eq_or_ne pat [] with rfl | hpat
  · rw [countScope_nil, countScope_nil]
  · generalize (⟨0, 0⟩ : Found) = found
    induction scope generalizing found incomplete with
    | nil => rfl
    | cons r scope ih =>
      have hr := h r List.mem_cons_self
      rw [countScope, countScope, countRange_eq hpat hr, countRange_eq hpat hr]
      dsimp only
      rw [ih fun r hr => h r (List.mem_cons_of_mem _ hr)]

theorem countScope_count_le (useCache : Bool) (scope : List SearchRange) (found : Found)
    (incomplete : Bool) :
    found.count ≤ (countScope target useCache pat scope found incomplete).1.count := by
  induction scope generalizing found incomplete with
  | nil => exact Nat.le_refl _
  | cons r scope ih =>
    rw [countScope]
    split
    · dsimp only
      exact Nat.le_trans (Nat.le_add_right _ _) (ih (addFound found _) _)
    · exact Nat.le_refl _

def Found.seen (found : Found) : List ℕ := if found.count = 0 then [] else [found.first]

theorem seen_addFound {addresses : List ℕ} {found : Found}
    (h : (addFound found (noteTwo addresses ⟨0, 0⟩)).count < 2) :
    Found.seen (addFound found (noteTwo addresses ⟨0, 0⟩)) = Found.seen found ++ addresses := by
  match addresses with
  | [] => simp [addFound, Found.seen]
  | [a] =>
    have hone : noteTwo [a] ⟨0, 0⟩ = ⟨1, a⟩ := rfl
    rw [hone, addFound] at h ⊢
    have hzero : found.count = 0 := by
      dsimp only at h
      omega
    simp [Found.seen, hzero]
  | a :: b :: rest =>
    have htwo : noteTwo (a :: b :: rest) ⟨0, 0⟩ = ⟨2, a⟩ := rfl
    rw [htwo, addFound] at h
    dsimp only at h
    omega

theorem countRange_few (hpat : pat ≠ []) {useCache : Bool} {r : SearchRange} {incomplete : Bool}
    (hcache : useCache = true → r.Readable target)
    (hwhole : (countRange target useCache pat r incomplete).2 = false)
    (hcount : (countRange target useCache pat r incomplete).1.count < 2) :
    incomplete = false ∧ (pat.length ≤ r.size → r.Readable target) ∧
      (countRange target useCache pat r incomplete).1 =
        noteTwo (rangeMatches target pat r) ⟨0, 0⟩ := by
  cases useCache with
  | true =>
    have hr := hcache rfl
    exact ⟨hwhole, fun _ => hr, by rw [countRange_eq hpat hr]⟩
  | false =>
    obtain ⟨hincomplete, hread⟩ := countMatches_readable hpat hwhole hcount
    refine ⟨hincomplete, hread, ?_⟩
    by_cases hfits : pat.length ≤ r.size
    · rw [countRange_eq hpat (hread hfits)]
    · -- no place of the range has room for the pattern
      have hnone : rangeMatches target pat r = [] := by
        rw [rangeMatches, show r.size + 1 - pat.length = 0 by omega]
        rfl
      rw [hnone, noteTwo_nil]
      have hout : pat.length = 0 ∨ pat.length > r.size := .inr (Nat.lt_of_not_le hfits)
      exact congrArg Prod.fst (if_pos hout)

/-- **A count of one** that missed nothing has read every range the pattern fits in, and the place
it found is the only one. -/
theorem countScope_one (hpat : pat ≠ []) {useCache : Bool} {scope : List SearchRange}
    {found : Found} {incomplete : Bool} (hcache : useCache = true → ∀ r ∈ scope, r.Readable target)
    (hwhole : (countScope target useCache pat scope found incomplete).2 = false)
    (hcount : (countScope target useCache pat scope found incomplete).1.count = 1) :
    incomplete = false ∧ (∀ r ∈ scope, pat.length ≤ r.size → r.Readable target) ∧
      Found.seen found ++ scope.flatMap (rangeMatches target pat) =
        [(countScope target useCache pat scope found incomplete).1.first] := by
  induction scope generalizing found incomplete with
  | nil =>
    refine ⟨hwhole, fun r hr => absurd hr List.not_mem_nil, ?_⟩
    have hpos : found.count ≠ 0 := hcount ▸ Nat.one_ne_zero
    rw [List.flatMap_nil, List.append_nil, Found.seen, if_neg hpos]
    rfl
  | cons r scope ih =>
    rw [countScope] at hwhole hcount ⊢
    split at hwhole
    · next hfew =>
      rw [if_pos hfew] at hcount ⊢
      dsimp only at hwhole hcount ⊢
      obtain ⟨hrest, hreads, hseen⟩ := ih (fun h r hr => hcache h r (List.mem_cons_of_mem _ hr))
        hwhole hcount
      have hle : (addFound found (countRange target useCache pat r incomplete).1).count ≤ 1 :=
        hcount ▸ countScope_count_le useCache scope _ _
      have hrange : (countRange target useCache pat r incomplete).1.count < 2 :=
        Nat.lt_succ_of_le (Nat.le_trans (Nat.le_add_left _ found.count) hle)
      obtain ⟨hincomplete, hread, heq⟩ :=
        countRange_few hpat (fun h => hcache h r List.mem_cons_self) hrest hrange
      refine ⟨hincomplete, fun r' hr' => ?_, ?_⟩
      · rcases List.mem_cons.mp hr' with rfl | hr'
        · exact hread
        · exact hreads r' hr'
      · rw [← hseen, heq, seen_addFound (by rw [← heq]; omega), List.flatMap_cons,
          List.append_assoc]
    · next hmany =>
      rw [if_neg hmany] at hcount
      dsimp only at hcount
      omega

end CheatEngine.Signature
