import Mathlib.Data.List.Sort
import CheatEngineLinux.Core.TargetMemory

/-!
# The auto-assembler: running a script and undoing it

The model of `AutoAssembler::execute`, its rollback and `AutoAssembler::cleanup`
(`src/core/autoasm.cpp`).  A script is taken after parsing: its allocations, what each of its lines
does to the target, and the symbols it registers.  Shared flags and undo records are numbered;
log texts are left out.

* `patchMemory`, `protectRange`, `runLine`: one line of a script.
* `planHandovers`, `dropRange`, `overrideOriginals`: original bytes that go to a newer script.
* `cleanup`: the undo, which `disable` and the rollback of a failed run both use.
* `execute`: a run of a script.
-/

namespace CheatEngine.AutoAssembler

open ByteOverlay

def formatHexLiteral (address : ℕ) : String :=
  "0x" ++ String.ofList (Nat.toDigits 16 address)

/-! ### Tables by name -/

abbrev Table (V : Type) := List (String × V)

namespace Table

variable {V : Type}

def find (t : Table V) (name : String) : Option V :=
  List.lookup name t

def erase (t : Table V) (name : String) : Table V :=
  List.filter (fun entry => entry.1 != name) t

def insert (t : Table V) (name : String) (v : V) : Table V :=
  (name, v) :: t.erase name

end Table

/-! ### Undo records -/

structure AllocEntry where
  name : String
  address : ℕ
  size : ℕ
  /-- The number of the shared released flag. -/
  released : ℕ
  /-- The number of the undo record that made the allocation. -/
  owner : ℕ
  image : Option Image
  deriving Repr, DecidableEq

structure OriginalBytes where
  address : ℕ
  bytes : List UInt8
  written : List UInt8
  executable : Bool := false
  allocationReleased : Option ℕ := none
  verifyOwnership : Bool := false
  deriving Repr, DecidableEq

structure Protection where
  address : ℕ
  size : ℕ
  protection : MemProt
  allocationReleased : Option ℕ := none
  deriving Repr, DecidableEq

structure Ownership where
  complete : Bool := false
  restoreOverrides : List (ℕ × List UInt8) := []
  deriving Repr, DecidableEq

structure DisableInfo where
  allocs : List AllocEntry := []
  originals : List OriginalBytes := []
  symbols : Table ℕ := []
  protections : List Protection := []
  image : Option Image := none
  ownership : Option ℕ := none
  deriving Repr, DecidableEq

structure AutoAsmResult where
  success : Bool := false
  error : String := ""
  disableInfo : DisableInfo := {}
  deriving Repr, DecidableEq

structure LivePatch where
  owner : ℕ
  image : Option Image
  pid : ℕ
  ranges : List (ℕ × ℕ)
  deriving Repr, DecidableEq

structure Handover where
  /-- The newer script's undo record. -/
  receiver : ℕ
  address : ℕ
  bytes : List UInt8
  deriving Repr, DecidableEq

/-- The names that all scripts of one assembler share. -/
structure Tables where
  globalSymbols : Table ℕ := []
  symbolOwners : Table ℕ := []
  knownAllocations : Table AllocEntry := []
  globalAllocations : List String := []
  deriving Repr, DecidableEq

/-- The target, the assembler and the flags that undo records share. -/
structure World where
  target : Target
  tables : Tables := {}
  /-- Scripts whose writes are not undone yet, oldest first. -/
  livePatches : List LivePatch := []
  owners : ℕ → Ownership := fun _ => {}
  released : ℕ → Bool := fun _ => false
  /-- The number of the next undo record or released flag. -/
  next : ℕ := 0

def World.call {α : Type} (w : World) (m : Op α) : α × World :=
  ((m w.target).1, { w with target := (m w.target).2 })

def recordReleased (released : ℕ → Bool) (flag : Option ℕ) : Bool :=
  flag.any released

/-! ### Original bytes -/

def OriginalBytes.range (patch : OriginalBytes) : ℕ × List UInt8 :=
  (patch.address, patch.bytes)

/-- Make `bytes` the value restored at `address` wherever saved originals cover it. -/
def overrideOriginals (originals : List OriginalBytes) (source : ℕ × List UInt8) :
    List OriginalBytes :=
  if source.2.isEmpty || overflows source.1 source.2.length then originals
  else originals.map fun patch =>
    if patch.bytes.isEmpty || overflows patch.address patch.bytes.length then patch
    else { patch with bytes := layBytes patch.address patch.bytes source }

/-- The part of a saved patch in `[start, stop]`. -/
def OriginalBytes.piece (patch : OriginalBytes) (start stop : ℕ) : OriginalBytes :=
  { patch with
    address := start
    bytes := (patch.bytes.drop (start - patch.address)).take (stop - start + 1)
    written := if patch.written.length = patch.bytes.length
      then (patch.written.drop (start - patch.address)).take (stop - start + 1) else [] }

/-- What is left of a saved patch without `[first, last]`. -/
def OriginalBytes.without (patch : OriginalBytes) (first last : ℕ) : List OriginalBytes :=
  let stop := patch.address + (patch.bytes.length - 1)
  if patch.bytes.isEmpty || decide (last < patch.address) || decide (stop < first) then [patch]
  else (if patch.address < first then [patch.piece patch.address (first - 1)] else []) ++
    if last < stop then [patch.piece (last + 1) stop] else []

/-- Remove `[first, last]` from every saved range: nothing restores those bytes. -/
def dropRange (originals : List OriginalBytes) (first last : ℕ) : List OriginalBytes :=
  originals.flatMap fun patch => patch.without first last

/-- What the saved patches restore at `[address, address + count)`: the earliest write's original
is laid last. -/
def restoredBytes (released : ℕ → Bool) (originals : List OriginalBytes) (address count : ℕ) :
    List UInt8 :=
  ((originals.filter fun patch =>
    !patch.bytes.isEmpty && !recordReleased released patch.allocationReleased).map
      OriginalBytes.range).reverse.foldl (layBytes address) (List.replicate count 0)

/-! ### Loops over calls -/

section loops

variable {α β : Type}

/-- The elements for which the call says so, in order. -/
def keep (f : α → Op Bool) : List α → Op (List α)
  | [] => pure []
  | x :: xs => do
    let kept ← f x
    let rest ← keep f xs
    return if kept then x :: rest else rest

/-- The first thing that the calls find. -/
def firstSome (f : α → Op (Option β)) : List α → Op (Option β)
  | [] => pure none
  | x :: xs => do
    match ← f x with
    | some y => return some y
    | none => firstSome f xs

/-- What the first call finds, or else the second. -/
def orElse (a b : Op (Option β)) : Op (Option β) := do
  match ← a with
  | some y => return some y
  | none => b

end loops

/-- Offsets and counts of the 64 KiB pieces of a range. -/
def pieces (size : ℕ) : List (ℕ × ℕ) :=
  (List.range ((size + 65535) / 65536)).map fun i => (i * 65536, min 65536 (size - i * 65536))

/-! ### What an undo looks at before it writes -/

/-- Something of the range can be read, or a region holds it. -/
def isMapped (address size : ℕ) : Op Bool := do
  match ← read address (min size 64) with
  | .ok (_ :: _) => return true
  | _ =>
    let region ← queryRegion address
    return region.any fun r => decide (r.base ≤ address) && decide (address - r.base < r.size)

/-- Patches and protections over unmapped ranges are dropped. -/
def withoutUnmapped (saved : DisableInfo) : Op DisableInfo := do
  let t ← get
  if saved.image.all fun image => image.pid == t.pid then
    let originals ← keep (fun patch =>
      if patch.bytes.isEmpty || overflows patch.address patch.bytes.length then pure true
      else isMapped patch.address patch.bytes.length) saved.originals
    let protections ← keep (fun p => isMapped p.address p.size) saved.protections
    return { saved with originals := originals, protections := protections }
  else return saved

/-- A byte of one of the operation's saved states. -/
def acceptedAt (released : ℕ → Bool) (originals : List OriginalBytes) (a : ℕ) (actual : UInt8) :
    Bool :=
  originals.any fun state =>
    !recordReleased released state.allocationReleased &&
      (byteAt state.address state.bytes a).isSome &&
      (byteAt state.address state.bytes a == some actual ||
        byteAt state.address state.written a == some actual)

def pieceConflict (released : ℕ → Bool) (originals : List OriginalBytes) (address count : ℕ) :
    Op (Option String) := do
  match ← read address count with
  | .error _ => return some ("Cannot inspect saved code ownership at " ++ formatHexLiteral address)
  | .ok actual =>
    if actual.length ≠ count then
      return some ("Cannot inspect saved code ownership at " ++ formatHexLiteral address)
    else return ((List.range count).find? fun i =>
      !acceptedAt released originals (address + i) (actual.getD i 0)).map fun i =>
        "Code ownership changed at " ++ formatHexLiteral (address + i) ++ "; saved undo retained"

/-- Refuse to overwrite code replaced by the target or another patch owner. -/
def codeOwnershipConflict (released : ℕ → Bool) (originals : List OriginalBytes) :
    Op (Option String) :=
  firstSome (fun patch =>
    if !patch.verifyOwnership || recordReleased released patch.allocationReleased ||
        patch.written.length != patch.bytes.length then pure none
    else firstSome (fun piece =>
      pieceConflict released originals (patch.address + piece.1) piece.2)
        (pieces patch.bytes.length)) originals

/-- An injected thread that still runs keeps its allocations, patches and protections. -/
def storageBusy (flag : Bool) (address size : ℕ) (what : String) : Op (Option String) := do
  if flag then return none
  else
    let busy ← threadStorageBusy address size
    return if busy then some ("Injected thread is still running; retain " ++ what ++
      " and retry cleanup after it exits") else none

def threadConflict (released : ℕ → Bool) (info : DisableInfo) : Op (Option String) :=
  orElse (firstSome (fun a => storageBusy (released a.released) a.address a.size "allocations")
      info.allocs)
    (orElse (firstSome (fun patch => storageBusy (recordReleased released patch.allocationReleased)
        patch.address patch.bytes.length "original bytes") info.originals)
      (firstSome (fun p => storageBusy (recordReleased released p.allocationReleased)
        p.address p.size "page protections") info.protections))

/-- Why the undo must not go on. -/
def refusal (released : ℕ → Bool) (info : DisableInfo) : Op (Option String) :=
  orElse (threadConflict released info)
    (if info.originals.any fun patch => overflows patch.address patch.bytes.length then
      pure (some "Restoration range overflows the address space")
    else codeOwnershipConflict released info.originals)

/-! ### Original bytes that a newer script restores -/

/-- One saved range of a newer script against the open ranges `[first, last]`: what it claims of
them, and what stays open. -/
def claimRange (range : ℕ × ℕ) : List (ℕ × ℕ) → List (ℕ × ℕ) × List (ℕ × ℕ)
  | [] => ([], [])
  | (first, last) :: rest =>
    let lo := max first range.1
    let hi := min last (range.1 + (range.2 - 1))
    let others := claimRange range rest
    if hi < lo then (others.1, (first, last) :: others.2)
    else ((lo, hi) :: others.1,
      (if first < lo then [(first, lo - 1)] else []) ++
        (if hi < last then [(hi + 1, last)] else []) ++ others.2)

/-- All saved ranges of a newer script, one after the other. -/
def claimRanges : List (ℕ × ℕ) → List (ℕ × ℕ) → List (ℕ × ℕ) × List (ℕ × ℕ)
  | [], stillOpen => ([], stillOpen)
  | range :: ranges, stillOpen =>
    if range.2 = 0 then claimRanges ranges stillOpen
    else
      let claimed := claimRange range stillOpen
      let others := claimRanges ranges claimed.2
      (claimed.1 ++ others.1, others.2)

/-- The next newer script over a byte claims it. -/
def claims : List (ℕ × List (ℕ × ℕ)) → List (ℕ × ℕ) → List (ℕ × ℕ × ℕ)
  | [], _ => []
  | (owner, ranges) :: newer, stillOpen =>
    let claimed := claimRanges ranges stillOpen
    claimed.1.map (fun c => (owner, c)) ++ claims newer claimed.2

/-- What newer scripts claim of the saved patches.  Writes inside allocations end with them; code
keeps its ownership check. -/
def claimsOf (originals : List OriginalBytes) (newer : List (ℕ × List (ℕ × ℕ))) :
    List (ℕ × ℕ × ℕ) :=
  originals.flatMap fun patch =>
    if patch.verifyOwnership || patch.allocationReleased.isSome || patch.bytes.isEmpty then []
    else claims newer [(patch.address, patch.address + (patch.bytes.length - 1))]

/-- The scripts enabled after the one of the undo record, with saved ranges in this target. -/
def newerPatches (w : World) (owner : ℕ) : List (ℕ × List (ℕ × ℕ)) :=
  (((w.livePatches.dropWhile fun live => live.owner != owner).drop 1).filter fun live =>
    live.pid == w.target.pid && live.image.all (fun image => w.target.check image == .live) &&
      !live.ranges.isEmpty).map fun live => (live.owner, live.ranges)

/-- Finished undos leave the list of live patches. -/
def World.dropComplete (w : World) : World :=
  { w with livePatches := w.livePatches.filter fun live => !(w.owners live.owner).complete }

/-- The originals that newer scripts take over, and what is left to restore. -/
def planHandovers (w : World) (info : DisableInfo) : List Handover × List OriginalBytes :=
  match info.ownership with
  | none => ([], info.originals)
  | some owner =>
    let claimed := claimsOf info.originals (newerPatches w owner)
    (claimed.map fun c => ⟨c.1, c.2.1, restoredBytes w.released info.originals c.2.1
        (c.2.2 - c.2.1 + 1)⟩,
      claimed.foldl (fun originals c => dropRange originals c.2.1 c.2.2) info.originals)

/-! ### Restoring -/

/-- Sorted ranges, with overlapping and touching ones joined. -/
def mergeFrom (current : ℕ × ℕ) : List (ℕ × ℕ) → List (ℕ × ℕ)
  | [] => [current]
  | r :: rest =>
    if r.1 ≤ current.2 + 1 then mergeFrom (current.1, max current.2 r.2) rest
    else current :: mergeFrom r rest

def mergeRanges : List (ℕ × ℕ) → List (ℕ × ℕ)
  | [] => []
  | r :: rest => mergeFrom r rest

/-- The order of `std::pair`. -/
def pairLe (r s : ℕ × ℕ) : Prop :=
  r.1 < s.1 ∨ r.1 = s.1 ∧ r.2 ≤ s.2

instance : DecidableRel pairLe := fun r s =>
  inferInstanceAs (Decidable (r.1 < s.1 ∨ r.1 = s.1 ∧ r.2 ≤ s.2))

def restoredRanges (released : ℕ → Bool) (originals : List OriginalBytes) : List (ℕ × ℕ) :=
  mergeRanges (List.insertionSort pairLe
    ((originals.filter fun patch =>
      !patch.bytes.isEmpty && !recordReleased released patch.allocationReleased).map fun patch =>
        (patch.address, patch.address + patch.bytes.length - 1)))

def pieceMismatch (released : ℕ → Bool) (originals : List OriginalBytes) (address count : ℕ) :
    Op (Option ℕ) := do
  match ← read address count with
  | .error _ => return some address
  | .ok actual =>
    return if actual = restoredBytes released originals address count then none else some address

def rangeMismatch (released : ℕ → Bool) (originals : List OriginalBytes) (range : ℕ × ℕ) :
    Op (Option ℕ) :=
  firstSome (fun piece => pieceMismatch released originals (range.1 + piece.1) piece.2)
    (pieces (range.2 + 1 - range.1))

def firstMismatch (released : ℕ → Bool) (originals : List OriginalBytes) : Op (Option ℕ) :=
  firstSome (rangeMismatch released originals) (restoredRanges released originals)

/-- One error text after another, a line each. -/
def addError (error rest : String) : String :=
  if error = "" then rest else if rest = "" then error else error ++ "\n" ++ rest

/-- The errors of a call for each element, in order. -/
def collectErrors {α : Type} (f : α → Op String) : List α → Op String
  | [] => pure ""
  | x :: xs => do
    let error ← f x
    let rest ← collectErrors f xs
    return addError error rest

def restorePatch (released : ℕ → Bool) (patch : OriginalBytes) : Op String := do
  if recordReleased released patch.allocationReleased then return ""
  else
    let _ ← queryRegion patch.address
    match ← write patch.address patch.bytes with
    | .ok n =>
      return if n = patch.bytes.length then ""
        else "Cannot restore original bytes at " ++ formatHexLiteral patch.address
    | .error _ => return "Cannot restore original bytes at " ++ formatHexLiteral patch.address

/-- A retry may follow partial protection restoration: bytes that are right already are not
written. -/
def restoreBytes (released : ℕ → Bool) (originals : List OriginalBytes) : Op String := do
  match ← firstMismatch released originals with
  | none => return ""
  | some _ =>
    let error ← collectErrors (restorePatch released) originals.reverse
    match ← firstMismatch released originals with
    | none => return error
    | some a => return addError error ("Original-byte verification failed at " ++
        formatHexLiteral a)

/-- Give one page range its old protection back. -/
def restoreProtection (released : ℕ → Bool) (p : Protection) : Op String := do
  if recordReleased released p.allocationReleased then return ""
  else
    match ← protect p.address p.size p.protection with
    | .ok _ => return ""
    | .error _ => return "Cannot restore page protection at " ++ formatHexLiteral p.address

/-! ### Cleanup -/

/-- The allocation leaves the shared names, unless the name is another block's by now. -/
def Tables.forget (tables : Tables) (a : AllocEntry) : Tables :=
  match tables.knownAllocations.find a.name with
  | none => tables
  | some tracked =>
    if tracked.address = a.address ∧ tracked.owner = a.owner then
      { tables with knownAllocations := tables.knownAllocations.erase a.name }
    else tables

/-- The symbols that the undo record still owns. -/
def Tables.eraseSymbols (tables : Tables) (ownership : Option ℕ) : Table ℕ → Tables
  | [] => tables
  | (name, address) :: rest =>
    let ours := ownership.all fun owner => tables.symbolOwners.find name == some owner
    Tables.eraseSymbols
      (if ours && tables.globalSymbols.find name == some address then
        { tables with
          globalSymbols := tables.globalSymbols.erase name
          symbolOwners := tables.symbolOwners.erase name }
      else tables) ownership rest

/-- The last step of an undo: its symbols go, and it counts as done. -/
def World.complete (w : World) (info : DisableInfo) : World :=
  { w with
    tables := w.tables.eraseSymbols info.ownership info.symbols
    owners := match info.ownership with
      | none => w.owners
      | some owner => Function.update w.owners owner { w.owners owner with complete := true } }

/-- The allocation's lease ends. -/
def World.release (w : World) (a : AllocEntry) : World :=
  { w with
    released := Function.update w.released a.released true
    tables := w.tables.forget a }

/-- Free the allocations; those that fail stay pending, with their errors. -/
def freeAllocs : List AllocEntry → World → (List AllocEntry × String) × World
  | [], w => (([], ""), w)
  | a :: rest, w =>
    if w.released a.released then freeAllocs rest w
    else
      match w.call (free a.address a.size) with
      | (.ok _, w) => freeAllocs rest (w.release a)
      | (.error r, w) =>
        let others := freeAllocs rest w
        ((a :: others.1.1, addError ("Cannot free allocation " ++ a.name ++ ": " ++ r.message)
          others.1.2), others.2)

/-- The newer script's undo record takes the original bytes. -/
def World.handOver (w : World) (h : Handover) : World :=
  { w with
    owners := Function.update w.owners h.receiver
      { w.owners h.receiver with
        restoreOverrides := (w.owners h.receiver).restoreOverrides ++ [(h.address, h.bytes)] } }

/-- The undone script leaves the live patches: an older script disabled later must not hand its
originals to it. -/
def World.leave (w : World) (ownership : Option ℕ) : World :=
  { w with livePatches := w.livePatches.filter fun live => some live.owner != ownership }

/-- Everything is restored: hand the originals over, leave the live patches, free. -/
def cleanupFree (saved info : DisableInfo) (handovers : List Handover) (w : World) :
    AutoAsmResult × World :=
  let freed := freeAllocs info.allocs
    ((handovers.foldl World.handOver w).leave info.ownership)
  if freed.1.2 = "" then ({ success := true }, freed.2.complete info)
  else ({ error := freed.1.2
          disableInfo := { saved with allocs := freed.1.1, originals := [], protections := [] } },
    freed.2)

def cleanupRestore (saved info : DisableInfo) (w : World) : AutoAsmResult × World :=
  let w := w.dropComplete
  let plan := planHandovers w info
  match w.call (restoreBytes w.released plan.2) with
  | (error, w) =>
    if error ≠ "" then ({ error := error, disableInfo := saved }, w)
    else
      match w.call (collectErrors (restoreProtection w.released) info.protections.reverse) with
      | (error, w) =>
        if error ≠ "" then ({ error := error, disableInfo := saved }, w)
        else cleanupFree saved info plan.1 w

def cleanupCheck (saved info : DisableInfo) (w : World) : AutoAsmResult × World :=
  match w.call (refusal w.released info) with
  | (some error, w) => ({ error := error, disableInfo := saved }, w)
  | (none, w) => cleanupRestore saved info w

/-- The address space is gone: the undo is discarded unwritten. -/
def World.retire (w : World) (info : DisableInfo) : World :=
  (info.allocs.foldl World.release w).complete info

def cleanupImage (saved info : DisableInfo) (w : World) : AutoAsmResult × World :=
  match info.image with
  | none => cleanupCheck saved info w
  | some image =>
    if image.pid ≠ w.target.pid then
      ({ error := "Saved undo belongs to another process", disableInfo := saved }, w)
    else
      match w.target.check image with
      | .live => cleanupCheck saved info w
      | .retired => ({ success := true }, w.retire info)
      | .unknown message => ({ error := message, disableInfo := saved }, w)

def cleanup (saved : DisableInfo) (w : World) : AutoAsmResult × World :=
  match w.call (withoutUnmapped saved) with
  | (info, w) =>
    match info.ownership with
    | none => cleanupImage saved info w
    | some owner =>
      match w.call tryLock with
      | (false, w) => ({ error := "This undo is already in progress", disableInfo := saved }, w)
      | (true, w) =>
        if (w.owners owner).complete then ({ success := true }, w)
        else cleanupImage saved
          { info with
            originals := (w.owners owner).restoreOverrides.foldl overrideOriginals
              info.originals } w

/-! ### Scripts -/

structure Alloc where
  name : String
  size : ℕ
  /-- `globalalloc`. -/
  global : Bool := false
  /-- The near address, when it does not resolve. -/
  unresolvedNear : Option String := none
  deriving Repr, DecidableEq

/-- What a line does once its text is parsed, its addresses are resolved and its instruction is
assembled. -/
inductive Line
  /-- Instructions, `nop`, `reassemble`, `readmem`, `fillmem`, `loadbinary`. -/
  | code (address : ℕ) (bytes : List UInt8)
  /-- `db`; `dw`, `dd`, `dq` and `ds` are typed. -/
  | data (address : ℕ) (bytes : List UInt8) (typed : Bool)
  | fullAccess (address size : ℕ)
  /-- A line whose text, address, assertion or instruction is refused. -/
  | refuse (error : String)
  | unregisterSymbol (names : List String)
  | dealloc (names : List String)
  deriving Repr, DecidableEq

structure Script where
  /-- Preprocessing or parsing fails. -/
  refused : Option String := none
  allocs : List Alloc := []
  lines : List Line := []
  /-- `registersymbol` names with the address each resolves to, 0 where it does not. -/
  registered : List (String × ℕ) := []
  /-- Text that a script hook or a custom command left in the error, though it accepted the
  script. -/
  notice : String := ""
  deriving Repr, DecidableEq

/-- A globalalloc block that the run maps. -/
structure NewGlobalBlock where
  name : String
  address : ℕ
  previous : Option AllocEntry
  wasGlobal : Bool
  deriving Repr, DecidableEq

structure Run where
  world : World
  info : DisableInfo
  newGlobalBlocks : List NewGlobalBlock := []
  /-- The address of each allocation made or shared so far. -/
  addresses : List (Alloc × ℕ) := []
  deferredDeallocs : List String := []
  deferredUnregisters : List String := []
  error : String := ""

/-- A step of a run: it goes on, or the run is rolled back from where it stopped. -/
abbrev Stage := Run → Except Run Run

def Run.call {α : Type} (s : Run) (m : Op α) : α × Run :=
  ((s.world.call m).1, { s with world := (s.world.call m).2 })

def Run.fail (s : Run) (error : String) : Except Run Run :=
  .error { s with error := error }

/-! ### One line -/

/-- The range lies inside the allocation, which is not released. -/
def AllocEntry.contains (a : AllocEntry) (released : ℕ → Bool) (address size : ℕ) : Bool :=
  !released a.released && decide (a.address ≤ address) &&
    decide (address - a.address ≤ a.size) && decide (size ≤ a.size - (address - a.address))

/-- The released flag of an allocation that holds the range. -/
def allocationRelease (s : Run) (address size : ℕ) : Option ℕ :=
  ((s.info.allocs.find? fun a => a.contains s.world.released address size).or
    ((s.world.tables.knownAllocations.map Prod.snd).find? fun a =>
      a.contains s.world.released address size && a.image.all fun image =>
        image.pid == s.world.target.pid && s.world.target.check image == .live)).map
    AllocEntry.released

/-- A globalalloc block made in this address space. -/
def liveBlock (image : Option Image) (block : AllocEntry) : Bool :=
  block.image == image

/-- Writes into a globalalloc block are never undone. -/
def inGlobalBlock (tables : Tables) (image : Option Image) (address size : ℕ) : Bool :=
  tables.globalAllocations.any fun name =>
    (tables.knownAllocations.find name).any fun known =>
      liveBlock image known && decide (known.address ≤ address) &&
        decide (address - known.address < known.size) &&
        decide (size ≤ known.size - (address - known.address))

def Run.savePatch (s : Run) (patch : OriginalBytes) : Run :=
  { s with info := { s.info with originals := s.info.originals ++ [patch] } }

def saveOriginal (address : ℕ) (bytes : List UInt8) (executable mutableData : Bool) : Stage :=
  fun s =>
    if inGlobalBlock s.world.tables s.info.image address bytes.length then .ok s
    else
      match s.call (read address bytes.length) with
      | (.error _, s) => s.fail ("original-byte read failed at " ++ formatHexLiteral address)
      | (.ok original, s) =>
        if original.length < bytes.length then
          s.fail ("original-byte read failed at " ++ formatHexLiteral address)
        else .ok (s.savePatch ⟨address, original, bytes, executable,
          allocationRelease s address bytes.length, executable && !mutableData⟩)

def Run.saveProtection (s : Run) (address size : ℕ) (protection : MemProt) : Run :=
  { s with info := { s.info with
      protections := s.info.protections ++
        [⟨address, size, protection, allocationRelease s address size⟩] } }

/-- Change the protection of `size` bytes, region by region, saving each old one.  Every turn
moves on by at least a byte, so `size` turns are enough. -/
def protectRange (change : MemProt → MemProt) (cannotInspect : String)
    (refused : Reply → String) : ℕ → ℕ → ℕ → Stage
  | 0, _, _ => .ok
  | turns + 1, start, remaining => fun s =>
    if remaining = 0 then .ok s
    else
      match s.call (queryRegion start) with
      | (none, s) => s.fail cannotInspect
      | (some region, s) =>
        if start < region.base ∨ region.size ≤ start - region.base then s.fail cannotInspect
        else
          let count := min remaining (region.size - (start - region.base))
          match (s.saveProtection start count region.protection).call
              (protect start count (change region.protection)) with
          | (.error r, s) => s.fail (refused r)
          | (.ok _, s) =>
            protectRange change cannotInspect refused turns (start + count) (remaining - count) s

/-- The transfer reached the end. -/
def transferred (size : ℕ) : Except Reply ℕ → Bool
  | .ok n => decide (size ≤ n)
  | .error _ => false

/-- A running injected thread owns its cave: a data value such as the stop flag it polls is
written directly. -/
def writeData (address : ℕ) (bytes : List UInt8) (mutableData : Bool) (s : Run) :
    Except Reply ℕ × Run :=
  match s.call (write address bytes) with
  | (.ok n, s) => (.ok n, s)
  | (.error r, s) =>
    if r.busy && mutableData &&
        s.info.image.any fun image => s.world.target.check image == .live then
      s.call (write address bytes)
    else (.error r, s)

def writePatch (address : ℕ) (bytes : List UInt8) (executable mutableData : Bool) : Stage :=
  fun s =>
    match writeData address bytes mutableData s with
    | (written, s) =>
      if transferred bytes.length written then .ok s
      else if executable && !s.world.target.isX86 address then
        s.fail ("Code write failed: " ++ match written with
          | .ok _ => "short transfer"
          | .error r => r.message)
      else do
        let s ← protectRange (fun p => { p with write := true })
          "Cannot inspect original page protection" Reply.message bytes.length address
          bytes.length s
        match s.call (write address bytes) with
        | (written, s) =>
          if transferred bytes.length written then .ok s
          else s.fail ("memory write failed at " ++ formatHexLiteral address)

def patchMemory (address : ℕ) (bytes : List UInt8) (mutableData : Bool) : Stage := fun s =>
  if overflows address bytes.length then s.fail "Patch range overflows the address space"
  else
    match s.call (queryRegion address) with
    | (region, s) => do
      let executable := region.any fun r => r.protection.exec
      let s ← saveOriginal address bytes executable mutableData s
      writePatch address bytes executable mutableData s

def runLine : Line → Stage
  | .code address bytes => fun s =>
    if bytes.isEmpty then .ok s else patchMemory address bytes false s
  | .data address bytes typed => fun s =>
    if bytes.isEmpty then .ok s
    else patchMemory address bytes (typed || (allocationRelease s address bytes.length).isSome) s
  | .fullAccess address size => fun s =>
    if address = 0 ∨ size = 0 then s.fail "Invalid FULLACCESS target"
    else if overflows address size then s.fail "FULLACCESS range overflows the address space"
    else protectRange (fun _ => MemProt.all) "Cannot inspect FULLACCESS page protection"
      (fun r => "FULLACCESS failed: " ++ r.message) size address size s
  | .refuse error => fun s => s.fail error
  | .unregisterSymbol names => fun s =>
    .ok { s with deferredUnregisters := s.deferredUnregisters ++ names }
  | .dealloc names => fun s =>
    .ok { s with deferredDeallocs := s.deferredDeallocs ++ names }

/-! ### Allocations -/

/-- The existing memory that a `globalalloc` shares. -/
def sharedBlock (tables : Tables) (image : Option Image) (a : Alloc) : Option ℕ :=
  match tables.globalSymbols.find a.name, tables.knownAllocations.find a.name with
  | some symbol, some known =>
    if a.global && tables.globalAllocations.contains a.name && known.address == symbol &&
        decide (a.size ≤ known.size) && liveBlock image known then some symbol
    else none
  | _, _ => none

/-- A pinned image maps whole pages. -/
def mappedSize (t : Target) (image : Option Image) (size : ℕ) : ℕ :=
  if image.isSome then size + (2 ^ t.pageBits - size % 2 ^ t.pageBits) % 2 ^ t.pageBits else size

/-- The new block gets its name. -/
def Tables.track (tables : Tables) (global : Bool) (entry : AllocEntry) : Tables :=
  { tables with
    globalAllocations :=
      if global && !tables.globalAllocations.contains entry.name then
        entry.name :: tables.globalAllocations else tables.globalAllocations
    knownAllocations := tables.knownAllocations.insert entry.name entry }

/-- A block mapped at `address`. -/
def Run.allocated (s : Run) (owner : ℕ) (a : Alloc) (address : ℕ) : Run :=
  let entry : AllocEntry :=
    ⟨a.name, address, mappedSize s.world.target s.info.image a.size, s.world.next, owner,
      s.info.image⟩
  { s with
    world := { s.world with
      tables := s.world.tables.track a.global entry
      released := Function.update s.world.released s.world.next false
      next := s.world.next + 1 }
    info := { s.info with allocs := s.info.allocs ++ [entry] }
    newGlobalBlocks :=
      if a.global then s.newGlobalBlocks ++
        [⟨a.name, address, s.world.tables.knownAllocations.find a.name,
          s.world.tables.globalAllocations.contains a.name⟩]
      else s.newGlobalBlocks
    addresses := s.addresses ++ [(a, address)] }

def runAlloc (owner : ℕ) (a : Alloc) : Stage := fun s =>
  match sharedBlock s.world.tables s.info.image a with
  | some address => .ok { s with addresses := s.addresses ++ [(a, address)] }
  | none =>
    match a.unresolvedNear with
    | some near => s.fail ("ALLOC(" ++ a.name ++ "): cannot resolve the near address " ++ near)
    | none =>
      match s.call (allocate a.size) with
      | (.error r, s) => s.fail ("Failed to allocate memory for " ++ a.name ++ ": " ++ r.message)
      | (.ok address, s) => .ok (s.allocated owner a address)

/-! ### Deallocations and symbols, once every line has succeeded -/

/-- Free a tracked block.  The block of an address space that is gone counts as freed. -/
def freeTracked (entry : AllocEntry) (s : Run) : Except Reply Unit × Run :=
  match entry.image.map s.world.target.check with
  | some .retired => (.ok (), s)
  | some (.unknown message) => (.error { message := message }, s)
  | _ => s.call (free entry.address entry.size)

def runDealloc (name : String) : Stage := fun s =>
  match s.world.tables.knownAllocations.find name with
  | none => .ok s
  | some entry =>
    if entry.image.any fun image => image.pid != s.world.target.pid then
      s.fail ("DEALLOC belongs to another process: " ++ name)
    else
      match s.call tryLock with
      | (false, s) => s.fail "Allocation cleanup is already in progress"
      | (true, s) =>
        match freeTracked entry s with
        | (.error r, s) => s.fail ("DEALLOC failed for " ++ name ++ ": " ++ r.message)
        | (.ok _, s) => .ok { s with
          world := { s.world with
            released := Function.update s.world.released entry.released true
            tables := { s.world.tables with
              knownAllocations := s.world.tables.knownAllocations.erase name
              globalAllocations := s.world.tables.globalAllocations.filter (· != name) } } }

def Tables.unregister (tables : Tables) (name : String) : Tables :=
  { tables with
    globalSymbols := tables.globalSymbols.erase name
    symbolOwners := tables.symbolOwners.erase name }

/-- globalalloc names are shared and outlive any one script: no owner. -/
def Tables.registerGlobal (tables : Tables) (a : Alloc × ℕ) : Tables :=
  if a.1.global && a.2 != 0 then
    { tables with
      globalSymbols := tables.globalSymbols.insert a.1.name a.2
      symbolOwners := tables.symbolOwners.erase a.1.name }
  else tables

def registerSymbol (owner : ℕ) (s : Run) (sym : String × ℕ) : Run :=
  if sym.2 = 0 then s
  else { s with
    world := { s.world with
      tables := { s.world.tables with
        globalSymbols := s.world.tables.globalSymbols.insert sym.1 sym.2
        symbolOwners := s.world.tables.symbolOwners.insert sym.1 owner } }
    info := { s.info with symbols := Table.insert s.info.symbols sym.1 sym.2 } }

/-- The ranges that an enabled script saved. -/
def DisableInfo.livePatch (info : DisableInfo) (owner pid : ℕ) : LivePatch where
  owner := owner
  image := info.image
  pid := pid
  ranges := (info.originals.filter fun patch => !patch.bytes.isEmpty).map fun patch =>
    (patch.address, patch.bytes.length)

/-- A script that saved originals joins the live patches. -/
def World.enlist (w : World) (owner : ℕ) (info : DisableInfo) : World :=
  if info.originals.isEmpty then w
  else { w.dropComplete with
    livePatches := w.dropComplete.livePatches ++ [info.livePatch owner w.target.pid] }

def Run.registerSymbols (s : Run) (owner : ℕ) (script : Script) : Run :=
  script.registered.foldl (registerSymbol owner)
    { s with world := { s.world with
        tables := s.addresses.foldl Tables.registerGlobal
          (s.deferredUnregisters.foldl Tables.unregister s.world.tables) } }

/-- New globalalloc blocks stay mapped when the script is disabled. -/
def DisableInfo.withoutBlocks (info : DisableInfo) (blocks : List NewGlobalBlock) : DisableInfo :=
  { info with allocs := info.allocs.filter fun a => !blocks.any (·.address == a.address) }

/-- What a script leaves that ran to its end. -/
def Run.register (s : Run) (owner : ℕ) (script : Script) : Run :=
  let s := s.registerSymbols owner script
  let info := s.info.withoutBlocks s.newGlobalBlocks
  { s with info := info, world := s.world.enlist owner info }

/-! ### Execute -/

/-- A block that a failed run had mapped loses its name again. -/
def Tables.restoreBlock (tables : Tables) (pending : List AllocEntry) (block : NewGlobalBlock) :
    Tables :=
  if pending.any fun a => a.address == block.address then tables
  else
    { tables with
      knownAllocations := match block.previous, tables.knownAllocations.find block.name with
        | some previous, none => tables.knownAllocations.insert block.name previous
        | _, _ => tables.knownAllocations
      globalAllocations :=
        if block.wasGlobal then tables.globalAllocations
        else tables.globalAllocations.filter (· != block.name) }

def rollback (s : Run) : AutoAsmResult × World :=
  match cleanup s.info s.world with
  | (restored, w) =>
    let w := { w with
      tables := s.newGlobalBlocks.foldl
        (fun tables block => tables.restoreBlock restored.disableInfo.allocs block) w.tables }
    if restored.success then ({ error := s.error }, w)
    else ({ error := s.error ++ "\nRollback incomplete: " ++ restored.error,
            disableInfo := restored.disableInfo }, w)

/-- Blocks whose address space is gone are forgotten, with the symbol of their globalalloc. -/
def Tables.forgetRetired (t : Target) (tables : Tables) (name : String) : Tables :=
  match tables.knownAllocations.find name with
  | none => tables
  | some known =>
    if known.image.all fun image => t.check image == .live then tables
    else
      let tables :=
        if tables.globalSymbols.find name == some known.address then tables.unregister name
        else tables
      { tables with
        knownAllocations := tables.knownAllocations.erase name
        globalAllocations := tables.globalAllocations.filter (· != name) }

/-- All that can fail, in the order of the source. -/
def runStages (owner : ℕ) (script : Script) (s : Run) : Except Run Run :=
  match script.refused with
  | some error => s.fail error
  | none => do
    let s ← script.allocs.foldlM (fun s a => runAlloc owner a s) s
    let s ← script.lines.foldlM (fun s line => runLine line s) s
    s.deferredDeallocs.foldlM (fun s name => runDealloc name s) s

def World.newOwnership (w : World) : World :=
  { w with
    owners := Function.update w.owners w.next {}
    next := w.next + 1 }

def World.begin (w : World) (owner : ℕ) (script : Script) : Run where
  world := { w with
    tables := w.tables.globalAllocations.foldl (Tables.forgetRetired w.target) w.tables }
  info := { ownership := some owner, image := w.target.image }
  error := script.notice

/-- `pinNativeMemoryImage`: the address space of a local process must be open and live. -/
def pin : Op (Except Reply Unit) := fun t =>
  let r := t.reply t.clock
  (if t.image.any fun image => r.fails || t.check image != .live then .error r else .ok (), t.tick)

def execute (script : Script) (w : World) : AutoAsmResult × World :=
  match w.newOwnership.call pin with
  | (.error r, started) =>
    ({ error := "Cannot pin original address space: " ++ r.message
       disableInfo := { ownership := some w.next } }, started)
  | (.ok _, started) =>
    match runStages w.next script (started.begin w.next script) with
    | .error s => rollback s
    | .ok s =>
      let s := s.register w.next script
      if s.error = "" then ({ success := true, disableInfo := s.info }, s.world) else rollback s

end CheatEngine.AutoAssembler
