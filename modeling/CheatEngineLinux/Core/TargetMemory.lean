import Mathlib.Data.List.TakeWhile
import Mathlib.Algebra.Group.Nat.Defs
import CheatEngineLinux.Library.ByteOverlay
import CheatEngineLinux.Library.Stages

/-!
# The target's memory, as the auto-assembler reaches it

The calls of a process handle (or of its pinned memory image) that `src/core/autoasm.cpp` makes:
reads, writes, page protections, mappings, region queries. Each call takes one reply from outside,
so that a run can be followed through any pattern of failing and short calls.

* `Target`: bytes, page protections, and the replies still to come.
* `Op`: a call; `Target.Looked`, `Target.Steady`: bytes and pages, or only the mappings, are as
  before it.

* **PROVED `read_ok`, `write_ok`**: on mapped memory, a call that meets no obstacle transfers
  every byte.
-/

namespace CheatEngine.AutoAssembler

open ByteOverlay Stages

/-- One more than `UINTPTR_MAX`. -/
def addressSpace : ℕ := 2 ^ 64

/-- The range does not end inside the address space. -/
def overflows (address size : ℕ) : Bool :=
  decide (0 < size) && decide (addressSpace < address + size)

structure MemProt where
  read : Bool
  write : Bool
  exec : Bool
  deriving Repr, DecidableEq

def MemProt.all : MemProt := ⟨true, true, true⟩

structure MemoryRegion where
  base : ℕ
  size : ℕ
  protection : MemProt
  deriving Repr, DecidableEq

/-- A pinned address space, by the identity of its process. -/
structure Image where
  pid : ℕ
  startTime : ℕ
  deriving Repr, DecidableEq

/-- Whether a pinned address space still exists: `operation_canceled` says that it is gone, any
other error leaves it open. -/
inductive ImageState
  | live
  | retired
  | unknown (message : String)
  deriving Repr, DecidableEq

/-- What the system answers to one call. -/
structure Reply where
  /-- The call reports an error (it may have transferred something all the same). -/
  fails : Bool := false
  /-- No more bytes or pages than these are transferred. -/
  count : Option ℕ := none
  /-- The address a new mapping would get. -/
  address : ℕ := 0
  region : Option MemoryRegion := none
  /-- `device_or_resource_busy`, or a running injected thread. -/
  busy : Bool := false
  message : String := ""

/-- How much of `n` the reply lets through. -/
def Reply.limit (r : Reply) (n : ℕ) : ℕ :=
  r.count.elim n (min n)

/-- The call meets no obstacle. -/
structure Reply.Obliging (r : Reply) : Prop where
  fails : r.fails = false
  count : r.count = none
  busy : r.busy = false

structure Target where
  mem : ℕ → UInt8
  /-- The protection of each mapped page. -/
  pages : ℕ → Option MemProt
  /-- Pages have `2 ^ pageBits` bytes. -/
  pageBits : ℕ
  pid : ℕ
  /-- What `pinNativeMemoryImage` pins: nothing for a handle that is not local. -/
  image : Option Image
  /-- What `NativeMemoryImage::check` finds. -/
  check : Image → ImageState
  /-- `machineForCode(address).isX86()`. -/
  isX86 : ℕ → Bool
  reply : ℕ → Reply
  /-- How many calls were made. -/
  clock : ℕ

namespace Target

def after (t : Target) (n : ℕ) : Target :=
  { t with clock := n }

def tick (t : Target) : Target :=
  t.after (t.clock + 1)

/-- No call from here on meets an obstacle. -/
def Obliging (t : Target) : Prop :=
  ∀ n, t.clock ≤ n → (t.reply n).Obliging

def page (t : Target) (a : ℕ) : ℕ :=
  a / 2 ^ t.pageBits

def mapped (t : Target) (a : ℕ) : Bool :=
  (t.pages (t.page a)).isSome

/-- The pages that hold a byte of the range. -/
def covers (t : Target) (address size p : ℕ) : Bool :=
  decide (0 < size) && decide (t.page address ≤ p) && decide (p ≤ t.page (address + size - 1))

/-- How many bytes of the range come before the first unmapped one. -/
def mappedCount (t : Target) (address size : ℕ) : ℕ :=
  ((List.range size).takeWhile fun i => t.mapped (address + i)).length

/-- The region is whole pages, mapped with its protection. -/
def holdsRegion (t : Target) (r : MemoryRegion) : Bool :=
  r.base % 2 ^ t.pageBits == 0 && r.size % 2 ^ t.pageBits == 0 &&
    (List.range (r.size / 2 ^ t.pageBits)).all fun i =>
      t.pages (t.page r.base + i) == some r.protection

/-- A new mapping fits at the address: no page of it is taken. -/
def fits (t : Target) (address size : ℕ) : Bool :=
  decide (0 < size) && decide (0 < address) && address % 2 ^ t.pageBits == 0 &&
    !overflows address size &&
    (List.range (t.page (address + size - 1) + 1 - t.page address)).all fun i =>
      t.pages (t.page address + i) == none

end Target

/-! ### The calls -/

abbrev Op (α : Type) := StateM Target α

def read (address size : ℕ) : Op (Except Reply (List UInt8)) := fun t =>
  let r := t.reply t.clock
  (if r.fails then .error r
    else .ok (slice t.mem address (r.limit (t.mappedCount address size))), t.tick)

def write (address : ℕ) (bytes : List UInt8) : Op (Except Reply ℕ) := fun t =>
  let r := t.reply t.clock
  let n := r.limit (t.mappedCount address bytes.length)
  (if r.fails then .error r else .ok n, { t.tick with mem := lay t.mem address (bytes.take n) })

/-- A protection that fails may have reached some of the pages. -/
def protect (address size : ℕ) (protection : MemProt) : Op (Except Reply Unit) := fun t =>
  let r := t.reply t.clock
  let reached := fun p => !r.fails || r.count.all fun k => decide (p - t.page address < k)
  (if r.fails then .error r else .ok (),
    { t.tick with
      pages := fun p =>
        if t.covers address size p && reached p then (t.pages p).map fun _ => protection
        else t.pages p })

/-- A new mapping is zero-filled, readable, writable and executable. -/
def allocate (size : ℕ) : Op (Except Reply ℕ) := fun t =>
  let r := t.reply t.clock
  if r.fails || !t.fits r.address size then (.error r, t.tick)
  else (.ok r.address,
    { t.tick with
      pages := fun p => if t.covers r.address size p then some MemProt.all else t.pages p
      mem := fun a => if t.covers r.address size (t.page a) then 0 else t.mem a })

def free (address size : ℕ) : Op (Except Reply Unit) := fun t =>
  let r := t.reply t.clock
  if r.fails then (.error r, t.tick)
  else (.ok (),
    { t.tick with pages := fun p => if t.covers address size p then none else t.pages p })

def queryRegion (address : ℕ) : Op (Option MemoryRegion) := fun t =>
  ((t.reply t.clock).region.filter fun r =>
    decide (r.base ≤ address) && decide (address < r.base + r.size) && t.holdsRegion r, t.tick)

def threadStorageBusy (_address _size : ℕ) : Op Bool := fun t =>
  ((t.reply t.clock).busy, t.tick)

/-- `std::mutex::try_lock` on an undo record that another thread may hold. -/
def tryLock : Op Bool := fun t =>
  (!(t.reply t.clock).busy, t.tick)

/-! ### Calls that only look -/

/-- Only calls were made: bytes and pages are as they were. -/
def Target.Looked (t t' : Target) : Prop :=
  ∃ n, t.clock ≤ n ∧ t' = t.after n

theorem frame_looked : Frame Target.Looked where
  refl := fun t => ⟨t.clock, Nat.le_refl _, rfl⟩
  trans := by
    rintro a b c ⟨n, hn, rfl⟩ ⟨k, hk, rfl⟩
    exact ⟨k, Nat.le_trans hn hk, rfl⟩

theorem looked_tick (t : Target) : t.Looked t.tick :=
  ⟨t.clock + 1, Nat.le_succ _, rfl⟩

theorem looked_read (address size : ℕ) : Moves Target.Looked (read address size) :=
  fun t => looked_tick t

theorem looked_queryRegion (address : ℕ) : Moves Target.Looked (queryRegion address) :=
  fun t => looked_tick t

theorem looked_threadStorageBusy (address size : ℕ) :
    Moves Target.Looked (threadStorageBusy address size) :=
  fun t => looked_tick t

theorem looked_tryLock : Moves Target.Looked tryLock :=
  fun t => looked_tick t

/-! ### Calls that keep the mappings -/

/-- The same pages are mapped, in the same process, with the same replies to come. -/
structure Target.Steady (t t' : Target) : Prop where
  mapped : ∀ p, (t'.pages p).isSome = (t.pages p).isSome
  pageBits : t'.pageBits = t.pageBits
  pid : t'.pid = t.pid
  image : t'.image = t.image
  check : t'.check = t.check
  reply : t'.reply = t.reply

theorem frame_steady : Frame Target.Steady where
  refl := fun _ => ⟨fun _ => rfl, rfl, rfl, rfl, rfl, rfl⟩
  trans := fun hab hbc =>
    ⟨fun p => (hbc.mapped p).trans (hab.mapped p), hbc.pageBits.trans hab.pageBits,
      hbc.pid.trans hab.pid, hbc.image.trans hab.image, hbc.check.trans hab.check,
      hbc.reply.trans hab.reply⟩

theorem Target.Looked.steady {t t' : Target} (h : t.Looked t') : t.Steady t' := by
  obtain ⟨n, -, rfl⟩ := h
  exact ⟨fun _ => rfl, rfl, rfl, rfl, rfl, rfl⟩

theorem steady_of_looked {α : Type} {m : Op α} (h : Moves Target.Looked m) :
    Moves Target.Steady m :=
  fun t => (h t).steady

theorem steady_write (address : ℕ) (bytes : List UInt8) :
    Moves Target.Steady (write address bytes) :=
  fun _ => ⟨fun _ => rfl, rfl, rfl, rfl, rfl, rfl⟩

theorem steady_protect (address size : ℕ) (protection : MemProt) :
    Moves Target.Steady (protect address size protection) := by
  intro t
  refine ⟨fun p => ?_, rfl, rfl, rfl, rfl, rfl⟩
  simp only [protect]
  split
  · exact Option.isSome_map
  · rfl

/-! ### Calls that meet no obstacle -/

namespace Target

@[simp] theorem after_mem (t : Target) (n : ℕ) : (t.after n).mem = t.mem := rfl
@[simp] theorem after_pages (t : Target) (n : ℕ) : (t.after n).pages = t.pages := rfl
@[simp] theorem after_clock (t : Target) (n : ℕ) : (t.after n).clock = n := rfl
@[simp] theorem after_after (t : Target) (n k : ℕ) : (t.after n).after k = t.after k := rfl
@[simp] theorem after_mapped (t : Target) (n a : ℕ) : (t.after n).mapped a = t.mapped a := rfl

theorem Obliging.after {t : Target} (h : t.Obliging) {n : ℕ} (hn : t.clock ≤ n) :
    (t.after n).Obliging :=
  fun k hk => h k (Nat.le_trans hn hk)

theorem mappedCount_of_mapped {t : Target} {address size : ℕ}
    (h : ∀ a, address ≤ a → a < address + size → t.mapped a = true) :
    t.mappedCount address size = size := by
  unfold mappedCount
  rw [List.takeWhile_eq_self_iff.mpr, List.length_range]
  intro i hi
  rw [List.mem_range] at hi
  exact h _ (by omega) (by omega)

theorem mappedCount_le (t : Target) (address size : ℕ) : t.mappedCount address size ≤ size := by
  unfold mappedCount
  calc _ ≤ (List.range size).length := (List.takeWhile_sublist _).length_le
    _ = size := List.length_range

theorem mapped_of_lt_mappedCount {t : Target} {address size i : ℕ}
    (h : i < t.mappedCount address size) : t.mapped (address + i) = true := by
  unfold mappedCount at h
  have hmem := List.getElem_mem h
  have hpre : (List.range size).takeWhile (fun i => t.mapped (address + i)) <+: List.range size :=
    List.takeWhile_prefix _
  have hget : ((List.range size).takeWhile fun i => t.mapped (address + i))[i] = i := by
    rw [hpre.getElem h, List.getElem_range]
  rw [hget] at hmem
  simpa using List.mem_takeWhile_imp hmem

end Target

theorem read_eq_ok {address size : ℕ} {t : Target} {bytes : List UInt8}
    (h : (read address size t).1 = .ok bytes) :
    bytes = slice t.mem address bytes.length ∧ bytes.length ≤ t.mappedCount address size := by
  unfold read at h
  dsimp only at h
  split at h
  · cases h
  · cases h
    rw [slice_length]
    refine ⟨rfl, ?_⟩
    unfold Reply.limit
    cases (t.reply t.clock).count with
    | none => exact Nat.le_refl _
    | some k => exact Nat.min_le_left _ _

theorem read_ok {t : Target} (h : t.Obliging) {address size : ℕ}
    (hmapped : ∀ a, address ≤ a → a < address + size → t.mapped a = true) :
    read address size t = (.ok (slice t.mem address size), t.tick) := by
  obtain ⟨hfails, hcount, -⟩ := h t.clock (Nat.le_refl _)
  simp only [read, hfails, Reply.limit, hcount, Option.elim_none, Bool.false_eq_true, if_false,
    Target.mappedCount_of_mapped hmapped]

theorem write_ok {t : Target} (h : t.Obliging) {address : ℕ} {bytes : List UInt8}
    (hmapped : ∀ a, address ≤ a → a < address + bytes.length → t.mapped a = true) :
    write address bytes t =
      (.ok bytes.length, { t.tick with mem := lay t.mem address bytes }) := by
  obtain ⟨hfails, hcount, -⟩ := h t.clock (Nat.le_refl _)
  simp only [write, hfails, Reply.limit, hcount, Option.elim_none, Bool.false_eq_true, if_false,
    Target.mappedCount_of_mapped hmapped, List.take_length]

theorem write_target (address : ℕ) (bytes : List UInt8) (t : Target) :
    ∃ n, n ≤ t.mappedCount address bytes.length ∧
      (write address bytes t).2 = { t.tick with mem := lay t.mem address (bytes.take n) } := by
  refine ⟨_, ?_, rfl⟩
  unfold Reply.limit
  cases (t.reply t.clock).count with
  | none => exact Nat.le_refl _
  | some k => exact Nat.min_le_left _ _

/-! ### New mappings -/

theorem covers_congr {t t' : Target} (h : t'.pageBits = t.pageBits) (address size p : ℕ) :
    t'.covers address size p = t.covers address size p := by
  unfold Target.covers Target.page
  rw [h]

/-- The pages of a block hold its bytes. -/
theorem covers_of_mem {t : Target} {address size a : ℕ} (h : address ≤ a)
    (h' : a < address + size) : t.covers address size (t.page a) = true := by
  unfold Target.covers Target.page
  simp only [Bool.and_eq_true, decide_eq_true_eq]
  exact ⟨⟨by omega, Nat.div_le_div_right h⟩, Nat.div_le_div_right (by omega)⟩

theorem fits_spec {t : Target} {address size : ℕ} (h : t.fits address size = true) :
    0 < size ∧ address % 2 ^ t.pageBits = 0 ∧
      ∀ p, t.covers address size p = true → t.pages p = none := by
  unfold Target.fits at h
  simp only [Bool.and_eq_true, decide_eq_true_eq, beq_iff_eq, List.all_eq_true,
    List.mem_range] at h
  obtain ⟨⟨⟨⟨hpos, -⟩, haligned⟩, -⟩, hfree⟩ := h
  refine ⟨hpos, haligned, ?_⟩
  intro p hp
  unfold Target.covers at hp
  simp only [Bool.and_eq_true, decide_eq_true_eq] at hp
  have hpage := hfree (p - t.page address) (by omega)
  rw [show t.page address + (p - t.page address) = p by omega] at hpage
  exact hpage

def Target.mapNew (t : Target) (address size : ℕ) : Target :=
  { t.tick with
    pages := fun p => if t.covers address size p then some MemProt.all else t.pages p
    mem := fun a => if t.covers address size (t.page a) then 0 else t.mem a }

theorem allocate_cases (size : ℕ) (t : Target) :
    (∃ r, allocate size t = (.error r, t.tick)) ∨
      ∃ address, t.fits address size = true ∧
        allocate size t = (.ok address, t.mapNew address size) := by
  unfold allocate
  dsimp only
  split
  · exact Or.inl ⟨_, rfl⟩
  · rename_i h
    rw [Bool.or_eq_true, not_or, Bool.not_eq_true, Bool.not_eq_true, Bool.not_eq_false'] at h
    exact Or.inr ⟨_, h.2, rfl⟩

end CheatEngine.AutoAssembler
