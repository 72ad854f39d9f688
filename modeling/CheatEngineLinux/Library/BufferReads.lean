import CheatEngineLinux.Library.ByteOverlay
import CheatEngineLinux.Library.RecordFile
import CheatEngineLinux.Library.Stops

/-!
# Reading a buffer

A program reads parts of a buffer.  It is at fault where it reads outside of the buffer, where
signed arithmetic overflows, or where a loop has not ended after its turns.

* `Buffer`: bytes with a size.
* `Reader`: programs with a log of what they have read.
* `read`, `uint`: some bytes, and a number of them.
* `addInt`, `subInt`: an `int32_t` sum and difference.

* **PROVED `ends_uint`, `ends_addInt`**: what these do where they are not at fault.
* **PROVED `ends_readMap`**: a loop that reads one record after the other.
-/

namespace BufferReads

open ByteOverlay RecordFile Stops

structure Buffer where
  size : ℕ
  byte : ℕ → UInt8

/-- A part of a buffer that was read, and why. -/
structure Access (τ : Type) where
  off : ℕ
  n : ℕ
  tag : τ
  deriving Repr, DecidableEq

inductive Fault
  | outside
  | overflow
  | running
  deriving Repr, DecidableEq

abbrev Reader (τ : Type) := Program Fault (List (Access τ))

variable {τ α β : Type} {b : Buffer} {tag : τ} {off n : ℕ} {s : List (Access τ)}

def Buffer.bytes (b : Buffer) (off n : ℕ) : List UInt8 := slice b.byte off n

/-- The number that little-endian bytes stand for. -/
def Buffer.uint (b : Buffer) (off n : ℕ) : ℕ := leNat (b.bytes off n)

@[simp] theorem length_bytes (b : Buffer) (off n : ℕ) : (b.bytes off n).length = n :=
  slice_length ..

theorem take_bytes {m : ℕ} (h : m ≤ n) : (b.bytes off n).take m = b.bytes off m :=
  slice_take h

theorem uint_lt (b : Buffer) (off n : ℕ) : b.uint off n < 256 ^ n := by
  have h := leNat_lt (b.bytes off n)
  rwa [length_bytes] at h

/-- The start of a part, as far as a test goes. -/
theorem takeWhile_bytes (p : UInt8 → Bool) :
    ∃ m ≤ n, (b.bytes off n).takeWhile p = b.bytes off m := by
  have hle : ((b.bytes off n).takeWhile p).length ≤ n := by
    have h := (List.takeWhile_prefix p (l := b.bytes off n)).length_le
    rwa [length_bytes] at h
  refine ⟨_, hle, ?_⟩
  rw [← take_bytes hle]
  exact List.prefix_iff_eq_take.1 (List.takeWhile_prefix p)

def read (b : Buffer) (tag : τ) (off n : ℕ) : Reader τ (List UInt8) := do
  if off + n ≤ b.size then
    modify fun s => s ++ [⟨off, n, tag⟩]
    pure (b.bytes off n)
  else throw .outside

def uint (b : Buffer) (tag : τ) (off n : ℕ) : Reader τ ℕ := do
  let bytes ← read b tag off n
  pure (leNat bytes)

/-- An `int32_t`. -/
def int32 (b : Buffer) (tag : τ) (off : ℕ) : Reader τ (BitVec 32) := do
  let v ← uint b tag off 4
  pure (BitVec.ofNat 32 v)

def Buffer.int32 (b : Buffer) (off : ℕ) : BitVec 32 := BitVec.ofNat 32 (b.uint off 4)

/-- The sum of two `int32_t`. -/
@[irreducible] def addInt (x y : ℤ) : Reader τ ℤ :=
  if -2 ^ 31 ≤ x + y ∧ x + y < 2 ^ 31 then pure (x + y) else throw .overflow

/-- The difference of two `int32_t`. -/
def subInt (x y : ℤ) : Reader τ ℤ := addInt x (-y)

/-- One result after the other. -/
def readMap (f : α → Reader τ β) : List α → Reader τ (List β)
  | [] => pure []
  | x :: xs => do
    let y ← f x
    let ys ← readMap f xs
    pure (y :: ys)

/-! ### Rules -/

section Rules

variable {E : Fault → List (Access τ) → Prop}

theorem ends_read {A : List UInt8 → List (Access τ) → Prop} (h : off + n ≤ b.size)
    (hA : A (b.bytes off n) (s ++ [⟨off, n, tag⟩])) : Ends (read b tag off n) s A E := by
  rw [read, if_pos h]
  exact Ends.bind (Ends.modify (Ends.pure hA))

theorem ends_uint {A : ℕ → List (Access τ) → Prop} (h : off + n ≤ b.size)
    (hA : A (b.uint off n) (s ++ [⟨off, n, tag⟩])) : Ends (uint b tag off n) s A E :=
  Ends.bind (ends_read h (Ends.pure hA))

theorem ends_int32 {A : BitVec 32 → List (Access τ) → Prop} (h : off + 4 ≤ b.size)
    (hA : A (b.int32 off) (s ++ [⟨off, 4, tag⟩])) : Ends (int32 b tag off) s A E :=
  Ends.bind (ends_uint h (Ends.pure hA))

theorem ends_addInt {x y : ℤ} {A : ℤ → List (Access τ) → Prop}
    (h : -2 ^ 31 ≤ x + y ∧ x + y < 2 ^ 31) (hA : A (x + y) s) : Ends (addInt x y) s A E := by
  rw [addInt, if_pos h]
  exact Ends.pure hA

theorem ends_subInt {x y : ℤ} {A : ℤ → List (Access τ) → Prop}
    (h : -2 ^ 31 ≤ x - y ∧ x - y < 2 ^ 31) (hA : A (x - y) s) : Ends (subInt x y) s A E := by
  rw [Int.sub_eq_add_neg] at h hA
  exact ends_addInt h hA

/-- Every result is as it should be, and the log is as it should be after each of them. -/
theorem ends_readMap {f : α → Reader τ β} {I : List (Access τ) → Prop} {R : α → β → Prop}
    (xs : List α) (hf : ∀ x ∈ xs, ∀ s, I s → Ends (f x) s (fun y s' => R x y ∧ I s') E) (hs : I s) :
    Ends (readMap f xs) s (fun ys s' => List.Forall₂ R xs ys ∧ I s') E := by
  induction xs generalizing s with
  | nil => exact Ends.pure ⟨.nil, hs⟩
  | cons x xs ih =>
    refine Ends.bind ((hf x List.mem_cons_self s hs).mono (fun y s' ⟨hy, hs'⟩ => ?_) fun _ _ h => h)
    refine Ends.bind ((ih (fun x hx => hf x (List.mem_cons_of_mem _ hx)) hs').mono
      (fun ys s'' ⟨hys, hs''⟩ => ?_) fun _ _ h => h)
    exact Ends.pure ⟨.cons hy hys, hs''⟩

end Rules

end BufferReads
