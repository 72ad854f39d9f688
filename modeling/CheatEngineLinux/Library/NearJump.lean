import CheatEngineLinux.Library.ByteOverlay
import CheatEngineLinux.Library.RecordFile

/-!
# Jumps in x86 code

Two jumps, as bytes of a memory: `E9` with a displacement of 32 bits from the end of the
instruction, and `FF 25`, which in 64-bit code jumps to the address stored behind it.

* `jumpTarget`: where the instruction at an address jumps to.
* `relJump`, `absJump`: the bytes of the jumps.
* **PROVED `jumpTarget_relJump`**: a displacement reaches its target, in 64-bit code from half the
  range of 32 bits on either side.
* **PROVED `jumpTarget_absJump`**: the other jump reaches every address.
-/

namespace NearJump

open ByteOverlay RecordFile

/-- How many addresses there are, in code of 32 or of 64 bits. -/
def space (code32 : Bool) : ℕ := if code32 then 2 ^ 32 else 2 ^ 64

def displacement (rel : ℕ) : ℤ := if rel < 2 ^ 31 then rel else rel - 2 ^ 32

/-- `a` and a displacement from there. -/
def displaced (code32 : Bool) (a rel : ℕ) : ℕ := ((a + displacement rel) % space code32).toNat

/-- Where the instruction at `a` jumps to, if it is one of the two jumps. -/
def jumpTarget (code32 : Bool) (mem : ℕ → UInt8) (a : ℕ) : Option ℕ :=
  if mem a = 0xE9 then some (displaced code32 (a + 5) (leNat (slice mem (a + 1) 4)))
  else if mem a = 0xFF ∧ mem (a + 1) = 0x25 ∧ code32 = false then
    some (leNat (slice mem (displaced code32 (a + 6) (leNat (slice mem (a + 2) 4))) 8))
  else none

/-- `jmp rel32` -/
def relJump (rel : ℕ) : List UInt8 := 0xE9 :: leBytes 4 rel

/-- `jmp qword [rip+0]`, with the address behind it. -/
def absJump (target : ℕ) : List UInt8 := [0xFF, 0x25, 0x00, 0x00, 0x00, 0x00] ++ leBytes 8 target

@[simp] theorem relJump_length (rel : ℕ) : (relJump rel).length = 5 := by
  rw [relJump, List.length_cons, leBytes_length]

@[simp] theorem absJump_length (target : ℕ) : (absJump target).length = 14 := by
  rw [absJump, List.length_append, leBytes_length]
  rfl

/-! ### Reading bytes back -/

variable {mem : ℕ → UInt8} {a n : ℕ}

theorem slice_eq_left {bytes more : List UInt8}
    (h : slice mem a (bytes.length + more.length) = bytes ++ more) :
    slice mem a bytes.length = bytes := by
  rw [slice_append] at h
  exact (List.append_inj h (slice_length ..)).1

theorem slice_eq_right {bytes more : List UInt8}
    (h : slice mem a (bytes.length + more.length) = bytes ++ more) :
    slice mem (a + bytes.length) more.length = more := by
  rw [slice_append] at h
  exact (List.append_inj h (slice_length ..)).2

/-! ### Where they go -/

variable {code32 : Bool} {target : ℕ}

/-- A difference of addresses, in the low 32 bits of it, leads back to the target: in 32-bit code
always, in 64-bit code where it lies in the range of 32 bits with a sign. -/
theorem displaced_eq {rel : ℕ} (hrel : rel = (target + 2 ^ 64 - a) % 2 ^ 64) (ha : a ≤ 2 ^ 64)
    (ht : target < 2 ^ 64) (hnear : code32 = true ∨ rel < 2 ^ 31 ∨ 2 ^ 64 - 2 ^ 31 ≤ rel) :
    displaced code32 a (rel % 2 ^ 32) = target % space code32 := by
  unfold displaced displacement space
  cases code32 with
  | true =>
    simp only [if_true]
    split <;> omega
  | false =>
    simp only [Bool.false_eq_true, if_false, false_or] at hnear ⊢
    split <;> omega

theorem jumpTarget_relJump {rel : ℕ} (hbytes : slice mem a 5 = relJump rel)
    (hrel : rel = (target + 2 ^ 64 - (a + 5)) % 2 ^ 64) (ha : a + 5 ≤ 2 ^ 64)
    (ht : target < 2 ^ 64) (hnear : code32 = true ∨ rel < 2 ^ 31 ∨ 2 ^ 64 - 2 ^ 31 ≤ rel) :
    jumpTarget code32 mem a = some (target % space code32) := by
  rw [slice_succ, relJump, List.cons.injEq] at hbytes
  rw [jumpTarget, if_pos hbytes.1, hbytes.2, leNat_leBytes_mod,
    show 256 ^ 4 = 2 ^ 32 by decide, displaced_eq hrel ha ht hnear]

theorem jumpTarget_absJump (hbytes : slice mem a 14 = absJump target) (ha : a + 14 ≤ 2 ^ 64)
    (ht : target < 2 ^ 64) : jumpTarget false mem a = some target := by
  have hsix := @slice_append _ mem a 6 8
  rw [hbytes, absJump] at hsix
  obtain ⟨hfirst, hlast⟩ := List.append_inj hsix (by rw [slice_length]; rfl)
  rw [slice_succ, slice_succ, List.cons.injEq, List.cons.injEq] at hfirst
  obtain ⟨h₀, h₁, hzero⟩ := hfirst
  have hrel : leNat (slice mem (a + 2) 4) = 0 := by
    rw [show a + 2 = a + 1 + 1 from rfl, ← hzero]
    rfl
  have hplace : displaced false (a + 6) 0 = a + 6 := by
    unfold displaced displacement space
    simp only [Bool.false_eq_true, if_false]
    split <;> omega
  rw [jumpTarget, if_neg (by rw [← h₀]; decide), if_pos ⟨h₀.symm, h₁.symm, rfl⟩, hrel, hplace,
    ← hlast, leNat_leBytes 8 target (by rw [show 256 ^ 8 = 2 ^ 64 by decide]; exact ht)]

end NearJump
