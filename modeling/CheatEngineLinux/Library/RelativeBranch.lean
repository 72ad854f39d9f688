import CheatEngineLinux.Library.NearJump

/-!
# Direct relative branches of x86 code

`jmp`, `call`, the conditional jumps, and the jumps on a count register: an opcode behind its
prefixes, and a displacement with a sign from the end of the instruction.

* `signed`: little-endian bytes with a sign.
* `landing`: where a displacement from the end of an instruction leads.
* `directBranch`: where bytes that are one such branch lead.
* **PROVED `directBranch_near`, `directBranch_short`, `directBranch_cond`**: the encodings without
  prefixes.
* **PROVED `signed_leBytes`**: the low bytes of a distance within their range are that distance.
-/

namespace RelativeBranch

open RecordFile NearJump

/-- Little-endian bytes, with a sign. -/
def signed (bs : List UInt8) : ℤ :=
  if 2 * leNat bs < 256 ^ bs.length then leNat bs else leNat bs - 256 ^ bs.length

/-- A displacement from the end of an instruction, among so many addresses. -/
def landing (size finish : ℕ) (rel : ℤ) : ℕ := ((finish + rel) % size).toNat

/-! ### The encodings -/

def legacyPrefixes : List UInt8 :=
  [0xF0, 0xF2, 0xF3, 0x2E, 0x36, 0x3E, 0x26, 0x64, 0x65, 0x66, 0x67]

/-- Whether there is an operand-size byte among the bytes before the opcode, and what is behind
them. -/
def withoutLegacy : List UInt8 → Bool × List UInt8
  | [] => (false, [])
  | b :: rest =>
    if legacyPrefixes.contains b then ((withoutLegacy rest).1 || b == 0x66, (withoutLegacy rest).2)
    else (false, b :: rest)

/-- In 64-bit code one more byte may stand before the opcode. -/
def withoutRex (code32 : Bool) : List UInt8 → List UInt8
  | [] => []
  | b :: rest => if !code32 && 0x40 ≤ b && b ≤ 0x4F then rest else b :: rest

/-- `jmp` and `call` with the wide displacement. -/
def nearOpcode (op : UInt8) : Bool := op == 0xE8 || op == 0xE9

/-- `jmp` and the conditional jumps with one byte. -/
def shortOpcode (op : UInt8) : Bool := op == 0xEB || (0x70 ≤ op && op ≤ 0x7F)

/-- `loopne`, `loope`, `loop` and the jumps on a count register that is zero. -/
def countOpcode (op : UInt8) : Bool := 0xE0 ≤ op && op ≤ 0xE3

/-- The conditional jumps with the wide displacement, behind `0F`. -/
def condOpcode (op : UInt8) : Bool := 0x80 ≤ op && op ≤ 0x8F

def displacementOf (wide : ℕ) : List UInt8 → Option (List UInt8)
  | [] => none
  | op :: rest =>
    if op == 0x0F then
      if rest.head?.any condOpcode && rest.tail.length == wide then some rest.tail else none
    else if nearOpcode op && rest.length == wide then some rest
    else if (shortOpcode op || countOpcode op) && rest.length == 1 then some rest
    else none

def directBranch (code32 : Bool) (a : ℕ) (code : List UInt8) : Option ℕ :=
  if 15 < code.length then none
  else
    -- in 64-bit code the operand size of a near branch is fixed
    let small := code32 && (withoutLegacy code).1
    let rest := withoutRex code32 (withoutLegacy code).2
    (displacementOf (if small then 2 else 4) rest).map fun d =>
      landing (if small then 2 ^ 16 else space code32) (a + code.length) (signed d)

section Encodings

variable {code32 : Bool} {a : ℕ} {op : UInt8} {disp : List UInt8}

theorem withoutLegacy_of_not {b : UInt8} {rest : List UInt8}
    (h : legacyPrefixes.contains b = false) : withoutLegacy (b :: rest) = (false, b :: rest) := by
  rw [withoutLegacy, h]
  rfl

theorem withoutRex_of_lt {b : UInt8} {rest : List UInt8} (h : 0x4F < b ∨ b < 0x40) :
    withoutRex code32 (b :: rest) = b :: rest := by
  refine if_neg ?_
  rw [Bool.and_eq_true, Bool.and_eq_true, decide_eq_true_eq, decide_eq_true_eq]
  rintro ⟨⟨-, hlow⟩, hhigh⟩
  rcases h with h | h
  · exact absurd (UInt8.lt_of_lt_of_le h hhigh) (UInt8.lt_irrefl _)
  · exact absurd (UInt8.lt_of_lt_of_le h hlow) (UInt8.lt_irrefl _)

/-- An opcode with no byte before it. -/
theorem directBranch_plain (hlegacy : legacyPrefixes.contains op = false)
    (hrex : 0x4F < op ∨ op < 0x40) (hlen : disp.length ≤ 14) :
    directBranch code32 a (op :: disp) = (displacementOf 4 (op :: disp)).map fun d =>
      landing (space code32) (a + (op :: disp).length) (signed d) := by
  rw [directBranch, if_neg (by rw [List.length_cons]; omega), withoutLegacy_of_not hlegacy,
    withoutRex_of_lt hrex, Bool.and_false]
  rfl

theorem directBranch_near (hop : nearOpcode op = true) (hlen : disp.length = 4) :
    directBranch code32 a (op :: disp) = some (landing (space code32) (a + 5) (signed disp)) := by
  have hcases : op = 0xE8 ∨ op = 0xE9 := by
    rwa [nearOpcode, Bool.or_eq_true, beq_iff_eq, beq_iff_eq] at hop
  have hplain : legacyPrefixes.contains op = false ∧ 0x4F < op ∧ (op == 0x0F) = false := by
    rcases hcases with rfl | rfl <;> decide
  rw [directBranch_plain hplain.1 (.inl hplain.2.1) (by omega), displacementOf, hplain.2.2, hop,
    hlen, List.length_cons, hlen]
  rfl

theorem plain_of_shortOpcode : ∀ n < 256, shortOpcode (UInt8.ofNat n) = true →
    legacyPrefixes.contains (UInt8.ofNat n) = false ∧ 0x4F < UInt8.ofNat n ∧
      (UInt8.ofNat n == 0x0F) = false ∧ nearOpcode (UInt8.ofNat n) = false := by
  decide +kernel

theorem directBranch_short (hop : shortOpcode op = true) (hlen : disp.length = 1) :
    directBranch code32 a (op :: disp) = some (landing (space code32) (a + 2) (signed disp)) := by
  have hplain := plain_of_shortOpcode op.toNat op.toNat_lt
  rw [UInt8.ofNat_toNat] at hplain
  replace hplain := hplain hop
  rw [directBranch_plain hplain.1 (.inl hplain.2.1) (by omega), displacementOf, hplain.2.2.1,
    hplain.2.2.2, hop, hlen, List.length_cons, hlen]
  rfl

theorem directBranch_cond (hop : condOpcode op = true) (hlen : disp.length = 4) :
    directBranch code32 a (0x0F :: op :: disp) =
      some (landing (space code32) (a + 6) (signed disp)) := by
  rw [directBranch_plain (by decide) (.inr (by decide)) (by rw [List.length_cons]; omega),
    displacementOf, List.head?_cons, List.tail_cons, Option.any_some, hop, hlen, List.length_cons,
    List.length_cons, hlen]
  rfl

end Encodings

/-! ### Distances -/

theorem signed_modEq (bs : List UInt8) : signed bs ≡ leNat bs [ZMOD 256 ^ bs.length] := by
  rw [signed]
  split
  · exact Int.ModEq.refl _
  · rw [Int.modEq_iff_dvd]
    exact ⟨1, by ring⟩

theorem signed_bounds (bs : List UInt8) :
    -(256 ^ bs.length : ℤ) ≤ 2 * signed bs ∧ 2 * signed bs < 256 ^ bs.length := by
  have hlt := leNat_lt bs
  have hcast : ((256 ^ bs.length : ℕ) : ℤ) = 256 ^ bs.length := by push_cast; rfl
  rw [signed, ← hcast]
  split <;> omega

theorem signed_leBytes {k n : ℕ} {v : ℤ} (hk : 0 < k) (hn : (n : ℤ) ≡ v [ZMOD 256 ^ k])
    (hlow : -(256 ^ k / 2) ≤ v) (hhigh : v < 256 ^ k / 2) : signed (leBytes k n) = v := by
  obtain ⟨half, hhalf⟩ : ∃ half : ℕ, 256 ^ k = 2 * half :=
    ⟨128 * 256 ^ (k - 1), by
      obtain ⟨j, rfl⟩ : ∃ j, k = j + 1 := ⟨k - 1, by omega⟩
      rw [pow_succ, Nat.add_sub_cancel]
      ring⟩
  have hcast : (256 : ℤ) ^ k = 2 * half := by exact_mod_cast hhalf
  have hmod : ((n % (2 * half) : ℕ) : ℤ) = v % (2 * half) := by
    rw [hcast] at hn
    exact_mod_cast hn
  rw [signed, leNat_leBytes_mod, leBytes_length, hhalf]
  rw [hcast, Int.mul_ediv_cancel_left _ (by decide)] at hlow hhigh
  rw [hcast]
  generalize n % (2 * half) = r at hmod ⊢
  rcases lt_or_ge v 0 with hneg | hpos
  · have hwrap : v % (2 * (half : ℤ)) = v + 2 * half := by
      rw [← Int.add_emod_right, Int.emod_eq_of_lt (by omega) (by omega)]
    rw [if_neg (by omega), hmod, hwrap]
    omega
  · have hsame : v % (2 * (half : ℤ)) = v := Int.emod_eq_of_lt hpos (by omega)
    rw [if_pos (by omega), hmod, hsame]

/-- A displacement that is the distance from the end leads to the destination. -/
theorem landing_of_modEq {size finish target : ℕ} {rel : ℤ}
    (h : (finish : ℤ) + rel ≡ target [ZMOD size]) : landing size finish rel = target % size := by
  rw [landing, h, ← Int.natCast_emod, Int.toNat_natCast]

end RelativeBranch
