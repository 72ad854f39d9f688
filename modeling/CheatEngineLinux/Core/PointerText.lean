import Mathlib.Data.List.DropRight
import CheatEngineLinux.Core.TableIntegers

/-!
# Pointer chains as text

`buildPointerExpression` and `parsePointerExpression` of `core/ct_file.cpp`: a base and its
offsets, from the outermost to the innermost one, as one bracketed expression.

* `parsePointerExpression_build` — **PROVED**: the chain is read back as it was written.
-/

namespace CheatEngine.CtFile

open JsonGrammar (Bytes)

/-! ### Writing -/

/-- `%llx` -/
def hexDigits (n : UInt64) : Bytes := digitsText 16 n.toNat

/-- What `snprintf` appends for an offset. -/
def offsetText (off : Int64) : Bytes :=
  if 0 ≤ off then 0x5d :: 0x2b :: hexDigits off.toUInt64 else 0x5d :: 0x2d :: hexDigits (-off).toUInt64

/-- `buildPointerExpression` -/
def buildPointerExpression (base : Bytes) (offsets : List Int64) : Bytes :=
  offsets.foldr (fun off expr => 0x5b :: (expr ++ offsetText off)) base

/-! ### Reading -/

def isBlank (b : UInt8) : Bool := b == 0x20 || b == 0x09

/-- `trimPtrExpr` -/
def trimPtrExpr (s : Bytes) : Bytes := (s.dropWhile isBlank).rdropWhile isBlank

/-- The digit loop of `parseSignedHexOffset`. -/
def hexLoop (val : UInt64) : Bytes → Option UInt64
  | [] => some val
  | c :: s =>
    if 0x30 ≤ c ∧ c ≤ 0x39 then hexLoop (val * 16 + (c - 0x30).toUInt64) s
    else if 0x61 ≤ c ∧ c ≤ 0x66 then hexLoop (val * 16 + (c - 0x61 + 10).toUInt64) s
    else if 0x41 ≤ c ∧ c ≤ 0x46 then hexLoop (val * 16 + (c - 0x41 + 10).toUInt64) s
    else none

/-- Past an optional `0x`. -/
def skipHexMark (s : Bytes) : Bytes :=
  match s with
  | 0x30 :: x :: rest => if x == 0x78 || x == 0x58 then rest else s
  | _ => s

/-- `parseSignedHexOffset` -/
def parseSignedHexOffset (s : Bytes) : Option Int64 :=
  let neg := s.head? == some 0x2d
  let s := if s.head? == some 0x2b || s.head? == some 0x2d then s.tail else s
  let s := skipHexMark s
  if s.isEmpty then none
  else (hexLoop 0 s).map fun val => if neg then -val.toInt64 else val.toInt64

/-- The text before the last `]` and the text after it. -/
def splitLastBracket (s : Bytes) : Option (Bytes × Bytes) :=
  if s.contains 0x5d then
    some ((s.rdropWhile (· != 0x5d)).dropLast, s.rtakeWhile (· != 0x5d))
  else none

/-- The loop of `parsePointerExpression`, on the expression that is left, with its length as
fuel. -/
def peel : ℕ → Bytes → List Int64 → Option (Bytes × List Int64)
  | 0, _, _ => none
  | fuel + 1, e, offsets =>
    match e with
    | 0x5b :: inner => do
      let (inside, tail) ← splitLastBracket inner
      let tail := trimPtrExpr tail
      let off ← if tail.isEmpty then some 0 else parseSignedHexOffset tail
      peel fuel (trimPtrExpr inside) (offsets ++ [off])
    | [] => none
    | _ => some (e, offsets)

/-- `parsePointerExpression` -/
def parsePointerExpression (expr : Bytes) : Option (Bytes × List Int64) :=
  let e := trimPtrExpr expr
  if e.head? == some 0x5b then peel (e.length + 1) e [] else none

/-! ### Digits -/

theorem hexLoop_digitByte {d : ℕ} (h : d < 16) (val : UInt64) (s : Bytes) :
    hexLoop val (digitByte d :: s) = hexLoop (val * 16 + UInt64.ofNat d) s := by
  rcases Nat.lt_or_ge d 10 with hd | hd
  · have hcases : ∀ d < 10, (0x30 ≤ digitByte d ∧ digitByte d ≤ 0x39) ∧
        (digitByte d - 0x30).toUInt64 = UInt64.ofNat d := by decide
    obtain ⟨hrange, hvalue⟩ := hcases d hd
    rw [hexLoop, if_pos hrange, hvalue]
  · have hcases : ∀ d < 16, 10 ≤ d → ¬ (0x30 ≤ digitByte d ∧ digitByte d ≤ 0x39) ∧
        (0x61 ≤ digitByte d ∧ digitByte d ≤ 0x66) ∧
        (digitByte d - 0x61 + 10).toUInt64 = UInt64.ofNat d := by decide
    obtain ⟨hlow, hrange, hvalue⟩ := hcases d h hd
    rw [hexLoop, if_neg hlow, if_pos hrange, hvalue]

theorem hexLoop_eq {s : Bytes} (h : ∀ b ∈ s, ∃ d < 16, b = digitByte d) (n : ℕ) :
    hexLoop (UInt64.ofNat n) s
      = some (UInt64.ofNat (s.foldl (fun n b => n * 16 + charDigit b) n)) := by
  induction s generalizing n with
  | nil => rfl
  | cons b s ih =>
    obtain ⟨⟨d, hd, rfl⟩, hs⟩ := List.forall_mem_cons.mp h
    have hstep : UInt64.ofNat n * 16 + UInt64.ofNat d = UInt64.ofNat (n * 16 + d) := by
      rw [UInt64.ofNat_add, UInt64.ofNat_mul]
      rfl
    rw [hexLoop_digitByte hd, hstep, ih hs, List.foldl_cons, charDigit_digitByte hd]

theorem hexLoop_hexDigits (n : UInt64) : hexLoop 0 (hexDigits n) = some n := by
  have hmem : ∀ b ∈ hexDigits n, ∃ d < 16, b = digitByte d :=
    fun b hb => mem_digitsText (by decide) (by decide) hb
  have hread : (hexDigits n).foldl (fun n b => n * 16 + charDigit b) 0 = n.toNat :=
    @readDigits_digitsText 16 n.toNat (by decide) (by decide)
  have h := hexLoop_eq hmem 0
  rw [hread, UInt64.ofNat_toNat] at h
  exact h

theorem hexDigits_plain (n : UInt64) : ∀ b ∈ hexDigits n,
    b ≠ 0x5d ∧ b ≠ 0x5b ∧ isBlank b = false ∧ b ≠ 0x2b ∧ b ≠ 0x2d ∧ b ≠ 0x78 ∧ b ≠ 0x58 := by
  intro b hb
  obtain ⟨d, hd, rfl⟩ := mem_digitsText (by decide) (by decide) hb
  have hcases : ∀ d < 16, digitByte d ≠ 0x5d ∧ digitByte d ≠ 0x5b ∧ isBlank (digitByte d) = false ∧
      digitByte d ≠ 0x2b ∧ digitByte d ≠ 0x2d ∧ digitByte d ≠ 0x78 ∧ digitByte d ≠ 0x58 := by
    decide
  exact hcases d hd

theorem hexDigits_ne_nil (n : UInt64) : hexDigits n ≠ [] := digitsText_ne_nil

theorem skipHexMark_hexDigits (n : UInt64) : skipHexMark (hexDigits n) = hexDigits n := by
  unfold skipHexMark
  split
  · next x rest hsplit =>
    have hx := hexDigits_plain n x (by rw [hsplit]; simp)
    rw [if_neg]
    simp [hx]
  · rfl

/-! ### Reading back what was written -/

section offsets

variable (off : Int64)

/-- The sign and the digits that stand after the bracket. -/
def offsetTail : Bytes :=
  if 0 ≤ off then 0x2b :: hexDigits off.toUInt64 else 0x2d :: hexDigits (-off).toUInt64

theorem offsetText_eq : offsetText off = 0x5d :: offsetTail off := by
  unfold offsetText offsetTail
  split <;> rfl

theorem offsetTail_plain : ∀ b ∈ offsetTail off, b ≠ 0x5d ∧ b ≠ 0x5b ∧ isBlank b = false := by
  unfold offsetTail
  split
  all_goals
    rw [List.forall_mem_cons]
    refine ⟨by decide, fun b hb => ?_⟩
    have hplain := hexDigits_plain _ b hb
    exact ⟨hplain.1, hplain.2.1, hplain.2.2.1⟩

theorem offsetTail_ne_nil : offsetTail off ≠ [] := by
  unfold offsetTail
  split <;> simp

theorem parseSignedHexOffset_offsetTail : parseSignedHexOffset (offsetTail off) = some off := by
  have hne : ∀ n : UInt64, (hexDigits n).isEmpty = false := fun n => by
    simpa using hexDigits_ne_nil n
  unfold offsetTail parseSignedHexOffset
  split
  · have hhead : (some (0x2b : UInt8) == some 0x2b || some (0x2b : UInt8) == some 0x2d) = true := rfl
    have hneg : (some (0x2b : UInt8) == some 0x2d) = false := rfl
    dsimp only
    rw [List.head?_cons, if_pos hhead, List.tail_cons, skipHexMark_hexDigits, hne,
      hexLoop_hexDigits, hneg]
    simp
  · have hhead : (some (0x2d : UInt8) == some 0x2b || some (0x2d : UInt8) == some 0x2d) = true := rfl
    have hneg : (some (0x2d : UInt8) == some 0x2d) = true := rfl
    dsimp only
    rw [List.head?_cons, if_pos hhead, List.tail_cons, skipHexMark_hexDigits, hne,
      hexLoop_hexDigits, hneg]
    simp

end offsets

theorem splitLastBracket_append {inside tail : Bytes} (h : ∀ b ∈ tail, b ≠ 0x5d) :
    splitLastBracket (inside ++ 0x5d :: tail) = some (inside, tail) := by
  have hall : ∀ b ∈ tail.reverse, (b != 0x5d) = true := by
    intro b hb
    simpa using h b (List.mem_reverse.mp hb)
  have hrev : (inside ++ 0x5d :: tail).reverse = tail.reverse ++ 0x5d :: inside.reverse := by simp
  have hdrop : (inside ++ 0x5d :: tail).rdropWhile (· != 0x5d) = inside ++ [0x5d] := by
    rw [List.rdropWhile, hrev, List.dropWhile_append_of_pos hall,
      List.dropWhile_cons_of_neg (by decide)]
    simp
  have htake : (inside ++ 0x5d :: tail).rtakeWhile (· != 0x5d) = tail := by
    rw [List.rtakeWhile, hrev, List.takeWhile_append_of_pos hall,
      List.takeWhile_cons_of_neg (by decide)]
    simp
  rw [splitLastBracket, if_pos (by simp), hdrop, htake, List.dropLast_concat]

/-- No blank at either end. -/
def Trimmed (s : Bytes) : Prop :=
  (∀ b ∈ s.head?, isBlank b = false) ∧ ∀ b ∈ s.getLast?, isBlank b = false

theorem trimPtrExpr_of_trimmed {s : Bytes} (h : Trimmed s) : trimPtrExpr s = s := by
  have hfront : s.dropWhile isBlank = s := by
    cases s with
    | nil => rfl
    | cons b s => exact List.dropWhile_cons_of_neg (by simpa using h.1 b rfl)
  rw [trimPtrExpr, hfront, List.rdropWhile_eq_self_iff]
  intro hne
  simpa using h.2 _ (List.getLast?_eq_some_getLast hne)

theorem trimmed_tail (off : Int64) : Trimmed (offsetTail off) :=
  ⟨fun b hb => (offsetTail_plain off b (List.mem_of_mem_head? hb)).2.2,
    fun b hb => (offsetTail_plain off b (List.mem_of_mem_getLast? hb)).2.2⟩

theorem build_cons (base : Bytes) (off : Int64) (offsets : List Int64) :
    buildPointerExpression base (off :: offsets)
      = 0x5b :: (buildPointerExpression base offsets ++ 0x5d :: offsetTail off) := by
  show 0x5b :: (buildPointerExpression base offsets ++ offsetText off) = _
  rw [offsetText_eq]

theorem trimmed_build {base : Bytes} (hbase : Trimmed base) (offsets : List Int64) :
    Trimmed (buildPointerExpression base offsets) := by
  cases offsets with
  | nil => exact hbase
  | cons off offsets =>
    rw [build_cons]
    refine ⟨by simp; decide, fun b hb => ?_⟩
    refine (trimmed_tail off).2 b ?_
    have hlast := List.getLast?_eq_some_getLast (offsetTail_ne_nil off)
    have hsplit : 0x5b :: (buildPointerExpression base offsets ++ 0x5d :: offsetTail off)
        = 0x5b :: (buildPointerExpression base offsets ++ [0x5d]) ++ offsetTail off := by simp
    rw [hsplit, List.getLast?_append, hlast, Option.some_or] at hb
    rwa [hlast]

/-- The loop takes a chain apart from the outside. -/
theorem peel_build {base : Bytes} (hbase : Trimmed base) (hne : base ≠ [])
    (hopen : base.head? ≠ some 0x5b) (offsets : List Int64) {fuel : ℕ}
    (hfuel : offsets.length < fuel) (taken : List Int64) :
    peel fuel (buildPointerExpression base offsets) taken = some (base, taken ++ offsets) := by
  induction offsets generalizing fuel taken with
  | nil =>
    obtain ⟨fuel, rfl⟩ := Nat.exists_eq_succ_of_ne_zero (Nat.ne_of_gt hfuel)
    obtain ⟨b, rest, rfl⟩ := List.exists_cons_of_ne_nil hne
    have hb : b ≠ 0x5b := fun heq => hopen (by rw [heq]; rfl)
    rw [List.append_nil]
    show peel (fuel + 1) (b :: rest) taken = _
    unfold peel
    split
    · next heq =>
      cases heq
      exact absurd rfl hb
    · next heq => cases heq
    · rfl
  | cons off offsets ih =>
    obtain ⟨fuel, rfl⟩ := Nat.exists_eq_succ_of_ne_zero (Nat.ne_of_gt (Nat.zero_lt_of_lt hfuel))
    have hsplit := @splitLastBracket_append (buildPointerExpression base offsets) (offsetTail off)
      fun b hb => (offsetTail_plain off b hb).1
    have htail : (offsetTail off).isEmpty = false := by simpa using offsetTail_ne_nil off
    rw [build_cons, peel, hsplit]
    simp only [Option.bind_eq_bind, Option.bind_some, trimPtrExpr_of_trimmed (trimmed_tail off),
      htail, Bool.false_eq_true, ↓reduceIte, parseSignedHexOffset_offsetTail,
      trimPtrExpr_of_trimmed (trimmed_build hbase offsets)]
    rw [ih (Nat.lt_of_succ_lt_succ hfuel), List.append_assoc]
    rfl

theorem length_le_build (base : Bytes) (offsets : List Int64) :
    offsets.length ≤ (buildPointerExpression base offsets).length := by
  induction offsets with
  | nil => exact Nat.zero_le _
  | cons off offsets ih =>
    rw [build_cons, List.length_cons, List.length_cons, List.length_append]
    omega

theorem parsePointerExpression_build {base : Bytes} (hbase : Trimmed base) (hne : base ≠ [])
    (hopen : base.head? ≠ some 0x5b) {offsets : List Int64} (hoffsets : offsets ≠ []) :
    parsePointerExpression (buildPointerExpression base offsets) = some (base, offsets) := by
  have hhead : ((buildPointerExpression base offsets).head? == some 0x5b) = true := by
    obtain ⟨off, rest, rfl⟩ := List.exists_cons_of_ne_nil hoffsets
    rw [build_cons]
    rfl
  have hlength := length_le_build base offsets
  unfold parsePointerExpression
  rw [trimPtrExpr_of_trimmed (trimmed_build hbase offsets)]
  dsimp only
  rw [if_pos hhead, peel_build hbase hne hopen offsets (by omega)]
  rfl

end CheatEngine.CtFile
