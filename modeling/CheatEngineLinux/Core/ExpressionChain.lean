import CheatEngineLinux.Core.Expression

/-!
# Pointer chains as expressions

What `ExpressionParser::parse` makes of the text that `buildPointerExpression` wrote: the digits of
an offset are one operand, a bracket is one dereference, and each link takes one level.

* `combine_offset` — **PROVED**: masked sums add an offset modulo the width of the addresses.
* `parse_buildPointerExpression` — **PROVED**: a pointer chain evaluates as the chain.
-/

namespace CheatEngine.Expression

open JsonGrammar (Bytes)
open CtFile (isBlank)

/-! ### Offsets -/

open CtFile (hexDigits hexDigits_plain hexDigits_ne_nil offsetTail buildPointerExpression build_cons
  offsetTail_plain offsetTail_ne_nil digitByte)

/-- The digits of an offset stand for its absolute value. -/
def magnitude (off : Int64) : UInt64 := if 0 ≤ off then off.toUInt64 else (-off).toUInt64

def sign (off : Int64) : UInt8 := if 0 ≤ off then 0x2b else 0x2d

theorem offsetTail_eq (off : Int64) : offsetTail off = sign off :: hexDigits (magnitude off) := by
  unfold offsetTail sign magnitude
  split <;> rfl

theorem toNat_toUInt64 (off : Int64) : (off.toUInt64.toNat : ℤ) = off.toInt % 2 ^ 64 := by
  have hbmod := BitVec.toInt_eq_toNat_bmod off.toBitVec
  have hlt := off.toBitVec.isLt
  show ((off.toBitVec.toNat : ℕ) : ℤ) = off.toBitVec.toInt % _
  rw [hbmod, Int.bmod_def]
  omega

theorem magnitude_toNat (off : Int64) : (magnitude off).toNat = off.toInt.natAbs := by
  have hlow := off.le_toInt
  have hhigh := off.toInt_lt
  unfold magnitude
  split
  · next h =>
    have hnonneg : 0 ≤ off.toInt := Int64.le_iff_toInt_le.mp h
    have hnat := toNat_toUInt64 off
    omega
  · next h =>
    have hneg : ¬ 0 ≤ off.toInt := fun hle => h (Int64.le_iff_toInt_le.mpr hle)
    have hnat := toNat_toUInt64 (-off)
    rw [Int64.toInt_neg, Int.bmod_def] at hnat
    omega

/-- The width at which an offset is added: a 32-bit target's addresses wrap at 32 bits; with both
widths in one process only the sum of two 32-bit values does. -/
def offsetWidth (e : ExpressionParser) (ptr : UInt64) (off : Int64) : ℕ :=
  if e.proc.any (fun p => p.pointerWidth == 4 && !p.is64bit) then 32
  else if mixedWidth e ∧ ptr.toNat < 2 ^ 32 ∧ off.toInt.natAbs < 2 ^ 32 then 32
  else 64

/-- A pointer and an offset, modulo the width. -/
def addOffset (e : ExpressionParser) (ptr : UInt64) (off : Int64) : UInt64 :=
  UInt64.ofNat ((ptr.toNat + off.toInt) % 2 ^ offsetWidth e ptr off).toNat

def dereference (e : ExpressionParser) (address : UInt64) : Option UInt64 :=
  e.proc.bind fun p => readPointer p address

def followChain (e : ExpressionParser) (address : UInt64) (offsets : List Int64) : Option UInt64 :=
  offsets.foldr (fun off found => found.bind fun a => (dereference e a).map (addOffset e · off))
    (some address)

theorem toNat_and_low (v : UInt64) : (v &&& 0xffffffff).toNat = v.toNat % 2 ^ 32 := by
  rw [UInt64.toNat_and]
  exact Nat.and_two_pow_sub_one_eq_mod v.toNat 32

theorem and_full (v : UInt64) : v &&& 0xffffffffffffffff = v := by
  apply UInt64.toNat_inj.mp
  rw [UInt64.toNat_and]
  have hlt := v.toNat_lt
  exact (Nat.and_two_pow_sub_one_eq_mod v.toNat 64).trans (Nat.mod_eq_of_lt hlt)

/-- The sum before it is masked. -/
theorem raw_toNat (ptr : UInt64) (off : Int64) :
    ((if sign off == 0x2d then ptr - magnitude off else if sign off == 0x2a then ptr * magnitude off
      else ptr + magnitude off).toNat : ℤ) = (ptr.toNat + off.toInt) % 2 ^ 64 := by
  have hmag := magnitude_toNat off
  have hptr := ptr.toNat_lt
  by_cases h : 0 ≤ off
  · have hnonneg : 0 ≤ off.toInt := Int64.le_iff_toInt_le.mp h
    have hminus : (sign off == 0x2d) = false := by simp [sign, h]
    have hstar : (sign off == 0x2a) = false := by simp [sign, h]
    rw [hminus, hstar]
    simp only [Bool.false_eq_true, ↓reduceIte, UInt64.toNat_add]
    omega
  · have hneg : ¬ 0 ≤ off.toInt := fun hle => h (Int64.le_iff_toInt_le.mpr hle)
    have hminus : (sign off == 0x2d) = true := by simp [sign, h]
    have hlow := off.le_toInt
    rw [hminus]
    simp only [↓reduceIte, UInt64.toNat_sub]
    omega

/-- The width at which two values are combined. -/
def combineWidth (e : ExpressionParser) (left right : UInt64) : ℕ :=
  if e.proc.any (fun p => p.pointerWidth == 4 && !p.is64bit) then 32
  else if mixedWidth e ∧ left.toNat < 2 ^ 32 ∧ right.toNat < 2 ^ 32 then 32
  else 64

theorem combine_toNat (e : ExpressionParser) (left right : UInt64) (op : UInt8) :
    (combine e left right op).toNat = (if op == 0x2d then left - right
      else if op == 0x2a then left * right else left + right).toNat % 2 ^ combineWidth e left right := by
  unfold combine combineWidth mask
  generalize (if op == 0x2d then left - right
    else if op == 0x2a then left * right else left + right) = raw
  have hraw := raw.toNat_lt
  have hle : ∀ v : UInt64, v ≤ 0xffffffff ↔ v.toNat < 2 ^ 32 := fun v => by
    rw [UInt64.le_iff_toNat_le]
    exact Nat.lt_succ_iff.symm
  have hlt : ∀ v : UInt64, v > 0xffffffff ↔ ¬ v.toNat < 2 ^ 32 := fun v => by
    rw [← hle, UInt64.not_le]
  simp only [hle, hlt]
  by_cases hnarrow : e.proc.any (fun p => p.pointerWidth == 4 && !p.is64bit) = true
  · have hlow := toNat_and_low raw
    simp only [hnarrow, ↓reduceIte]
    rw [if_neg (by rw [hlow]; omega), hlow]
  · simp only [hnarrow, Bool.false_eq_true, ↓reduceIte, and_full]
    by_cases hmixed : mixedWidth e = true ∧ left.toNat < 2 ^ 32 ∧ right.toNat < 2 ^ 32
    · rw [if_pos hmixed]
      split
      · exact toNat_and_low raw
      · next h =>
        have hsmall : raw.toNat < 2 ^ 32 := by
          by_contra hbig
          exact h ⟨hmixed.1, hmixed.2.1, hmixed.2.2, hbig⟩
        exact (Nat.mod_eq_of_lt hsmall).symm
    · rw [if_neg hmixed, if_neg fun h => hmixed ⟨h.1, h.2.1, h.2.2.1⟩]
      exact (Nat.mod_eq_of_lt hraw).symm

theorem combine_first (e : ExpressionParser) (v right : UInt64) {op : UInt8}
    (hop : op = 0x2b ∨ op = 0x2d) :
    combine e (combine e 0 v 0x2b) right op = combine e v right op := by
  have hv := v.toNat_lt
  have hright := right.toNat_lt
  have hfirst : (combine e 0 v 0x2b).toNat = v.toNat % 2 ^ combineWidth e 0 v := by
    rw [combine_toNat]
    simp
  by_cases hnarrow : e.proc.any (fun p => p.pointerWidth == 4 && !p.is64bit) = true
  · apply UInt64.toNat_inj.mp
    rw [combine_toNat, combine_toNat]
    unfold combineWidth at hfirst ⊢
    simp only [hnarrow, ↓reduceIte] at hfirst ⊢
    rcases hop with rfl | rfl
    · simp only [show ((0x2b : UInt8) == 0x2d) = false from rfl,
        show ((0x2b : UInt8) == 0x2a) = false from rfl, Bool.false_eq_true, ↓reduceIte,
        UInt64.toNat_add]
      omega
    · simp only [show ((0x2d : UInt8) == 0x2d) = true from rfl, ↓reduceIte, UInt64.toNat_sub]
      omega
  · -- the value alone is never cut here
    unfold combineWidth at hfirst
    simp only [hnarrow, Bool.false_eq_true, ↓reduceIte] at hfirst
    have hsame : (combine e 0 v 0x2b).toNat = v.toNat := by
      rw [hfirst]
      split
      · next h => exact Nat.mod_eq_of_lt h.2.2
      · exact Nat.mod_eq_of_lt hv
    rw [UInt64.toNat_inj.mp hsame]

theorem sign_cases (off : Int64) : sign off = 0x2b ∨ sign off = 0x2d := by
  unfold sign
  split
  · exact Or.inl rfl
  · exact Or.inr rfl

/-- The two turns of the sum for `[…]+off`. -/
theorem combine_offset (e : ExpressionParser) (ptr : UInt64) (off : Int64) :
    combine e (combine e 0 ptr 0x2b) (magnitude off) (sign off) = addOffset e ptr off := by
  have hmag := magnitude_toNat off
  have hsum := raw_toNat ptr off
  have hcombine := combine_toNat e ptr (magnitude off) (sign off)
  generalize (if sign off == 0x2d then ptr - magnitude off
    else if sign off == 0x2a then ptr * magnitude off else ptr + magnitude off) = raw at hsum hcombine
  have hraw := raw.toNat_lt
  have hwidth : combineWidth e ptr (magnitude off) = offsetWidth e ptr off := by
    rw [combineWidth, offsetWidth, hmag]
  rw [combine_first e ptr _ (sign_cases off)]
  apply UInt64.toNat_inj.mp
  rw [hcombine, hwidth, addOffset, UInt64.toNat_ofNat']
  unfold offsetWidth
  split
  · omega
  · split <;> omega

/-! ### The digits as an operand -/

/-- No symbol and no module has a lone hex letter as its name. -/
def Unnamed (e : ExpressionParser) (n : UInt64) : Prop :=
  ∀ b, hexDigits n = [b] → isDigit b = false → e.lookup [b] = 0 ∧ moduleBase (modules e) [b] = none

theorem hexDigits_token (n : UInt64) : ∀ b ∈ hexDigits n, isXDigit b = true ∧ endsToken b = false ∧
    b ≠ 0x22 ∧ b ≠ 0x27 ∧ b ≠ 0x23 ∧ b ≠ 0x5b ∧ b ≠ 0x2a := by
  intro b hb
  obtain ⟨d, hd, rfl⟩ := CtFile.mem_digitsText (by decide) (by decide) hb
  have hcases : ∀ d < 16, isXDigit (digitByte d) = true ∧ endsToken (digitByte d) = false ∧
      digitByte d ≠ 0x22 ∧ digitByte d ≠ 0x27 ∧ digitByte d ≠ 0x23 ∧ digitByte d ≠ 0x5b ∧
      digitByte d ≠ 0x2a := by decide
  exact hcases d hd

theorem number_hexDigits (n : UInt64) : number (hexDigits n) 16 = some n := by
  have hempty : (hexDigits n).isEmpty = false := by simpa using hexDigits_ne_nil n
  have hall : (hexDigits n).all isXDigit = true :=
    List.all_eq_true.mpr fun b hb => (hexDigits_token n b hb).1
  have hread : CtFile.readDigits 16 (hexDigits n) = n.toNat :=
    @CtFile.readDigits_digitsText 16 n.toNat (by decide) (by decide)
  have hmax : n.toNat ≤ CtFile.uint64Max := Nat.le_of_lt_succ n.toNat_lt
  unfold number
  simp [hempty, hall, hread, hmax]

theorem resolveToken_hexDigits {e : ExpressionParser} {n : UInt64} (h : Unnamed e n) :
    resolveToken e (hexDigits n) = some n := by
  have hnumber := number_hexDigits n
  have hplain := hexDigits_plain n
  have htoken := hexDigits_token n
  unfold Unnamed at h
  generalize hexDigits n = digits at *
  have hall : digits.all isXDigit = true := List.all_eq_true.mpr fun b hb => (htoken b hb).1
  cases digits with
  | nil => simp [number] at hnumber
  | cons c rest =>
    obtain ⟨-, -, hquote, hquote', hhash, -⟩ := htoken c (List.mem_cons_self ..)
    have hmark : (c == 0x30 && (rest.head? == some 0x78 || rest.head? == some 0x58)) = false := by
      cases rest with
      | nil => simp
      | cons x rest =>
        have hx := hplain x (by simp)
        simp [hx]
    unfold resolveToken
    dsimp only
    rw [if_neg (by simp [hquote, hquote']), if_neg (by simp [hmark]), if_neg (by simpa using hhash),
      hall, Bool.true_and]
    split
    · exact hnumber
    · next hlone =>
      simp only [Bool.or_eq_true, Bool.not_eq_true', List.isEmpty_eq_false_iff, not_or, not_not] at hlone
      obtain ⟨rfl, hdigit⟩ := hlone
      obtain ⟨hlookup, hmodule⟩ := h c rfl (by simpa using hdigit)
      rw [if_neg (by simp [hlookup]), hmodule]
      exact hnumber

theorem named_hexDigits {e : ExpressionParser} {n : UInt64} (h : Unnamed e n) :
    named e (hexDigits n) = some (n, []) := by
  have hresolve := resolveToken_hexDigits h
  have htoken := hexDigits_token n
  have hplain := hexDigits_plain n
  have hne := hexDigits_ne_nil n
  generalize hexDigits n = s at *
  have hhead : s.takeWhile (!endsToken ·) = s :=
    List.takeWhile_eq_self_iff.mpr fun b hb => by simp [htoken b hb]
  have hmark : (s.take 2 == [0x30, 0x78] || s.take 2 == [0x30, 0x58]) = false := by
    rw [Bool.or_eq_false_iff]
    constructor
    all_goals
      rw [beq_eq_false_iff_ne]
      intro heq
      have hmem := List.mem_of_mem_take (heq ▸ List.mem_cons_of_mem _ (List.mem_cons_self ..))
      simpa using hplain _ hmem
  have hnumber : plainNumber s = true := by
    unfold plainNumber
    dsimp only
    rw [hhead, hmark]
    have hall : s.all isXDigit = true := List.all_eq_true.mpr fun b hb => (htoken b hb).1
    simp [hne, hall]
  have hstarred : starred e s = none := by
    unfold starred
    dsimp only
    rw [hnumber]
    rfl
  have hwhole : s.takeWhile (fun b => b != 0x2b && b != 0x2d && b != 0x2a) = s :=
    List.takeWhile_eq_self_iff.mpr fun b hb => by
      simp [hplain b hb, htoken b hb]
  have htrim : trim s = s := by
    refine CtFile.trimPtrExpr_of_trimmed ⟨fun b hb => ?_, fun b hb => ?_⟩
    · exact (hplain b (List.mem_of_mem_head? hb)).2.2.1
    · exact (hplain b (List.mem_of_mem_getLast? hb)).2.2.1
  unfold named
  rw [hnumber]
  dsimp only [moduleLength]
  rw [hstarred, hwhole, htrim, hresolve]
  simp

theorem skipSpaces_of_head {s : Bytes} (h : ∀ b ∈ s.head?, isBlank b = false) : skipSpaces s = s := by
  cases s with
  | nil => rfl
  | cons b s => exact List.dropWhile_cons_of_neg (by simpa using h b rfl)

section links

variable {e : ExpressionParser} (p : Bytes → Option UInt64)

theorem term_hexDigits {n : UInt64} (h : Unnamed e n) : term e p (hexDigits n) = some (n, []) := by
  have hnamed := named_hexDigits h
  have htoken := hexDigits_token n
  have hplain := hexDigits_plain n
  have hskip : skipSpaces (hexDigits n) = hexDigits n :=
    skipSpaces_of_head fun b hb => (hplain b (List.mem_of_mem_head? hb)).2.2.1
  have hfactor : factor e p (hexDigits n) = some (n, []) := by
    unfold factor
    rw [hskip]
    generalize hexDigits n = s at *
    cases s with
    | nil => simp [named, plainNumber, moduleLength, starred, resolveToken, trim] at hnamed
    | cons c rest =>
      have hc := htoken c (List.mem_cons_self ..)
      have hc' := hplain c (List.mem_cons_self ..)
      dsimp only
      rw [if_neg (by simp [hc, hc']), if_neg (by simp [hc']), if_neg (by simp [hc])]
      exact hnamed
  unfold term
  rw [hfactor]
  rfl

theorem factor_dereference {inner : Bytes} (hinner : Balanced inner) (rest : Bytes) :
    factor e p (0x5b :: (inner ++ 0x5d :: rest))
      = ((p inner).bind (dereference e)).map fun ptr => (ptr, rest) := by
  have hskip : ∀ s : Bytes, skipSpaces (0x5b :: s) = 0x5b :: s :=
    fun s => List.dropWhile_cons_of_neg (by decide)
  unfold factor
  rw [hskip]
  dsimp only
  rw [if_neg (by decide), if_pos (by decide), closing_balanced hinner]
  unfold dereference
  cases e.proc with
  | none => simp
  | some proc =>
    dsimp only
    rw [Option.map_bind]
    rfl

theorem parseImpl_two {front tail : Bytes} {op : UInt8} {left : Option UInt64} {right : UInt64}
    {levels : ℕ} (hfront : ∃ b ∈ front.head?, endsToken b = false) (hop : op = 0x2b ∨ op = 0x2d)
    (htail : ∃ b ∈ tail.getLast?, isBlank b = false)
    (hleft : factor e (parseImpl e levels) (front ++ op :: tail)
      = left.map fun v => (v, op :: tail))
    (hright : term e (parseImpl e levels) tail = some (right, [])) :
    parseImpl e (levels + 1) (front ++ op :: tail)
      = left.map fun v => combine e (combine e 0 v 0x2b) right op := by
  obtain ⟨b, hhead, hends⟩ := hfront
  obtain ⟨d, hlast, hblank⟩ := htail
  obtain ⟨front, rfl⟩ : ∃ rest, front = b :: rest := ⟨_, List.eq_cons_of_mem_head? hhead⟩
  simp only [endsToken, Bool.or_eq_false_iff] at hends
  have htrim : trim (b :: front ++ op :: tail) = b :: front ++ op :: tail := by
    refine CtFile.trimPtrExpr_of_trimmed ⟨fun c hc => ?_, fun c hc => ?_⟩
    · rw [← Option.some.inj hc, hends.2]
    · rw [List.getLast?_append, List.getLast?_cons, Option.mem_def.mp hlast] at hc
      rw [← Option.some.inj hc]
      exact hblank
  have hskip : ∀ s : Bytes, skipSpaces (op :: s) = op :: s := fun s =>
    List.dropWhile_cons_of_neg (by rcases hop with rfl | rfl <;> decide)
  have hsign : (op == 0x2b || op == 0x2d) = true := by rcases hop with rfl | rfl <;> rfl
  have hempty : tail.isEmpty = false := by
    cases tail with
    | nil => cases hlast
    | cons => rfl
  have hterm : term e (parseImpl e levels) (b :: front ++ op :: tail)
      = left.map fun v => (v, op :: tail) := by
    rw [term, hleft]
    cases left with
    | none => rfl
    | some v =>
      rw [Option.map_some, Option.bind_some, termLoop, hskip]
      split
      · next heq =>
        rw [(List.cons.inj heq).1] at hsign
        cases hsign
      · rfl
  rw [parseImpl, htrim]
  dsimp only [List.cons_append]
  rw [if_neg (by simp [hends]), ← List.cons_append, sumLoop, hterm]
  cases left with
  | none => rfl
  | some v =>
    dsimp only [Option.map_some, Option.bind_some]
    rw [hskip]
    dsimp only
    rw [hsign, hempty, if_pos rfl, if_neg Bool.false_ne_true]
    rw [List.length_append, List.length_cons, show front.length + (tail.length + 1) + 1
      = (front.length + tail.length + 1) + 1 by omega, sumLoop, hright]
    rfl

theorem parseImpl_offset {inner tail : Bytes} (hinner : Balanced inner) {off : Int64} {levels : ℕ}
    (htail : ∃ b ∈ tail.getLast?, isBlank b = false)
    (hterm : term e (parseImpl e levels) tail = some (magnitude off, [])) :
    parseImpl e (levels + 1) (0x5b :: (inner ++ 0x5d :: sign off :: tail))
      = (parseImpl e levels inner).bind fun a => (dereference e a).map (addOffset e · off) := by
  have hfactor := @factor_dereference e (parseImpl e levels) inner hinner (sign off :: tail)
  rw [show 0x5b :: (inner ++ 0x5d :: sign off :: tail)
    = 0x5b :: (inner ++ [0x5d]) ++ sign off :: tail by simp] at hfactor ⊢
  rw [parseImpl_two ⟨0x5b, rfl, by decide⟩ (sign_cases off) htail hfactor hterm]
  cases parseImpl e levels inner with
  | none => rfl
  | some a =>
    rw [Option.bind_some, Option.bind_some]
    refine congrArg (Option.map · (dereference e a)) (funext fun ptr => ?_)
    exact combine_offset e ptr off

theorem parseImpl_link {inner : Bytes} (hinner : Balanced inner) {off : Int64}
    (hoff : Unnamed e (magnitude off)) (levels : ℕ) :
    parseImpl e (levels + 1) (0x5b :: (inner ++ 0x5d :: offsetTail off))
      = (parseImpl e levels inner).bind fun a => (dereference e a).map (addOffset e · off) := by
  have hlast := List.getLast?_eq_some_getLast (hexDigits_ne_nil (magnitude off))
  rw [offsetTail_eq]
  exact parseImpl_offset hinner
    ⟨_, hlast, (hexDigits_plain _ _ (List.mem_of_mem_getLast? hlast)).2.2.1⟩ (term_hexDigits _ hoff)

end links

/-! ### Chains -/

theorem brackets_plain {s : Bytes} (h : ∀ b ∈ s, b ≠ 0x5d ∧ b ≠ 0x5b) (depth : ℕ) :
    brackets depth s = some depth := by
  induction s with
  | nil => rfl
  | cons c s ih =>
    obtain ⟨hc, hs⟩ := List.forall_mem_cons.mp h
    simp only [brackets]
    rw [if_neg (by simp [hc]), if_neg (by simp [hc])]
    exact ih hs

theorem brackets_shift {s : Bytes} {d d' : ℕ} (h : brackets d s = some d') (k : ℕ) :
    brackets (d + k) s = some (d' + k) := by
  induction s generalizing d with
  | nil =>
    cases h
    rfl
  | cons c s ih =>
    simp only [brackets] at h ⊢
    split at h
    · next hopen =>
      rw [if_pos hopen, Nat.add_right_comm]
      exact ih h
    · next hopen =>
      rw [if_neg hopen]
      split at h
      · next hclose =>
        rw [if_pos hclose]
        cases d with
        | zero => cases h
        | succ d =>
          rw [Nat.add_right_comm]
          exact ih h
      · next hclose =>
        rw [if_neg hclose]
        exact ih h

theorem balanced_build {base : Bytes} (hbase : Balanced base) (offsets : List Int64) :
    Balanced (buildPointerExpression base offsets) := by
  induction offsets with
  | nil => exact hbase
  | cons off offsets ih =>
    have hone := brackets_shift ih 1
    show brackets 0 _ = some 0
    rw [build_cons, brackets, if_pos (by decide), brackets_append, hone]
    show brackets 1 (0x5d :: offsetTail off) = some 0
    rw [brackets, if_neg (by decide), if_pos (by decide)]
    exact brackets_plain (fun b hb => ⟨(offsetTail_plain off b hb).1, (offsetTail_plain off b hb).2.1⟩) 0

/-- A pointer chain evaluates as the chain. -/
theorem parse_buildPointerExpression (e : ExpressionParser) {base : Bytes} {address : UInt64}
    {offsets : List Int64} (hbase : parse e base = some address) (hbrackets : Balanced base)
    (hdeep : nesting 0 base + offsets.length ≤ kMaxDepth)
    (hnames : ∀ off ∈ offsets, Unnamed e (magnitude off)) :
    parse e (buildPointerExpression base offsets) = followChain e address offsets := by
  suffices hall : ∀ levels, nesting 0 base + offsets.length < levels →
      parseImpl e levels (buildPointerExpression base offsets) = followChain e address offsets from
    hall (kMaxDepth + 1) (Nat.lt_succ_of_le hdeep)
  clear hdeep
  induction offsets with
  | nil =>
    intro levels hlevels
    exact parse_levels e hlevels hbase
  | cons off offsets ih =>
    obtain ⟨hoff, hoffsets⟩ := List.forall_mem_cons.mp hnames
    intro levels hlevels
    rw [List.length_cons] at hlevels
    obtain ⟨levels, rfl⟩ := Nat.exists_eq_succ_of_ne_zero (Nat.ne_of_gt (Nat.zero_lt_of_lt hlevels))
    rw [build_cons, parseImpl_link (balanced_build hbrackets offsets) hoff,
      ih hoffsets levels (by omega)]
    rfl

/-- A target with pointers of eight bytes: those at the addresses of `slots`, and 0 elsewhere. -/
def slotProcess (slots : List (UInt64 × Bytes)) : Process where
  modules := []
  pointerWidth := 8
  is64bit := true
  pointerWidthAt := fun _ => 8
  byteOrderAt := fun _ => .little
  read := fun address _ => some ((slots.lookup address).getD [0, 0, 0, 0, 0, 0, 0, 0])

/-- The pointer at 0x10 is 0x2004, the one at 0x2000 is 0x30. -/
def linked : Process :=
  slotProcess [(0x10, [0x04, 0x20, 0, 0, 0, 0, 0, 0]), (0x2000, [0x30, 0, 0, 0, 0, 0, 0, 0])]

/-- `[[10]-4]+8` -/
theorem parse_two_links :
    parse ⟨some linked, fun _ => 0⟩ (buildPointerExpression [0x31, 0x30] [8, -4]) = some 0x38 := by
  have hchain := @parse_buildPointerExpression ⟨some linked, fun _ => 0⟩ [0x31, 0x30] 0x10 [8, -4]
    (by decide) (by decide) (by decide) (fun off _ b _ _ => ⟨rfl, rfl⟩)
  exact hchain.trans (by decide)

def oneSymbol (name : Bytes) (address : UInt64) (asked : Bytes) : UInt64 :=
  if asked = name then address else 0

/-- A symbol `a` is taken for the offset 10; a quoted name with a bracket in it ends the
dereference; and 60 offsets are too many for a base with five levels of its own. -/
theorem parse_not_chain :
    (parse ⟨some linked, oneSymbol [0x61] 0x5000⟩ [0x31, 0x30] = some 0x10 ∧
      parse ⟨some linked, oneSymbol [0x61] 0x5000⟩ (buildPointerExpression [0x31, 0x30] [10])
        = some 0x7004 ∧
      followChain ⟨some linked, oneSymbol [0x61] 0x5000⟩ 0x10 [10] = some 0x200e) ∧
    (parse ⟨some linked, oneSymbol [0x78, 0x5d] 0x10⟩ [0x22, 0x78, 0x5d, 0x22] = some 0x10 ∧
      parse ⟨some linked, oneSymbol [0x78, 0x5d] 0x10⟩
        (buildPointerExpression [0x22, 0x78, 0x5d, 0x22] [0]) = none ∧
      followChain ⟨some linked, oneSymbol [0x78, 0x5d] 0x10⟩ 0x10 [0] = some 0x2004) ∧
    (parse ⟨some linked, fun _ => 0⟩ [0x5b, 0x5b, 0x5b, 0x5b, 0x5b, 0x30, 0x5d, 0x5d, 0x5d, 0x5d, 0x5d]
        = some 0 ∧
      parse ⟨some linked, fun _ => 0⟩ (buildPointerExpression
        [0x5b, 0x5b, 0x5b, 0x5b, 0x5b, 0x30, 0x5d, 0x5d, 0x5d, 0x5d, 0x5d] (List.replicate 60 0)) = none ∧
      followChain ⟨some linked, fun _ => 0⟩ 0 (List.replicate 60 0) = some 0) := by
  decide +kernel

end CheatEngine.Expression
