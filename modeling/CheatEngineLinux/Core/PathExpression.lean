import CheatEngineLinux.Core.ExpressionGrammar
import CheatEngineLinux.Scanner.LivePaths

/-!
# The text of a pointer path

`PointerPath::toString` (`scanner/pointer_scanner.cpp`) writes a path as an address expression.

* `parseImpl_bareBase`, `parseImpl_quotedBase` — **PROVED**: the module and its offset are read as
  their sum;
* `parseImpl_toString` — **PROVED**: the text of a path is read as the walk along the path;
* `followPath_of_walkLive` — **PROVED**: where `dereference` arrives without wrap-around, the walk
  arrives too;
* `parse_toString` — **PROVED**: the text evaluates to the address of the path;
* `parse_not_dereference` — **PROVED**: not for null pointers, sums that wrap and modules with a
  letter as their name.
-/

namespace CheatEngine

open CtFile (hexDigits)

/-! ### The text -/

/-- `std::isalnum` in the C locale. -/
def isAlnum (b : UInt8) : Bool :=
  (0x30 ≤ b && b ≤ 0x39) || (0x41 ≤ b && b ≤ 0x5a) || (0x61 ≤ b && b ≤ 0x7a)

/-- A character of a `plainName`. -/
def isPlainChar (b : UInt8) : Bool := isAlnum b || b == 0x5f || b == 0x2e || b == 0x2d

/-- `+0x%x` or `-0x%x` -/
def signedHex (off : Int32) : List UInt8 :=
  if off ≥ 0 then 0x2b :: 0x30 :: 0x78 :: hexDigits off.toUInt32.toUInt64
  else 0x2d :: 0x30 :: 0x78 :: hexDigits (-off.toInt64).toUInt64.toUInt32.toUInt64

/-- The module and its offset; an absolute base is a bare address. -/
def PointerPath.baseText (path : PointerPath) : List UInt8 :=
  let module := nameBytes path.module
  let plainName := module.all isPlainChar
  (if plainName then module else 0x22 :: (module ++ [0x22])) ++
    if path.module.isEmpty then hexDigits path.baseOffset else 0x2b :: hexDigits path.baseOffset

/-- A bracket for each offset, `[[base]+off1]+off2`. -/
def chainText (base : List UInt8) (offsets : List Int32) : List UInt8 :=
  List.replicate offsets.length 0x5b ++ (base ++ offsets.flatMap fun off => 0x5d :: signedHex off)

/-- `PointerPath::toString` -/
def PointerPath.toString (path : PointerPath) : List UInt8 := chainText path.baseText path.offsets

end CheatEngine

namespace CheatEngine.Expression

open JsonGrammar (Bytes)
open CtFile (hexDigits hexDigits_plain hexDigits_ne_nil)

/-- The parser for a target, with a resolver that knows the loaded modules and nothing else. -/
def parserOf (target : PointerTarget) (is64bit : Bool) : ExpressionParser where
  proc := some {
    modules := target.modules.map fun m => (nameBytes m.name, m.base)
    pointerWidth := target.pointerWidth 0
    is64bit := is64bit
    pointerWidthAt := target.pointerWidth
    byteOrderAt := target.byteOrder
    read := fun address size => some (target.read address size) }
  lookup name := baseOf target.modules (nameOfBytes name)

/-! ### The walk -/

section walk

variable (e : ExpressionParser)

/-- The walk along the offsets: at each address a pointer, and from it the offset. -/
def followPath : UInt64 → List Int32 → Option UInt64
  | address, [] => some address
  | address, off :: rest =>
    (dereference e address).bind fun ptr => followPath (addOffset e ptr off.toInt64) rest

/-- No sum on the way wraps. -/
def StaysIn : UInt64 → List Int32 → Prop
  | _, [] => True
  | address, off :: rest => ∀ ptr, dereference e address = some ptr →
    (ptr.toNat : ℤ) + off.toInt < 2 ^ offsetWidth e ptr off.toInt64 ∧
      StaysIn (addOffset e ptr off.toInt64) rest

theorem followPath_concat (address : UInt64) (offsets : List Int32) (off : Int32) :
    followPath e address (offsets ++ [off]) = (followPath e address offsets).bind fun a =>
      (dereference e a).map (addOffset e · off.toInt64) := by
  induction offsets generalizing address with
  | nil =>
    rw [List.nil_append, followPath, followPath, Option.bind_some, Option.map_eq_bind]
    rfl
  | cons o offsets ih =>
    rw [List.cons_append, followPath, followPath, Option.bind_assoc]
    exact Option.bind_congr fun ptr _ => ih _

end walk

section walk

variable {target : PointerTarget} {is64bit : Bool}

theorem dereference_of_readPointer {address ptr : UInt64}
    (h : target.readPointer address = some ptr) :
    dereference (parserOf target is64bit) address = some ptr := by
  rw [PointerTarget.readPointer] at h
  change Expression.readPointer _ address = some ptr
  rw [Expression.readPointer]
  dsimp only [parserOf]
  split at h
  · cases h
  · next hwidth =>
    simp only [Bool.or_eq_true, Bool.and_eq_true, decide_eq_true_eq, not_or, not_and_or, ne_eq,
      not_not] at hwidth
    dsimp only at h
    split at h
    · cases h
    · next hlen =>
      rw [if_pos hwidth.1, if_pos (not_not.mp hlen)]
      split at h
      · next decoded hdecoded =>
        split at h
        · cases h
        · rw [hdecoded, h]
      · cases h

/-- One step of `dereference` that does not fail. -/
theorem walkLive_step {address : UInt64} {off : Int32} {rest : List Int32}
    (hne : target.walkLive address (off :: rest) ≠ 0) :
    ∃ ptr next, dereference (parserOf target is64bit) address = some ptr ∧
      (next.toNat : ℤ) = ptr.toNat + off.toInt ∧
      target.walkLive address (off :: rest) = target.walkLive next rest := by
  rw [PointerTarget.walkLive] at hne ⊢
  cases hread : target.readPointer address with
  | none =>
    rw [hread] at hne
    exact absurd rfl hne
  | some ptr =>
    rw [hread] at hne
    dsimp only at hne ⊢
    cases hnext : offsetPointer ptr off with
    | none =>
      rw [hnext] at hne
      exact absurd rfl hne
    | some next =>
      exact ⟨ptr, next, dereference_of_readPointer hread, offsetPointer_eq_some_iff.mp hnext, rfl⟩

theorem addOffset_of_lt {e : ExpressionParser} {ptr next : UInt64} {off : Int32}
    (hsum : (next.toNat : ℤ) = ptr.toNat + off.toInt)
    (hlt : (next.toNat : ℤ) < 2 ^ offsetWidth e ptr off.toInt64) :
    addOffset e ptr off.toInt64 = next := by
  rw [addOffset, Int32.toInt_toInt64, ← hsum, Int.emod_eq_of_lt (Int.natCast_nonneg _) hlt,
    Int.toNat_natCast, UInt64.ofNat_toNat]

/-- Where `dereference` arrives, the walk arrives. -/
theorem followPath_of_walkLive (offsets : List Int32) {address : UInt64}
    (hne : target.walkLive address offsets ≠ 0)
    (hstays : StaysIn (parserOf target is64bit) address offsets) :
    followPath (parserOf target is64bit) address offsets
      = some (target.walkLive address offsets) := by
  induction offsets generalizing address with
  | nil => rfl
  | cons off rest ih =>
    obtain ⟨ptr, next, hptr, hsum, hwalk⟩ := @walkLive_step target is64bit _ _ _ hne
    obtain ⟨hlt, hrest⟩ := hstays ptr hptr
    rw [← hsum] at hlt
    rw [addOffset_of_lt hsum hlt] at hrest
    rw [hwalk] at hne ⊢
    rw [followPath, hptr, Option.bind_some, addOffset_of_lt hsum hlt]
    exact ih hne hrest

theorem combineWidth_wide (hwide : target.pointerWidth 0 ≠ 4) (left right : UInt64) :
    combineWidth (parserOf target is64bit) left right = 64 := by
  have hnarrow : (target.pointerWidth 0 == 4) = false := by rwa [beq_eq_false_iff_ne]
  simp [combineWidth, mixedWidth, parserOf, hnarrow]

theorem offsetWidth_wide (hwide : target.pointerWidth 0 ≠ 4) (ptr : UInt64) (off : Int64) :
    offsetWidth (parserOf target is64bit) ptr off = 64 := by
  have hnarrow : (target.pointerWidth 0 == 4) = false := by rwa [beq_eq_false_iff_ne]
  simp [offsetWidth, mixedWidth, parserOf, hnarrow]

/-- `dereference` itself stops where a sum leaves 64 bits. -/
theorem staysIn_of_wide (hwide : target.pointerWidth 0 ≠ 4) (offsets : List Int32)
    {address : UInt64} (hne : target.walkLive address offsets ≠ 0) :
    StaysIn (parserOf target is64bit) address offsets := by
  induction offsets generalizing address with
  | nil => trivial
  | cons off rest ih =>
    obtain ⟨ptr, next, hptr, hsum, hwalk⟩ := @walkLive_step target is64bit _ _ _ hne
    intro ptr' hptr'
    obtain rfl : ptr = ptr' := Option.some.inj (hptr.symm.trans hptr')
    have hlt : (next.toNat : ℤ) < 2 ^ offsetWidth (parserOf target is64bit) ptr off.toInt64 := by
      rw [offsetWidth_wide hwide]
      exact_mod_cast next.toNat_lt
    refine ⟨hsum ▸ hlt, ?_⟩
    rw [addOffset_of_lt hsum hlt]
    exact ih (hwalk ▸ hne)

end walk

/-! ### The base -/

section base

variable {e : ExpressionParser} {levels : ℕ}

def startAddress (e : ExpressionParser) (base offset : UInt64) : UInt64 :=
  wrap e base offset (base.toNat + offset.toNat)

theorem combine_base (base offset : UInt64) :
    combine e (combine e 0 base 0x2b) offset 0x2b = startAddress e base offset :=
  (combine_first e base offset (Or.inl rfl)).trans (combine_sign e base offset .plus)

theorem combine_absolute (offset : UInt64) : combine e 0 offset 0x2b = startAddress e 0 offset :=
  combine_sign e 0 offset .plus

/-- One operand. -/
theorem parseImpl_one {text : Bytes} {v : UInt64} (hhead : ∃ b ∈ text.head?, endsToken b = false)
    (hlast : ∃ b ∈ text.getLast?, CtFile.isBlank b = false)
    (hterm : term e (parseImpl e levels) text = some (v, [])) :
    parseImpl e (levels + 1) text = some (combine e 0 v 0x2b) := by
  obtain ⟨b, hb, hends⟩ := hhead
  obtain ⟨rest, rfl⟩ : ∃ rest, text = b :: rest := ⟨_, List.eq_cons_of_mem_head? hb⟩
  simp only [endsToken, Bool.or_eq_false_iff] at hends
  have hskip : skipSpaces (b :: rest) = b :: rest := skipSpaces_of_head fun c hc => by
    rw [← Option.some.inj hc, hends.2]
  have htrim : trim (b :: rest) = b :: rest := by
    have hline := @trim_line (b :: rest) [] hlast (List.forall_mem_nil _)
    rw [List.append_nil, hskip] at hline
    exact hline
  rw [parseImpl_eq e levels (by rw [htrim, hskip]), htrim, start, hskip]
  dsimp only
  rw [if_neg (by simp [hends]), sumRest_eq, hterm]
  rfl

theorem hexDigits_ends (n : UInt64) : (∃ b ∈ (hexDigits n).head?, endsToken b = false) ∧
    ∃ b ∈ (hexDigits n).getLast?, CtFile.isBlank b = false := by
  obtain ⟨c, rest, hc⟩ := List.exists_cons_of_ne_nil (hexDigits_ne_nil n)
  have hlast := List.getLast?_eq_some_getLast (hexDigits_ne_nil n)
  refine ⟨⟨c, by rw [hc]; rfl, ?_⟩, _, hlast, ?_⟩
  · exact (hexDigits_token n c (by rw [hc]; exact List.mem_cons_self ..)).2.1
  · exact (hexDigits_plain n _ (List.mem_of_mem_getLast? hlast)).2.2.1

theorem isPlainChar_spec {b : UInt8} (h : isPlainChar b = true) :
    CtFile.isBlank b = false ∧ isMark b = false ∧ (b = 0x2d ∨ isNameChar b = true) := by
  have hall : ∀ n < 256, isPlainChar (UInt8.ofNat n) = true → CtFile.isBlank (UInt8.ofNat n) = false ∧
      isMark (UInt8.ofNat n) = false ∧
      (UInt8.ofNat n = 0x2d ∨ isNameChar (UInt8.ofNat n) = true) := by
    decide +kernel
  have hb := hall b.toNat b.toNat_lt
  rw [UInt8.ofNat_toNat] at hb
  exact hb h

/-- What `plainNumber` looks at ends at the next operator. -/
theorem plainNumber_append (name rest : Bytes) :
    plainNumber (name ++ 0x2b :: rest) = plainNumber name := by
  have hhead : (name ++ 0x2b :: rest).takeWhile (!endsToken ·) = name.takeWhile (!endsToken ·) := by
    have hstop : (0x2b :: rest).takeWhile (!endsToken ·) = [] :=
      List.takeWhile_cons_of_neg (by decide)
    rw [List.takeWhile_append, hstop, List.append_nil]
    split
    · next hlen => exact ((List.takeWhile_prefix _).eq_of_length hlen).symm
    · rfl
  rw [plainNumber, plainNumber]
  simp only [hhead]

theorem plainNumber_of_hex {name : Bytes} (hne : name ≠ []) (hhex : name.all isXDigit = true) :
    plainNumber name = true := by
  have hdigit := List.all_eq_true.mp hhex
  have hbegins := beginsNumber_of_hex hhex
  simp only [beginsNumber, Bool.or_eq_false_iff] at hbegins
  rw [plainNumber_eq ⟨hne, fun b hb => (isXDigit_nameChar (hdigit b hb)).1⟩, hbegins.1.2, hbegins.2]
  simp only [Bool.or_self, Bool.false_eq_true, if_false, hhex, Bool.or_true]

theorem resolveToken_lookup {name : Bytes} (hmark : ∀ b ∈ name.head?, isMark b = false)
    (hbegins : beginsNumber name = false)
    (hhex : name.all isXDigit = false ∨ loneLetter name = true) (hlookup : e.lookup name ≠ 0) :
    resolveToken e name = some (e.lookup name) := by
  cases name with
  | nil =>
    rcases hhex with h | h
    · cases h
    · cases h
  | cons c rest =>
    have hnot : ((c :: rest).all isXDigit && (!rest.isEmpty || (c :: rest).all isDigit)) = false := by
      rcases hhex with h | h
      · rw [h, Bool.false_and]
      · simp only [loneLetter, List.length_cons, Bool.and_eq_true, beq_iff_eq, Nat.add_eq_right,
          List.length_eq_zero_iff, Bool.not_eq_true'] at h
        obtain ⟨rfl, hdigit⟩ := h
        rw [hdigit]
        simp
    rw [resolveToken_word e (hmark c rfl) hbegins, hnot, if_neg Bool.false_ne_true, if_pos hlookup]

theorem moduleLength_module {name : Bytes} {names : List (Bytes × UInt64)} {n : UInt64}
    (hne : name ≠ []) (hmem : ∃ m ∈ names, m.1 = name)
    (hlongest : ∀ m ∈ names, sameNameIgnoringCase (name ++ 0x2b :: hexDigits n) m.1 = false) :
    moduleLength (name ++ 0x2b :: hexDigits n) names = name.length := by
  obtain ⟨m, hm, rfl⟩ := hmem
  obtain ⟨hmax, hlen⟩ := moduleLength_spec (m.1 ++ 0x2b :: hexDigits n) names
  have hstands : StandsAt m.1 (m.1 ++ 0x2b :: hexDigits n) := by
    refine ⟨by simpa using hne, ?_, ?_, ?_⟩
    · rw [List.length_append]
      exact Nat.le_add_right _ _
    · rw [List.take_left, sameNameIgnoringCase, beq_self_eq_true]
    · rw [List.drop_left]
      rfl
  have hge := hmax m hm hstands
  have hpos := List.length_pos_iff.mpr hne
  rcases hlen with hzero | ⟨m', hm', hat, heq⟩
  · omega
  · by_contra hlonger
    -- a longer name ends between the digits, or with them
    obtain ⟨k, hk⟩ : ∃ k, m'.1.length = m.1.length + (k + 1) := ⟨m'.1.length - m.1.length - 1, by omega⟩
    have hle := hat.length_le
    have hends := hat.ends
    have hsame := hat.same
    rw [hk, List.drop_length_add_append, List.drop_succ_cons] at hends
    have hdrop : (hexDigits n).drop k = [] := by
      cases hrest : (hexDigits n).drop k with
      | nil => rfl
      | cons b rest =>
        have hb : b ∈ hexDigits n := List.mem_of_mem_drop (hrest ▸ List.mem_cons_self ..)
        rw [hrest, List.head?_cons, Option.all_some, (hexDigits_token n b hb).2.1] at hends
        cases hends
    have hlast := List.drop_eq_nil_iff.mp hdrop
    rw [List.take_of_length_le (by rw [List.length_append, List.length_cons]; omega),
      hlongest m' hm'] at hsame
    cases hsame

theorem named_module {name : Bytes} {n : UInt64} (hplain : name.all isPlainChar = true)
    (hnumber : plainNumber name = false) (hbegins : beginsNumber name = false)
    (hlookup : e.lookup name ≠ 0) (hmem : ∃ m ∈ modules e, m.1 = name) (hne : name ≠ [])
    (hlongest : ∀ m ∈ modules e, sameNameIgnoringCase (name ++ 0x2b :: hexDigits n) m.1 = false) :
    named e (name ++ 0x2b :: hexDigits n) = some (e.lookup name, 0x2b :: hexDigits n) := by
  have hchars := List.all_eq_true.mp hplain
  have htrim : trim name = name := CtFile.trimPtrExpr_of_trimmed
    ⟨fun b hb => (isPlainChar_spec (hchars b (List.mem_of_mem_head? hb))).1,
      fun b hb => (isPlainChar_spec (hchars b (List.mem_of_mem_getLast? hb))).1⟩
  have hhex : name.all isXDigit = false := by
    by_contra hall
    rw [plainNumber_of_hex hne (by simpa using hall)] at hnumber
    cases hnumber
  have hresolve := @resolveToken_lookup e name
    (fun b hb => (isPlainChar_spec (hchars b (List.mem_of_mem_head? hb))).2.1) hbegins (Or.inl hhex)
    hlookup
  have hlen := List.length_pos_iff.mpr hne
  rw [named, plainNumber_append, hnumber, if_neg Bool.false_ne_true]
  simp only [moduleLength_module hne hmem hlongest, List.take_left, List.drop_left, htrim, hresolve]
  rw [if_pos (Nat.pos_iff_ne_zero.mp hlen)]
  rfl

theorem named_letter {name : Bytes} {n : UInt64} (hletter : loneLetter name = true)
    (hhex : name.all isXDigit = true) (hlookup : e.lookup name ≠ 0) :
    named e (name ++ 0x2b :: hexDigits n) = some (e.lookup name, 0x2b :: hexDigits n) := by
  have hdigit := List.all_eq_true.mp hhex
  have hne : name ≠ [] := by
    rintro rfl
    cases hletter
  have ht : IsToken name := ⟨hne, fun b hb => (isXDigit_nameChar (hdigit b hb)).1⟩
  have hskip : skipSpaces (0x2b :: hexDigits n) = 0x2b :: hexDigits n :=
    List.dropWhile_cons_of_neg (by decide)
  have hfollows : Follows (0x2b :: hexDigits n) := fun b hb => by
    rw [hskip] at hb
    rw [← Option.some.inj hb]
    rfl
  rw [named_number e ht hfollows (by rw [plainNumber_append, plainNumber_of_hex hne hhex]),
    resolveToken_lookup (fun b hb => ?_) (beginsNumber_of_hex hhex) (Or.inr hletter) hlookup, hskip]
  · rfl
  · exact (isNameChar_iff.mp (isXDigit_nameChar (hdigit b (List.mem_of_mem_head? hb))).1).2

/-- The module names that the text of a path leaves readable: no `"` in quotes, and brackets there
match; a bare one does not look like a number or begin with a sign, and is not with the offset the
name of another module. -/
inductive ReadsBack (e : ExpressionParser) (path : PointerPath) : Prop
  | absolute (hempty : path.module.isEmpty = true)
  | quoted (hquote : (nameBytes path.module).all isPlainChar = false)
      (hmark : 0x22 ∉ nameBytes path.module)
      (hbrackets : path.offsets = [] ∨ Balanced (nameBytes path.module))
  | bare (hplain : (nameBytes path.module).all isPlainChar = true)
      (hsign : (nameBytes path.module).head? ≠ some 0x2d)
      (hbegins : beginsNumber (nameBytes path.module) = false)
      (hnumber : plainNumber (nameBytes path.module) = false)
      (hlongest : ∀ m ∈ modules e, sameNameIgnoringCase
        (nameBytes path.module ++ 0x2b :: hexDigits path.baseOffset) m.1 = false)
  | letter (hletter : loneLetter (nameBytes path.module) = true)
      (hhex : (nameBytes path.module).all isXDigit = true)

theorem isPlainChar_of_hex {name : Bytes} (h : name.all isXDigit = true) :
    name.all isPlainChar = true := by
  have hall : ∀ n < 256, isXDigit (UInt8.ofNat n) = true → isPlainChar (UInt8.ofNat n) = true := by
    decide +kernel
  refine List.all_eq_true.mpr fun b hb => ?_
  have hchar := hall b.toNat b.toNat_lt
  rw [UInt8.ofNat_toNat] at hchar
  exact hchar (List.all_eq_true.mp h b hb)

theorem nameBytes_eq_nil {name : String} : nameBytes name = [] ↔ name.isEmpty = true := by
  rw [nameBytes, List.map_eq_nil_iff, String.toList_eq_nil_iff, String.isEmpty_iff]

theorem parseImpl_absolute {path : PointerPath} (hempty : path.module.isEmpty = true)
    (hoffset : Unnamed e path.baseOffset) :
    parseImpl e (levels + 1) path.baseText = some (startAddress e 0 path.baseOffset) := by
  have htext : path.baseText = hexDigits path.baseOffset := by
    rw [PointerPath.baseText, nameBytes_eq_nil.mpr hempty, hempty]
    rfl
  obtain ⟨hhead, hlast⟩ := hexDigits_ends path.baseOffset
  rw [htext, parseImpl_one hhead hlast (term_hexDigits _ hoffset), combine_absolute]

theorem parseImpl_module {path : PointerPath} (hname : ReadsBack e path)
    (hoffset : Unnamed e path.baseOffset) (hloaded : path.module.isEmpty = false)
    (hlookup : e.lookup (nameBytes path.module) ≠ 0)
    (hmem : ∃ m ∈ modules e, m.1 = nameBytes path.module) :
    parseImpl e (levels + 1) path.baseText
      = some (startAddress e (e.lookup (nameBytes path.module)) path.baseOffset) := by
  have hne : nameBytes path.module ≠ [] := fun h => by
    rw [nameBytes_eq_nil.mp h] at hloaded
    cases hloaded
  obtain ⟨-, hlast⟩ := hexDigits_ends path.baseOffset
  have htwo : ∀ front : Bytes, (∃ b ∈ front.head?, endsToken b = false) →
      factor e (parseImpl e levels) (front ++ 0x2b :: hexDigits path.baseOffset)
        = some (e.lookup (nameBytes path.module), 0x2b :: hexDigits path.baseOffset) →
      parseImpl e (levels + 1) (front ++ 0x2b :: hexDigits path.baseOffset)
        = some (startAddress e (e.lookup (nameBytes path.module)) path.baseOffset) :=
    fun front hfront hfactor => by
      rw [@parseImpl_two e front _ 0x2b (some _) _ _ hfront (Or.inl rfl) hlast hfactor
        (term_hexDigits _ hoffset), Option.map_some, combine_base]
  have hbare : (nameBytes path.module).all isPlainChar = true →
      (nameBytes path.module).head? ≠ some 0x2d →
      named e (nameBytes path.module ++ 0x2b :: hexDigits path.baseOffset)
        = some (e.lookup (nameBytes path.module), 0x2b :: hexDigits path.baseOffset) →
      parseImpl e (levels + 1) path.baseText
        = some (startAddress e (e.lookup (nameBytes path.module)) path.baseOffset) := by
    intro hplain hsign hnamed
    rw [PointerPath.baseText]
    simp only [hplain, hloaded, if_true, Bool.false_eq_true, if_false]
    generalize nameBytes path.module = name at *
    obtain ⟨c, rest, rfl⟩ := List.exists_cons_of_ne_nil hne
    have hc := (isPlainChar_spec (List.all_eq_true.mp hplain c (List.mem_cons_self ..))).2.2
    have hchar : isNameChar c = true := hc.resolve_left fun h => hsign (by rw [h]; rfl)
    refine htwo _ ⟨c, rfl, (isNameChar_iff.mp hchar).1⟩ ?_
    rw [List.cons_append, factor_cons e _ hchar]
    exact hnamed
  cases hname with
  | absolute hempty =>
    rw [hloaded] at hempty
    cases hempty
  | quoted hquote hmark hbrackets =>
    rw [PointerPath.baseText]
    simp only [hquote, hloaded, Bool.false_eq_true, if_false]
    refine htwo _ ⟨0x22, rfl, by decide⟩ ?_
    rw [List.cons_append, List.append_assoc]
    refine (factor_quoted e _ (Or.inl rfl) hmark _).trans ?_
    rw [nameValue, if_pos hlookup]
    rfl
  | bare hplain hsign hbegins hnumber hlongest =>
    exact hbare hplain hsign
      (named_module hplain hnumber hbegins hlookup hmem hne hlongest)
  | letter hletter hhex =>
    refine hbare (isPlainChar_of_hex hhex) (fun h => ?_) (named_letter hletter hhex hlookup)
    have hminus := List.all_eq_true.mp hhex _ (List.mem_of_mem_head? h)
    cases hminus

theorem balanced_baseText {path : PointerPath} (hname : ReadsBack e path)
    (hne : path.offsets ≠ []) : Balanced path.baseText := by
  have hhex : ∀ depth, brackets depth (hexDigits path.baseOffset) = some depth := fun depth =>
    brackets_plain (fun b hb => ⟨(hexDigits_plain _ b hb).1, (hexDigits_plain _ b hb).2.1⟩) depth
  have hoffset : brackets 0 (if path.module.isEmpty then hexDigits path.baseOffset
      else 0x2b :: hexDigits path.baseOffset) = some 0 := by
    split
    · exact hhex 0
    · exact hhex 0
  have hplain : (nameBytes path.module).all isPlainChar = true → Balanced path.baseText := by
    intro hplain
    rw [Balanced, PointerPath.baseText]
    simp only [hplain, if_true]
    rw [brackets_append, brackets_plain fun b hb =>
      isMark_brackets (isPlainChar_spec (List.all_eq_true.mp hplain b hb)).2.1]
    exact hoffset
  cases hname with
  | absolute hempty => exact hplain (by rw [nameBytes_eq_nil.mpr hempty]; rfl)
  | quoted hquote hmark hbrackets =>
    rw [Balanced, PointerPath.baseText]
    simp only [hquote, Bool.false_eq_true, if_false]
    have hquoted : brackets 0 (0x22 :: (nameBytes path.module ++ [0x22])) = some 0 := by
      change brackets 0 (nameBytes path.module ++ [0x22]) = some 0
      rw [brackets_append, hbrackets.resolve_left hne]
      rfl
    rw [brackets_append, hquoted]
    exact hoffset
  | bare hplain' => exact hplain hplain'
  | letter hletter hhex => exact hplain (isPlainChar_of_hex hhex)

end base

/-! ### The chain -/

theorem signedHex_eq (off : Int32) :
    signedHex off = sign off.toInt64 :: 0x30 :: 0x78 :: hexDigits (magnitude off.toInt64) := by
  have h64 : off.toInt64.toInt = off.toInt := Int32.toInt_toInt64 off
  have hlow := Int32.le_toInt off
  have hhigh := Int32.toInt_lt off
  have hmag := magnitude_toNat off.toInt64
  rw [h64] at hmag
  by_cases h : off ≥ 0
  · have hnonneg : 0 ≤ off.toInt := Int32.le_iff_toInt_le.mp h
    have hsign : (0 : Int64) ≤ off.toInt64 := Int64.le_iff_toInt_le.mpr (by rw [h64]; exact hnonneg)
    have hsame : off.toUInt32.toUInt64 = magnitude off.toInt64 := by
      apply UInt64.toNat_inj.mp
      rw [hmag, UInt32.toNat_toUInt64, Int32.toNat_toUInt32_of_le h, ← Int32.toNat_toInt]
      omega
    rw [signedHex, if_pos h, sign, if_pos hsign, hsame]
  · have hneg : ¬ 0 ≤ off.toInt := fun hle => h (Int32.le_iff_toInt_le.mpr hle)
    have hsign : ¬ (0 : Int64) ≤ off.toInt64 := fun hle => hneg (by
      rw [← h64]
      exact Int64.le_iff_toInt_le.mp hle)
    have hsame : (-off.toInt64).toUInt64.toUInt32.toUInt64 = magnitude off.toInt64 := by
      have hneg64 : magnitude off.toInt64 = (-off.toInt64).toUInt64 := if_neg hsign
      apply UInt64.toNat_inj.mp
      rw [UInt32.toNat_toUInt64, UInt64.toNat_toUInt32, ← hneg64]
      omega
    rw [signedHex, if_neg h, sign, if_neg hsign, hsame]

section chain

variable {e : ExpressionParser}

def hexOffset (n : UInt64) : Digits 16 where
  text := hexDigits n
  nonempty := by simpa using hexDigits_ne_nil n
  valid := List.all_eq_true.mpr fun b hb => (hexDigits_token n b hb).1
  fits := by
    have hread : CtFile.readDigits 16 (hexDigits n) = n.toNat :=
      @CtFile.readDigits_digitsText 16 n.toNat (by decide) (by decide)
    rw [hread]
    exact Nat.le_of_lt_succ n.toNat_lt

theorem term_hexOffset (p : Bytes → Option UInt64) (n : UInt64) :
    term e p (0x30 :: 0x78 :: hexDigits n) = some (n, []) := by
  have hn : (Operand.hex false (hexOffset n)).IsNumber := .hex false _
  have hvalue : (hexOffset n).value = n :=
    Option.some.inj ((hexOffset n).number_text.symm.trans (number_hexDigits n))
  have hnamed := named_number e hn.isToken (r := []) nofun (by rw [List.append_nil, hn.plainNumber])
  rw [List.append_nil, hn.resolve, Operand.value, hvalue] at hnamed
  have hfactor : factor e p (0x30 :: 0x78 :: hexDigits n) = some (n, []) :=
    (factor_cons e p (by decide) _).trans hnamed
  rw [term, hfactor]
  rfl

theorem chainText_concat (base : Bytes) (offsets : List Int32) (off : Int32) :
    chainText base (offsets ++ [off]) = 0x5b :: (chainText base offsets ++ 0x5d :: signedHex off) := by
  rw [chainText, chainText, List.length_append, List.length_singleton, List.replicate_succ,
    List.flatMap_append]
  simp

theorem balanced_chainText {base : Bytes} (hbase : Balanced base) (offsets : List Int32) :
    Balanced (chainText base offsets) := by
  induction offsets using List.reverseRecOn with
  | nil =>
    rw [chainText, List.flatMap_nil, List.append_nil]
    exact hbase
  | append_singleton offsets off ih =>
    have hone := brackets_shift ih 1
    have htail : ∀ b ∈ signedHex off, b ≠ 0x5d ∧ b ≠ 0x5b := by
      rw [signedHex_eq]
      intro b hb
      rcases List.mem_cons.mp hb with rfl | hb
      · rcases sign_cases off.toInt64 with h | h <;> rw [h] <;> decide
      · rcases List.mem_cons.mp hb with rfl | hb
        · decide
        · rcases List.mem_cons.mp hb with rfl | hb
          · decide
          · exact ⟨(hexDigits_plain _ b hb).1, (hexDigits_plain _ b hb).2.1⟩
    show brackets 0 _ = some 0
    rw [chainText_concat, brackets, if_pos (by decide), brackets_append, hone]
    exact brackets_plain htail 0

theorem parseImpl_chainText {base : Bytes} {address : UInt64} {offsets : List Int32}
    (hbase : ∀ levels, parseImpl e (levels + 1) base = some address)
    (hbalanced : offsets ≠ [] → Balanced base) {levels : ℕ} (hlevels : offsets.length < levels) :
    parseImpl e levels (chainText base offsets) = followPath e address offsets := by
  induction offsets using List.reverseRecOn generalizing levels with
  | nil =>
    obtain ⟨levels, rfl⟩ := Nat.exists_eq_succ_of_ne_zero (Nat.ne_of_gt hlevels)
    rw [chainText, List.flatMap_nil, List.append_nil]
    exact hbase levels
  | append_singleton offsets off ih =>
    obtain ⟨levels, rfl⟩ := Nat.exists_eq_succ_of_ne_zero (Nat.ne_of_gt (Nat.zero_lt_of_lt hlevels))
    rw [List.length_append, List.length_singleton] at hlevels
    have hbal := hbalanced (by simp)
    have hlast : ∃ b ∈ (0x30 :: 0x78 :: hexDigits (magnitude off.toInt64)).getLast?,
        CtFile.isBlank b = false := by
      obtain ⟨-, b, hb, hblank⟩ := hexDigits_ends (magnitude off.toInt64)
      exact ⟨b, by rw [List.getLast?_cons, List.getLast?_cons, Option.mem_def.mp hb]; rfl, hblank⟩
    rw [chainText_concat, signedHex_eq, parseImpl_offset (balanced_chainText hbal offsets) hlast
      (term_hexOffset _ _), ih (fun _ => hbal) (Nat.lt_of_succ_lt_succ hlevels),
      followPath_concat]

end chain

/-! ### The path -/

def pathBase (target : PointerTarget) (path : PointerPath) : UInt64 :=
  if path.module.isEmpty then 0 else baseOf target.modules path.module

/-- No sum of a path wraps: on a target with pointers of four bytes there is the parser's width, else
`dereference` itself does not go beyond 64 bits. -/
def NoWrap (e : ExpressionParser) (base offset : UInt64) (offsets : List Int32) : Prop :=
  base.toNat + offset.toNat < 2 ^ combineWidth e base offset ∧ StaysIn e (base + offset) offsets

section path

variable {target : PointerTarget} {is64bit : Bool} {path : PointerPath}

theorem baseOf_mem {modules : List ModuleInfo} {name : String} (h : baseOf modules name ≠ 0) :
    ∃ m ∈ modules, m.name = name := by
  rw [baseOf] at h
  split at h
  · next m hm => exact ⟨m, List.mem_of_find?_eq_some hm, by simpa using List.find?_some hm⟩
  · exact absurd rfl h

theorem parseImpl_toString (htext : ByteText path.module) (hdepth : path.offsets.length ≤ kMaxDepth)
    (hname : ReadsBack (parserOf target is64bit) path)
    (hoffset : Unnamed (parserOf target is64bit) path.baseOffset)
    (hloaded : path.module.isEmpty = true ∨ baseOf target.modules path.module ≠ 0) :
    parse (parserOf target is64bit) path.toString = followPath (parserOf target is64bit)
      (startAddress (parserOf target is64bit) (pathBase target path) path.baseOffset)
      path.offsets := by
  refine parseImpl_chainText (fun levels => ?_) (balanced_baseText hname) (Nat.lt_succ_of_le hdepth)
  cases hempty : path.module.isEmpty with
  | true =>
    rw [pathBase, hempty, if_pos rfl]
    exact parseImpl_absolute hempty hoffset
  | false =>
    have hne : baseOf target.modules path.module ≠ 0 := hloaded.resolve_left (by simp [hempty])
    have hlookup : (parserOf target is64bit).lookup (nameBytes path.module)
        = baseOf target.modules path.module := by
      change baseOf target.modules (nameOfBytes (nameBytes path.module)) = _
      rw [nameOfBytes_nameBytes htext]
    obtain ⟨m, hm, heq⟩ := baseOf_mem hne
    have hmem : ∃ m ∈ modules (parserOf target is64bit), m.1 = nameBytes path.module :=
      ⟨_, List.mem_map_of_mem hm, congrArg nameBytes heq⟩
    rw [pathBase, hempty, if_neg Bool.false_ne_true, ← hlookup]
    exact parseImpl_module hname hoffset hempty (hlookup ▸ hne) hmem

/-- A path that `dereference` can follow. -/
theorem dereference_eq (hne : CheatEngine.dereference target target.modules path ≠ 0) :
    (path.module.isEmpty = true ∨ baseOf target.modules path.module ≠ 0) ∧
      (pathBase target path).toNat + path.baseOffset.toNat < 2 ^ 64 ∧
      CheatEngine.dereference target target.modules path
        = target.walkLive (pathBase target path + path.baseOffset) path.offsets := by
  have hbase := (pathBase target path).toNat_lt
  have hmax : (0xFFFFFFFFFFFFFFFF - pathBase target path).toNat
      = 2 ^ 64 - 1 - (pathBase target path).toNat :=
    UInt64.toNat_sub_of_le _ _ (by rw [UInt64.le_iff_toNat_le]; exact Nat.le_of_lt_succ hbase)
  change (if !path.module.isEmpty && pathBase target path = 0 then 0
    else if path.baseOffset > 0xFFFFFFFFFFFFFFFF - pathBase target path then 0
    else target.walkLive (pathBase target path + path.baseOffset) path.offsets) ≠ 0 at hne
  change _ ∧ _ ∧ (if !path.module.isEmpty && pathBase target path = 0 then 0
    else if path.baseOffset > 0xFFFFFFFFFFFFFFFF - pathBase target path then 0
    else target.walkLive (pathBase target path + path.baseOffset) path.offsets) = _
  split at hne
  · exact absurd rfl hne
  · next hloaded =>
    split at hne
    · exact absurd rfl hne
    · next hle =>
      rw [if_neg hloaded, if_neg hle]
      rw [gt_iff_lt, UInt64.lt_iff_toNat_lt, hmax] at hle
      refine ⟨?_, by omega, rfl⟩
      cases hempty : path.module.isEmpty with
      | true => exact Or.inl rfl
      | false =>
        rw [pathBase, hempty] at hloaded
        exact Or.inr (by simpa using hloaded)

theorem startAddress_of_lt {e : ExpressionParser} {base offset : UInt64}
    (hlt : base.toNat + offset.toNat < 2 ^ combineWidth e base offset) :
    startAddress e base offset = base + offset := by
  apply UInt64.toNat_inj.mp
  rw [startAddress, wrap, UInt64.toNat_ofNat', UInt64.toNat_add]
  rcases combineWidth_le e base offset with h | h <;> rw [h] at hlt ⊢ <;> omega

/-- The text of a path evaluates to the walk along the path; that is the address `dereference`
computes where it finds one and no sum wraps, and on a target with pointers of eight bytes none
does. -/
theorem parse_toString (htext : ByteText path.module) (hdepth : path.offsets.length ≤ kMaxDepth)
    (hname : ReadsBack (parserOf target is64bit) path)
    (hoffset : Unnamed (parserOf target is64bit) path.baseOffset) :
    ((path.module.isEmpty = true ∨ baseOf target.modules path.module ≠ 0) →
      parse (parserOf target is64bit) path.toString = followPath (parserOf target is64bit)
        (startAddress (parserOf target is64bit) (pathBase target path) path.baseOffset)
        path.offsets) ∧
    (CheatEngine.dereference target target.modules path ≠ 0 →
      (target.pointerWidth 0 = 4 → NoWrap (parserOf target is64bit) (pathBase target path)
        path.baseOffset path.offsets) →
      parse (parserOf target is64bit) path.toString
        = some (CheatEngine.dereference target target.modules path)) := by
  refine ⟨parseImpl_toString htext hdepth hname hoffset, fun hne hwrap => ?_⟩
  obtain ⟨hloaded, hlt, hwalk⟩ := dereference_eq hne
  rw [hwalk] at hne ⊢
  have hstays : NoWrap (parserOf target is64bit) (pathBase target path) path.baseOffset
      path.offsets := by
    by_cases hwidth : target.pointerWidth 0 = 4
    · exact hwrap hwidth
    · exact ⟨by rwa [combineWidth_wide hwidth], staysIn_of_wide hwidth _ hne⟩
  rw [parseImpl_toString htext hdepth hname hoffset hloaded, startAddress_of_lt hstays.1]
  exact followPath_of_walkLive _ hne hstays.2

end path

/-- A target with the given bytes at the addresses of `slots`. -/
def slotTarget (width : ℕ) (modules : List ModuleInfo) (slots : List (UInt64 × Bytes)) :
    PointerTarget where
  regions := []
  residentRanges := fun _ _ => []
  read := fun address size => ((slots.lookup address).getD []).take size
  pointerWidth := fun _ => width
  byteOrder := fun _ => .little
  modules := modules

/-- The pointer at 0x400010 is 0x5000, the one at 0x5008 is 0x6004. -/
def linkedTarget : PointerTarget :=
  slotTarget 8 [⟨0x400000, 0x1000, "game"⟩]
    [(0x400010, [0, 0x50, 0, 0, 0, 0, 0, 0]), (0x5008, [0x04, 0x60, 0, 0, 0, 0, 0, 0])]

/-- `[[game+10]+0x8]-0x4` -/
theorem parse_linked_path :
    parse (parserOf linkedTarget true) (PointerPath.toString ⟨"game", 0x400000, 0x10, [8, -4]⟩)
      = some 0x6000 := by
  have hname : ReadsBack (parserOf linkedTarget true) ⟨"game", 0x400000, 0x10, [8, -4]⟩ :=
    .bare (by decide +kernel) (by decide +kernel) (by decide +kernel) (by decide +kernel)
      (by decide +kernel)
  have hoffset : Unnamed (parserOf linkedTarget true) 0x10 := fun b hb _ => by
    have hlen : (hexDigits 0x10).length = 1 := by rw [hb, List.length_singleton]
    exact absurd hlen (by decide)
  have hparse := (@parse_toString linkedTarget true ⟨"game", 0x400000, 0x10, [8, -4]⟩ nameText_game
    (by decide) hname hoffset).2 (by decide +kernel) (fun hwidth => absurd hwidth (by decide))
  exact hparse.trans (by decide +kernel)

def nullTarget : PointerTarget := slotTarget 8 [] [(0x20, [0, 0, 0, 0, 0, 0, 0, 0])]
def narrowTarget : PointerTarget := slotTarget 4 [] [(0x20, [0xf0, 0xff, 0xff, 0xff])]

def twoModules (name : String) : PointerTarget :=
  slotTarget 8 [⟨0x400000, 0x1000, "game"⟩, ⟨0x700000, 0x1000, name⟩] []

/-- `dereference` stops at a null pointer and does not wrap at 32 bits; the offset `a` is the module
of that name, and `game+10` is one module. -/
theorem parse_not_dereference :
    (CheatEngine.dereference nullTarget nullTarget.modules ⟨"", 0, 0x20, [8]⟩ = 0 ∧
      parse (parserOf nullTarget true) (PointerPath.toString ⟨"", 0, 0x20, [8]⟩) = some 8) ∧
    (CheatEngine.dereference narrowTarget narrowTarget.modules ⟨"", 0, 0x20, [0x20]⟩
        = 0x100000010 ∧
      parse (parserOf narrowTarget false) (PointerPath.toString ⟨"", 0, 0x20, [0x20]⟩)
        = some 0x10) ∧
    (CheatEngine.dereference (twoModules "a") (twoModules "a").modules ⟨"game", 0x400000, 0xa, []⟩
        = 0x40000a ∧
      parse (parserOf (twoModules "a") true) (PointerPath.toString ⟨"game", 0x400000, 0xa, []⟩)
        = some 0xb00000) ∧
    (CheatEngine.dereference (twoModules "game+10") (twoModules "game+10").modules
        ⟨"game", 0x400000, 0x10, []⟩ = 0x400010 ∧
      parse (parserOf (twoModules "game+10") true)
        (PointerPath.toString ⟨"game", 0x400000, 0x10, []⟩) = some 0x700000) := by
  decide +kernel

end CheatEngine.Expression
