import CheatEngineLinux.Core.TrainerNumbers

/-!
# What a trainer writes

The code that freezes a record is to write what the table writes: the bytes of the value, and in a
directional freeze only where the table says so.

* `Meets`: the code does what the table does.
* `Agrees`: the records for which it does.

* **PROVED `freezeScalar_spec`, `freezeBody_spec`**: what the code is for an integer.
* **PROVED `encode_iff`**: the table writes the bytes of the code, where both read the same number.
* **PROVED `trainer_meets_iff`**: the code does what the table does exactly for these records.
-/

namespace CheatEngine.Trainer

open CtFile (CheatEntry FreezeMode)
open JsonGrammar (Bytes)
open ValueIo (ValueIoOptions IntegerText Fits Target FloatOrder wordValue orderedBytes)
open RecordFile

/-! ### Records -/

/-- The options with which the table reads and writes a record; the width matters for pointers
only. -/
def recordOptions (e : CheatEntry) : ValueIoOptions :=
  { hex := e.showAsHex
    isSigned := e.showAsSigned
    byteOrder := if e.dataByteOrder = .unknown then none else some e.dataByteOrder
    pointerWidthOverride := if e.type = .pointer then some e.pointerWidth.toNat else none }

def recordWidth (e : CheatEntry) : ℕ := ValueIo.widthOf e.type (recordOptions e)

def IntegerRecord (e : CheatEntry) : Prop :=
  ValueIo.isInteger e.type = true ∧ (e.type = .pointer → e.pointerWidth = 4 ∨ e.pointerWidth = 8)

def codeSigned (e : CheatEntry) : Bool :=
  match e.type with
  | .byte => false
  | .pointer => e.pointerWidth != 4
  | _ => true

def tableSigned (e : CheatEntry) : Bool := e.showAsSigned && e.type != .pointer

def TableWrites (conv : ValueIo.Converters) (floats : FloatOrder) (t : Target) (e : CheatEntry) :
    Prop :=
  ValueIo.compareTypedValue conv floats t e.address e.type (asText e.value) (recordOptions e) =
    .ok (if isFloor e.freezeMode then -1 else 1)

/-- The code writes the bytes that the table writes, when it does so.  The target is a process of
the machine that the trainer runs on. -/
structure Meets (conv : ValueIo.Converters) (e : CheatEntry) (b : FreezeBody) (bytes : Bytes) :
    Prop where
  encode : ValueIo.encodeTypedValue conv e.type (asText e.value) (recordOptions e) = .ok bytes
  handed : b.bytes = some bytes
  writes : ∀ floats t, t.byteOrder = .little →
    (e.freezeMode = .normal ∨ TableWrites conv floats t e →
      b.writes t = some [(e.address.toNat, bytes)]) ∧
    (¬(e.freezeMode = .normal ∨ TableWrites conv floats t e) → b.writes t = some [])

/-- The records for which the code does what the table does: both read one number, and in a
directional freeze they compare in one order. -/
structure Agrees (e : CheatEntry) : Prop where
  number : SameNumber e.showAsHex e.value
  order : e.freezeMode ≠ .normal → e.address.toNat + recordWidth e ≤ 2 ^ 64 →
    codeSigned e = tableSigned e

section Record

variable {conv : ValueIo.Converters} {e : CheatEntry}

theorem IntegerRecord.integerType (he : IntegerRecord e) :
    ValueIo.IntegerType e.type (recordOptions e) := by
  refine ⟨he.1, fun htype => ?_⟩
  rw [ValueIo.widthOf, if_pos htype]
  rcases he.2 htype with hw | hw
  · exact Or.inl (by simp [recordOptions, htype, hw])
  · exact Or.inr (by simp [recordOptions, htype, hw])

theorem IntegerRecord.width (he : IntegerRecord e) : ValueCodec.IsWidth (recordWidth e) :=
  he.integerType.width

theorem knownOrder_record (e : CheatEntry) : ValueIo.KnownOrder (recordOptions e) := by
  unfold ValueIo.KnownOrder recordOptions
  cases e.dataByteOrder <;> rfl

theorem bigEndian_record (e : CheatEntry) :
    ValueIo.bigEndianEncoding (recordOptions e) = (e.dataByteOrder == .big) := by
  unfold ValueIo.bigEndianEncoding recordOptions
  cases e.dataByteOrder <;> rfl

/-! ### The code -/

theorem fullySigned_range {s : Bytes} {v : ℤ} (h : fullySigned s = some v) :
    Grouped.strtoll (Grouped.cString s) = some (v, []) ∧ -2 ^ 63 ≤ v ∧ v < 2 ^ 63 := by
  unfold fullySigned at h
  split at h
  · cases h
  · split at h
    · rename_i hstrtoll
      cases h
      exact ⟨hstrtoll, (strtoll_all hstrtoll).2.2.2⟩
    · cases h

theorem inRange_iff {low high v : ℤ} : inRange low high v = true ↔ low ≤ v ∧ v ≤ high := by
  simp [inRange]

theorem freezeScalar_spec (he : IntegerRecord e) {ctype : CType} {literal : Literal} {width : ℕ}
    (h : freezeScalar conv e = some (ctype, literal, width)) :
    ∃ v x, fullySigned e.value = some v ∧ width = recordWidth e ∧ Fits width v ∧
      literal.value = some x ∧ x % 2 ^ (8 * width) = v % 2 ^ (8 * width) ∧
      ctype.isSigned = codeSigned e := by
  have hwide (v : ℤ) (hv : fullySigned e.value = some v) : Fits 8 v := by
    have hrange := (fullySigned_range hv).2
    exact ⟨by simp; omega, by simp; omega⟩
  unfold freezeScalar at h
  unfold codeSigned recordWidth ValueIo.widthOf
  split at h
  · rename_i htype
    obtain ⟨v, hv, h⟩ := Option.bind_eq_some_iff.1 h
    split at h
    · rename_i hrange
      cases h
      rw [inRange_iff] at hrange
      rw [htype]
      refine ⟨v, _, hv, rfl, ⟨by simp; omega, by simp; omega⟩, rfl, ?_, rfl⟩
      simp
      omega
    · cases h
  · rename_i htype
    obtain ⟨v, hv, h⟩ := Option.bind_eq_some_iff.1 h
    split at h
    · rename_i hrange
      cases h
      rw [inRange_iff] at hrange
      rw [htype]
      exact ⟨v, _, hv, rfl, ⟨by simp; omega, by simp; omega⟩, rfl, Int.bmod_emod, rfl⟩
    · cases h
  · rename_i htype
    obtain ⟨v, hv, h⟩ := Option.bind_eq_some_iff.1 h
    split at h
    · rename_i hrange
      cases h
      rw [inRange_iff] at hrange
      rw [htype]
      exact ⟨v, _, hv, rfl, ⟨by simp; omega, by simp; omega⟩, rfl, Int.bmod_emod, rfl⟩
    · cases h
  · rename_i htype
    obtain ⟨v, hv, h⟩ := Option.bind_eq_some_iff.1 h
    cases h
    rw [htype]
    exact ⟨v, v, hv, rfl, hwide v hv, rfl, rfl, rfl⟩
  · rename_i htype
    obtain ⟨v, hv, h⟩ := Option.bind_eq_some_iff.1 h
    rw [htype, if_pos rfl]
    rcases he.2 htype with hfour | height
    · rw [if_pos hfour] at h
      split at h
      · rename_i hrange
        cases h
        rw [inRange_iff] at hrange
        refine ⟨v, _, hv, by simp [recordOptions, htype, hfour],
          ⟨by simp; omega, by simp; omega⟩, rfl, ?_, by simp [CType.isSigned, hfour]⟩
        simp
        omega
      · cases h
    · rw [if_neg (by rw [height]; decide)] at h
      cases h
      exact ⟨v, v, hv, by simp [recordOptions, htype, height], hwide v hv, rfl, rfl,
        by simp [CType.isSigned, height]⟩
  · rename_i htype
    simp [IntegerRecord, htype, ValueIo.isInteger, ValueIo.isIntegerScalar] at he
  · rename_i htype
    simp [IntegerRecord, htype, ValueIo.isInteger, ValueIo.isIntegerScalar] at he
  · cases h

theorem swapLoop_eq {width : ℕ} (hwidth : width = 2 ∨ width = 4 ∨ width = 8) {b : Bytes}
    (hb : b.length = width) : swapLoop width b = b.reverse := by
  rcases hwidth with rfl | rfl | rfl
  · match b, hb with
    | [_, _], _ => rfl
  · match b, hb with
    | [_, _, _, _], _ => rfl
  · match b, hb with
    | [_, _, _, _, _, _, _, _], _ => rfl

def recordBytes (e : CheatEntry) (v : ℤ) : Bytes :=
  orderedBytes (storedBytes (recordWidth e) v) (e.dataByteOrder == .big)

structure CodeOf (e : CheatEntry) (v : ℤ) (b : FreezeBody) : Prop where
  value : fullySigned e.value = some v
  fits : Fits (recordWidth e) v
  width : b.width = recordWidth e
  address : b.address = e.address
  sign : b.ctype.isSigned = codeSigned e
  bytes : b.bytes = some (recordBytes e v)
  normal : e.freezeMode = .normal → ∀ floor, b.store ≠ .guarded floor
  directional : e.freezeMode ≠ .normal →
    e.dataByteOrder ≠ .big ∧ b.store = .guarded (isFloor e.freezeMode)

theorem freezeBody_spec (he : IntegerRecord e) {b : FreezeBody} (hb : freezeBody conv e = some b) :
    ∃ v, CodeOf e v b := by
  obtain ⟨⟨ctype, literal, width⟩, hscalar, hb⟩ := Option.bind_eq_some_iff.1 hb
  obtain ⟨v, x, hv, hw, hfits, hx, hmod, hsign⟩ := freezeScalar_spec he hscalar
  have hisWidth := he.width
  subst hw
  dsimp only at hb
  split at hb
  · cases hb
  · rename_i hboth
    cases hb
    have hstored : storedBytes (recordWidth e) x = storedBytes (recordWidth e) v := by
      rw [storedBytes, hmod, storedBytes]
    refine ⟨v, hv, hfits, rfl, rfl, hsign, ?_, fun hnormal floor => ?_, fun hdirectional => ?_⟩
    · have hreversed : (if ((e.dataByteOrder == .big) && decide (recordWidth e > 1)) = true
          then Store.reversed
          else if (e.freezeMode != .normal) = true then Store.guarded (isFloor e.freezeMode)
          else Store.plain) = Store.reversed ↔ e.dataByteOrder = .big ∧ recordWidth e > 1 := by
        split
        · rename_i h
          exact iff_of_true rfl (by simpa using h)
        · rename_i h
          refine iff_of_false ?_ (by simpa using h)
          split <;> simp
      unfold FreezeBody.bytes
      dsimp only
      rw [hx, Option.map_some, hstored]
      by_cases h : e.dataByteOrder = .big ∧ recordWidth e > 1
      · have hswap : swapLoop (recordWidth e) (storedBytes (recordWidth e) v) =
            (storedBytes (recordWidth e) v).reverse :=
          swapLoop_eq (by rcases hisWidth with hw | hw | hw | hw <;> omega) (leBytes_length ..)
        rw [if_pos (hreversed.2 h), hswap, recordBytes, orderedBytes, if_pos (by rw [h.1]; rfl)]
      · rw [if_neg (fun hstore => h (hreversed.1 hstore)), recordBytes, orderedBytes]
        split
        · rename_i hbig
          have hlen : (storedBytes (recordWidth e) v).length = 1 := by
            have hone : ¬recordWidth e > 1 := fun hone => h ⟨by simpa using hbig, hone⟩
            rw [storedBytes, leBytes_length]
            rcases hisWidth with h | h | h | h <;> omega
          obtain ⟨c, hc⟩ := List.length_eq_one_iff.1 hlen
          rw [hc]
          rfl
        · rfl
    · rw [hnormal]
      simp only [bne_self_eq_false, Bool.false_eq_true, if_false]
      split <;> simp
    · have hflag : (e.freezeMode != FreezeMode.normal) = true := by simpa using hdirectional
      rw [hflag] at hboth ⊢
      have hbig : (e.dataByteOrder == ByteOrder.big) = false := by simpa using hboth
      rw [hbig]
      exact ⟨by simpa using hbig, rfl⟩

/-! ### The table -/

theorem storedBytes_inj {width : ℕ} {v v' : ℤ} :
    storedBytes width v = storedBytes width v' ↔ v % 2 ^ (8 * width) = v' % 2 ^ (8 * width) := by
  have hcast (x : ℤ) : ((x % 2 ^ (8 * width)).toNat : ℤ) = x % 2 ^ (8 * width) :=
    Int.toNat_of_nonneg (Int.emod_nonneg _ (by positivity))
  have hlt (x : ℤ) : (x % 2 ^ (8 * width)).toNat < 256 ^ width := by
    have h := Int.emod_lt_of_pos x (show (0 : ℤ) < 2 ^ (8 * width) by positivity)
    rw [← hcast] at h
    rw [show (256 : ℕ) = 2 ^ 8 from rfl, ← pow_mul]
    exact_mod_cast h
  constructor
  · intro h
    have hnat := congrArg leNat h
    rw [storedBytes, storedBytes, leNat_leBytes _ _ (hlt v), leNat_leBytes _ _ (hlt v')] at hnat
    rw [← hcast v, ← hcast v', hnat]
  · intro h
    rw [storedBytes, h, storedBytes]

theorem orderedBytes_inj {bytes bytes' : Bytes} {big : Bool} :
    orderedBytes bytes big = orderedBytes bytes' big ↔ bytes = bytes' := by
  unfold orderedBytes
  split
  · exact List.reverse_inj
  · exact Iff.rfl

theorem wordBytes_eq_recordBytes (he : IntegerRecord e) {word : UInt64} {v : ℤ}
    (hword : (word.toNat : ℤ) = v % 2 ^ 64) :
    ValueIo.wordBytes word (recordWidth e) (ValueIo.bigEndianEncoding (recordOptions e)) =
      recordBytes e v := by
  have hle : recordWidth e ≤ 8 := by rcases he.width with h | h | h | h <;> omega
  have hlittle : leBytes (recordWidth e) word.toNat = storedBytes (recordWidth e) v := by
    rw [storedBytes, ← ValueIo.emod_of_emod he.width hword, ← ValueIo.leBytes_mod,
      ← ValueIo.two_pow_cast, ← Int.natCast_mod, Int.toNat_natCast,
      show (256 : ℕ) = 2 ^ 8 from rfl, ← pow_mul]
  rw [recordBytes, bigEndian_record, orderedBytes]
  cases e.dataByteOrder == ByteOrder.big with
  | true => rw [ValueIo.wordBytes_big, ValueIo.wordBytes_little hle, hlittle, if_pos rfl]
  | false => rw [ValueIo.wordBytes_little hle, hlittle, if_neg Bool.false_ne_true]

theorem eq_of_emod_eq {width : ℕ} {s : Bytes} {a a' : ℕ}
    (hfits : Fits width (signed s a)) (hfits' : Fits width (signed s a'))
    (hwidth : ValueCodec.IsWidth width)
    (h : signed s a % 2 ^ (8 * width) = signed s a' % 2 ^ (8 * width)) :
    signed s a = signed s a' := by
  unfold signed Fits at *
  generalize isNegative s = negative at *
  cases negative with
  | true =>
    simp only [if_true] at *
    rcases hwidth with rfl | rfl | rfl | rfl <;> simp only [Nat.reduceMul, Nat.reduceSub] at * <;>
      omega
  | false =>
    simp only [Bool.false_eq_true, if_false] at *
    rcases hwidth with rfl | rfl | rfl | rfl <;> simp only [Nat.reduceMul, Nat.reduceSub] at * <;>
      omega

/-- **The table writes the bytes of the code** if and only if both read the same number. -/
theorem encode_iff (he : IntegerRecord e) {v : ℤ} (hv : fullySigned e.value = some v)
    (hfits : Fits (recordWidth e) v) :
    ValueIo.encodeTypedValue conv e.type (asText e.value) (recordOptions e) =
        .ok (recordBytes e v) ↔ SameNumber e.showAsHex e.value := by
  rw [← integerText_iff_sameNumber hv, ValueIo.encode_integer he.integerType (knownOrder_record e),
    ← recordWidth]
  constructor
  · intro h
    cases hbits : ValueIo.integerBits (recordOptions e) (recordWidth e)
      (ValueIo.trim (asText e.value)) with
    | error e =>
      rw [hbits] at h
      cases h
    | ok bits =>
      obtain ⟨v', word, htext, hfits', hword, hstored⟩ :=
        (ValueIo.integerBits_ok_iff he.width (ValueIo.trim_tabs _)).1 hbits
      rw [hbits] at h
      have hbytes := Except.ok.inj h
      rw [show bits = word from hstored] at hbytes
      rw [wordBytes_eq_recordBytes he hword, recordBytes, recordBytes, orderedBytes_inj,
        storedBytes_inj] at hbytes
      have hclean := clean_of_integerText htext
      have hread := (fullySigned_range hv).1
      rw [cString_of_clean hclean] at hread
      have hv' := (integerText_signed hclean hread).1 htext
      have hsigned := (strtoll_all hread).2.2.1
      rw [hv', hsigned] at hbytes
      rw [hsigned] at hfits ⊢
      rw [hv'] at hfits' htext
      rwa [← eq_of_emod_eq hfits' hfits he.width hbytes]
  · intro htext
    have hpos : (0 : ℤ) ≤ v % 2 ^ 64 := Int.emod_nonneg _ (by decide)
    obtain ⟨n, hn⟩ := Int.eq_ofNat_of_zero_le hpos
    have hlt : n < 2 ^ 64 := by
      have := Int.emod_lt_of_pos v (show (0 : ℤ) < 2 ^ 64 by decide)
      omega
    have hword : ((UInt64.ofNat n).toNat : ℤ) = v % 2 ^ 64 := by
      rw [UInt64.toNat_ofNat_of_lt' hlt, hn]
    rw [(ValueIo.integerBits_ok_iff he.width (ValueIo.trim_tabs _)).2
      ⟨v, UInt64.ofNat n, htext, hfits, hword, rfl⟩]
    exact congrArg Except.ok (wordBytes_eq_recordBytes he hword)

/-! ### Directional freezes -/

variable {floats : FloatOrder} {t : Target}

/-- The options of a record that is not big-endian, for a process. -/
def resolvedOptions (e : CheatEntry) (t : Target) : ValueIoOptions :=
  { recordOptions e with
    pointerWidth := (recordOptions e).pointerWidthOverride.getD t.pointerWidth
    byteOrder := some .little }

theorem resolve_record (he : IntegerRecord e) (hbig : e.dataByteOrder ≠ .big)
    (ht : t.byteOrder = .little) :
    ValueIo.resolveTargetOptions t e.type (recordOptions e) = .ok (resolvedOptions e t) := by
  have hwidth : e.type = .pointer → e.pointerWidth.toNat = 4 ∨ e.pointerWidth.toNat = 8 := by
    intro htype
    rcases he.2 htype with hw | hw
    · exact Or.inl (by rw [hw]; rfl)
    · exact Or.inr (by rw [hw]; rfl)
  have horder : (recordOptions e).byteOrder.getD
      (if (recordOptions e).bigEndian then .big else t.byteOrder) = .little := by
    unfold recordOptions
    cases horder : e.dataByteOrder with
    | unknown => simp [ht]
    | little => simp
    | big => exact absurd horder hbig
  have hknown : ValueIo.knownOrder .little = true := rfl
  obtain ⟨hstring, -, hbytes⟩ := he.integerType.not_string
  unfold ValueIo.resolveTargetOptions
  dsimp only
  by_cases htype : e.type = .pointer
  · have hoverride : (recordOptions e).pointerWidthOverride = some e.pointerWidth.toNat :=
      if_pos htype
    rw [hoverride, Option.getD_some, if_neg (by have := hwidth htype; omega),
      if_neg (by have := hwidth htype; omega), if_pos ⟨hbytes, hstring⟩, horder,
      if_pos hknown, resolvedOptions, hoverride, Option.getD_some]
  · have hoverride : (recordOptions e).pointerWidthOverride = none := if_neg htype
    rw [hoverride, if_neg (by simp), if_neg (by simp [htype]), if_pos ⟨hbytes, hstring⟩, horder,
      if_pos hknown, resolvedOptions, hoverride]

theorem widthOf_resolved (e : CheatEntry) (t : Target) :
    ValueIo.widthOf e.type (resolvedOptions e t) = recordWidth e := by
  unfold recordWidth ValueIo.widthOf
  by_cases htype : e.type = .pointer
  · have hoverride : (recordOptions e).pointerWidthOverride = some e.pointerWidth.toNat :=
      if_pos htype
    rw [if_pos htype, if_pos htype, hoverride]
    change (recordOptions e).pointerWidthOverride.getD _ = _
    rw [hoverride]
    rfl
  · rw [if_neg htype, if_neg htype]

theorem integerType_resolved (he : IntegerRecord e) :
    ValueIo.IntegerType e.type (resolvedOptions e t) := by
  refine ⟨he.1, fun htype => ?_⟩
  rw [widthOf_resolved e t]
  exact he.integerType.2 htype

theorem encode_resolved (he : IntegerRecord e) (hbig : e.dataByteOrder ≠ .big)
    (value : List Char) : ValueIo.encodeTypedValue conv e.type value (resolvedOptions e t) =
      ValueIo.encodeTypedValue conv e.type value (recordOptions e) := by
  have hflag : (e.dataByteOrder == ByteOrder.big) = false := by simpa using hbig
  rw [ValueIo.encode_integer (integerType_resolved he) rfl, widthOf_resolved e t,
    ValueIo.encode_integer he.integerType (knownOrder_record e), bigEndian_record, hflag]
  rfl

/-- A value is on the wrong side of the frozen one. -/
def Passed (isSigned below : Bool) (width cur frozen : ℕ) : Prop :=
  if below then wordValue isSigned width cur < wordValue isSigned width frozen
  else wordValue isSigned width cur > wordValue isSigned width frozen

theorem tableWrites_iff (he : IntegerRecord e) (hbig : e.dataByteOrder ≠ .big)
    (ht : t.byteOrder = .little) {v : ℤ}
    (hencode : ValueIo.encodeTypedValue conv e.type (asText e.value) (recordOptions e) =
      .ok (recordBytes e v)) :
    TableWrites conv floats t e ↔ ∃ cur, t.read e.address.toNat (recordWidth e) = some cur ∧
      Passed (tableSigned e) (isFloor e.freezeMode) (recordWidth e) (leNat cur)
        (leNat (recordBytes e v)) := by
  have hresolved := resolve_record he hbig ht
  have hlength : (recordBytes e v).length = ValueIo.widthOf e.type (resolvedOptions e t) := by
    rw [widthOf_resolved, recordBytes, orderedBytes]
    split <;> simp [storedBytes]
  unfold TableWrites
  cases hread : t.read e.address.toNat (recordWidth e) with
  | none =>
    rw [← widthOf_resolved e t] at hread
    exact iff_of_false (ValueIo.compare_unread hresolved hread) (by simp)
  | some cur =>
    rw [ValueIo.compare_integer hresolved (integerType_resolved he) rfl
      ((encode_resolved he hbig _).trans hencode) hlength (by rw [widthOf_resolved, hread]),
      widthOf_resolved, Except.ok.injEq, ValueIo.compareNumbers_eq_iff]
    simp only [Option.some.injEq, exists_eq_left']
    exact Iff.rfl

theorem comes_iff {v : ℤ} {b : FreezeBody} (hb : CodeOf e v b) (hmode : e.freezeMode ≠ .normal)
    {bytes : Bytes} : b.comes t bytes = true ↔
      ∃ cur, t.read e.address.toNat (recordWidth e) = some cur ∧
        Passed (codeSigned e) (isFloor e.freezeMode) (recordWidth e) (leNat cur) (leNat bytes) := by
  unfold FreezeBody.comes
  rw [(hb.directional hmode).2, hb.width, hb.address, hb.sign]
  dsimp only
  cases t.read e.address.toNat (recordWidth e) with
  | none => simp
  | some cur =>
    simp only [Option.some.injEq, exists_eq_left', Passed]
    split <;> simp

theorem writes_eq {v : ℤ} {b : FreezeBody} (hb : CodeOf e v b) :
    b.writes t = some (if b.comes t (recordBytes e v) then
      [(e.address.toNat, recordBytes e v)] else []) := by
  rw [FreezeBody.writes, hb.bytes, Option.map_some, hb.address]

theorem comes_normal {v : ℤ} {b : FreezeBody} (hb : CodeOf e v b) (hmode : e.freezeMode = .normal)
    (bytes : Bytes) : b.comes t bytes = true := by
  have hplain := hb.normal hmode
  unfold FreezeBody.comes
  cases hstore : b.store with
  | guarded floor => exact absurd hstore (hplain floor)
  | plain => rfl
  | reversed => rfl

theorem meets_of_agrees (he : IntegerRecord e) {v : ℤ} {b : FreezeBody} (hb : CodeOf e v b)
    (h : Agrees e) : Meets conv e b (recordBytes e v) := by
  have hencode : ValueIo.encodeTypedValue conv e.type (asText e.value) (recordOptions e) =
      .ok (recordBytes e v) := (encode_iff he hb.value hb.fits).2 h.number
  refine ⟨hencode, hb.bytes, fun floats t ht => ?_⟩
  rw [writes_eq hb]
  by_cases hmode : e.freezeMode = .normal
  · rw [if_pos (comes_normal hb hmode _)]
    exact ⟨fun _ => rfl, fun hno => absurd (Or.inl hmode) hno⟩
  · have hsame : b.comes t (recordBytes e v) = true ↔ TableWrites conv floats t e := by
      rw [comes_iff hb hmode, tableWrites_iff he (hb.directional hmode).1 ht hencode]
      refine exists_congr fun cur => and_congr_right fun hread => ?_
      rw [h.order hmode (t.read_range hread)]
    constructor
    · rintro (hnormal | hwrites)
      · exact absurd hnormal hmode
      · rw [if_pos (hsame.2 hwrites)]
    · intro hno
      rw [if_neg fun hcomes => hno (Or.inr (hsame.1 hcomes))]

theorem exists_order_differs {width : ℕ} (hwidth : ValueCodec.IsWidth width) {n : ℕ}
    (hn : n < 2 ^ (8 * width)) : ∃ c < 2 ^ (8 * width), ∀ below,
      Passed true below width c n ↔ ¬Passed false below width c n := by
  refine ⟨if n < 2 ^ (8 * width - 1) then 2 ^ (8 * width) - 1 else 0, ?_, fun below => ?_⟩
  · rcases hwidth with rfl | rfl | rfl | rfl <;> split <;> simp
  · unfold Passed wordValue
    simp only [if_true, Bool.false_eq_true, if_false, Int.bmod_def]
    rcases hwidth with rfl | rfl | rfl | rfl <;> simp at hn ⊢ <;> cases below <;> split <;>
      simp <;> omega

/-- A process in which one range can be read. -/
def oneRead (address width : ℕ) (cur : Bytes) (hlength : cur.length = width)
    (hrange : address + width ≤ 2 ^ 64) : Target where
  pointerWidth := 8
  byteOrder := .little
  read a n := if a = address ∧ n = width then some cur else none
  length_read h := by
    split at h
    · rename_i hsame
      cases h
      rw [hlength, hsame.2]
    · cases h
  read_range h := by
    split at h
    · rename_i hsame
      rwa [hsame.1, hsame.2]
    · cases h

theorem agrees_of_meets (he : IntegerRecord e) {v : ℤ} {b : FreezeBody} (hb : CodeOf e v b)
    {bytes : Bytes} (h : Meets conv e b bytes) : Agrees e := by
  obtain rfl : recordBytes e v = bytes := Option.some.inj (hb.bytes.symm.trans h.handed)
  refine ⟨(encode_iff he hb.value hb.fits).1 h.encode, fun hmode hrange => ?_⟩
  by_contra hne
  have hlength : (recordBytes e v).length = recordWidth e := by
    rw [recordBytes, orderedBytes]
    split <;> simp [storedBytes]
  have hlt := leNat_lt (recordBytes e v)
  rw [hlength, show (256 : ℕ) = 2 ^ 8 from rfl, ← pow_mul] at hlt
  obtain ⟨c, hc, hdiffers⟩ := exists_order_differs he.width hlt
  have hcLength : (leBytes (recordWidth e) c).length = recordWidth e := leBytes_length ..
  have hcNat : leNat (leBytes (recordWidth e) c) = c :=
    leNat_leBytes _ _ (by rwa [show (256 : ℕ) = 2 ^ 8 from rfl, ← pow_mul])
  obtain ⟨hyes, hno⟩ := h.writes (fun _ _ _ => 0)
    (oneRead e.address.toNat (recordWidth e) (leBytes (recordWidth e) c) hcLength hrange) rfl
  have hone (P : Bytes → Prop) : (∃ cur, (oneRead e.address.toNat (recordWidth e)
      (leBytes (recordWidth e) c) hcLength hrange).read e.address.toNat (recordWidth e) =
        some cur ∧ P cur) ↔ P (leBytes (recordWidth e) c) := by
    simp [oneRead]
  rw [tableWrites_iff he (hb.directional hmode).1 rfl h.encode, hone, hcNat,
    writes_eq hb] at hyes hno
  have hcomes := @comes_iff e (oneRead e.address.toNat (recordWidth e)
    (leBytes (recordWidth e) c) hcLength hrange) v b hb hmode (recordBytes e v)
  rw [hone, hcNat] at hcomes
  have hopposite : Passed (codeSigned e) (isFloor e.freezeMode) (recordWidth e) c
      (leNat (recordBytes e v)) ↔ ¬Passed (tableSigned e) (isFloor e.freezeMode) (recordWidth e) c
        (leNat (recordBytes e v)) := by
    have hd := hdiffers (isFloor e.freezeMode)
    cases hcode : codeSigned e <;> cases htable : tableSigned e
    · exact absurd (hcode.trans htable.symm) hne
    · rw [hd, not_not]
    · exact hd
    · exact absurd (hcode.trans htable.symm) hne
  by_cases htable : Passed (tableSigned e) (isFloor e.freezeMode) (recordWidth e) c
      (leNat (recordBytes e v))
  · have hwrites := hyes (Or.inr htable)
    rw [if_neg fun hc => hopposite.1 (hcomes.1 hc) htable] at hwrites
    cases hwrites
  · have hwrites := hno fun h => h.elim hmode htable
    rw [if_pos (hcomes.2 (hopposite.2 htable))] at hwrites
    cases hwrites

end Record

/-- **A trainer writes what the table writes** for exactly the records that agree. -/
theorem trainer_meets_iff (conv : ValueIo.Converters) {e : CheatEntry} (he : IntegerRecord e)
    {code : Bytes} (h : freezeWriteBody conv e = some code) :
    ∃ b, freezeBody conv e = some b ∧ code = b.text ∧
      ((∃ bytes, Meets conv e b bytes) ↔ Agrees e) := by
  obtain ⟨b, hb, rfl⟩ := Option.map_eq_some_iff.1 h
  obtain ⟨v, hcode⟩ := freezeBody_spec he hb
  exact ⟨b, hb, rfl, fun ⟨_, hmeets⟩ => agrees_of_meets he hcode hmeets,
    fun hagrees => ⟨_, meets_of_agrees he hcode hagrees⟩⟩

/-- A record whose value is `50`, an increase-only freeze of an `int32_t`. -/
def floorRecord : CheatEntry :=
  { address := 0x3020, value := CtFile.lit "50", freezeMode := .increaseOnly }

theorem floorRecord_agrees : Agrees floorRecord :=
  ⟨⟨by unfold Clean; decide +kernel, Or.inr (Or.inl ⟨rfl, by decide⟩)⟩, fun _ _ => rfl⟩

theorem floorRecord_meets : ∃ b, freezeBody ValueIo.integerConverters floorRecord = some b ∧
    CtFile.lit ("int32_t v = 50; int32_t cur; if (rpm((void*)0x3020, &cur, 4) && cur < v) " ++
      "wpm((void*)0x3020, &v, 4);") = b.text ∧
    ∃ bytes, Meets ValueIo.integerConverters floorRecord b bytes := by
  have hcode : freezeWriteBody ValueIo.integerConverters floorRecord = some (CtFile.lit
      ("int32_t v = 50; int32_t cur; if (rpm((void*)0x3020, &cur, 4) && cur < v) " ++
        "wpm((void*)0x3020, &v, 4);")) := by decide +kernel
  obtain ⟨b, hb, htext, hiff⟩ := trainer_meets_iff ValueIo.integerConverters
    (show IntegerRecord floorRecord from ⟨rfl, nofun⟩) hcode
  exact ⟨b, hb, htext, hiff.2 floorRecord_agrees⟩

/-- A record whose value is `010`: 8 for the trainer, 10 for the table. -/
def octalRecord : CheatEntry := { address := 0x1000, value := CtFile.lit "010" }

theorem not_trainer_meets : ¬∀ (conv : ValueIo.Converters) (e : CheatEntry) (b : FreezeBody),
    trainerWritable e = true → IntegerRecord e → freezeBody conv e = some b →
      ∃ bytes, Meets conv e b bytes := by
  intro h
  have he : IntegerRecord octalRecord := ⟨rfl, nofun⟩
  have hbody : freezeBody ValueIo.integerConverters octalRecord =
      some ⟨.int32, .int 8, 4, 0x1000, .plain⟩ := by decide
  obtain ⟨v, hcode⟩ := freezeBody_spec he hbody
  obtain ⟨bytes, hmeets⟩ := h ValueIo.integerConverters octalRecord _ rfl he hbody
  rcases (agrees_of_meets he hcode hmeets).number.base with hmark | ⟨-, hhead⟩ | hzeros
  · exact absurd hmark (by decide)
  · exact hhead rfl
  · exact absurd (hzeros 0x31 (by decide)) (by decide)

end CheatEngine.Trainer
