import CheatEngineLinux.Core.Trainer

/-!
# The numbers of a trainer and of a table

The generator of trainers reads a number with `strtoll`, in the base that it is written in; the
table reads it with `parseIntegerScalar`, in the base that it is displayed in.

* `SameNumber`: the texts for which the two agree.

* **PROVED `strtoll_all`**: what `strtoll` reads to the end of a text.
* **PROVED `readDigits_eq_iff`**: digits denote one number in two bases if only the last one counts.
* **PROVED `integerText_iff_sameNumber`**: where the table reads the number of the trainer.
-/

namespace CheatEngine.Trainer

open CtFile (charDigit readDigits detectBase)
open JsonGrammar (Bytes)
open ValueIo (IntegerText splitSign splitMark)
open Numerals

/-! ### `strtoll` -/

/-- A number after its blanks and its sign. -/
def numeral (s : Bytes) : Bytes :=
  let s := s.dropWhile CtFile.isSpace
  if s.head? = some 0x2d ∨ s.head? = some 0x2b then s.tail else s

def isNegative (s : Bytes) : Bool := (s.dropWhile CtFile.isSpace).head? == some 0x2d

def signed (s : Bytes) (n : ℕ) : ℤ := if isNegative s then -(n : ℤ) else n

theorem strtoll_all {s : Bytes} {v : ℤ} (h : Grouped.strtoll s = some (v, [])) :
    (detectBase (numeral s)).2 ≠ [] ∧
      (∀ c ∈ (detectBase (numeral s)).2, charDigit c < (detectBase (numeral s)).1) ∧
      v = signed s (readDigits (detectBase (numeral s)).1 (detectBase (numeral s)).2) ∧
      -2 ^ 63 ≤ v ∧ v < 2 ^ 63 := by
  have hnumeral : (if (isNegative s || (s.dropWhile CtFile.isSpace).head? == some 0x2b) = true
      then (s.dropWhile CtFile.isSpace).tail else s.dropWhile CtFile.isSpace) = numeral s := by
    simp only [isNegative, numeral, Bool.or_eq_true, beq_iff_eq]
  unfold Grouped.strtoll Grouped.scanInteger at h
  dsimp only at h
  rw [show ((s.dropWhile CtFile.isSpace).head? == some 0x2d) = isNegative s from rfl, hnumeral] at h
  split at h
  · cases h
  · rename_i negative magnitude rest hscan
    split at hscan
    · cases hscan
    · rename_i hne
      cases hscan
      change (if -2 ^ 63 ≤ signed s _ ∧ signed s _ < 2 ^ 63 then some (signed s _, _) else none) =
        _ at h
      split at h
      · rename_i hrange
        obtain ⟨rfl, hrest⟩ := Prod.mk.inj (Option.some.inj h)
        have hall : (detectBase (numeral s)).2.takeWhile
            (fun b => decide (charDigit b < (detectBase (numeral s)).1)) =
              (detectBase (numeral s)).2 := by
          refine (List.takeWhile_prefix _).eq_of_length_le ?_
          exact List.drop_eq_nil_iff.1 hrest
        rw [hall] at hne hrange ⊢
        refine ⟨by simpa using hne, fun c hc => ?_, rfl, hrange⟩
        exact of_decide_eq_true (List.takeWhile_eq_self_iff.1 hall c hc)
      · cases h

/-! ### Digits -/

theorem charDigit_eq_zero {c : UInt8} : charDigit c = 0 ↔ c = 0x30 := by
  constructor
  · intro h
    unfold charDigit at h
    simp only [Bool.and_eq_true, decide_eq_true_eq, UInt8.le_iff_toNat_le, UInt8.reduceToNat] at h
    refine UInt8.toNat_inj.1 ?_
    change c.toNat = 0x30
    split at h
    · omega
    · split at h
      · omega
      · split at h <;> omega
  · rintro rfl
    rfl

theorem digitValue_char {c : UInt8} {d : ℕ} (h : charDigit c = d) (hd : d < 16) :
    digitValue (Char.ofNat c.toNat) = some d := by
  have hall : ∀ n < 256, charDigit (UInt8.ofNat n) < 16 →
      digitValue (Char.ofNat n) = some (charDigit (UInt8.ofNat n)) := by decide +kernel
  have hc := hall c.toNat c.toNat_lt
  rw [UInt8.ofNat_toNat, h] at hc
  exact hc hd

theorem readDigits_le {base base' : ℕ} (h : base ≤ base') (s : Bytes) :
    readDigits base s ≤ readDigits base' s := by
  induction s using List.reverseRecOn with
  | nil => exact Nat.le_refl _
  | append_singleton s b ih =>
    rw [CtFile.readDigits_snoc, CtFile.readDigits_snoc]
    exact Nat.add_le_add_right (Nat.mul_le_mul ih h) _

theorem readDigits_eq_zero {base : ℕ} (hbase : 0 < base) {s : Bytes} :
    readDigits base s = 0 ↔ ∀ c ∈ s, c = 0x30 := by
  induction s using List.reverseRecOn with
  | nil => simp [CtFile.readDigits_nil]
  | append_singleton s b ih =>
    rw [CtFile.readDigits_snoc, Nat.add_eq_zero_iff, Nat.mul_eq_zero, charDigit_eq_zero,
      List.forall_mem_append, List.forall_mem_singleton, ih]
    simp [hbase.ne']

theorem readDigits_eq_iff {base base' : ℕ} (hbase : 0 < base) (h : base < base') {s : Bytes} :
    readDigits base s = readDigits base' s ↔ ∀ c ∈ s.dropLast, c = 0x30 := by
  induction s using List.reverseRecOn with
  | nil => simp [CtFile.readDigits_nil]
  | append_singleton s b _ =>
    rw [CtFile.readDigits_snoc, CtFile.readDigits_snoc, List.dropLast_concat,
      Nat.add_right_cancel_iff]
    have hle := readDigits_le h.le s
    constructor
    · intro heq
      refine (readDigits_eq_zero hbase).1 (Nat.eq_zero_of_not_pos fun hpos => ?_)
      have hlt : readDigits base s * base < readDigits base' s * base' :=
        Nat.mul_lt_mul_of_le_of_lt hle h (hpos.trans_le hle)
      omega
    · intro hzero
      rw [(readDigits_eq_zero hbase).2 hzero, (readDigits_eq_zero (hbase.trans h)).2 hzero,
        Nat.zero_mul, Nat.zero_mul]

theorem value_asText {base : ℕ} (hbase : base ≤ 16) {s : Bytes} (h : ∀ c ∈ s, charDigit c < base) :
    value base (asText s) = readDigits base s ∧ IsDigits base (asText s) := by
  constructor
  · induction s using List.reverseRecOn with
    | nil => rfl
    | append_singleton s b ih =>
      rw [List.forall_mem_append, List.forall_mem_singleton] at h
      rw [CtFile.readDigits_snoc, ← ih h.1, asText, List.map_append, value, valueFrom,
        List.foldl_append]
      change _ * base + (digitValue (Char.ofNat b.toNat)).getD 0 = _
      rw [digitValue_char rfl (by omega)]
      rfl
  · intro c hc
    obtain ⟨b, hb, rfl⟩ := List.mem_map.1 hc
    exact ⟨_, digitValue_char rfl (by have := h b hb; omega), h b hb⟩

/-! ### The table -/

theorem char_toNat (c : UInt8) : (Char.ofNat c.toNat).toNat = c.toNat := by
  have hall : ∀ n < 256, (Char.ofNat n).toNat = n := by decide +kernel
  exact hall c.toNat c.toNat_lt

theorem char_inj {c d : UInt8} : Char.ofNat c.toNat = Char.ofNat d.toNat ↔ c = d := by
  refine ⟨fun h => UInt8.toNat_inj.1 ?_, fun h => by rw [h]⟩
  rw [← char_toNat c, h, char_toNat]

/-- No NUL, and no blank that the table does not trim. -/
def Clean (s : Bytes) : Prop := ∀ c ∈ s, c ≠ 0 ∧ c ≠ 0x0b ∧ c ≠ 0x0c

def tableBase (hex : Bool) (n : Bytes) : ℕ :=
  if (detectBase n).1 = 16 ∨ hex = true then 16 else 10

/-- A number whose digits mean the same for the trainer and for the table: a hexadecimal one, one in
decimal that is shown so, or one with no digit that counts but the last. -/
def SameBase (hex : Bool) (n : Bytes) : Prop :=
  (n.take 2 = CtFile.lit "0x" ∨ n.take 2 = CtFile.lit "0X") ∨
    (hex = false ∧ n.head? ≠ some 0x30) ∨ ∀ c ∈ n.dropLast, c = 0x30

/-- The texts that both read as the same number, where the trainer reads them. -/
structure SameNumber (hex : Bool) (s : Bytes) : Prop where
  clean : Clean s
  base : SameBase hex (numeral s)

theorem cString_of_clean {s : Bytes} (h : Clean s) : Grouped.cString s = s :=
  List.takeWhile_eq_self_iff.2 fun c hc => by simpa using (h c hc).1

theorem integerText_chars {hex : Bool} {t : List Char} {v : ℤ} (h : IntegerText hex t v) :
    ∀ c ∈ t, c ≠ '\x00' ∧ c ≠ '\x0b' ∧ c ≠ '\x0c' := by
  have hplain : ∀ base ds, IsDigits base ds → ∀ c ∈ ds, c ≠ '\x00' ∧ c ≠ '\x0b' ∧ c ≠ '\x0c' := by
    intro base ds hds c hc
    obtain ⟨d, hd, -⟩ := hds c hc
    refine ⟨?_, ?_, ?_⟩ <;> rintro rfl <;> cases hd
  obtain ⟨hsign, hmark, -, hdigits⟩ := h
  intro c hc
  rcases List.mem_append.1 hc with hc | hc
  · rcases hsign with ⟨rfl, -⟩ | ⟨rfl | rfl, -⟩
    · rw [List.mem_singleton.1 hc]
      decide
    · cases hc
    · rw [List.mem_singleton.1 hc]
      decide
  · rcases List.mem_append.1 hc with hc | hc
    · rcases hmark with ⟨rfl, -⟩ | ⟨rfl | rfl, -⟩
      · cases hc
      · rcases List.mem_pair.1 hc with rfl | rfl <;> decide
      · rcases List.mem_pair.1 hc with rfl | rfl <;> decide
    · exact hplain _ _ hdigits c hc

theorem mem_trim {s : List Char} {c : Char} (hc : c ∈ s)
    (h : AutoAssembler.isBlank c = false) : c ∈ ValueIo.trim s := by
  obtain ⟨before, after, hbefore, hafter, hs⟩ := Slices.trim_split AutoAssembler.isBlank s
  rw [hs] at hc
  rcases List.mem_append.1 hc with hc | hc
  · rw [hbefore c hc] at h
    cases h
  · rcases List.mem_append.1 hc with hc | hc
    · exact hc
    · rw [hafter c hc] at h
      cases h

theorem clean_of_integerText {hex : Bool} {s : Bytes} {v : ℤ}
    (h : IntegerText hex (ValueIo.trim (asText s)) v) : Clean s := by
  have hchars := integerText_chars h
  have hout (d : UInt8) (hd : AutoAssembler.isBlank (Char.ofNat d.toNat) = false)
      (hbad : ∀ c ∈ ValueIo.trim (asText s), c ≠ Char.ofNat d.toNat) : ∀ c ∈ s, c ≠ d := by
    rintro c hc rfl
    exact hbad _ (mem_trim (List.mem_map_of_mem hc) hd) rfl
  intro c hc
  exact ⟨hout 0 rfl (fun c hc => (hchars c hc).1) c hc,
    hout 0x0b rfl (fun c hc => (hchars c hc).2.1) c hc,
    hout 0x0c rfl (fun c hc => (hchars c hc).2.2) c hc⟩

theorem detectBase_cases (n : Bytes) :
    ((detectBase n).1 = 16 ∧ ∃ x, (x = 0x78 ∨ x = 0x58) ∧ n = 0x30 :: x :: (detectBase n).2) ∨
    ((detectBase n).1 = 8 ∧ (detectBase n).2 = n ∧ n.head? = some 0x30) ∨
    ((detectBase n).1 = 10 ∧ (detectBase n).2 = n ∧ n.head? ≠ some 0x30) := by
  unfold detectBase
  split
  · split
    · rename_i x d rest hmark
      simp only [Bool.and_eq_true, Bool.or_eq_true, beq_iff_eq] at hmark
      exact Or.inl ⟨rfl, x, hmark.1, rfl⟩
    · exact Or.inr (Or.inl ⟨rfl, rfl, rfl⟩)
  · exact Or.inr (Or.inl ⟨rfl, rfl, rfl⟩)
  · rename_i hne
    refine Or.inr (Or.inr ⟨rfl, rfl, fun hhead => ?_⟩)
    obtain ⟨rest, hrest⟩ := List.head?_eq_some_iff.1 hhead
    exact hne rest hrest

theorem splitSign_asText (s : Bytes) : ValueIo.splitSign (asText (s.dropWhile CtFile.isSpace)) =
    (isNegative s, asText (numeral s)) := by
  unfold isNegative numeral
  generalize s.dropWhile CtFile.isSpace = u
  cases u with
  | nil => rfl
  | cons c rest =>
    by_cases hminus : c = 0x2d
    · subst hminus
      rfl
    · by_cases hplus : c = 0x2b
      · subst hplus
        rfl
      · have hrest := @ValueIo.splitSign_append false [] (asText (c :: rest))
          (Or.inr ⟨Or.inl rfl, rfl⟩) fun d hd => by
            obtain rfl : Char.ofNat c.toNat = d := Option.some.inj hd
            exact ⟨fun h => hminus (char_inj.1 h), fun h => hplus (char_inj.1 h)⟩
        rw [List.nil_append] at hrest
        simp only [hrest, List.head?_cons, Option.some.injEq, hminus, hplus, or_self, if_false]
        rw [show (some c == some 0x2d) = false by simpa using hminus]

variable {hex : Bool}

theorem splitMark_asText {n : Bytes}
    (hdigits : ∀ c ∈ (detectBase n).2, charDigit c < (detectBase n).1) :
    splitMark hex (asText n) = (tableBase hex n, asText (detectBase n).2) := by
  have hplain (hten : (detectBase n).1 ≤ 10) (hn : (detectBase n).2 = n) :
      splitMark hex (asText n) = (tableBase hex n, asText (detectBase n).2) := by
    have hdecimal := (@value_asText (if hex then 16 else 10) (by split <;> omega) n fun c hc => by
      have hlt := hdigits c (by rwa [hn])
      split <;> omega).2
    have hmark := @ValueIo.splitMark_append hex _ _ _ (Or.inl ⟨rfl, rfl⟩) hdecimal
    rw [List.nil_append] at hmark
    rw [hmark, hn, tableBase]
    simp only [show (detectBase n).1 ≠ 16 by omega, false_or]
  rcases detectBase_cases n with ⟨hbase, x, hx, hn⟩ | ⟨hbase, hn, -⟩ | ⟨hbase, hn, -⟩
  · rw [tableBase, if_pos (Or.inl hbase)]
    generalize (detectBase n).2 = ds at hn ⊢
    rcases hx with rfl | rfl <;> rw [hn] <;> rfl
  · exact hplain (by omega) hn
  · exact hplain (by omega) hn

theorem readDigits_eq_iff_sameBase {n : Bytes}
    (hdigits : ∀ c ∈ (detectBase n).2, charDigit c < (detectBase n).1) :
    readDigits (detectBase n).1 (detectBase n).2 =
      readDigits (tableBase hex n) (detectBase n).2 ↔ SameBase hex n := by
  have hmarked (hten : (detectBase n).1 ≤ 10) (hn : (detectBase n).2 = n) :
      ¬(n.take 2 = CtFile.lit "0x" ∨ n.take 2 = CtFile.lit "0X") := by
    rw [hn] at hdigits
    have hsecond (x : UInt8) (hx : 10 ≤ charDigit x) (h : n.take 2 = [0x30, x]) : False := by
      have hmem : x ∈ n := List.mem_of_mem_take (h ▸ List.mem_pair.2 (Or.inr rfl))
      exact absurd (hdigits x hmem) (by omega)
    rintro (h | h)
    · exact hsecond 0x78 (by decide) h
    · exact hsecond 0x58 (by decide) h
  unfold SameBase tableBase
  rcases detectBase_cases n with ⟨hbase, x, hx, hn⟩ | ⟨hbase, hn, hhead⟩ | ⟨hbase, hn, hhead⟩
  · rw [hbase, if_pos (Or.inl rfl)]
    refine iff_of_true rfl (Or.inl ?_)
    rw [hn]
    rcases hx with rfl | rfl
    · exact Or.inl rfl
    · exact Or.inr rfl
  · have hlt : (detectBase n).1 < if (detectBase n).1 = 16 ∨ hex = true then 16 else 10 := by
      split <;> omega
    rw [readDigits_eq_iff (by omega) hlt, hn]
    simp [hmarked (by omega) hn, hhead]
  · cases hex with
    | false => simp [hbase, hhead]
    | true =>
      rw [if_pos (Or.inr rfl), readDigits_eq_iff (by omega) (by omega), hn]
      simp [hmarked (by omega) hn]

section Number

variable {s : Bytes} {v : ℤ}

theorem signed_inj {a b : ℕ} : signed s a = signed s b ↔ a = b := by
  unfold signed
  split <;> omega

theorem not_blank_of_charDigit {c : UInt8} (h : charDigit c < 36) :
    AutoAssembler.isBlank (Char.ofNat c.toNat) = false := by
  have hall : ∀ n < 256, charDigit (UInt8.ofNat n) < 36 →
      AutoAssembler.isBlank (Char.ofNat n) = false := by decide +kernel
  have hc := hall c.toNat c.toNat_lt
  rw [UInt8.ofNat_toNat] at hc
  exact hc h

theorem isBlank_of_isSpace {c : UInt8} (h : CtFile.isSpace c = true) (hc : c ≠ 0x0b ∧ c ≠ 0x0c) :
    AutoAssembler.isBlank (Char.ofNat c.toNat) = true := by
  have hall : ∀ n < 256, CtFile.isSpace (UInt8.ofNat n) = true →
      UInt8.ofNat n ≠ 0x0b ∧ UInt8.ofNat n ≠ 0x0c →
        AutoAssembler.isBlank (Char.ofNat n) = true := by decide +kernel
  have hb := hall c.toNat c.toNat_lt
  rw [UInt8.ofNat_toNat] at hb
  exact hb h hc

/-- The table trims the blanks that `strtoll` skips, and nothing else. -/
theorem trim_asText (hclean : Clean s)
    (hdigits : ∀ c ∈ (detectBase (numeral s)).2, charDigit c < (detectBase (numeral s)).1) :
    ValueIo.trim (asText s) = asText (s.dropWhile CtFile.isSpace) := by
  have hnumeral : ∀ c ∈ numeral s, charDigit c < 36 := by
    rcases detectBase_cases (numeral s) with ⟨hbase, x, hx, hn⟩ | ⟨hbase, hn, -⟩ | ⟨hbase, hn, -⟩
    · intro c hc
      rw [hn] at hc
      rcases List.mem_cons.1 hc with rfl | hc
      · decide
      · rcases List.mem_cons.1 hc with rfl | hc
        · rcases hx with rfl | rfl <;> decide
        · have := hdigits c hc
          omega
    · intro c hc
      have := hdigits c (by rwa [hn])
      omega
    · intro c hc
      have := hdigits c (by rwa [hn])
      omega
  have hcore : ∀ c ∈ asText (s.dropWhile CtFile.isSpace), AutoAssembler.isBlank c = false := by
    intro c hc
    obtain ⟨d, hd, rfl⟩ := List.mem_map.1 hc
    unfold numeral at hnumeral
    generalize s.dropWhile CtFile.isSpace = u at hd hnumeral
    dsimp only at hnumeral
    split at hnumeral
    · rename_i hsign
      cases u with
      | nil => cases hd
      | cons x rest =>
        rcases List.mem_cons.1 hd with rfl | hd
        · rw [List.head?_cons, Option.some.injEq, Option.some.injEq] at hsign
          rcases hsign with rfl | rfl <;> rfl
        · exact not_blank_of_charDigit (hnumeral d hd)
    · exact not_blank_of_charDigit (hnumeral d hd)
  have hblanks : ∀ c ∈ asText (s.takeWhile CtFile.isSpace), AutoAssembler.isBlank c = true := by
    intro c hc
    obtain ⟨d, hd, rfl⟩ := List.mem_map.1 hc
    exact isBlank_of_isSpace (List.mem_takeWhile_imp hd)
      (hclean d ((List.takeWhile_prefix _).mem hd)).2
  have htrim := @Slices.trim_append _ _ _ _ [] hblanks (by simp) hcore
  rwa [List.append_nil, asText, asText, ← List.map_append, List.takeWhile_append_dropWhile] at htrim

theorem integerText_signed (hclean : Clean s) (h : Grouped.strtoll s = some (v, [])) {v' : ℤ} :
    IntegerText hex (ValueIo.trim (asText s)) v' ↔
      v' = signed s (readDigits (tableBase hex (numeral s)) (detectBase (numeral s)).2) := by
  obtain ⟨hne, hdigits, -, -, -⟩ := strtoll_all h
  have hbase : (detectBase (numeral s)).1 ≤ tableBase hex (numeral s) ∧
      tableBase hex (numeral s) ≤ 16 := by
    unfold tableBase
    rcases detectBase_cases (numeral s) with ⟨hb, -⟩ | ⟨hb, -⟩ | ⟨hb, -⟩ <;> rw [hb] <;> split <;>
      omega
  have hvalue := @value_asText (tableBase hex (numeral s)) hbase.2 _ fun c hc =>
    Nat.lt_of_lt_of_le (hdigits c hc) hbase.1
  rw [trim_asText hclean hdigits, ValueIo.integerText_iff, splitSign_asText]
  dsimp only
  rw [splitMark_asText hdigits]
  dsimp only
  rw [hvalue.1]
  constructor
  · exact fun h => h.2.2
  · exact fun h => ⟨by simpa [asText] using hne, hvalue.2, h⟩

/-- **The table reads the number of the trainer** if and only if the text is one for which they
agree. -/
theorem integerText_iff_sameNumber (h : fullySigned s = some v) :
    IntegerText hex (ValueIo.trim (asText s)) v ↔ SameNumber hex s := by
  have hread : Grouped.strtoll (Grouped.cString s) = some (v, []) := by
    unfold fullySigned at h
    split at h
    · cases h
    · split at h
      · rename_i hstrtoll
        rw [hstrtoll]
        cases h
        rfl
      · cases h
  constructor
  · intro htext
    have hclean := clean_of_integerText htext
    rw [cString_of_clean hclean] at hread
    obtain ⟨-, hdigits, hv, -, -⟩ := strtoll_all hread
    rw [integerText_signed hclean hread, hv, signed_inj,
      readDigits_eq_iff_sameBase hdigits] at htext
    exact ⟨hclean, htext⟩
  · rintro ⟨hclean, hbase⟩
    rw [cString_of_clean hclean] at hread
    obtain ⟨-, hdigits, hv, -, -⟩ := strtoll_all hread
    rwa [integerText_signed hclean hread, hv, signed_inj, readDigits_eq_iff_sameBase hdigits]

end Number

end CheatEngine.Trainer
