import Mathlib.Data.List.Nodup
import CheatEngineLinux.Core.JsonParser
/-!
# Written JSON reads back

`dump` against `parse`.  A string goes through `escape`, which copies the sequences of UTF-8 and
writes U+FFFD for every other byte from 0x80 on; the text is a derivation of the grammar that the
parser reads.

* `utf8Sequence_sound`, `utf8Sequence_encode` — **PROVED**: `utf8Sequence` finds the sequences of
  UTF-8, with their lengths;
* `jsonString_quote` — **PROVED**: a quoted string is a string of the grammar for the repaired
  bytes;
* `parse_dump` — **PROVED**: what `dump` writes is UTF-8 and `parse` reads the value back, its
  strings repaired.
-/

namespace CheatEngine.Json

open JsonGrammar
open String (utf8EncodeChar)

/-! ### `utf8Sequence` -/

theorem tail_iff (b : UInt8) :
    (b &&& 0xc0 != 0x80) = false ↔ 0x80 ≤ b.toNat ∧ b.toNat ≤ 0xbf := by
  have hcases : ∀ n < 256, n &&& 0xc0 = 0x80 ↔ 0x80 ≤ n ∧ n ≤ 0xbf := by decide +kernel
  rw [bne_eq_false_iff_eq, ← UInt8.toNat_inj, UInt8.toNat_and]
  exact hcases b.toNat b.toNat_lt

theorem leadLength_eq (c : UInt8) : leadLength c
    = if 0xc2 ≤ c.toNat ∧ c.toNat ≤ 0xdf then 2
      else if 0xe0 ≤ c.toNat ∧ c.toNat ≤ 0xef then 3
      else if 0xf0 ≤ c.toNat ∧ c.toNat ≤ 0xf4 then 4 else 0 := rfl

theorem secondLow_eq (c : UInt8) : (secondLow c).toNat
    = if c.toNat = 0xe0 then 0xa0 else if c.toNat = 0xf0 then 0x90 else 0x80 := by
  unfold secondLow
  simp only [← UInt8.toNat_inj, apply_ite UInt8.toNat]
  rfl

theorem secondHigh_eq (c : UInt8) : (secondHigh c).toNat
    = if c.toNat = 0xed then 0x9f else if c.toNat = 0xf4 then 0x8f else 0xbf := by
  unfold secondHigh
  simp only [← UInt8.toNat_inj, apply_ite UInt8.toNat]
  rfl

/-- The checks of `utf8Sequence`, in order. -/
theorem utf8Sequence_eq_iff {c : UInt8} {s : Bytes} {n : ℕ} (hn : n ≠ 0) :
    utf8Sequence (c :: s) = n ↔ leadLength c = n ∧ n ≤ s.length + 1 ∧
      (secondLow c).toNat ≤ (s.headD 0).toNat ∧ (s.headD 0).toNat ≤ (secondHigh c).toNat ∧
      ∀ b ∈ (s.take (n - 1)).drop 1, 0x80 ≤ b.toNat ∧ b.toNat ≤ 0xbf := by
  have hany : ∀ l : Bytes, l.any (fun b => b &&& 0xc0 != 0x80) = false ↔
      ∀ b ∈ l, 0x80 ≤ b.toNat ∧ b.toNat ≤ 0xbf := by
    intro l
    rw [List.any_eq_false]
    exact forall₂_congr fun b _ => by rw [Bool.not_eq_true, tail_iff]
  simp only [utf8Sequence]
  constructor
  · intro h
    split_ifs at h with h1 h2 h3 h4
    · exact absurd h.symm hn
    · exact absurd h.symm hn
    · exact absurd h.symm hn
    · exact absurd h.symm hn
    · subst h
      rw [Bool.not_eq_true, hany] at h4
      rw [UInt8.lt_iff_toNat_lt, UInt8.lt_iff_toNat_lt, not_or] at h3
      exact ⟨rfl, by omega, by omega, by omega, h4⟩
  · rintro ⟨rfl, h2, h3, h4, h5⟩
    rw [if_neg hn, if_neg (by omega), if_neg, if_neg]
    · rw [Bool.not_eq_true, hany]
      exact h5
    · rw [UInt8.lt_iff_toNat_lt, UInt8.lt_iff_toNat_lt]
      omega

/-- What `utf8Sequence` accepts is a sequence. -/
theorem utf8Sequence_sound {c : UInt8} {s : Bytes} (h : utf8Sequence (c :: s) ≠ 0) :
    ∃ ch : Char, (c :: s).take (utf8Sequence (c :: s)) = utf8EncodeChar ch ∧
      2 ≤ utf8Sequence (c :: s) := by
  obtain ⟨hlead, hlen, hlow, hhigh, htails⟩ := (utf8Sequence_eq_iff h).mp rfl
  generalize utf8Sequence (c :: s) = n at *
  rw [leadLength_eq] at hlead
  rw [secondLow_eq] at hlow
  rw [secondHigh_eq] at hhigh
  have hn' : n = 2 ∨ n = 3 ∨ n = 4 := by split_ifs at hlead <;> omega
  rcases hn' with rfl | rfl | rfl
  · obtain ⟨b, s, rfl⟩ : ∃ b s', s = b :: s' := List.exists_cons_of_length_pos (by omega)
    rw [List.headD_cons] at hlow hhigh
    obtain ⟨ch, hch⟩ := Utf8.exists_char_two (a := c) (b := b) (by split_ifs at hlead <;> omega)
      (by split_ifs at hlead <;> omega) (by split_ifs at hlow <;> omega)
      (by split_ifs at hhigh <;> omega)
    exact ⟨ch, hch, by omega⟩
  · obtain ⟨b, s, rfl⟩ : ∃ b s', s = b :: s' := List.exists_cons_of_length_pos (by omega)
    obtain ⟨d, s, rfl⟩ : ∃ d s', s = d :: s' :=
      List.exists_cons_of_length_pos (by rw [List.length_cons] at hlen; omega)
    rw [List.headD_cons] at hlow hhigh
    have hd := htails d (by simp)
    obtain ⟨ch, hch⟩ := Utf8.exists_char_three (a := c) (b := b) (d := d)
      (by split_ifs at hlead <;> omega) (by split_ifs at hlead <;> omega)
      (by split_ifs at hlow <;> omega) (by split_ifs at hhigh <;> omega)
      (by split_ifs at hlow <;> omega) (by split_ifs at hhigh <;> omega) hd.1 hd.2
    exact ⟨ch, hch, by omega⟩
  · obtain ⟨b, s, rfl⟩ : ∃ b s', s = b :: s' := List.exists_cons_of_length_pos (by omega)
    obtain ⟨d, s, rfl⟩ : ∃ d s', s = d :: s' :=
      List.exists_cons_of_length_pos (by rw [List.length_cons] at hlen; omega)
    obtain ⟨e, s, rfl⟩ : ∃ e s', s = e :: s' :=
      List.exists_cons_of_length_pos (by simp only [List.length_cons] at hlen; omega)
    rw [List.headD_cons] at hlow hhigh
    have hd := htails d (by simp)
    have he := htails e (by simp)
    obtain ⟨ch, hch⟩ := Utf8.exists_char_four (a := c) (b := b) (d := d) (e := e)
      (by split_ifs at hlead <;> omega) (by split_ifs at hlead <;> omega)
      (by split_ifs at hlow <;> omega) (by split_ifs at hhigh <;> omega)
      (by split_ifs at hlow <;> omega) (by split_ifs at hhigh <;> omega) hd.1 hd.2 he.1 he.2
    exact ⟨ch, hch, by omega⟩

theorem toNat_ofNat_lt {n : ℕ} (h : n < 256) : (UInt8.ofNat n).toNat = n := by
  rw [UInt8.toNat_ofNat']
  exact Nat.mod_eq_of_lt h

theorem utf8Sequence_encode {ch : Char} (h : 0x80 ≤ ch.toNat) (s : Bytes) :
    utf8Sequence (utf8EncodeChar ch ++ s) = (utf8EncodeChar ch).length := by
  have hscalar := Utf8.toNat_scalar ch
  have hmax := Utf8.toNat_lt ch
  rcases Nat.lt_or_ge ch.toNat 0x800 with h2 | h2
  · rw [Utf8.encode_two h h2]
    simp only [List.cons_append, List.nil_append]
    refine (utf8Sequence_eq_iff (by simp)).mpr ⟨?_, by simp, ?_, ?_, by simp⟩
    · rw [leadLength_eq, toNat_ofNat_lt (by omega), if_pos (by omega)]
      rfl
    · rw [List.headD_cons, toNat_ofNat_lt (by omega), secondLow_eq,
        toNat_ofNat_lt (by omega), if_neg (by omega), if_neg (by omega)]
      omega
    · rw [List.headD_cons, toNat_ofNat_lt (by omega), secondHigh_eq,
        toNat_ofNat_lt (by omega), if_neg (by omega), if_neg (by omega)]
      omega
  rcases Nat.lt_or_ge ch.toNat 0x10000 with h3 | h3
  · rw [Utf8.encode_three h2 h3]
    simp only [List.cons_append, List.nil_append]
    refine (utf8Sequence_eq_iff (by simp)).mpr ⟨?_, by simp, ?_, ?_, ?_⟩
    · rw [leadLength_eq, toNat_ofNat_lt (by omega), if_neg (by omega), if_pos (by omega)]
      rfl
    · rw [List.headD_cons, toNat_ofNat_lt (by omega), secondLow_eq,
        toNat_ofNat_lt (by omega)]
      split_ifs <;> omega
    · rw [List.headD_cons, toNat_ofNat_lt (by omega), secondHigh_eq,
        toNat_ofNat_lt (by omega)]
      split_ifs <;> omega
    · intro b hb
      simp only [List.length_cons, List.length_nil, List.take_succ_cons,
        List.take_zero, List.drop_succ_cons, List.drop_zero, List.mem_singleton, Nat.reduceAdd, Nat.reduceSub] at hb
      rw [hb, toNat_ofNat_lt (by omega)]
      omega
  · rw [Utf8.encode_four h3]
    simp only [List.cons_append, List.nil_append]
    refine (utf8Sequence_eq_iff (by simp)).mpr ⟨?_, by simp, ?_, ?_, ?_⟩
    · rw [leadLength_eq, toNat_ofNat_lt (by omega), if_neg (by omega), if_neg (by omega),
        if_pos (by omega)]
      rfl
    · rw [List.headD_cons, toNat_ofNat_lt (by omega), secondLow_eq,
        toNat_ofNat_lt (by omega)]
      split_ifs <;> omega
    · rw [List.headD_cons, toNat_ofNat_lt (by omega), secondHigh_eq,
        toNat_ofNat_lt (by omega)]
      split_ifs <;> omega
    · intro b hb
      simp only [List.length_cons, List.length_nil, List.take_succ_cons,
        List.take_zero, List.drop_succ_cons, List.drop_zero, List.mem_cons, List.not_mem_nil, or_false, Nat.reduceAdd, Nat.reduceSub] at hb
      rcases hb with rfl | rfl
      · rw [toNat_ofNat_lt (by omega)]
        omega
      · rw [toNat_ofNat_lt (by omega)]
        omega

/-! ### Strings -/

/-- The bytes of a string as a reader of the dump gets them: U+FFFD for every byte that `escape`
finds to start no sequence. -/
def repairFrom : ℕ → Bytes → Bytes
  | _, [] => []
  | skip + 1, _ :: s => repairFrom skip s
  | 0, c :: s =>
    if 0x80 ≤ c then
      if utf8Sequence (c :: s) = 0 then Utf8.replacement ++ repairFrom 0 s
      else (c :: s).take (utf8Sequence (c :: s)) ++ repairFrom (utf8Sequence (c :: s) - 1) s
    else c :: repairFrom 0 s

def repair (s : Bytes) : Bytes := repairFrom 0 s

theorem escapeFrom_drop (n : ℕ) (s : Bytes) : escapeFrom n s = escape (s.drop n) := by
  induction n generalizing s with
  | zero => rfl
  | succ n ih =>
    cases s with
    | nil => simp [escape, escapeFrom]
    | cons c s => simpa [escapeFrom] using ih s

theorem repairFrom_drop (n : ℕ) (s : Bytes) : repairFrom n s = repair (s.drop n) := by
  induction n generalizing s with
  | zero => rfl
  | succ n ih =>
    cases s with
    | nil => simp [repair, repairFrom]
    | cons c s => simpa [repairFrom] using ih s

/-- The bytes of a character from U+0080 on are not ASCII. -/
theorem encode_high {ch : Char} (h : 0x80 ≤ ch.toNat) :
    ∀ b ∈ utf8EncodeChar ch, 0x80 ≤ b.toNat := by
  have hmax := Utf8.toNat_lt ch
  intro b hb
  rcases Nat.lt_or_ge ch.toNat 0x800 with h2 | h2
  · rw [Utf8.encode_two h h2] at hb
    simp only [List.mem_cons, List.not_mem_nil, or_false] at hb
    rcases hb with rfl | rfl <;> rw [toNat_ofNat_lt (by omega)] <;> omega
  rcases Nat.lt_or_ge ch.toNat 0x10000 with h3 | h3
  · rw [Utf8.encode_three h2 h3] at hb
    simp only [List.mem_cons, List.not_mem_nil, or_false] at hb
    rcases hb with rfl | rfl | rfl <;> rw [toNat_ofNat_lt (by omega)] <;> omega
  · rw [Utf8.encode_four h3] at hb
    simp only [List.mem_cons, List.not_mem_nil, or_false] at hb
    rcases hb with rfl | rfl | rfl | rfl <;> rw [toNat_ofNat_lt (by omega)] <;> omega

section steps

variable {c : UInt8} {s : Bytes} {ch : Char}

theorem not_high (h : c.toNat < 0x80) : ¬ 0x80 ≤ c := by
  rw [UInt8.le_iff_toNat_le]
  exact Nat.not_le.mpr h

theorem high (h : 0x80 ≤ c.toNat) : 0x80 ≤ c := UInt8.le_iff_toNat_le.mpr h

theorem escape_ascii (h : c.toNat < 0x80) : escape (c :: s) = escapeAscii c ++ escape s := by
  simp only [escape, escapeFrom]
  rw [if_neg (not_high h)]

theorem repair_ascii (h : c.toNat < 0x80) : repair (c :: s) = c :: repair s := by
  simp only [repair, repairFrom]
  rw [if_neg (not_high h)]

/-- The first byte of a character and the rest of it. -/
theorem encode_cons (ch : Char) : ∃ b tail, utf8EncodeChar ch = b :: tail :=
  List.exists_cons_of_ne_nil String.utf8EncodeChar_ne_nil

theorem escape_char (h : 0x80 ≤ ch.toNat) :
    escape (utf8EncodeChar ch ++ s) = utf8EncodeChar ch ++ escape s := by
  have hseq := utf8Sequence_encode h s
  have hhigh := encode_high h
  obtain ⟨b, tail, hb⟩ := encode_cons ch
  rw [hb, List.cons_append] at hseq ⊢
  rw [hb] at hhigh
  have hne : utf8Sequence (b :: (tail ++ s)) ≠ 0 := by rw [hseq]; simp
  rw [escape, escapeFrom, if_pos (high (hhigh b (by simp))), if_neg hne, escapeFrom_drop, hseq]
  simp

theorem repair_char (h : 0x80 ≤ ch.toNat) :
    repair (utf8EncodeChar ch ++ s) = utf8EncodeChar ch ++ repair s := by
  have hseq := utf8Sequence_encode h s
  have hhigh := encode_high h
  obtain ⟨b, tail, hb⟩ := encode_cons ch
  rw [hb, List.cons_append] at hseq ⊢
  rw [hb] at hhigh
  have hne : utf8Sequence (b :: (tail ++ s)) ≠ 0 := by rw [hseq]; simp
  rw [repair, repairFrom, if_pos (high (hhigh b (by simp))), if_neg hne, repairFrom_drop, hseq]
  simp

/-- A byte that starts no character is none that `utf8Sequence` accepts. -/
theorem utf8Sequence_bad (h : ∀ (ch : Char) (rest : Bytes), c :: s ≠ utf8EncodeChar ch ++ rest) :
    utf8Sequence (c :: s) = 0 := by
  by_contra hne
  obtain ⟨ch, hch, -⟩ := utf8Sequence_sound hne
  exact h ch ((c :: s).drop (utf8Sequence (c :: s))) (by rw [← hch, List.take_append_drop])

theorem bad_high (h : ∀ (ch : Char) (rest : Bytes), c :: s ≠ utf8EncodeChar ch ++ rest) :
    0x80 ≤ c.toNat := by
  by_contra hlow
  obtain ⟨ch, hch⟩ := Utf8.valid_ascii (b := c) (by omega)
  exact h ch s (by rw [← hch]; rfl)

theorem escape_bad (h : ∀ (ch : Char) (rest : Bytes), c :: s ≠ utf8EncodeChar ch ++ rest) :
    escape (c :: s) = [0x5c, 0x75, 0x66, 0x66, 0x66, 0x64] ++ escape s := by
  rw [escape, escapeFrom, if_pos (high (bad_high h)), if_pos (utf8Sequence_bad h)]
  rfl

theorem repair_bad (h : ∀ (ch : Char) (rest : Bytes), c :: s ≠ utf8EncodeChar ch ++ rest) :
    repair (c :: s) = Utf8.replacement ++ repair s := by
  rw [repair, repairFrom, if_pos (high (bad_high h)), if_pos (utf8Sequence_bad h)]
  rfl

end steps

/-- The turns of `escape`: an ASCII byte, a longer sequence, or a byte that starts none. -/
theorem escape_induction {P : Bytes → Prop} (nil : P [])
    (ascii : ∀ (c : UInt8) (s : Bytes), c.toNat < 0x80 → P s → P (c :: s))
    (char : ∀ (ch : Char) (s : Bytes), 0x80 ≤ ch.toNat → P s → P (utf8EncodeChar ch ++ s))
    (bad : ∀ (c : UInt8) (s : Bytes),
      (∀ (ch : Char) (rest : Bytes), c :: s ≠ utf8EncodeChar ch ++ rest) → P s → P (c :: s))
    (s : Bytes) : P s := by
  obtain ⟨n, hn⟩ : ∃ n, s.length ≤ n := ⟨s.length, Nat.le_refl _⟩
  induction n generalizing s with
  | zero =>
    rw [List.length_eq_zero_iff.mp (Nat.le_zero.mp hn)]
    exact nil
  | succ n ih =>
    cases s with
    | nil => exact nil
    | cons c s =>
      rw [List.length_cons] at hn
      rcases Nat.lt_or_ge c.toNat 0x80 with hc | hc
      · exact ascii c s hc (ih s (by omega))
      · by_cases hbad : ∀ (ch : Char) (rest : Bytes), c :: s ≠ utf8EncodeChar ch ++ rest
        · exact bad c s hbad (ih s (by omega))
        · push Not at hbad
          obtain ⟨ch, rest, hsplit⟩ := hbad
          have hhigh : 0x80 ≤ ch.toNat := by
            by_contra hlow
            rw [Utf8.encode_one (by omega)] at hsplit
            have hceq : c = UInt8.ofNat ch.toNat := by injection hsplit
            rw [hceq, toNat_ofNat_lt (by omega)] at hc
            omega
          have hlen : rest.length < (c :: s).length := by
            rw [hsplit, List.length_append]
            have := List.length_pos_of_ne_nil (String.utf8EncodeChar_ne_nil (c := ch))
            omega
          rw [hsplit]
          exact char ch rest hhigh (ih rest (by rw [List.length_cons] at hlen; omega))

/-- `repair` replaces exactly the bytes that start no sequence. -/
theorem repaired_iff (s t : Bytes) : Utf8.Repaired s t ↔ t = repair s := by
  constructor
  · intro h
    induction h with
    | nil => rfl
    | char ch _ ih =>
      rcases Nat.lt_or_ge ch.toNat 0x80 with hc | hc
      · rw [Utf8.encode_one hc, List.singleton_append, List.singleton_append,
          repair_ascii (by rw [toNat_ofNat_lt (by omega)]; exact hc), ih]
      · rw [repair_char hc, ih]
    | bad c hbad _ ih => rw [repair_bad hbad, ih]
  · rintro rfl
    induction s using escape_induction with
    | nil => exact Utf8.Repaired.nil
    | ascii c s hc ih =>
      obtain ⟨ch, hch⟩ := Utf8.valid_ascii hc
      rw [repair_ascii hc]
      have := Utf8.Repaired.char ch ih
      rw [← hch] at this
      exact this
    | char ch s hc ih =>
      rw [repair_char hc]
      exact Utf8.Repaired.char ch ih
    | bad c s hbad ih =>
      rw [repair_bad hbad]
      exact Utf8.Repaired.bad c hbad ih

theorem repair_valid {s : Bytes} (h : Utf8.Valid s) : repair s = s :=
  ((repaired_iff s s).mp h.repaired).symm

/-- What `escape` writes for a control character is its `\\u` escape. -/
theorem hex4_control {c : UInt8} (h : c.toNat < 0x20) :
    Hex4 [0x30, 0x30, hexDigit (c >>> 4), hexDigit (c &&& 15)] c.toNat := by
  have hdigits : ∀ n < 32, hexValue (hexDigit (UInt8.ofNat n >>> 4)) = some (n / 16) ∧
      hexValue (hexDigit (UInt8.ofNat n &&& 15)) = some (n % 16) := by decide
  obtain ⟨h1, h2⟩ := hdigits c.toNat h
  rw [UInt8.ofNat_toNat] at h1 h2
  have hzero : hexValue 0x30 = some 0 := by decide
  have := Hex4.mk hzero hzero h1 h2
  rwa [show ((0 * 16 + 0) * 16 + c.toNat / 16) * 16 + c.toNat % 16 = c.toNat by omega] at this

theorem jsonChar_escapeAscii {c : UInt8} (hc : c.toNat < 0x80) : JsonChar (escapeAscii c) [c] := by
  unfold escapeAscii
  split_ifs with h1 h2 h3 h4 h5 h6 h7 h8
  all_goals simp only [beq_iff_eq] at *
  · exact h1 ▸ JsonChar.escape 0x5c 0x5c (by decide)
  · exact h2 ▸ JsonChar.escape 0x22 0x22 (by decide)
  · exact h3 ▸ JsonChar.escape 0x6e 0x0a (by decide)
  · exact h4 ▸ JsonChar.escape 0x72 0x0d (by decide)
  · exact h5 ▸ JsonChar.escape 0x74 0x09 (by decide)
  · exact h6 ▸ JsonChar.escape 0x62 0x08 (by decide)
  · exact h7 ▸ JsonChar.escape 0x66 0x0c (by decide)
  · obtain ⟨ch, hch⟩ := Utf8.exists_char (n := c.toNat) (by omega)
    have hhex := hex4_control (c := c) (by simpa [UInt8.lt_iff_toNat_lt] using h8)
    rw [← hch] at hhex
    have := JsonChar.unit _ ch hhex
    rwa [Utf8.encode_one (by omega), hch, UInt8.ofNat_toNat] at this
  · exact JsonChar.raw c (UInt8.not_lt.mp h8) h2 h1

theorem jsonString_quote (s : Bytes) : JsonString (quote s) (repair s) := by
  have hparts : ∃ parts : List (Bytes × Bytes), (∀ p ∈ parts, JsonChar p.1 p.2) ∧
      escape s = parts.flatMap Prod.fst ∧ repair s = parts.flatMap Prod.snd := by
    induction s using escape_induction with
    | nil => exact ⟨[], by simp, rfl, rfl⟩
    | ascii c s hc ih =>
      obtain ⟨parts, hparts, h1, h2⟩ := ih
      refine ⟨(escapeAscii c, [c]) :: parts, ?_, ?_, ?_⟩
      · rw [List.forall_mem_cons]
        exact ⟨jsonChar_escapeAscii hc, hparts⟩
      · rw [escape_ascii hc, h1, List.flatMap_cons]
      · rw [repair_ascii hc, h2, List.flatMap_cons, List.singleton_append]
    | char ch s hc ih =>
      obtain ⟨parts, hparts, h1, h2⟩ := ih
      refine ⟨(utf8EncodeChar ch).map (fun b => ([b], [b])) ++ parts, ?_, ?_, ?_⟩
      · intro p hp
        rcases List.mem_append.mp hp with hp | hp
        · obtain ⟨b, hb, rfl⟩ := List.mem_map.mp hp
          have hhigh := encode_high hc b hb
          refine JsonChar.raw b (by rw [UInt8.le_iff_toNat_le]; exact Nat.le_trans (by decide) hhigh) ?_ ?_
          · rintro rfl
            exact absurd hhigh (by decide)
          · rintro rfl
            exact absurd hhigh (by decide)
        · exact hparts p hp
      · rw [escape_char hc, h1, List.flatMap_append, List.flatMap_map]
        simp
      · rw [repair_char hc, h2, List.flatMap_append, List.flatMap_map]
        simp
    | bad c s hbad ih =>
      obtain ⟨parts, hparts, h1, h2⟩ := ih
      obtain ⟨ch, hch⟩ := Utf8.exists_char (n := 0xfffd) (by omega)
      have hhex : Hex4 [0x66, 0x66, 0x66, 0x64] ch.toNat := by
        rw [hch]
        have hf : hexValue 0x66 = some 15 := by decide
        exact Hex4.mk hf hf hf (by decide : hexValue 0x64 = some 13)
      have hchar := JsonChar.unit _ ch hhex
      rw [Utf8.encode_three (by omega) (by omega), hch] at hchar
      refine ⟨([0x5c, 0x75, 0x66, 0x66, 0x66, 0x64], Utf8.replacement) :: parts, ?_, ?_, ?_⟩
      · rw [List.forall_mem_cons]
        exact ⟨hchar, hparts⟩
      · rw [escape_bad hbad, h1, List.flatMap_cons]
      · rw [repair_bad hbad, h2, List.flatMap_cons]
  obtain ⟨parts, hparts, h1, h2⟩ := hparts
  exact ⟨parts, hparts, by rw [quote, h1], h2⟩

/-! ### What is written is UTF-8 -/

theorem valid_of_ascii {s : Bytes} (h : ∀ b ∈ s, b.toNat < 0x80) : Utf8.Valid s := by
  induction s with
  | nil => exact Utf8.Valid.nil
  | cons b s ih =>
    obtain ⟨hb, hs⟩ := List.forall_mem_cons.mp h
    obtain ⟨ch, hch⟩ := Utf8.valid_ascii hb
    have := (Utf8.Valid.char ch).append (ih hs)
    rwa [← hch] at this

theorem valid_literal {s : Bytes} (h : s.all (fun b => decide (b.toNat < 0x80)) = true) :
    Utf8.Valid s :=
  valid_of_ascii fun b hb => of_decide_eq_true (List.all_eq_true.mp h b hb)

theorem hexDigit_ascii (n : UInt8) (h : n.toNat < 16) : (hexDigit n).toNat < 0x80 := by
  have hdigits : ∀ k < 16, (hexDigit (UInt8.ofNat k)).toNat < 0x80 := by decide
  have := hdigits n.toNat h
  rwa [UInt8.ofNat_toNat] at this

theorem valid_escapeAscii {c : UInt8} (hc : c.toNat < 0x80) : Utf8.Valid (escapeAscii c) := by
  refine valid_of_ascii ?_
  unfold escapeAscii
  split_ifs with h1 h2 h3 h4 h5 h6 h7 h8
  all_goals try simp
  · have hhigh : (hexDigit (c >>> 4)).toNat < 0x80 := by
      refine hexDigit_ascii _ ?_
      rw [UInt8.toNat_shiftRight, Nat.shiftRight_eq_div_pow]
      simp
      omega
    have hlow : (hexDigit (c &&& 15)).toNat < 0x80 := by
      refine hexDigit_ascii _ ?_
      rw [UInt8.toNat_and]
      exact Nat.lt_of_le_of_lt Nat.and_le_right (by decide)
    simp [hhigh, hlow]
  · simpa using hc

theorem valid_escape (s : Bytes) : Utf8.Valid (escape s) := by
  induction s using escape_induction with
  | nil => exact Utf8.Valid.nil
  | ascii c s hc ih =>
    rw [escape_ascii hc]
    exact (valid_escapeAscii hc).append ih
  | char ch s hc ih =>
    rw [escape_char hc]
    exact (Utf8.Valid.char ch).append ih
  | bad c s hbad ih =>
    rw [escape_bad hbad]
    exact (valid_literal (by decide)).append ih

theorem valid_quote (s : Bytes) : Utf8.Valid (quote s) :=
  (valid_literal (s := [0x22]) (by decide)).append
    ((valid_escape s).append (valid_literal (by decide)))

/-! ### Values -/

namespace Value

mutual
/-- A value as its type reads it, with every string and key changed. -/
def mapStrings (f : Bytes → Bytes) : Value → Value
  | mk .null _ _ _ _ => null
  | mk .bool b _ _ _ => boolean b
  | mk .number _ text _ _ => numberText text
  | mk .string _ text _ _ => string (f text)
  | mk .array _ _ items _ => ofItems (mapItems f items)
  | mk .object _ _ _ ms => ofMembers (mapMembers f ms)
def mapItems (f : Bytes → Bytes) : List Value → List Value
  | [] => []
  | v :: vs => mapStrings f v :: mapItems f vs
def mapMembers (f : Bytes → Bytes) : List (Bytes × Value) → List (Bytes × Value)
  | [] => []
  | (key, v) :: ms => (f key, mapStrings f v) :: mapMembers f ms
end

mutual
def depth : Value → ℕ
  | mk .array _ _ items _ => depthItems items + 1
  | mk .object _ _ _ ms => depthMembers ms + 1
  | _ => 1
def depthItems : List Value → ℕ
  | [] => 0
  | v :: vs => max (depth v) (depthItems vs)
def depthMembers : List (Bytes × Value) → ℕ
  | [] => 0
  | (_, v) :: ms => max (depth v) (depthMembers ms)
end

/-- `u` is `v` or a value inside of it. -/
inductive Inside (u : Value) : Value → Prop
  | self : Inside u u
  | item {v x : Value} : v.type = .array → x ∈ v.arrayValue → Inside u x → Inside u v
  | member {v : Value} {m : Bytes × Value} : v.type = .object → m ∈ v.members → Inside u m.2 →
      Inside u v

def stringValue : Value → Bytes
  | mk _ _ s _ _ => s

theorem mapItems_eq (f : Bytes → Bytes) (vs : List Value) :
    mapItems f vs = vs.map (mapStrings f) := by
  induction vs with
  | nil => rfl
  | cons v vs ih => rw [mapItems, ih, List.map_cons]

theorem mapMembers_eq (f : Bytes → Bytes) (ms : List (Bytes × Value)) :
    mapMembers f ms = ms.map fun m => (f m.1, mapStrings f m.2) := by
  induction ms with
  | nil => rfl
  | cons m ms ih => rw [mapMembers, ih, List.map_cons]

theorem depth_le_items {v : Value} {vs : List Value} (h : v ∈ vs) : depth v ≤ depthItems vs := by
  induction vs with
  | nil => cases h
  | cons w vs ih =>
    rw [depthItems]
    rcases List.mem_cons.mp h with rfl | h
    · exact Nat.le_max_left _ _
    · exact Nat.le_trans (ih h) (Nat.le_max_right _ _)

theorem depth_le_members {m : Bytes × Value} {ms : List (Bytes × Value)} (h : m ∈ ms) :
    depth m.2 ≤ depthMembers ms := by
  induction ms with
  | nil => cases h
  | cons m' ms ih =>
    obtain ⟨key, w⟩ := m'
    rw [depthMembers]
    rcases List.mem_cons.mp h with rfl | h
    · exact Nat.le_max_left _ _
    · exact Nat.le_trans (ih h) (Nat.le_max_right _ _)

theorem depth_pos (v : Value) : 1 ≤ depth v := by
  obtain ⟨t, b, s, items, ms⟩ := v
  cases t <;> simp [depth]

def NumberTokens (v : Value) : Prop :=
  ∀ u, Inside u v → u.type = .number → Number u.stringValue

/-- The keys of every object inside stay distinct when they are repaired. -/
def DistinctKeys (v : Value) : Prop :=
  ∀ u, Inside u v → u.type = .object → (u.members.map fun m => repair m.1).Nodup

def Utf8Strings (v : Value) : Prop :=
  ∀ u, Inside u v → (u.type = .string → Utf8.Valid u.stringValue) ∧
    (u.type = .object → ∀ m ∈ u.members, Utf8.Valid m.1)

end Value

theorem writeItems_eq (vs : List Value) : writeItems vs = commaSeparated (vs.map write) := by
  induction vs with
  | nil => rfl
  | cons v vs ih =>
    cases vs with
    | nil => rfl
    | cons w vs =>
      rw [writeItems, ih]
      rfl

theorem writeMembers_eq (ms : List (Bytes × Value)) :
    writeMembers ms = commaSeparated (ms.map fun m => quote m.1 ++ 0x3a :: write m.2) := by
  induction ms with
  | nil => rfl
  | cons m ms ih =>
    obtain ⟨key, v⟩ := m
    cases ms with
    | nil => rfl
    | cons m' ms =>
      rw [writeMembers, ih, List.map_cons, List.map_cons, List.map_cons, commaSeparated_cons]
      simp

theorem firstKeys_of_nodup {ks : List Bytes} (h : ks.Nodup) : firstKeys ks = ks := by
  induction ks with
  | nil => rfl
  | cons k ks ih =>
    obtain ⟨hk, hks⟩ := List.nodup_cons.mp h
    rw [firstKeys, ih hks, List.filter_eq_self.mpr]
    intro k' hk'
    have hne : k' ≠ k := fun heq => hk (heq ▸ hk')
    simpa using hne

theorem lookup_of_nodup {V : Type*} {ms : List (Bytes × V)} (h : (ms.map Prod.fst).Nodup)
    {m : Bytes × V} (hm : m ∈ ms) : ms.lookup m.1 = some m.2 := by
  induction ms with
  | nil => cases hm
  | cons m' ms ih =>
    rw [List.map_cons, List.nodup_cons] at h
    rw [List.lookup_cons]
    rcases List.mem_cons.mp hm with rfl | hm
    · simp
    · have hne : m.1 ≠ m'.1 := fun heq => h.1 (heq ▸ List.mem_map_of_mem hm)
      have hb : (m.1 == m'.1) = false := by simpa using hne
      simpa [hb] using ih h.2 hm

/-- Members with distinct keys are the object they denote. -/
theorem lastWins_of_nodup {V : Type*} {ms : List (Bytes × V)} (h : (ms.map Prod.fst).Nodup) :
    lastWins ms = ms := by
  have hrev : (ms.reverse.map Prod.fst).Nodup := by
    rw [List.map_reverse]
    exact List.nodup_reverse.mpr h
  unfold lastWins
  rw [firstKeys_of_nodup h, List.filterMap_map]
  conv_rhs => rw [← List.filterMap_some (l := ms)]
  refine List.filterMap_congr fun m hm => ?_
  have hlookup := lookup_of_nodup hrev (List.mem_reverse.mpr hm)
  rw [Function.comp_apply, hlookup]
  rfl

section inside

variable {v x : Value} {m : Bytes × Value}

theorem NumberTokens.item (h : v.NumberTokens) (ht : v.type = .array) (hx : x ∈ v.arrayValue) :
    x.NumberTokens :=
  fun u hu => h u (Value.Inside.item ht hx hu)

theorem NumberTokens.member (h : v.NumberTokens) (ht : v.type = .object) (hm : m ∈ v.members) :
    m.2.NumberTokens :=
  fun u hu => h u (Value.Inside.member ht hm hu)

theorem DistinctKeys.item (h : v.DistinctKeys) (ht : v.type = .array) (hx : x ∈ v.arrayValue) :
    x.DistinctKeys :=
  fun u hu => h u (Value.Inside.item ht hx hu)

theorem DistinctKeys.member (h : v.DistinctKeys) (ht : v.type = .object) (hm : m ∈ v.members) :
    m.2.DistinctKeys :=
  fun u hu => h u (Value.Inside.member ht hm hu)

theorem Utf8Strings.item (h : v.Utf8Strings) (ht : v.type = .array) (hx : x ∈ v.arrayValue) :
    x.Utf8Strings :=
  fun u hu => h u (Value.Inside.item ht hx hu)

theorem Utf8Strings.member (h : v.Utf8Strings) (ht : v.type = .object) (hm : m ∈ v.members) :
    m.2.Utf8Strings :=
  fun u hu => h u (Value.Inside.member ht hm hu)

end inside

theorem jsonValue_items {d : ℕ} {f : Value → Value} {items : List Value}
    (h : ∀ x ∈ items, JsonValue valueMeaning d (write x) (f x)) :
    JsonValue valueMeaning (d + 1) (0x5b :: (writeItems items ++ [0x5d]))
      (Value.ofItems (items.map f)) := by
  rw [writeItems_eq]
  cases items with
  | nil => exact JsonValue.emptyArray d [] Ws.nil
  | cons x xs =>
    have hval := JsonValue.array (D := valueMeaning) d ((x :: xs).map fun y =>
      (⟨[], write y, [], f y⟩ : Element Value)) (by simp)
      (by
        intro e he
        obtain ⟨y, -, rfl⟩ := List.mem_map.mp he
        exact ⟨Ws.nil, Ws.nil⟩)
      (by
        intro e he
        obtain ⟨y, hy, rfl⟩ := List.mem_map.mp he
        exact h y hy)
    rw [List.map_map, List.map_map] at hval
    have hbytes : (Element.bytes ∘ fun y => (⟨[], write y, [], f y⟩ : Element Value)) = write := by
      funext y
      simp [Element.bytes]
    rw [hbytes] at hval
    exact hval

theorem jsonValue_members {d : ℕ} {f : Value → Value} {ms : List (Bytes × Value)}
    (hkeys : (ms.map fun m => repair m.1).Nodup)
    (h : ∀ m ∈ ms, JsonValue valueMeaning d (write m.2) (f m.2)) :
    JsonValue valueMeaning (d + 1) (0x7b :: (writeMembers ms ++ [0x7d]))
      (Value.ofMembers (ms.map fun m => (repair m.1, f m.2))) := by
  have hnodup : ((ms.map fun m => (repair m.1, f m.2)).map Prod.fst).Nodup := by
    rw [List.map_map]
    exact hkeys
  rw [writeMembers_eq]
  cases ms with
  | nil => exact JsonValue.emptyObject d [] Ws.nil
  | cons m ms =>
    have hval := JsonValue.object (D := valueMeaning) d ((m :: ms).map fun p =>
      (⟨[], quote p.1, [], repair p.1, ⟨[], write p.2, [], f p.2⟩⟩ : Member Value))
      (by simp)
      (by
        intro e he
        obtain ⟨p, -, rfl⟩ := List.mem_map.mp he
        exact ⟨Ws.nil, Ws.nil, Ws.nil, Ws.nil⟩)
      (by
        intro e he
        obtain ⟨p, -, rfl⟩ := List.mem_map.mp he
        exact jsonString_quote p.1)
      (by
        intro e he
        obtain ⟨p, hp, rfl⟩ := List.mem_map.mp he
        exact h p hp)
    rw [List.map_map, List.map_map] at hval
    have hbytes : (Member.bytes ∘ fun p : Bytes × Value =>
        (⟨[], quote p.1, [], repair p.1, ⟨[], write p.2, [], f p.2⟩⟩ : Member Value))
        = fun p => quote p.1 ++ 0x3a :: write p.2 := by
      funext p
      simp [Member.bytes, Element.bytes]
    rw [hbytes] at hval
    rw [← lastWins_of_nodup hnodup]
    exact hval

/-- What `write` appends is a value of the grammar, as deep as the value is. -/
theorem jsonValue_write {d : ℕ} {v : Value} (hd : v.depth ≤ d) (hnum : v.NumberTokens)
    (hkeys : v.DistinctKeys) : JsonValue valueMeaning d (write v) (v.mapStrings repair) := by
  induction d generalizing v with
  | zero => exact absurd (Value.depth_pos v) (by omega)
  | succ d ih =>
    obtain ⟨t, b, s, items, ms⟩ := v
    cases t with
    | null => exact JsonValue.null d
    | bool =>
      cases b
      · exact JsonValue.false d
      · exact JsonValue.true d
    | number =>
      have htoken : Number s := hnum _ Value.Inside.self rfl
      obtain ⟨c, tail, rfl, -⟩ := htoken.first
      exact JsonValue.number d _ htoken
    | string => exact JsonValue.string d _ _ (jsonString_quote s)
    | array =>
      rw [Value.mapStrings, Value.mapItems_eq]
      refine jsonValue_items fun x hx => ih ?_ (NumberTokens.item hnum rfl hx)
        (DistinctKeys.item hkeys rfl hx)
      have := Value.depth_le_items hx
      rw [Value.depth] at hd
      omega
    | object =>
      rw [Value.mapStrings, Value.mapMembers_eq]
      refine jsonValue_members (hkeys _ Value.Inside.self rfl) fun m hm =>
        ih ?_ (NumberTokens.member hnum rfl hm) (DistinctKeys.member hkeys rfl hm)
      have := Value.depth_le_members hm
      rw [Value.depth] at hd
      omega

/-! ### The whole document -/

theorem digit_ascii {b : UInt8} (h : isDigit b = true) : b.toNat < 0x80 := by
  simp only [isDigit, Bool.and_eq_true, decide_eq_true_eq, UInt8.le_iff_toNat_le] at h
  simp at h
  omega

theorem Number.bytes {t : Bytes} (h : Number t) :
    ∀ b ∈ t, isDigit b = true ∨ b ∈ [0x2d, 0x2b, 0x2e, 0x65, 0x45] := by
  obtain ⟨minus, int, frac, exp, hminus, hint, hfrac, hexp, rfl⟩ := h
  have hm : ∀ b ∈ minus, isDigit b = true ∨ b ∈ [0x2d, 0x2b, 0x2e, 0x65, 0x45] := by
    rcases hminus with rfl | rfl <;> simp
  have hi : ∀ b ∈ int, isDigit b = true ∨ b ∈ [0x2d, 0x2b, 0x2e, 0x65, 0x45] := by
    cases hint with
    | zero =>
      rw [List.forall_mem_singleton]
      exact Or.inl rfl
    | digits d ds hd _ hds =>
      rw [List.forall_mem_cons]
      exact ⟨Or.inl hd, fun b hb => Or.inl (hds b hb)⟩
  have hf : ∀ b ∈ frac, isDigit b = true ∨ b ∈ [0x2d, 0x2b, 0x2e, 0x65, 0x45] := by
    rcases hfrac with rfl | ⟨ds, hds, rfl⟩
    · simp
    · rw [List.forall_mem_cons]
      exact ⟨by simp, fun b hb => Or.inl (hds.2 b hb)⟩
  have he : ∀ b ∈ exp, isDigit b = true ∨ b ∈ [0x2d, 0x2b, 0x2e, 0x65, 0x45] := by
    rcases hexp with rfl | ⟨e, sign, ds, he, hsign, hds, rfl⟩
    · simp
    · rw [List.forall_mem_cons, List.forall_mem_append]
      refine ⟨by rcases he with rfl | rfl <;> simp, ?_, fun b hb => Or.inl (hds.2 b hb)⟩
      rcases hsign with rfl | rfl | rfl <;> simp
  simp only [List.forall_mem_append]
  exact ⟨hm, hi, hf, he⟩

theorem Number.ascii {t : Bytes} (h : Number t) : ∀ b ∈ t, b.toNat < 0x80 := by
  intro b hb
  rcases Number.bytes h b hb with hdigit | hsign
  · exact digit_ascii hdigit
  · simp only [List.mem_cons, List.not_mem_nil, or_false] at hsign
    rcases hsign with rfl | rfl | rfl | rfl | rfl <;> decide

theorem valid_commaSeparated {xs : List Bytes} (h : ∀ x ∈ xs, Utf8.Valid x) :
    Utf8.Valid (commaSeparated xs) := by
  induction xs with
  | nil => exact Utf8.Valid.nil
  | cons x xs ih =>
    obtain ⟨hx, hxs⟩ := List.forall_mem_cons.mp h
    cases xs with
    | nil => exact hx
    | cons y ys =>
      rw [commaSeparated_cons]
      exact hx.append ((valid_literal (s := [0x2c]) (by decide)).append (ih hxs))

theorem valid_write {d : ℕ} {v : Value} (hd : v.depth ≤ d) (hnum : v.NumberTokens) :
    Utf8.Valid (write v) := by
  induction d generalizing v with
  | zero => exact absurd (Value.depth_pos v) (by omega)
  | succ d ih =>
    obtain ⟨t, b, s, items, ms⟩ := v
    cases t with
    | null => exact valid_of_ascii (by simp [write])
    | bool => cases b <;> exact valid_of_ascii (by simp [write])
    | number =>
      have htoken : Number s := hnum _ Value.Inside.self rfl
      refine valid_of_ascii fun c hc => ?_
      rw [write] at hc
      split at hc
      · rw [List.mem_singleton.mp hc]
        decide
      · exact Number.ascii htoken c hc
    | string => exact valid_quote s
    | array =>
      rw [write, writeItems_eq]
      refine (valid_literal (s := [0x5b]) (by decide)).append
        ((valid_commaSeparated ?_).append (valid_literal (by decide)))
      intro x hx
      obtain ⟨y, hy, rfl⟩ := List.mem_map.mp hx
      have := Value.depth_le_items hy
      rw [Value.depth] at hd
      exact ih (by omega) (NumberTokens.item hnum rfl hy)
    | object =>
      rw [write, writeMembers_eq]
      refine (valid_literal (s := [0x7b]) (by decide)).append
        ((valid_commaSeparated ?_).append (valid_literal (by decide)))
      intro x hx
      obtain ⟨m, hm, rfl⟩ := List.mem_map.mp hx
      have := Value.depth_le_members hm
      rw [Value.depth] at hd
      exact (valid_quote m.1).append ((valid_literal (s := [0x3a]) (by decide)).append
        (ih (by omega) (NumberTokens.member hnum rfl hm)))

theorem mapStrings_repair {d : ℕ} {v : Value} (hd : v.depth ≤ d) (h : v.Utf8Strings) :
    v.mapStrings repair = v.mapStrings id := by
  induction d generalizing v with
  | zero => exact absurd (Value.depth_pos v) (by omega)
  | succ d ih =>
    obtain ⟨t, b, s, items, ms⟩ := v
    cases t with
    | null => rfl
    | bool => rfl
    | number => rfl
    | string =>
      have hs : Utf8.Valid s := (h _ Value.Inside.self).1 rfl
      rw [Value.mapStrings, Value.mapStrings, repair_valid hs, id]
    | array =>
      rw [Value.mapStrings, Value.mapStrings, Value.mapItems_eq, Value.mapItems_eq]
      congr 1
      refine List.map_congr_left fun x hx => ih ?_ (Utf8Strings.item h rfl hx)
      have := Value.depth_le_items hx
      rw [Value.depth] at hd
      omega
    | object =>
      rw [Value.mapStrings, Value.mapStrings, Value.mapMembers_eq, Value.mapMembers_eq]
      congr 1
      refine List.map_congr_left fun m hm => ?_
      have hkey : Utf8.Valid m.1 := (h _ Value.Inside.self).2 rfl m hm
      have := Value.depth_le_members hm
      rw [Value.depth] at hd
      rw [repair_valid hkey, ih (by omega) (Utf8Strings.member h rfl hm), id]

namespace Value

/-- The values that are parsed or put together with `set` on objects and `push` on arrays. -/
inductive Built : Value → Prop
  | parsed {input : Bytes} {v : Value} : parse input = some v → Built v
  | null : Built null
  | boolean (b : Bool) : Built (boolean b)
  | string (s : Bytes) : Built (string s)
  | number (text : Bytes) : Built (numberText text)
  | array : Built (ofItems [])
  | object : Built (ofMembers [])
  | set {v x : Value} (key : Bytes) : Built v → (v.type = .object ∨ v = Value.null) → Built x →
      Built (v.set key x)
  | push {v x : Value} : Built v → (v.type = .array ∨ v = Value.null) → Built x → Built (v.push x)

theorem ofItems_plain {items : List Value} (h : ∀ x ∈ items, x.mapStrings id = x) :
    (ofItems items).mapStrings id = ofItems items := by
  rw [ofItems, mapStrings, mapItems_eq, List.map_congr_left h, List.map_id']
  rfl

theorem ofMembers_plain {ms : List (Bytes × Value)} (h : ∀ m ∈ ms, m.2.mapStrings id = m.2) :
    (ofMembers ms).mapStrings id = ofMembers ms := by
  have hmap : ms.map (fun m => (id m.1, mapStrings id m.2)) = ms := by
    conv_rhs => rw [← List.map_id ms]
    refine List.map_congr_left fun m hm => ?_
    rw [h m hm]
    rfl
  rw [ofMembers, mapStrings, mapMembers_eq, hmap]
  rfl

theorem plain_array {v : Value} (h : v.mapStrings id = v) (ht : v.type = .array) :
    ∃ items, v = ofItems items ∧ ∀ x ∈ items, x.mapStrings id = x := by
  obtain ⟨t, b, s, items, ms⟩ := v
  cases ht
  rw [mapStrings, mapItems_eq, ofItems, mk.injEq] at h
  obtain ⟨-, hb, hs, hitems, hms⟩ := h
  refine ⟨items, by rw [← hb, ← hs, ← hms]; rfl, ?_⟩
  exact List.map_inj_left.mp (hitems.trans (List.map_id items).symm)

theorem plain_object {v : Value} (h : v.mapStrings id = v) (ht : v.type = .object) :
    ∃ ms, v = ofMembers ms ∧ ∀ m ∈ ms, m.2.mapStrings id = m.2 := by
  obtain ⟨t, b, s, items, ms⟩ := v
  cases ht
  rw [mapStrings, mapMembers_eq, ofMembers, mk.injEq] at h
  obtain ⟨-, hb, hs, hitems, hms⟩ := h
  refine ⟨ms, by rw [← hb, ← hs, ← hitems]; rfl, fun m hm => ?_⟩
  exact congrArg Prod.snd (List.map_inj_left.mp (hms.trans (List.map_id ms).symm) m hm)

end Value

theorem mem_assign {V : Type*} {ms : List (Bytes × V)} {k : Bytes} {v : V} {m : Bytes × V}
    (h : m ∈ assign ms k v) : m = (k, v) ∨ m ∈ ms := by
  unfold assign at h
  split at h
  · obtain ⟨m', hm', rfl⟩ := List.mem_map.mp h
    split
    · exact Or.inl rfl
    · exact Or.inr hm'
  · rcases List.mem_append.mp h with h | h
    · exact Or.inr h
    · exact Or.inl (List.mem_singleton.mp h)

theorem mem_lastWins {V : Type*} {ms : List (Bytes × V)} {m : Bytes × V} (h : m ∈ lastWins ms) :
    m ∈ ms := by
  simp only [lastWins, List.mem_filterMap, Option.map_eq_some_iff] at h
  obtain ⟨k, -, v, hv, rfl⟩ := h
  obtain ⟨l₁, l₂, hsplit, -⟩ := List.lookup_eq_some_iff.mp hv
  have : (k, v) ∈ ms.reverse := by rw [hsplit]; simp
  exact List.mem_reverse.mp this

theorem plain_denoted {d : ℕ} {t : Bytes} {v : Value} (h : JsonValue valueMeaning d t v) :
    v.mapStrings id = v := by
  induction h with
  | null => rfl
  | true => rfl
  | false => rfl
  | number => rfl
  | string => rfl
  | emptyArray => rfl
  | emptyObject => rfl
  | array d es _ _ _ ih =>
    refine Value.ofItems_plain fun x hx => ?_
    obtain ⟨e, he, rfl⟩ := List.mem_map.mp hx
    exact ih e he
  | object d es _ _ _ _ ih =>
    refine Value.ofMembers_plain fun m hm => ?_
    obtain ⟨e, he, rfl⟩ := List.mem_map.mp (mem_lastWins hm)
    exact ih e he

/-- A value that was parsed, or built with `set` and `push`, is all that its type reads. -/
theorem Value.Built.plain {v : Value} (h : v.Built) : v.mapStrings id = v := by
  induction h with
  | parsed h =>
    obtain ⟨_, _, _, _, _, hval, _⟩ := (parse_afterBom_iff _ _).mp h
    exact plain_denoted hval
  | null => rfl
  | boolean => rfl
  | string => rfl
  | number => rfl
  | array => rfl
  | object => rfl
  | @set v x key _ ht _ ihv ihx =>
    obtain ⟨ms, hset, hms⟩ : ∃ ms, v.set key x = ofMembers (assign ms key x) ∧
        ∀ m ∈ ms, m.2.mapStrings id = m.2 := by
      rcases ht with ht | rfl
      · obtain ⟨ms, rfl, hms⟩ := plain_object ihv ht
        exact ⟨ms, rfl, hms⟩
      · exact ⟨[], rfl, by simp⟩
    rw [hset]
    refine ofMembers_plain fun m hm => ?_
    rcases mem_assign hm with rfl | hm
    · exact ihx
    · exact hms m hm
  | @push v x _ ht _ ihv ihx =>
    obtain ⟨items, hpush, hitems⟩ : ∃ items, v.push x = ofItems (items ++ [x]) ∧
        ∀ y ∈ items, y.mapStrings id = y := by
      rcases ht with ht | rfl
      · obtain ⟨items, rfl, hitems⟩ := plain_array ihv ht
        exact ⟨items, rfl, hitems⟩
      · exact ⟨[], rfl, by simp⟩
    rw [hpush]
    refine ofItems_plain fun y hy => ?_
    rcases List.mem_append.mp hy with hy | hy
    · exact hitems y hy
    · rw [List.mem_singleton.mp hy]
      exact ihx

theorem parse_write {v : Value} (hnum : v.NumberTokens) (hdepth : v.depth ≤ kMaxDepth)
    (hkeys : v.DistinctKeys) : parse (dump v) = some (v.mapStrings repair) := by
  have hval := jsonValue_write hdepth hnum hkeys
  rw [parse_afterBom_iff]
  have hbom : afterBom (dump v) = dump v := by
    unfold afterBom
    rw [if_neg]
    intro heq
    have hfirst := JsonText.first ⟨[], write v, [], Ws.nil, Ws.nil, hval, rfl⟩
    rw [List.nil_append, List.append_nil] at hfirst
    have hsplit := take_drop_eq heq
    rw [dump] at hsplit
    exact hfirst (by rw [hsplit]; rfl)
  rw [hbom]
  exact ⟨[], write v, [], Ws.nil, Ws.nil, hval, by simp [dump]⟩

/-- `parse` after `dump`: the strings are repaired, and nothing else changes. -/
theorem parse_dump (v : Value) (hnum : v.NumberTokens) (hdepth : v.depth ≤ 128)
    (hkeys : v.DistinctKeys) :
    parse (dump v) = some (v.mapStrings repair) ∧
      (∀ s t, Utf8.Repaired s t ↔ t = repair s) ∧
      (v.Utf8Strings → parse (dump v) = some (v.mapStrings id)) ∧
      (v.Built → v.mapStrings id = v) ∧
      Utf8.Valid (dump v) := by
  have hparse := parse_write hnum hdepth hkeys
  refine ⟨hparse, repaired_iff, fun hutf8 => ?_, Value.Built.plain, valid_write hdepth hnum⟩
  rw [hparse, mapStrings_repair hdepth hutf8]

def brokenKey : Value := Value.ofMembers [([0xff], Value.ofItems [Value.numberText [0x31]])]

theorem parse_dump_brokenKey :
    parse (dump brokenKey)
      = some (Value.ofMembers [([0xef, 0xbf, 0xbd], Value.ofItems [Value.numberText [0x31]])]) := by
  have hnum : brokenKey.NumberTokens := by
    intro u hu ht
    cases hu with
    | self => cases ht
    | item harr => cases harr
    | member _ hm hin =>
      rw [List.mem_singleton.mp hm] at hin
      cases hin with
      | self => cases ht
      | member hobj => cases hobj
      | item _ hx hin =>
        rw [List.mem_singleton.mp hx] at hin
        cases hin with
        | self => exact ⟨[], [0x31], [], [], Or.inl rfl, IntPart.digits 0x31 [] (by decide)
            (by decide) (by simp), Or.inl rfl, Or.inl rfl, rfl⟩
        | item harr => cases harr
        | member hobj => cases hobj
  have hkeys : brokenKey.DistinctKeys := by
    intro u hu ht
    cases hu with
    | self => decide
    | item harr => cases harr
    | member _ hm hin =>
      rw [List.mem_singleton.mp hm] at hin
      cases hin with
      | self => cases ht
      | member hobj => cases hobj
      | item _ hx hin =>
        rw [List.mem_singleton.mp hx] at hin
        cases hin with
        | self => cases ht
        | item harr => cases harr
        | member hobj => cases hobj
  exact (parse_dump brokenKey hnum (by decide) hkeys).1

end CheatEngine.Json
