import Mathlib.Data.List.Basic

/-!
# UTF-8 byte strings

A sequence of UTF-8 is what `String.utf8EncodeChar` makes of a character: it has no overlong
forms, no surrogates and nothing above U+10FFFF.

* `exists_char_two`, `exists_char_three`, `exists_char_four` — **PROVED**: the lead and tail bytes
  that make a sequence of each length;
* `Valid.repaired` — **PROVED**: replacing what is not UTF-8 leaves what is.
-/

namespace Utf8

abbrev Bytes := List UInt8

open String (utf8EncodeChar)

/-- A byte string that is UTF-8. -/
def Valid (s : Bytes) : Prop := ∃ chars : List Char, s = chars.flatMap utf8EncodeChar

theorem Valid.nil : Valid [] := ⟨[], rfl⟩

theorem Valid.char (c : Char) : Valid (utf8EncodeChar c) := ⟨[c], by simp⟩

theorem Valid.append {s t : Bytes} (hs : Valid s) (ht : Valid t) : Valid (s ++ t) := by
  obtain ⟨cs, rfl⟩ := hs
  obtain ⟨ds, rfl⟩ := ht
  exact ⟨cs ++ ds, by simp⟩

theorem toNat_lt (c : Char) : c.toNat < 0x110000 := by
  rcases c.valid with h | h <;> simp only [Char.toNat] at * <;> omega

theorem toNat_scalar (c : Char) : c.toNat < 0xd800 ∨ 0xdfff < c.toNat := by
  rcases c.valid with h | h <;> simp only [Char.toNat] at * <;> omega

theorem exists_char {n : ℕ} (h : n < 0xd800 ∨ (0xdfff < n ∧ n < 0x110000)) :
    ∃ c : Char, c.toNat = n :=
  ⟨Char.ofNatAux n h, rfl⟩

/-! ### Sequences by their bytes -/

theorem encode_one {c : Char} (h : c.toNat < 0x80) : utf8EncodeChar c = [UInt8.ofNat c.toNat] := by
  unfold String.utf8EncodeChar
  simp only [show c.val.toNat = c.toNat from rfl]
  rw [if_pos (by omega)]

theorem encode_two {c : Char} (h : 0x80 ≤ c.toNat) (h' : c.toNat < 0x800) :
    utf8EncodeChar c = [UInt8.ofNat (c.toNat / 64 % 32 + 0xc0), UInt8.ofNat (c.toNat % 64 + 0x80)] := by
  unfold String.utf8EncodeChar
  simp only [show c.val.toNat = c.toNat from rfl]
  rw [if_neg (by omega), if_pos (by omega)]

theorem encode_three {c : Char} (h : 0x800 ≤ c.toNat) (h' : c.toNat < 0x10000) :
    utf8EncodeChar c = [UInt8.ofNat (c.toNat / 4096 % 16 + 0xe0),
      UInt8.ofNat (c.toNat / 64 % 64 + 0x80), UInt8.ofNat (c.toNat % 64 + 0x80)] := by
  unfold String.utf8EncodeChar
  simp only [show c.val.toNat = c.toNat from rfl]
  rw [if_neg (by omega), if_neg (by omega), if_pos (by omega)]

theorem encode_four {c : Char} (h : 0x10000 ≤ c.toNat) :
    utf8EncodeChar c = [UInt8.ofNat (c.toNat / 262144 % 8 + 0xf0),
      UInt8.ofNat (c.toNat / 4096 % 64 + 0x80), UInt8.ofNat (c.toNat / 64 % 64 + 0x80),
      UInt8.ofNat (c.toNat % 64 + 0x80)] := by
  unfold String.utf8EncodeChar
  simp only [show c.val.toNat = c.toNat from rfl]
  rw [if_neg (by omega), if_neg (by omega), if_neg (by omega)]

theorem ofNat_eq {n : ℕ} {b : UInt8} (h : n = b.toNat) : UInt8.ofNat n = b := by
  rw [h, UInt8.ofNat_toNat]

theorem valid_ascii {b : UInt8} (h : b.toNat < 0x80) : ∃ c : Char, [b] = utf8EncodeChar c := by
  obtain ⟨c, hc⟩ := exists_char (n := b.toNat) (by omega)
  refine ⟨c, ?_⟩
  rw [encode_one (by omega), ofNat_eq hc]

theorem exists_char_two {a b : UInt8} (ha : 0xc2 ≤ a.toNat) (ha' : a.toNat ≤ 0xdf)
    (hb : 0x80 ≤ b.toNat) (hb' : b.toNat ≤ 0xbf) : ∃ c : Char, [a, b] = utf8EncodeChar c := by
  obtain ⟨c, hc⟩ := exists_char (n := (a.toNat - 0xc0) * 64 + (b.toNat - 0x80)) (by omega)
  refine ⟨c, ?_⟩
  rw [encode_two (by omega) (by omega), ofNat_eq (b := a) (by omega), ofNat_eq (b := b) (by omega)]

theorem exists_char_three {a b d : UInt8} (ha : 0xe0 ≤ a.toNat) (ha' : a.toNat ≤ 0xef)
    (hb : 0x80 ≤ b.toNat) (hb' : b.toNat ≤ 0xbf) (he0 : a.toNat = 0xe0 → 0xa0 ≤ b.toNat)
    (hed : a.toNat = 0xed → b.toNat ≤ 0x9f) (hd : 0x80 ≤ d.toNat) (hd' : d.toNat ≤ 0xbf) :
    ∃ c : Char, [a, b, d] = utf8EncodeChar c := by
  obtain ⟨c, hc⟩ := exists_char
    (n := (a.toNat - 0xe0) * 4096 + (b.toNat - 0x80) * 64 + (d.toNat - 0x80)) (by omega)
  refine ⟨c, ?_⟩
  rw [encode_three (by omega) (by omega), ofNat_eq (b := a) (by omega),
    ofNat_eq (b := b) (by omega), ofNat_eq (b := d) (by omega)]

theorem exists_char_four {a b d e : UInt8} (ha : 0xf0 ≤ a.toNat) (ha' : a.toNat ≤ 0xf4)
    (hb : 0x80 ≤ b.toNat) (hb' : b.toNat ≤ 0xbf) (hf0 : a.toNat = 0xf0 → 0x90 ≤ b.toNat)
    (hf4 : a.toNat = 0xf4 → b.toNat ≤ 0x8f) (hd : 0x80 ≤ d.toNat) (hd' : d.toNat ≤ 0xbf)
    (he : 0x80 ≤ e.toNat) (he' : e.toNat ≤ 0xbf) : ∃ c : Char, [a, b, d, e] = utf8EncodeChar c := by
  obtain ⟨c, hc⟩ := exists_char (n := (a.toNat - 0xf0) * 262144 + (b.toNat - 0x80) * 4096
    + (d.toNat - 0x80) * 64 + (e.toNat - 0x80)) (by omega)
  refine ⟨c, ?_⟩
  rw [encode_four (by omega), ofNat_eq (b := a) (by omega), ofNat_eq (b := b) (by omega),
    ofNat_eq (b := d) (by omega), ofNat_eq (b := e) (by omega)]

/-! ### Replacing what is not UTF-8 -/

/-- U+FFFD -/
def replacement : Bytes := [0xef, 0xbf, 0xbd]

/-- `t` is `s` with each byte that starts no sequence replaced. -/
inductive Repaired : Bytes → Bytes → Prop
  | nil : Repaired [] []
  | char (c : Char) {s t : Bytes} : Repaired s t → Repaired (utf8EncodeChar c ++ s) (utf8EncodeChar c ++ t)
  | bad (b : UInt8) {s t : Bytes} : (∀ (c : Char) (rest : Bytes), b :: s ≠ utf8EncodeChar c ++ rest) →
      Repaired s t → Repaired (b :: s) (replacement ++ t)

theorem Valid.repaired {s : Bytes} (h : Valid s) : Repaired s s := by
  obtain ⟨chars, rfl⟩ := h
  induction chars with
  | nil => exact Repaired.nil
  | cons c chars ih => exact Repaired.char c ih

end Utf8
