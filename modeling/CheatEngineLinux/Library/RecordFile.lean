import Mathlib.Data.List.GetD
import Mathlib.Tactic

/-!
# Files of fixed-size records

A file is a list of bytes that writers append to and readers read at an offset.  A record
stream is a file made of encodings of one size, one after the other.

* `leBytes` / `leNat_leBytes` — **PROVED**: a number below `256 ^ k` survives `k` little-endian
  bytes;
* `pread` — a positional read, which a short file fails; `records` — a file cut into records;
* `pread_flatMap` — **PROVED**: records `[i, i + n)` of a stream are read at `i * k`.
-/

namespace RecordFile

/-- The `k` low bytes of a number, lowest first. -/
def leBytes : ℕ → ℕ → List UInt8
  | 0, _ => []
  | k + 1, n => UInt8.ofNat (n % 256) :: leBytes k (n / 256)

/-- The number a little-endian byte string stands for. -/
def leNat : List UInt8 → ℕ
  | [] => 0
  | b :: bs => b.toNat + 256 * leNat bs

@[simp] theorem leBytes_length (k n : ℕ) : (leBytes k n).length = k := by
  induction k generalizing n with
  | zero => rfl
  | succ k ih => rw [leBytes, List.length_cons, ih]

theorem leNat_leBytes (k n : ℕ) (h : n < 256 ^ k) : leNat (leBytes k n) = n := by
  induction k generalizing n with
  | zero =>
    rw [pow_zero] at h
    rw [leBytes, leNat]
    omega
  | succ k ih =>
    have hdiv : n / 256 < 256 ^ k := by
      rw [Nat.div_lt_iff_lt_mul (by decide)]
      rw [pow_succ] at h
      exact h
    rw [leBytes, leNat, ih _ hdiv, UInt8.toNat_ofNat']
    omega

theorem leNat_leBytes_mod (k n : ℕ) : leNat (leBytes k n) = n % 256 ^ k := by
  induction k generalizing n with
  | zero => rw [leBytes, leNat, pow_zero, Nat.mod_one]
  | succ k ih =>
    have hmul : n % 256 ^ (k + 1) = n % 256 + 256 * (n / 256 % 256 ^ k) := by
      rw [pow_succ', Nat.mod_mul]
    rw [leBytes, leNat, ih, UInt8.toNat_ofNat', hmul]
    omega

theorem leNat_lt (bs : List UInt8) : leNat bs < 256 ^ bs.length := by
  induction bs with
  | nil => decide
  | cons b bs ih =>
    have hb := b.toNat_lt
    rw [leNat, List.length_cons, pow_succ]
    omega

theorem leBytes_leNat (bs : List UInt8) : leBytes bs.length (leNat bs) = bs := by
  induction bs with
  | nil => rfl
  | cons b bs ih =>
    have hb : b.toNat < 256 := b.toNat_lt
    rw [leNat, List.length_cons, leBytes, show (b.toNat + 256 * leNat bs) / 256 = leNat bs by omega,
      show (b.toNat + 256 * leNat bs) % 256 = b.toNat by omega, ih, UInt8.ofNat_toNat]

theorem leNat_eq_iff {bs : List UInt8} {k n : ℕ} (hlen : bs.length = k) (hn : n < 256 ^ k) :
    leNat bs = n ↔ bs = leBytes k n := by
  refine ⟨fun h => ?_, fun h => ?_⟩
  · rw [← h, ← hlen, leBytes_leNat]
  · rw [h, leNat_leBytes k n hn]

/-- Read `len` bytes at `off`; a file that ends before them fails the read. -/
def pread (file : List UInt8) (len off : ℕ) : Option (List UInt8) :=
  let got := (file.drop off).take len
  if got.length = len then some got else none

theorem pread_eq_some {file : List UInt8} {len off : ℕ} (h : off + len ≤ file.length) :
    pread file len off = some ((file.drop off).take len) := by
  rw [pread]
  exact if_pos (by rw [List.length_take, List.length_drop]; omega)

/-- Cut a file into records of `k` bytes, `n` of them. -/
def records (k : ℕ) : ℕ → List UInt8 → List (List UInt8)
  | 0, _ => []
  | n + 1, file => file.take k :: records k n (file.drop k)

section Stream

variable {α : Type} {enc : α → List UInt8} {k : ℕ}

theorem flatMap_length (l : List α) (h : ∀ a ∈ l, (enc a).length = k) :
    (l.flatMap enc).length = l.length * k := by
  induction l with
  | nil => simp
  | cons a l ih =>
    rw [List.flatMap_cons, List.length_append, h a List.mem_cons_self,
      ih fun b hb => h b (List.mem_cons_of_mem _ hb), List.length_cons, Nat.succ_mul]
    omega

theorem drop_flatMap (l : List α) (h : ∀ a ∈ l, (enc a).length = k) (i : ℕ) :
    (l.flatMap enc).drop (i * k) = (l.drop i).flatMap enc := by
  induction i generalizing l with
  | zero => simp
  | succ i ih =>
    cases l with
    | nil => simp
    | cons a l =>
      rw [List.flatMap_cons, Nat.succ_mul, Nat.add_comm, ← List.drop_drop,
        List.drop_left' (h a List.mem_cons_self), ih l fun b hb => h b (List.mem_cons_of_mem _ hb),
        List.drop_succ_cons]

theorem take_flatMap (l : List α) (h : ∀ a ∈ l, (enc a).length = k) (n : ℕ) :
    (l.flatMap enc).take (n * k) = (l.take n).flatMap enc := by
  induction n generalizing l with
  | zero => simp
  | succ n ih =>
    cases l with
    | nil => simp
    | cons a l =>
      have ha := h a List.mem_cons_self
      rw [List.flatMap_cons, Nat.succ_mul, Nat.add_comm, List.take_append, ha,
        List.take_of_length_le (by omega), Nat.add_sub_cancel_left,
        ih l fun b hb => h b (List.mem_cons_of_mem _ hb), List.take_succ_cons, List.flatMap_cons]

/-- Reading whole records of a stream. -/
theorem pread_flatMap (l : List α) (h : ∀ a ∈ l, (enc a).length = k) {i n : ℕ}
    (hin : i + n ≤ l.length) :
    pread (l.flatMap enc) (n * k) (i * k) = some (((l.drop i).take n).flatMap enc) := by
  have hlen := flatMap_length l h
  have hle : i * k + n * k ≤ (l.flatMap enc).length := by
    rw [hlen, ← Nat.add_mul]
    exact Nat.mul_le_mul_right k hin
  rw [pread_eq_some hle, drop_flatMap l h,
    take_flatMap _ fun a ha => h a (List.mem_of_mem_drop ha)]

theorem pread_record (l : List α) (h : ∀ a ∈ l, (enc a).length = k) {i m : ℕ} {a : α}
    (hi : l[i]? = some a) (hm : m ≤ k) :
    pread (l.flatMap enc) m (i * k) = some ((enc a).take m) := by
  obtain ⟨hlt, hget⟩ := List.getElem?_eq_some_iff.mp hi
  have hlen := flatMap_length l h
  have hle : i * k + m ≤ (l.flatMap enc).length := by
    have : (i + 1) * k ≤ l.length * k := Nat.mul_le_mul_right k hlt
    rw [hlen]
    rw [Nat.succ_mul] at this
    omega
  have ha : (enc a).length = k := h a (hget ▸ List.getElem_mem hlt)
  rw [pread_eq_some hle, drop_flatMap l h, List.drop_eq_getElem_cons hlt, hget,
    List.flatMap_cons, List.take_append_of_le_length (by omega)]

theorem records_flatMap (l : List α) (h : ∀ a ∈ l, (enc a).length = k) :
    records k l.length (l.flatMap enc) = l.map enc := by
  induction l with
  | nil => rfl
  | cons a l ih =>
    have ha := h a List.mem_cons_self
    rw [List.length_cons, records, List.flatMap_cons, List.take_left' ha, List.drop_left' ha,
      ih fun b hb => h b (List.mem_cons_of_mem _ hb), List.map_cons]

end Stream

end RecordFile
