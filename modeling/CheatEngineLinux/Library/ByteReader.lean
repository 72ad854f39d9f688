import CheatEngineLinux.Library.RecordFile

/-!
# Reading a file from front to back

A reader takes bytes off the front of a file or fails with a message.  A file of records is
written as the concatenation of their encodings, and what matters of a reader on an encoding is
that it reads it back before any rest and that it fails on every truncation of it.

* `Reads` — a reader reads back an encoding, and fails on its strict prefixes; `Rejects` — it
  fails on an encoding, however it is cut or continued;
* `Reads.bind`, `Reads.readMany` — **PROVED**: both hold of sequences and of repetitions;
* `Decides.strictPrefix` — **PROVED**: where a reader does one or the other, it fails on every
  strict prefix.
-/

namespace ByteReader

open RecordFile

/-- A reader of bytes that may fail. -/
abbrev Reader (α : Type) := StateT (List UInt8) (Except String) α

/-- The next `n` bytes. -/
def readAll (n : ℕ) (message : String) : Reader (List UInt8) := fun s =>
  if n ≤ s.length then .ok (s.take n, s.drop n) else .error message

/-- The next `k` bytes as a little-endian number. -/
def readNat (k : ℕ) (message : String) : Reader ℕ := do
  let bytes ← readAll k message
  return leNat bytes

/-- Fails unless a condition holds. -/
def require (c : Bool) (message : String) : Reader Unit := fun s =>
  if c then .ok ((), s) else .error message

/-- Fails unless `n` bytes are left. -/
def requireLeft (n : ℕ) (message : String) : Reader Unit := fun s =>
  if n ≤ s.length then .ok ((), s) else .error message

/-- A reader `n` times. -/
def readMany {α : Type} (p : Reader α) : ℕ → Reader (List α)
  | 0 => return []
  | n + 1 => do
    let a ← p
    let rest ← readMany p n
    return a :: rest

def Fails {α : Type} (p : Reader α) (s : List UInt8) : Prop := ∃ message, p s = .error message

/-- `p` reads `a` back from `bytes`, and fails on every truncation of them. -/
structure Reads {α : Type} (p : Reader α) (bytes : List UInt8) (a : α) : Prop where
  exact : ∀ rest, p (bytes ++ rest) = .ok (a, rest)
  short : ∀ s, s <+: bytes → s ≠ bytes → Fails p s

/-- `p` fails on `bytes`, on every truncation and on every continuation of them. -/
structure Rejects {α : Type} (p : Reader α) (bytes : List UInt8) : Prop where
  long : ∀ rest, Fails p (bytes ++ rest)
  short : ∀ s, s <+: bytes → Fails p s

/-- `p` reads `bytes` or rejects them. -/
def Decides {α : Type} (p : Reader α) (bytes : List UInt8) : Prop :=
  (∃ a, Reads p bytes a) ∨ Rejects p bytes

variable {α β : Type} {p : Reader α} {f : α → Reader β} {bytes more : List UInt8} {a : α} {b : β}

theorem Decides.strictPrefix (h : Decides p bytes) {s : List UInt8} (hs : s <+: bytes)
    (hne : s ≠ bytes) : Fails p s := by
  rcases h with ⟨a, h⟩ | h
  · exact h.short s hs hne
  · exact h.short s hs

theorem bind_ok {s rest : List UInt8} (h : p s = .ok (a, rest)) : (p >>= f) s = f a rest := by
  change (p s >>= fun r => f r.1 r.2) = _
  rw [h]
  rfl

theorem bind_fails {s : List UInt8} (h : Fails p s) : Fails (p >>= f) s := by
  obtain ⟨message, h⟩ := h
  refine ⟨message, ?_⟩
  change (p s >>= fun r => f r.1 r.2) = _
  rw [h]
  rfl

/-- What a sequence of readers reads. -/
theorem bind_eq_ok {s rest : List UInt8} :
    (p >>= f) s = .ok (b, rest) ↔ ∃ a between, p s = .ok (a, between) ∧ f a between = .ok (b, rest) := by
  change (p s >>= fun r => f r.1 r.2) = _ ↔ _
  cases hp : p s with
  | error message => simp [bind, Except.bind]
  | ok r =>
    constructor
    · intro h
      exact ⟨r.1, r.2, rfl, h⟩
    · rintro ⟨a, between, h, hf⟩
      rw [Except.ok.inj h]
      exact hf

theorem readAll_eq_ok {n : ℕ} {message : String} {s rest : List UInt8} :
    readAll n message s = .ok (bytes, rest) ↔ bytes.length = n ∧ s = bytes ++ rest := by
  rw [readAll]
  constructor
  · intro h
    split at h
    · rename_i hle
      simp only [Except.ok.injEq, Prod.mk.injEq] at h
      rw [← h.1, ← h.2, List.length_take, List.take_append_drop]
      exact ⟨by omega, rfl⟩
    · cases h
  · rintro ⟨hlen, rfl⟩
    rw [if_pos (by rw [List.length_append]; omega), List.take_left' hlen, List.drop_left' hlen]

theorem readNat_lt {k n : ℕ} {message : String} {s rest : List UInt8}
    (h : readNat k message s = .ok (n, rest)) : n < 256 ^ k := by
  obtain ⟨bytes, between, hread, h⟩ := bind_eq_ok.mp h
  cases h
  rw [← (readAll_eq_ok.mp hread).1]
  exact leNat_lt bytes

theorem require_eq_ok {c : Bool} {message : String} {s rest : List UInt8} {u : Unit}
    (h : require c message s = .ok (u, rest)) : c = true := by
  rw [require] at h
  split at h
  · assumption
  · cases h

/-- A truncation of two parts is one of the first, or the first with one of the second. -/
theorem prefix_append_cases {s : List UInt8} (h : s <+: bytes ++ more) :
    (s <+: bytes ∧ s ≠ bytes) ∨ ∃ t, t <+: more ∧ s = bytes ++ t := by
  obtain ⟨rest, hrest⟩ := h
  rcases List.append_eq_append_iff.mp hrest with ⟨cut, hbytes, -⟩ | ⟨t, hs, hmore⟩
  · rcases eq_or_ne s bytes with heq | hne
    · exact Or.inr ⟨[], List.nil_prefix, by rw [heq, List.append_nil]⟩
    · exact Or.inl ⟨⟨cut, hbytes.symm⟩, hne⟩
  · exact Or.inr ⟨t, ⟨rest, hmore.symm⟩, hs⟩

theorem Reads.bind (hp : Reads p bytes a) (hf : Reads (f a) more b) :
    Reads (p >>= f) (bytes ++ more) b := by
  refine ⟨fun rest => ?_, fun s hs hne => ?_⟩
  · rw [List.append_assoc, bind_ok (hp.exact _), hf.exact]
  · rcases prefix_append_cases hs with ⟨hs, hcut⟩ | ⟨t, ht, rfl⟩
    · exact bind_fails (hp.short s hs hcut)
    · rw [Fails, bind_ok (hp.exact _)]
      exact hf.short t ht fun heq => hne (by rw [heq])

theorem Rejects.bind (hp : Rejects p bytes) : Rejects (p >>= f) (bytes ++ more) := by
  refine ⟨fun rest => ?_, fun s hs => ?_⟩
  · rw [List.append_assoc]
    exact bind_fails (hp.long _)
  · rcases prefix_append_cases hs with ⟨hs, -⟩ | ⟨t, -, rfl⟩
    · exact bind_fails (hp.short s hs)
    · exact bind_fails (hp.long t)

theorem Reads.bind_rejects (hp : Reads p bytes a) (hf : Rejects (f a) more) :
    Rejects (p >>= f) (bytes ++ more) := by
  refine ⟨fun rest => ?_, fun s hs => ?_⟩
  · rw [List.append_assoc, Fails, bind_ok (hp.exact _)]
    exact hf.long rest
  · rcases prefix_append_cases hs with ⟨hs, hcut⟩ | ⟨t, ht, rfl⟩
    · exact bind_fails (hp.short s hs hcut)
    · rw [Fails, bind_ok (hp.exact _)]
      exact hf.short t ht

theorem Reads.bind_decides (hp : Reads p bytes a) (hf : Decides (f a) more) :
    Decides (p >>= f) (bytes ++ more) := by
  rcases hf with ⟨b, hf⟩ | hf
  · exact Or.inl ⟨b, hp.bind hf⟩
  · exact Or.inr (hp.bind_rejects hf)

theorem Decides.bind (hp : Decides p bytes) (hf : ∀ a, Reads p bytes a → Decides (f a) more) :
    Decides (p >>= f) (bytes ++ more) := by
  rcases hp with ⟨a, hp⟩ | hp
  · exact hp.bind_decides (hf a hp)
  · exact Or.inr hp.bind

theorem reads_pure (a : α) : Reads (pure a) [] a :=
  ⟨fun _ => rfl, fun _ hs hne => absurd (List.prefix_nil.mp hs) hne⟩

theorem reads_readAll {n : ℕ} (h : bytes.length = n) (message : String) :
    Reads (readAll n message) bytes bytes := by
  refine ⟨fun rest => ?_, fun s hs hne => ⟨message, ?_⟩⟩
  · rw [readAll, if_pos (by rw [List.length_append]; omega), List.take_left' h, List.drop_left' h]
  · have hlen := hs.length_le
    have hlt : s.length ≠ bytes.length := fun heq => hne (hs.eq_of_length heq)
    rw [readAll, if_neg (by omega)]

theorem reads_readNat {k n : ℕ} (h : n < 256 ^ k) (message : String) :
    Reads (readNat k message) (leBytes k n) n := by
  have hread := reads_readAll (leBytes_length k n) message
  have hlast := @Reads.bind _ _ _ (fun bytes => pure (leNat bytes)) _ [] _ _ hread
    (reads_pure (leNat (leBytes k n)))
  rw [List.append_nil, leNat_leBytes k n h] at hlast
  exact hlast

theorem reads_require {c : Bool} (hc : c = true) (message : String) :
    Reads (require c message) [] () := by
  refine ⟨fun rest => ?_, fun s hs hne => absurd (List.prefix_nil.mp hs) hne⟩
  rw [require, if_pos hc]
  rfl

theorem rejects_require {c : Bool} (hc : c = false) (message : String) :
    Rejects (require c message) [] :=
  ⟨fun rest => ⟨message, by rw [require, hc]; rfl⟩, fun s _ => ⟨message, by rw [require, hc]; rfl⟩⟩

theorem decides_require (c : Bool) (message : String) : Decides (require c message) [] := by
  cases hc : c with
  | true => exact Or.inl ⟨(), reads_require rfl message⟩
  | false => exact Or.inr (rejects_require rfl message)

theorem Reads.checked {c : Bool} (hc : c = true) (message : String) {q : Unit → Reader β}
    (hq : Reads (q ()) bytes b) : Reads (require c message >>= q) bytes b :=
  (reads_require hc message).bind hq

theorem Decides.checked (c : Bool) (message : String) {q : Unit → Reader β}
    (hq : Decides (q ()) bytes) : Decides (require c message >>= q) bytes :=
  (decides_require c message).bind fun _ _ => hq

theorem Reads.mapped (hp : Reads p bytes a) (g : α → β) :
    Reads (p >>= fun a => pure (g a)) bytes (g a) := by
  have hlast := @Reads.bind α β p (fun a => pure (g a)) bytes [] a (g a) hp (reads_pure (g a))
  rwa [List.append_nil] at hlast

theorem Decides.mapped (hp : Decides p bytes) (g : α → β) :
    Decides (p >>= fun a => pure (g a)) bytes := by
  have hlast := @Decides.bind α β p (fun a => pure (g a)) bytes [] hp
    fun a _ => Or.inl ⟨g a, reads_pure (g a)⟩
  rwa [List.append_nil] at hlast

theorem Reads.requireLeft {q : Reader β} (hq : Reads q bytes b) {n : ℕ} (h : n ≤ bytes.length)
    (message : String) : Reads (ByteReader.requireLeft n message >>= fun _ => q) bytes b := by
  refine ⟨fun rest => ?_, fun s hs hne => ?_⟩
  · have hleft : ByteReader.requireLeft n message (bytes ++ rest) = .ok ((), bytes ++ rest) := by
      rw [ByteReader.requireLeft, if_pos (by rw [List.length_append]; omega)]
    rw [bind_ok hleft, hq.exact]
  · rcases Nat.lt_or_ge s.length n with hlt | hge
    · exact bind_fails ⟨message, by rw [ByteReader.requireLeft, if_neg (by omega)]⟩
    · have hleft : ByteReader.requireLeft n message s = .ok ((), s) := by
        rw [ByteReader.requireLeft, if_pos hge]
      rw [Fails, bind_ok hleft]
      exact hq.short s hs hne

theorem Rejects.requireLeft {q : Reader β} (hq : Rejects q bytes) (n : ℕ) (message : String) :
    Rejects (ByteReader.requireLeft n message >>= fun _ => q) bytes := by
  have hfails : ∀ s, Fails q s → Fails (ByteReader.requireLeft n message >>= fun _ => q) s := by
    intro s hs
    by_cases hle : n ≤ s.length
    · have hleft : ByteReader.requireLeft n message s = .ok ((), s) := by
        rw [ByteReader.requireLeft, if_pos hle]
      rw [Fails, bind_ok hleft]
      exact hs
    · exact bind_fails ⟨message, by rw [ByteReader.requireLeft, if_neg hle]⟩
  exact ⟨fun rest => hfails _ (hq.long rest), fun s hs => hfails _ (hq.short s hs)⟩

theorem Decides.requireLeft {q : Reader β} (hq : Decides q bytes) {n : ℕ} (h : n ≤ bytes.length)
    (message : String) : Decides (ByteReader.requireLeft n message >>= fun _ => q) bytes := by
  rcases hq with ⟨b, hq⟩ | hq
  · exact Or.inl ⟨b, hq.requireLeft h message⟩
  · exact Or.inr (hq.requireLeft n message)

theorem Reads.readMany {enc : α → List UInt8} {l : List α} (h : ∀ a ∈ l, Reads p (enc a) a) :
    Reads (ByteReader.readMany p l.length) (l.flatMap enc) l := by
  induction l with
  | nil => exact reads_pure []
  | cons a l ih =>
    have hrest := ih fun b hb => h b (List.mem_cons_of_mem _ hb)
    exact (h a List.mem_cons_self).bind (hrest.mapped (a :: ·))

theorem Decides.readMany {γ : Type} {enc : γ → List UInt8} {l : List γ}
    (h : ∀ c ∈ l, Decides p (enc c)) :
    Decides (ByteReader.readMany p l.length) (l.flatMap enc) := by
  induction l with
  | nil => exact Or.inl ⟨[], reads_pure []⟩
  | cons c l ih =>
    have hrest := ih fun b hb => h b (List.mem_cons_of_mem _ hb)
    refine (h c List.mem_cons_self).bind fun a _ => ?_
    exact hrest.mapped (a :: ·)

theorem readMany_forall {P : α → Prop} (hp : ∀ s a rest, p s = .ok (a, rest) → P a) {n : ℕ}
    {s rest : List UInt8} {l : List α} (h : readMany p n s = .ok (l, rest)) : ∀ a ∈ l, P a := by
  induction n generalizing s l with
  | zero =>
    cases h
    exact fun _ ha => absurd ha List.not_mem_nil
  | succ n ih =>
    obtain ⟨a, between, ha, h⟩ := bind_eq_ok.mp h
    obtain ⟨more, between', hmore, h⟩ := bind_eq_ok.mp h
    cases h
    exact List.forall_mem_cons.mpr ⟨hp _ _ _ ha, ih hmore⟩

end ByteReader
