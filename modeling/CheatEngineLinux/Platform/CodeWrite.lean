import Mathlib.Algebra.Group.Nat.Defs
import CheatEngineLinux.Library.ByteOverlay
import CheatEngineLinux.Library.Stops

/-!
# Code writes that can be taken back

The model of `CodeWriteRecovery` (`src/platform/linux/code_write.cpp`): a write to the code of
another process, in pieces of 64 KiB, that remembers how much of the range it may have changed, and
its restoration.  Every `pread` and `pwrite` takes its answer from outside, so that any pattern of
failing, interrupted, short and full calls can be followed.  The identity checks of `prepare` come
in as their one result.

* `Task`: the process behind the descriptor, with the answers still to come.
* `prepare`, `verify`, `write`, `restore`, `overlaps`: the methods.
* `Owned`: what is not attempted is as it was.
* `CleanWrite`: no interrupted `pwrite` changed what lies past the count of the short `pwrite` that
  the retry got.

* **PROVED `write_owned_iff`**: after a write all changed bytes are attempted ones if and only if it
  was clean.
* **PROVED `code_write_taken_back`**: all that holds of any sequence of clean writes and of
  restorations.
-/

namespace CheatEngine.CodeWrite

open ByteOverlay Stops

/-! ### The calls -/

def EINTR : ℕ := 4
def EIO : ℕ := 5
def EINVAL : ℕ := 22
/-- `std::errc::operation_canceled`. -/
def ECANCELED : ℕ := 125

/-- What `pread` answers. -/
inductive ReadReply
  | fail (errno : ℕ)
  /-- It reads no more than so many bytes. -/
  | got (n : ℕ)

/-- What `pwrite` answers. -/
inductive WriteReply
  /-- An error may be reported after some bytes of the piece have changed, to anything. -/
  | fail (errno : ℕ) (changed : ℕ → Option UInt8)
  /-- It writes no more than so many bytes. -/
  | wrote (n : ℕ)

/-- The process behind the descriptor. -/
structure Task where
  mem : ℕ → UInt8
  reads : List ReadReply
  writes : List WriteReply

/-- Why a method does not go on: an error code, or a call that has not been answered. -/
inductive Stop
  | failed (errno : ℕ)
  | waiting
  deriving DecidableEq

structure CodeWriteRecovery where
  fd : Task
  address : ℕ
  attempted : ℕ
  original : List UInt8

/-- `do {read=pread(…);} while (read<0 && errno==EINTR);` -/
def preadRetry (mem : ℕ → UInt8) (address count : ℕ) :
    List ReadReply → Except Stop (List UInt8) × List ReadReply
  | [] => (.error .waiting, [])
  | .fail errno :: rest =>
    if errno = EINTR then preadRetry mem address count rest else (.error (.failed errno), rest)
  | .got n :: rest => (.ok (slice mem address (min n count)), rest)

/-- The memory after a `pwrite` of a piece that failed. -/
def scramble (mem : ℕ → UInt8) (address count : ℕ) (changed : ℕ → Option UInt8) : ℕ → UInt8 :=
  fun a => if address ≤ a ∧ a < address + count then (changed (a - address)).getD (mem a) else mem a

/-- `do {written=pwrite(…);} while (written<0 && errno==EINTR);` -/
def pwriteRetry (address : ℕ) (bytes : List UInt8) :
    List WriteReply → (ℕ → UInt8) → Except Stop ℕ × (ℕ → UInt8) × List WriteReply
  | [], mem => (.error .waiting, mem, [])
  | .fail errno changed :: rest, mem =>
    let mem := scramble mem address bytes.length changed
    if errno = EINTR then pwriteRetry address bytes rest mem
    else (.error (.failed errno), mem, rest)
  | .wrote n :: rest, mem =>
    (.ok (min n bytes.length), lay mem address (bytes.take n), rest)

/-! ### The methods -/

/-- `constexpr size_t chunkSize`. -/
def chunkSize : ℕ := 65536

/-- A program over the object. -/
abbrev Method (α : Type) := Program Stop CodeWriteRecovery α

namespace CodeWriteRecovery

def changed (self : CodeWriteRecovery) : Bool :=
  self.attempted != 0

def pread (offset count : ℕ) : Method (List UInt8) := fun self =>
  let answer := preadRetry self.fd.mem (self.address + offset) count self.fd.reads
  (answer.1, { self with fd := { self.fd with reads := answer.2 } })

def pwrite (offset : ℕ) (bytes : List UInt8) : Method ℕ := fun self =>
  let answer := pwriteRetry (self.address + offset) bytes self.fd.writes self.fd.mem
  (answer.1, { self with fd := { self.fd with mem := answer.2.1, writes := answer.2.2 } })

def setAttempted (n : ℕ) : Method Unit :=
  modify fun self => { self with attempted := n }

/-- `std::span(bytes).subspan(offset, count)`. -/
def piece (bytes : List UInt8) (offset count : ℕ) : List UInt8 :=
  (bytes.drop offset).take count

def verifyPiece (bytes : List UInt8) (offset count : ℕ) : Method Unit := do
  let actual ← pread offset count
  if actual.length = 0 then throw (.failed ECANCELED)
  else if actual.length ≠ count ∨ actual ≠ piece bytes offset count then throw (.failed EIO)
  else pure ()

def verify (bytes : List UInt8) : Method Unit :=
  (pieces chunkSize bytes.length).forM fun (offset, count) => verifyPiece bytes offset count

/-- The whole piece counts as attempted before the call, and what the call reports after it. -/
def writePiece (bytes : List UInt8) (offset count : ℕ) : Method Unit := do
  setAttempted (offset + count)
  let written ← pwrite offset (piece bytes offset count)
  if written = 0 then throw (.failed ECANCELED)
  else do
    setAttempted (if written ≤ count then offset + written else offset + count)
    if written ≠ count then throw (.failed EIO) else pure ()

def write (bytes : List UInt8) : Method Unit := do
  let self ← get
  if bytes.length ≠ self.original.length ∨ self.changed = true then throw (.failed EINVAL)
  else do
    (pieces chunkSize bytes.length).forM fun (offset, count) => writePiece bytes offset count
    verify bytes

def restorePiece (original : List UInt8) (offset count : ℕ) : Method Unit := do
  let written ← pwrite offset (piece original offset count)
  if written = 0 then throw (.failed ECANCELED)
  else if written ≠ count then throw (.failed EIO)
  else pure ()

/-- Write the attempted bytes back, and make sure of it. -/
def rewrite (original : List UInt8) : Method Unit := do
  (pieces chunkSize original.length).forM fun (offset, count) => restorePiece original offset count
  verify original
  setAttempted 0

def restore : Method Unit := do
  let self ← get
  if self.changed = false then pure ()
  else do
    let original := self.original.take self.attempted
    let verdict ← attempt (verify original)
    match verdict with
    | .ok _ => setAttempted 0
    | .error .waiting => throw .waiting
    | .error (.failed errno) =>
      if errno = ECANCELED then throw (.failed errno) else rewrite original

def overlaps (self : CodeWriteRecovery) (address size : ℕ) : Bool :=
  if size = 0 ∨ self.attempted = 0 then false
  else if address ≥ self.address then decide (address - self.address < self.attempted)
  else decide (self.address - address < size)

def readPiece (offset count : ℕ) : Method Unit := do
  let bytes ← pread offset count
  if bytes.length = 0 then throw (.failed ECANCELED)
  else if bytes.length ≠ count then throw (.failed EIO)
  else modify fun self => { self with original := self.original ++ bytes }

/-- `opened` is what the identity checks and `open` come to. -/
def prepare (opened : Except ℕ Task) (address size : ℕ) : Except Stop Unit × CodeWriteRecovery :=
  let self : CodeWriteRecovery := ⟨⟨fun _ => 0, [], []⟩, address, 0, []⟩
  if size = 0 ∨ size - 1 > 2 ^ 64 - 1 - address then (.error (.failed EINVAL), self)
  else match opened with
    | .error errno => (.error (.failed errno), self)
    | .ok fd => finish ((pieces chunkSize size).forM fun (offset, count) => readPiece offset count)
        { self with fd := fd }

end CodeWriteRecovery

/-! ### Retried writes -/

/-- What interrupted calls in front leave at an offset of the piece, where they changed it. -/
def interrupted : List WriteReply → ℕ → Option UInt8
  | .fail errno changed :: rest, i =>
    if errno = EINTR then (interrupted rest i).or (changed i) else none
  | _, _ => none

/-- What the first call that is not interrupted says it has written. -/
def reported : List WriteReply → Option ℕ
  | .fail errno _ :: rest => if errno = EINTR then reported rest else none
  | .wrote n :: _ => some n
  | [] => none

/-- The answers after that call's. -/
def answered : List WriteReply → List WriteReply
  | .fail errno _ :: rest => if errno = EINTR then answered rest else rest
  | .wrote _ :: rest => rest
  | [] => []

theorem scramble_scramble (mem : ℕ → UInt8) (address count : ℕ) (first second : ℕ → Option UInt8) :
    scramble (scramble mem address count first) address count second =
      scramble mem address count fun i => (second i).or (first i) := by
  funext a
  unfold scramble
  by_cases h : address ≤ a ∧ a < address + count
  · simp only [if_pos h]
    cases second (a - address) <;> simp
  · simp only [if_neg h]

theorem scramble_none (mem : ℕ → UInt8) (address count : ℕ) :
    scramble mem address count (fun _ => none) = mem := by
  funext a
  unfold scramble
  split <;> simp

theorem scramble_outside {mem : ℕ → UInt8} {address count : ℕ} {changed : ℕ → Option UInt8} {a : ℕ}
    (h : a < address ∨ address + count ≤ a) : scramble mem address count changed a = mem a := by
  unfold scramble
  rw [if_neg (by omega)]

theorem pwriteRetry_ok {address : ℕ} {bytes : List UInt8} {ws : List WriteReply} {mem : ℕ → UInt8}
    {n : ℕ} (h : reported ws = some n) :
    pwriteRetry address bytes ws mem = (.ok (min n bytes.length),
      lay (scramble mem address bytes.length (interrupted ws)) address (bytes.take n),
      answered ws) := by
  induction ws generalizing mem with
  | nil => cases h
  | cons w ws ih =>
    cases w with
    | wrote m =>
      cases h
      rw [pwriteRetry, show interrupted (.wrote n :: ws) = fun _ => none from rfl, scramble_none]
      rfl
    | fail errno changed =>
      rw [reported] at h
      by_cases he : errno = EINTR
      · rw [if_pos he] at h
        rw [pwriteRetry]
        simp only [if_pos he, ih h, scramble_scramble, answered]
        congr 3
        funext i
        simp [interrupted, he]
      · rw [if_neg he] at h
        cases h

theorem pwriteRetry_error {address : ℕ} {bytes : List UInt8} {ws : List WriteReply}
    {mem : ℕ → UInt8} (h : reported ws = none) :
    ∃ stop mem' ws', pwriteRetry address bytes ws mem = (.error stop, mem', ws') ∧
      ∀ a, a < address ∨ address + bytes.length ≤ a → mem' a = mem a := by
  induction ws generalizing mem with
  | nil => exact ⟨_, _, _, rfl, fun a _ => rfl⟩
  | cons w ws ih =>
    cases w with
    | wrote m => cases h
    | fail errno changed =>
      rw [reported] at h
      by_cases he : errno = EINTR
      · rw [if_pos he] at h
        obtain ⟨stop, mem', ws', hrun, hkept⟩ :=
          @ih (scramble mem address bytes.length changed) h
        refine ⟨stop, mem', ws', ?_, fun a ha => ?_⟩
        · rw [pwriteRetry]
          simp only [if_pos he, hrun]
        · rw [hkept a ha, scramble_outside ha]
      · refine ⟨.failed errno, scramble mem address bytes.length changed, ws, ?_, fun a ha => ?_⟩
        · rw [pwriteRetry]
          simp only [if_neg he]
        · exact scramble_outside ha

namespace CodeWriteRecovery

variable {self : CodeWriteRecovery}

/-- Only the answers to reads were used up. -/
def Looked (s s' : CodeWriteRecovery) : Prop :=
  ∃ reads, s' = { s with fd := { s.fd with reads := reads } }

theorem Looked.refl (s : CodeWriteRecovery) : s.Looked s := ⟨s.fd.reads, rfl⟩

theorem Looked.trans {s s' s'' : CodeWriteRecovery} (h : s.Looked s') (h' : s'.Looked s'') :
    s.Looked s'' := by
  obtain ⟨reads, rfl⟩ := h
  obtain ⟨reads', rfl⟩ := h'
  exact ⟨reads', rfl⟩

theorem Looked.mem {s s' : CodeWriteRecovery} (h : s.Looked s') : s'.fd.mem = s.fd.mem := by
  obtain ⟨reads, rfl⟩ := h
  rfl

theorem Looked.address {s s' : CodeWriteRecovery} (h : s.Looked s') : s'.address = s.address := by
  obtain ⟨reads, rfl⟩ := h
  rfl

theorem preadRetry_spec (mem : ℕ → UInt8) (address count : ℕ) (rs : List ReadReply)
    {bytes : List UInt8} (h : (preadRetry mem address count rs).1 = .ok bytes) :
    ∃ n, n ≤ count ∧ bytes = slice mem address n := by
  induction rs with
  | nil => cases h
  | cons r rs ih =>
    cases r with
    | got n =>
      cases h
      exact ⟨_, Nat.min_le_right _ _, rfl⟩
    | fail errno =>
      rw [preadRetry] at h
      split at h
      · exact ih h
      · cases h

theorem pread_ends (offset count : ℕ) : Ends (pread offset count) self
    (fun bytes s' => self.Looked s' ∧
      ∃ n, n ≤ count ∧ bytes = slice self.fd.mem (self.address + offset) n)
    fun _ s' => self.Looked s' := by
  unfold Ends
  rcases hread : preadRetry self.fd.mem (self.address + offset) count self.fd.reads with
    ⟨stop | bytes, rest⟩
  · rw [show finish (pread offset count) self = (.error stop,
      { self with fd := { self.fd with reads := rest } }) by simp [finish, pread, hread]]
    exact ⟨rest, rfl⟩
  · rw [show finish (pread offset count) self = (.ok bytes,
      { self with fd := { self.fd with reads := rest } }) by simp [finish, pread, hread]]
    exact ⟨⟨rest, rfl⟩, preadRetry_spec _ _ _ _ (by rw [hread])⟩

def Holds (s : CodeWriteRecovery) (bytes : List UInt8) (first last : ℕ) : Prop :=
  ∀ i, first ≤ i → i < last → some (s.fd.mem (s.address + i)) = bytes[i]?

theorem verifyPiece_ends (bytes : List UInt8) (offset count : ℕ) :
    Ends (verifyPiece bytes offset count) self
      (fun _ s' => self.Looked s' ∧ self.Holds bytes offset (offset + count))
      fun _ s' => self.Looked s' := by
  refine Ends.bind ((pread_ends offset count).mono (fun actual s' h => ?_) fun _ _ h => h)
  obtain ⟨hlooked, n, hn, rfl⟩ := h
  refine Ends.ite (fun _ => Ends.stop hlooked) fun _ => Ends.ite (fun _ => Ends.stop hlooked) ?_
  intro hsame
  push Not at hsame
  obtain ⟨hlength, hbytes⟩ := hsame
  rw [slice_length] at hlength
  refine Ends.pure ⟨hlooked, fun i hfirst hlast => ?_⟩
  have hat := congrArg (fun l : List UInt8 => l[i - offset]?) hbytes
  simp only [piece, slice, List.getElem?_map, List.getElem?_take, List.getElem?_drop] at hat
  rw [List.getElem?_range (by omega), if_pos (by omega), Option.map_some,
    show self.address + offset + (i - offset) = self.address + i by omega,
    show offset + (i - offset) = i by omega] at hat
  exact hat

theorem verify_ends (bytes : List UInt8) : Ends (verify bytes) self
    (fun _ s' => self.Looked s' ∧ self.Holds bytes 0 bytes.length) fun _ s' => self.Looked s' := by
  refine Ends.forM (I := fun offset s' => self.Looked s' ∧ self.Holds bytes 0 offset)
    (tiles_pieces (by decide) _) (fun offset count s _ _ hs => ?_)
    ⟨Looked.refl _, fun i _ h => absurd h (Nat.not_lt_zero _)⟩
  refine (verifyPiece_ends bytes offset count).mono (fun _ s' h => ?_)
    fun _ s' h => hs.1.trans h
  refine ⟨hs.1.trans h.1, fun i _ hlast => ?_⟩
  by_cases hi : i < offset
  · exact hs.2 i (Nat.zero_le _) hi
  · have := h.2 i (by omega) hlast
    rwa [hs.1.mem, hs.1.address] at this

/-! ### Writes -/

/-- The object after a `pwrite` that was answered with a count. -/
def afterWrite (s : CodeWriteRecovery) (offset : ℕ) (bytes : List UInt8) (m : ℕ) :
    CodeWriteRecovery :=
  { s with fd := { s.fd with
    mem := lay (scramble s.fd.mem (s.address + offset) bytes.length (interrupted s.fd.writes))
      (s.address + offset) (bytes.take m)
    writes := answered s.fd.writes } }

theorem pwrite_ends (offset : ℕ) (bytes : List UInt8) : Ends (pwrite offset bytes) self
    (fun n s' => ∃ m, reported self.fd.writes = some m ∧ n = min m bytes.length ∧
      s' = self.afterWrite offset bytes m)
    fun _ s' => reported self.fd.writes = none ∧ ∃ mem' writes,
      s' = { self with fd := { self.fd with mem := mem', writes := writes } } ∧
      ∀ a, a < self.address + offset ∨ self.address + offset + bytes.length ≤ a →
        mem' a = self.fd.mem a := by
  unfold Ends
  cases hreported : reported self.fd.writes with
  | some m =>
    have hrun := @pwriteRetry_ok (self.address + offset) bytes _ self.fd.mem m hreported
    simp only [finish, pwrite, hrun]
    exact ⟨m, rfl, rfl, rfl⟩
  | none =>
    obtain ⟨stop, mem', writes, hrun, hkept⟩ :=
      @pwriteRetry_error (self.address + offset) bytes _ self.fd.mem hreported
    simp only [finish, pwrite, hrun]
    exact ⟨trivial, mem', writes, rfl, hkept⟩

theorem afterWrite_outside {s : CodeWriteRecovery} {offset m a : ℕ} {bytes : List UInt8}
    (h : a < s.address + offset ∨ s.address + offset + bytes.length ≤ a) :
    (s.afterWrite offset bytes m).fd.mem a = s.fd.mem a := by
  change lay (scramble s.fd.mem (s.address + offset) bytes.length (interrupted s.fd.writes))
    (s.address + offset) (bytes.take m) a = _
  rw [lay_of_none, scramble_outside h]
  rw [byteAt_eq_none, List.length_take]
  omega

theorem afterWrite_past {s : CodeWriteRecovery} {offset m i : ℕ} {bytes : List UInt8} (hm : m ≤ i)
    (hi : i < bytes.length) : (s.afterWrite offset bytes m).fd.mem (s.address + offset + i) =
      (interrupted s.fd.writes i).getD (s.fd.mem (s.address + offset + i)) := by
  change lay (scramble s.fd.mem (s.address + offset) bytes.length (interrupted s.fd.writes))
    (s.address + offset) (bytes.take m) _ = _
  rw [lay_of_none]
  · unfold scramble
    rw [if_pos (by omega), Nat.add_sub_cancel_left]
  · rw [byteAt_eq_none, List.length_take]
    omega

variable {mem₀ : ℕ → UInt8} {A : ℕ} {O : List UInt8}

/-- The object is about the range, and nothing outside it has changed. -/
structure Contained (mem₀ : ℕ → UInt8) (A : ℕ) (O : List UInt8) (s : CodeWriteRecovery) :
    Prop where
  address : s.address = A
  original : s.original = O
  fits : s.attempted ≤ O.length
  outside : ∀ a, a < A ∨ A + O.length ≤ a → s.fd.mem a = mem₀ a

/-- Only attempted bytes have changed. -/
structure Owned (mem₀ : ℕ → UInt8) (A : ℕ) (O : List UInt8) (s : CodeWriteRecovery) : Prop
    extends Contained mem₀ A O s where
  kept : ∀ i, s.attempted ≤ i → i < O.length → s.fd.mem (A + i) = mem₀ (A + i)

theorem Contained.looked {s s' : CodeWriteRecovery} (h : Contained mem₀ A O s)
    (hlooked : s.Looked s') : Contained mem₀ A O s' := by
  obtain ⟨reads, rfl⟩ := hlooked
  exact ⟨h.address, h.original, h.fits, h.outside⟩

theorem Owned.looked {s s' : CodeWriteRecovery} (h : Owned mem₀ A O s) (hlooked : s.Looked s') :
    Owned mem₀ A O s' := by
  obtain ⟨reads, rfl⟩ := hlooked
  exact ⟨h.toContained.looked ⟨reads, rfl⟩, h.kept⟩

theorem piece_length {bytes : List UInt8} {offset count : ℕ} (h : offset + count ≤ bytes.length) :
    (piece bytes offset count).length = count := by
  rw [piece, List.length_take, List.length_drop]
  omega

/-- Interrupted calls left what lies past the count of the short one as it was. -/
def CleanRetry (original : List UInt8) (offset count : ℕ) (writes : List WriteReply) : Prop :=
  ∀ n, reported writes = some n → 0 < n → n < count → ∀ i, n ≤ i → i < count →
    ∀ b, interrupted writes i = some b → some b = original[offset + i]?

def CleanWrite (original : List UInt8) : List (ℕ × ℕ) → List WriteReply → Prop
  | [], _ => True
  | (offset, count) :: rest, writes => CleanRetry original offset count writes ∧
      (∀ n, reported writes = some n → count ≤ n → CleanWrite original rest (answered writes))

theorem Contained.afterWrite {s : CodeWriteRecovery} {bytes : List UInt8} {offset : ℕ}
    (h : Contained mem₀ A O s) (hle : offset + bytes.length ≤ O.length) (m : ℕ) :
    Contained mem₀ A O (s.afterWrite offset bytes m) := by
  refine ⟨h.address, h.original, h.fits, fun a ha => ?_⟩
  have hA := h.address
  rw [afterWrite_outside (by omega), h.outside a ha]

theorem Contained.failed {s : CodeWriteRecovery} {mem' : ℕ → UInt8} {writes : List WriteReply}
    {offset count : ℕ} (h : Contained mem₀ A O s) (hle : offset + count ≤ O.length)
    (hkept : ∀ a, a < s.address + offset ∨ s.address + offset + count ≤ a →
      mem' a = s.fd.mem a) :
    Contained mem₀ A O { s with fd := { s.fd with mem := mem', writes := writes } } := by
  refine ⟨h.address, h.original, h.fits, fun a ha => ?_⟩
  have hA := h.address
  exact (hkept a (by omega)).trans (h.outside a ha)

theorem Contained.attempted {s : CodeWriteRecovery} {n : ℕ} (h : Contained mem₀ A O s)
    (hn : n ≤ O.length) : Contained mem₀ A O { s with attempted := n } :=
  ⟨h.address, h.original, hn, h.outside⟩

theorem writePiece_contained {s : CodeWriteRecovery} {bytes : List UInt8} {offset count : ℕ}
    (hs : Contained mem₀ A O s) (hle : offset + count ≤ bytes.length)
    (hlength : bytes.length = O.length) :
    Ends (writePiece bytes offset count) s (fun _ s' => Contained mem₀ A O s')
      fun _ s' => Contained mem₀ A O s' := by
  have hpiece := piece_length hle
  have hs' := hs.attempted (n := offset + count) (by omega)
  refine Ends.bind (Ends.modify (Ends.bind ((pwrite_ends offset _).mono ?_ ?_)))
  · rintro n s' ⟨m, hm, rfl, rfl⟩
    have hfits : offset + (piece bytes offset count).length ≤ O.length := by omega
    have hdone := hs'.afterWrite hfits m
    refine Ends.ite (fun _ => Ends.stop hdone) fun _ => Ends.bind (Ends.modify ?_)
    have hset := hdone.attempted (n := if min m (piece bytes offset count).length ≤ count
      then offset + min m (piece bytes offset count).length else offset + count) (by
        split <;> omega)
    exact Ends.ite (fun _ => Ends.stop hset) fun _ => Ends.pure hset
  · rintro _ s' ⟨_, mem', writes, rfl, hkept⟩
    exact hs'.failed (by omega) hkept

/-! ### Which bytes a write owns -/

theorem Owned.afterWrite {s : CodeWriteRecovery} {bytes : List UInt8} {offset : ℕ}
    (hs : Owned mem₀ A O s) (hattempted : s.attempted = offset)
    (hle : offset + bytes.length ≤ O.length) (m : ℕ) :
    Owned mem₀ A O { s.afterWrite offset bytes m with attempted := offset + bytes.length } := by
  refine ⟨(hs.toContained.afterWrite hle m).attempted hle, fun i hi hlt => ?_⟩
  change offset + bytes.length ≤ i at hi
  have hA := hs.address
  rw [← hs.kept i (by omega) hlt]
  exact afterWrite_outside (by omega)

theorem owned_short_iff {s : CodeWriteRecovery} {bytes : List UInt8} {offset m : ℕ}
    (hO : O = slice mem₀ A O.length) (hs : Owned mem₀ A O s) (hattempted : s.attempted = offset)
    (hle : offset + bytes.length ≤ O.length) (hm : reported s.fd.writes = some m) (hpos : 0 < m)
    (hshort : m < bytes.length) :
    Owned mem₀ A O { s.afterWrite offset bytes m with attempted := offset + m } ↔
      CleanRetry O offset bytes.length s.fd.writes := by
  have hA := hs.address
  have horiginal : ∀ i, i < O.length → O[i]? = some (mem₀ (A + i)) := by
    intro i hi
    rw [hO, slice, List.getElem?_map, List.getElem?_range (by simpa using hi), Option.map_some]
  constructor
  · intro h n hn _ _ i hni hi b hb
    obtain rfl : m = n := Option.some.inj (hm.symm.trans hn)
    have hkept := h.kept (offset + i) (by change offset + m ≤ _; omega) (by omega)
    have hpast := @afterWrite_past s offset m i bytes hni hi
    rw [hb, Option.getD_some, hA, Nat.add_assoc] at hpast
    rw [horiginal _ (by omega), ← hpast]
    exact congrArg some hkept
  · intro h
    refine ⟨(hs.toContained.afterWrite hle m).attempted (by omega), fun i hi hlt => ?_⟩
    change offset + m ≤ i at hi
    change (s.afterWrite offset bytes m).fd.mem (A + i) = _
    by_cases hin : i < offset + bytes.length
    · obtain ⟨k, rfl⟩ : ∃ k, i = offset + k := ⟨i - offset, by omega⟩
      have hpast := @afterWrite_past s offset m k bytes (by omega) (by omega)
      rw [hA, Nat.add_assoc] at hpast
      rw [hpast]
      cases hb : interrupted s.fd.writes k with
      | none => exact hs.kept _ (by omega) hlt
      | some b =>
        have hclean := h m hm hpos hshort k (by omega) (by omega) b hb
        rw [horiginal _ hlt] at hclean
        exact Option.some.inj hclean
    · rw [← hs.kept i (by omega) hlt]
      exact afterWrite_outside (by omega)

theorem writePiece_owned {s : CodeWriteRecovery} {bytes : List UInt8} {offset count : ℕ}
    (hO : O = slice mem₀ A O.length) (hs : Owned mem₀ A O s) (hattempted : s.attempted = offset)
    (hcount : 0 < count) (hle : offset + count ≤ bytes.length)
    (hlength : bytes.length = O.length) :
    Ends (writePiece bytes offset count) s
      (fun _ s' => Owned mem₀ A O s' ∧ s'.attempted = offset + count ∧
        s'.fd.writes = answered s.fd.writes ∧
        ∃ m, reported s.fd.writes = some m ∧ count ≤ m)
      fun _ s' => (∀ m, reported s.fd.writes = some m → m < count) ∧
        (Owned mem₀ A O s' ↔ CleanRetry O offset count s.fd.writes) := by
  have hpiece := piece_length hle
  have hfits : offset + (piece bytes offset count).length ≤ O.length := by omega
  have hs' := hs.toContained.attempted (n := offset + count) (by omega)
  refine Ends.bind (Ends.modify (Ends.bind ((pwrite_ends offset _).mono ?_ ?_)))
  · rintro n s' ⟨m, hm, rfl, rfl⟩
    change reported s.fd.writes = some m at hm
    have hall := hs.afterWrite hattempted hfits m
    have hshort := fun hpos h => owned_short_iff hO hs hattempted hfits hm hpos h
    rw [hpiece] at hall hshort ⊢
    have hreported : ∀ m', reported s.fd.writes = some m' → m' = m :=
      fun m' hm' => Option.some.inj (hm'.symm.trans hm)
    refine Ends.ite (fun hzero => Ends.stop ⟨fun m' hm' => ?_, iff_of_true hall ?_⟩)
      fun hpos => Ends.bind (Ends.modify (Ends.ite (fun hstop => Ends.stop ⟨fun m' hm' => ?_, ?_⟩)
        fun hfull => Ends.pure ⟨?_, ?_, rfl, m, hm, by omega⟩))
    · rw [hreported m' hm']
      omega
    · intro m' hm' hpos
      rw [hreported m' hm'] at hpos
      omega
    · rw [hreported m' hm']
      omega
    · rw [if_pos (Nat.min_le_right _ _), Nat.min_eq_left (by omega)]
      exact hshort (by omega) (by omega)
    · rw [if_pos (Nat.min_le_right _ _), Nat.min_eq_right (by omega)]
      exact hall
    · change (if min m count ≤ count then offset + min m count else offset + count) = _
      rw [if_pos (Nat.min_le_right _ _), Nat.min_eq_right (by omega)]
  · rintro _ s' ⟨hnone, mem', writes, rfl, hkept⟩
    change reported s.fd.writes = none at hnone
    refine ⟨fun m hm => absurd (hnone.symm.trans hm) (by simp), iff_of_true ⟨?_, ?_⟩ ?_⟩
    · exact hs'.failed hfits hkept
    · intro i hi hlt
      change offset + count ≤ i at hi
      have hA := hs.address
      rw [← hs.kept i (by omega) hlt]
      exact hkept (A + i) (by dsimp only; omega)
    · intro n hn
      rw [hnone] at hn
      cases hn

theorem writePieces_owned {bytes : List UInt8} (hO : O = slice mem₀ A O.length)
    (hlength : bytes.length = O.length) {offset : ℕ} {tiles : List (ℕ × ℕ)}
    (htiles : Tiles offset bytes.length tiles) {s : CodeWriteRecovery} (hs : Owned mem₀ A O s)
    (hattempted : s.attempted = offset) :
    Ends (tiles.forM fun (offset, count) => writePiece bytes offset count) s
      (fun _ s' => Owned mem₀ A O s' ∧ s'.attempted = bytes.length ∧
        CleanWrite O tiles s.fd.writes)
      fun _ s' => Owned mem₀ A O s' ↔ CleanWrite O tiles s.fd.writes := by
  generalize hlast : bytes.length = last at htiles
  induction htiles generalizing s with
  | nil => exact Ends.pure ⟨hs, hattempted, trivial⟩
  | @cons offset count last rest hcount h ih =>
    change Ends (writePiece bytes offset count >>= fun _ => _) s _ _
    refine Ends.bind ((writePiece_owned hO hs hattempted hcount (by have := h.le; omega)
      hlength).mono ?_ ?_)
    · rintro _ s' ⟨howned, hattempted', hwrites, m, hm, hfull⟩
      have hclean : CleanRetry O offset count s.fd.writes := by
        intro n hn _ hshort
        rw [hm] at hn
        cases hn
        omega
      have hrest : CleanWrite O rest s'.fd.writes ↔
          CleanWrite O ((offset, count) :: rest) s.fd.writes := by
        rw [hwrites]
        refine ⟨fun h => ⟨hclean, fun _ _ _ => h⟩, fun h => h.2 m hm hfull⟩
      refine (ih howned hattempted' hlast).mono (fun _ s'' h => ?_) fun _ s'' h => ?_
      · exact ⟨h.1, h.2.1, hrest.mp h.2.2⟩
      · exact h.trans hrest
    · rintro _ s' ⟨hshort, hiff⟩
      refine hiff.trans ⟨fun h => ⟨h, fun n hn hfull => ?_⟩, fun h => h.1⟩
      have := hshort n hn
      omega

theorem write_contained {s : CodeWriteRecovery} (bytes : List UInt8)
    (hs : Contained mem₀ A O s) : Ends (write bytes) s (fun _ s' => Contained mem₀ A O s')
      fun _ s' => Contained mem₀ A O s' := by
  refine Ends.bind (Ends.get (Ends.ite (fun _ => Ends.stop hs) fun hgo => Ends.bind ?_))
  have hlength : bytes.length = O.length := by
    rw [← hs.original]
    by_contra h
    exact hgo (.inl h)
  refine (Ends.forM (I := fun _ => Contained mem₀ A O) (tiles_pieces (by decide) _)
    (fun offset count s' _ hle hs' => writePiece_contained hs' hle hlength) hs).mono ?_
      fun _ _ h => h
  intro _ s' hs'
  exact (verify_ends bytes).mono (fun _ _ h => hs'.looked h.1) fun _ _ h => hs'.looked h

theorem write_ok {s s' : CodeWriteRecovery} {bytes : List UInt8}
    (h : finish (write bytes) s = (.ok (), s')) :
    bytes.length = s.original.length ∧ s'.Holds bytes 0 bytes.length := by
  refine Ends.of_ok (E := fun _ _ => True) (A := fun _ s' => bytes.length = s.original.length ∧
    s'.Holds bytes 0 bytes.length) ?_ h
  refine Ends.bind (Ends.get (Ends.ite (fun _ => Ends.stop trivial) fun hgo => Ends.bind ?_))
  have hlength : bytes.length = s.original.length := by
    by_contra h
    exact hgo (.inl h)
  refine (Ends.trivial _ _).mono (fun _ s' _ => ?_) fun _ _ _ => trivial
  refine (verify_ends bytes).mono (fun _ s'' hverified => ⟨hlength, fun i hi hlt => ?_⟩)
    fun _ _ _ => trivial
  rw [hverified.1.mem, hverified.1.address]
  exact hverified.2 i hi hlt

/-- **All changed bytes are attempted ones** after a write, if and only if it was clean. -/
theorem write_owned_iff {s : CodeWriteRecovery} {bytes : List UInt8}
    (hO : O = slice mem₀ A O.length) (hs : Owned mem₀ A O s) (hchanged : s.changed = false)
    (hlength : bytes.length = O.length) :
    Owned mem₀ A O (finish (write bytes) s).2 ↔
      CleanWrite O (pieces chunkSize O.length) s.fd.writes := by
  have hattempted : s.attempted = 0 := by simpa [changed] using hchanged
  refine Ends.state (P := fun s' => Owned mem₀ A O s' ↔ _) ?_
  refine Ends.bind (Ends.get (Ends.ite (fun hstop => ?_) fun _ => Ends.bind ?_))
  · rw [hs.original, hchanged] at hstop
    simp [hlength] at hstop
  · rw [← hlength]
    refine (writePieces_owned hO hlength (tiles_pieces (by decide) _) hs hattempted).mono ?_
      fun _ _ h => h
    rintro _ s' ⟨howned, -, hclean⟩
    exact (verify_ends bytes).mono (fun _ _ h => iff_of_true (howned.looked h.1) hclean)
      fun _ _ h => iff_of_true (howned.looked h) hclean

/-! ### Restoring -/

theorem restorePiece_ends {s : CodeWriteRecovery} {original : List UInt8} {offset count : ℕ}
    (hle : offset + count ≤ original.length) (hfits : original.length ≤ s.attempted)
    (hs : Contained mem₀ A O s) :
    Ends (restorePiece original offset count) s
      (fun _ s' => s'.attempted = s.attempted ∧ Contained mem₀ A O s' ∧
        (Owned mem₀ A O s → Owned mem₀ A O s'))
      fun _ s' => Contained mem₀ A O s' ∧ (Owned mem₀ A O s → Owned mem₀ A O s') := by
  have hpiece := piece_length hle
  have hA := hs.address
  have hlength := hs.fits
  have hbytes : offset + (piece original offset count).length ≤ O.length := by omega
  refine Ends.bind ((pwrite_ends offset _).mono ?_ ?_)
  · rintro n s' ⟨m, -, rfl, rfl⟩
    have hdone := hs.afterWrite hbytes m
    have howned : Owned mem₀ A O s →
        Owned mem₀ A O (s.afterWrite offset (piece original offset count) m) := by
      refine fun h => ⟨hdone, fun i hi hlt => ?_⟩
      change s.attempted ≤ i at hi
      rw [← h.kept i hi hlt]
      exact afterWrite_outside (by omega)
    exact Ends.ite (fun _ => Ends.stop ⟨hdone, howned⟩) fun _ =>
      Ends.ite (fun _ => Ends.stop ⟨hdone, howned⟩) fun _ => Ends.pure ⟨rfl, hdone, howned⟩
  · rintro _ s' ⟨-, mem', writes, rfl, hkept⟩
    refine ⟨hs.failed hbytes hkept, fun h => ⟨hs.failed hbytes hkept, fun i hi hlt => ?_⟩⟩
    change s.attempted ≤ i at hi
    rw [← h.kept i hi hlt]
    exact hkept (A + i) (by omega)

theorem Owned.restored {s : CodeWriteRecovery} (hO : O = slice mem₀ A O.length)
    (hs : Owned mem₀ A O s) (h : s.Holds (O.take s.attempted) 0 (O.take s.attempted).length) :
    Owned mem₀ A O { s with attempted := 0 } := by
  refine ⟨hs.toContained.attempted (Nat.zero_le _), fun i _ hlt => ?_⟩
  have hfits := hs.fits
  by_cases hi : s.attempted ≤ i
  · exact hs.kept i hi hlt
  · have hat := h i (Nat.zero_le _) (by rw [List.length_take]; omega)
    rw [hs.address, List.getElem?_take, if_pos (by omega), hO, slice, List.getElem?_map,
      List.getElem?_range (by simpa using hlt), Option.map_some] at hat
    exact Option.some.inj hat

/-- Writing the attempted bytes back keeps what is owned, and it succeeds only where they are in
place. -/
theorem rewrite_ends {s : CodeWriteRecovery} (hO : O = slice mem₀ A O.length)
    (hs : Contained mem₀ A O s) :
    Ends (rewrite (O.take s.attempted)) s
      (fun _ s' => s'.attempted = 0 ∧ Contained mem₀ A O s' ∧
        (Owned mem₀ A O s → Owned mem₀ A O s'))
      fun _ s' => Contained mem₀ A O s' ∧ (Owned mem₀ A O s → Owned mem₀ A O s') := by
  have htake : (O.take s.attempted).length = s.attempted := by
    rw [List.length_take]
    exact Nat.min_eq_left hs.fits
  refine Ends.bind ((Ends.forM (I := fun _ s' => s'.attempted = s.attempted ∧
    Contained mem₀ A O s' ∧ (Owned mem₀ A O s → Owned mem₀ A O s')) (tiles_pieces (by decide) _)
    (fun offset count s' _ hle hs' => ?_) ⟨rfl, hs, id⟩).mono ?_ fun _ _ h => h)
  · obtain ⟨hattempted, hcontained, howned⟩ := hs'
    refine (restorePiece_ends hle (by omega) hcontained).mono ?_ fun _ s'' h => ?_
    · rintro _ s'' ⟨h₁, h₂, h₃⟩
      exact ⟨h₁.trans hattempted, h₂, fun h => h₃ (howned h)⟩
    · exact ⟨h.1, fun hs => h.2 (howned hs)⟩
  · rintro _ s' ⟨hattempted, hcontained, howned⟩
    refine Ends.bind ((verify_ends _).mono (fun _ s'' h => Ends.modify ?_) fun _ s'' h => ?_)
    · obtain ⟨hlooked, hholds⟩ := h
      refine ⟨rfl, (hcontained.looked hlooked).attempted (Nat.zero_le _), fun hs => ?_⟩
      refine ((howned hs).looked hlooked).restored hO ?_
      obtain ⟨reads, rfl⟩ := hlooked
      rw [hattempted]
      exact hholds
    · exact ⟨hcontained.looked h, fun hs => (howned hs).looked h⟩

theorem restore_ends {s : CodeWriteRecovery} (hO : O = slice mem₀ A O.length)
    (hs : Contained mem₀ A O s) :
    Ends restore s
      (fun _ s' => s'.attempted = 0 ∧ Contained mem₀ A O s' ∧
        (Owned mem₀ A O s → Owned mem₀ A O s'))
      fun _ s' => Contained mem₀ A O s' ∧ (Owned mem₀ A O s → Owned mem₀ A O s') := by
  refine Ends.bind (Ends.get (Ends.ite (fun hnone => Ends.pure ⟨?_, hs, id⟩) fun _ => ?_))
  · simpa [changed] using hnone
  · rw [hs.original]
    refine Ends.bind (Ends.attempt ((verify_ends _).mono (fun _ s' h => ?_) fun stop s' h => ?_))
    · obtain ⟨⟨reads, rfl⟩, hholds⟩ := h
      have hlooked := hs.looked ⟨reads, rfl⟩
      refine Ends.modify ⟨rfl, hlooked.attempted (Nat.zero_le _), fun howned => ?_⟩
      exact (howned.looked ⟨reads, rfl⟩).restored hO hholds
    · have hlooked := hs.looked h
      cases stop with
      | waiting => exact Ends.stop ⟨hlooked, fun howned => howned.looked h⟩
      | failed errno =>
        refine Ends.ite (fun _ => Ends.stop ⟨hlooked, fun howned => howned.looked h⟩) fun _ => ?_
        have hrewrite := rewrite_ends hO hlooked
        obtain ⟨reads, rfl⟩ := h
        refine hrewrite.mono (fun _ s' h => ⟨h.1, h.2.1, fun howned => ?_⟩) fun _ s' h =>
          ⟨h.1, fun howned => ?_⟩
        · exact h.2.2 (howned.looked ⟨reads, rfl⟩)
        · exact h.2 (howned.looked ⟨reads, rfl⟩)

/-! ### Preparing -/

theorem readPiece_ends {s : CodeWriteRecovery} {offset count : ℕ}
    (hs : s.original = slice s.fd.mem s.address offset) :
    Ends (readPiece offset count) s
      (fun _ s' => s'.original = slice s.fd.mem s.address (offset + count) ∧
        s'.fd.mem = s.fd.mem ∧ s'.address = s.address ∧ s'.attempted = s.attempted)
      fun _ _ => True := by
  refine Ends.bind ((pread_ends offset count).mono ?_ fun _ _ _ => trivial)
  rintro bytes s' ⟨⟨reads, rfl⟩, n, hn, rfl⟩
  refine Ends.ite (fun _ => Ends.stop trivial) fun _ => Ends.ite (fun _ => Ends.stop trivial) ?_
  intro hcount
  rw [slice_length, not_not] at hcount
  subst hcount
  refine Ends.modify ⟨?_, rfl, rfl, rfl⟩
  dsimp only
  rw [hs, slice, slice, slice, List.range_add, List.map_append, List.map_map]
  simp [Function.comp_def, Nat.add_assoc]

/-- A prepared object holds the bytes of its range, and nothing has changed. -/
theorem prepare_ok {fd : Task} {address size : ℕ} {s : CodeWriteRecovery}
    (h : prepare (.ok fd) address size = (.ok (), s)) :
    Owned fd.mem address s.original s ∧ s.original = slice fd.mem address size ∧
      s.attempted = 0 := by
  unfold prepare at h
  dsimp only at h
  split at h
  · cases h
  · have hends := Ends.of_ok (Ends.forM (E := fun _ _ => True)
      (I := fun offset s' => s'.original = slice fd.mem address offset ∧ s'.fd.mem = fd.mem ∧
        s'.address = address ∧ s'.attempted = 0)
      (tiles_pieces (by decide) size) (fun offset count s' _ _ hs' => ?_) ⟨rfl, rfl, rfl, rfl⟩) h
    · obtain ⟨horiginal, hmem, haddress, hattempted⟩ := hends
      refine ⟨⟨⟨haddress, rfl, by omega, fun a _ => ?_⟩, fun i _ _ => ?_⟩, horiginal, hattempted⟩
      · rw [hmem]
      · rw [hmem]
    · obtain ⟨horiginal, hmem, haddress, hattempted⟩ := hs'
      refine (readPiece_ends (by rw [hmem, haddress, horiginal])).mono (fun _ s'' h => ?_)
        fun _ _ _ => trivial
      rw [hmem, haddress] at h
      exact ⟨h.1, h.2.1, h.2.2.1, h.2.2.2.trans hattempted⟩

/-! ### Runs -/

inductive Call
  | write (bytes : List UInt8)
  | restore

def Call.method : Call → Method Unit
  | .write bytes => CodeWriteRecovery.write bytes
  | .restore => CodeWriteRecovery.restore

def afterCalls (calls : List Call) (s : CodeWriteRecovery) : CodeWriteRecovery :=
  calls.foldl (fun s c => (finish c.method s).2) s

def Call.Clean (s : CodeWriteRecovery) : Call → Prop
  | .write bytes => s.changed = false → bytes.length = s.original.length →
      CleanWrite s.original (pieces chunkSize s.original.length) s.fd.writes
  | .restore => True

def CleanRun : List Call → CodeWriteRecovery → Prop
  | [], _ => True
  | c :: calls, s => c.Clean s ∧ CleanRun calls (finish c.method s).2

theorem call_contained {s : CodeWriteRecovery} (hO : O = slice mem₀ A O.length)
    (hs : Contained mem₀ A O s) (c : Call) : Contained mem₀ A O (finish c.method s).2 := by
  cases c with
  | write bytes => exact (write_contained bytes hs).state
  | restore => exact ((restore_ends hO hs).mono (fun _ _ h => h.2.1) fun _ _ h => h.1).state

theorem call_owned {s : CodeWriteRecovery} (hO : O = slice mem₀ A O.length)
    (hs : Owned mem₀ A O s) {c : Call} (hclean : c.Clean s) :
    Owned mem₀ A O (finish c.method s).2 := by
  cases c with
  | restore =>
    exact ((restore_ends hO hs.toContained).mono (fun _ _ h => h.2.2 hs) fun _ _ h => h.2 hs).state
  | write bytes =>
    by_cases hgo : bytes.length ≠ s.original.length ∨ s.changed = true
    · refine Ends.state (P := Owned mem₀ A O) (Ends.bind (Ends.get ?_))
      rw [if_pos hgo]
      exact Ends.stop hs
    · push Not at hgo
      obtain ⟨hlength, hchanged⟩ := hgo
      have hchanged : s.changed = false := by simpa using hchanged
      have hwrite := hclean hchanged hlength
      rw [hs.original] at hwrite hlength
      exact (write_owned_iff hO hs hchanged hlength).mpr hwrite

theorem run_contained {s : CodeWriteRecovery} (hO : O = slice mem₀ A O.length)
    (hs : Contained mem₀ A O s) (calls : List Call) : Contained mem₀ A O (afterCalls calls s) := by
  induction calls generalizing s with
  | nil => exact hs
  | cons c calls ih => exact ih (call_contained hO hs c)

theorem run_owned {s : CodeWriteRecovery} (hO : O = slice mem₀ A O.length)
    (hs : Owned mem₀ A O s) {calls : List Call} (hclean : CleanRun calls s) :
    Owned mem₀ A O (afterCalls calls s) := by
  induction calls generalizing s with
  | nil => exact hs
  | cons c calls ih => exact ih (call_owned hO hs hclean.1) hclean.2

/-- `overlaps` says whether a range and the attempted one share an address. -/
theorem overlaps_iff (s : CodeWriteRecovery) (address size : ℕ) :
    s.overlaps address size = true ↔ ∃ a, (address ≤ a ∧ a < address + size) ∧
      s.address ≤ a ∧ a < s.address + s.attempted := by
  unfold overlaps
  split
  · rename_i h
    simp only [Bool.false_eq_true, false_iff]
    rintro ⟨a, ha, ha'⟩
    omega
  · split
    · simp only [decide_eq_true_eq]
      exact ⟨fun _ => ⟨address, by omega, by omega⟩, fun ⟨a, ha, ha'⟩ => by omega⟩
    · simp only [decide_eq_true_eq]
      exact ⟨fun _ => ⟨s.address, by omega, by omega⟩, fun ⟨a, ha, ha'⟩ => by omega⟩

/-- Every byte of the range that differs from its value in `fd` is an attempted one. -/
def CoversChanges (fd : Task) (address size : ℕ) (s : CodeWriteRecovery) : Prop :=
  ∀ i, i < size → s.fd.mem (address + i) ≠ fd.mem (address + i) → i < s.attempted

theorem Owned.coversChanges {fd : Task} {address : ℕ} {s : CodeWriteRecovery}
    (h : Owned fd.mem address O s) : CoversChanges fd address O.length s := by
  intro i hi hne
  by_contra hnot
  exact hne (h.kept i (by omega) hi)

/-- **A code write can be taken back.**  Whatever the calls answer: only the range changes, a write
that succeeds leaves the replacement there, and `overlaps` is exact.  As long as the retries of all
writes are clean, changed bytes are attempted ones, and a restoration that succeeds leaves the
original bytes; and a write is clean exactly when the changed bytes are attempted ones after it. -/
theorem code_write_taken_back {fd : Task} {address size : ℕ} {s : CodeWriteRecovery}
    (hprepared : prepare (.ok fd) address size = (.ok (), s)) (calls : List Call) :
    (∀ a, a < address ∨ address + size ≤ a → (afterCalls calls s).fd.mem a = fd.mem a) ∧
      (∀ bytes s', finish (write bytes) (afterCalls calls s) = (.ok (), s') →
        bytes = slice s'.fd.mem address size) ∧
      (∀ a n, (afterCalls calls s).overlaps a n = true ↔
        ∃ x, (a ≤ x ∧ x < a + n) ∧ address ≤ x ∧ x < address + (afterCalls calls s).attempted) ∧
      (CleanRun calls s →
        CoversChanges fd address size (afterCalls calls s) ∧
        (∀ s', finish restore (afterCalls calls s) = (.ok (), s') →
          s'.attempted = 0 ∧ slice s'.fd.mem address size = slice fd.mem address size) ∧
        ∀ bytes, (afterCalls calls s).changed = false → bytes.length = size →
          (CoversChanges fd address size (finish (write bytes) (afterCalls calls s)).2 ↔
            (Call.write bytes).Clean (afterCalls calls s))) := by
  obtain ⟨howned, horiginal, hattempted⟩ := prepare_ok hprepared
  obtain ⟨O, hs⟩ : ∃ O, s.original = O := ⟨_, rfl⟩
  rw [hs] at howned horiginal
  have hsize : O.length = size := by rw [horiginal, slice_length]
  have hO : O = slice fd.mem address O.length := by rw [hsize]; exact horiginal
  have hcontained := run_contained hO howned.toContained calls
  subst hsize
  refine ⟨hcontained.outside, fun bytes s' hwrite => ?_, fun a n => ?_, fun hclean => ?_⟩
  · obtain ⟨hlength, hholds⟩ := write_ok hwrite
    rw [hcontained.original] at hlength
    have haddress : s'.address = address :=
      (Ends.of_ok (write_contained bytes hcontained) hwrite).address
    refine List.ext_getElem? fun i => ?_
    by_cases hi : i < O.length
    · rw [← hholds i (Nat.zero_le _) (by omega), haddress, slice, List.getElem?_map,
        List.getElem?_range hi, Option.map_some]
    · rw [List.getElem?_eq_none (by omega), List.getElem?_eq_none (by rw [slice_length]; omega)]
  · rw [overlaps_iff, hcontained.address]
  · have hrun := run_owned hO howned hclean
    refine ⟨hrun.coversChanges, fun s' hrestore => ?_, fun bytes hchanged hlength => ?_⟩
    · obtain ⟨hzero, -, hback⟩ := Ends.of_ok (restore_ends hO hrun.toContained) hrestore
      refine ⟨hzero, List.map_congr_left fun i hi => ?_⟩
      exact (hback hrun).kept i (by omega) (List.mem_range.mp hi)
    · have hiff := write_owned_iff hO hrun hchanged hlength
      have hafter := (write_contained bytes hrun.toContained).state
      constructor
      · intro hcovers _ _
        rw [hrun.original]
        refine hiff.mp ⟨hafter, fun i hi hlt => ?_⟩
        by_contra hne
        exact absurd (hcovers i hlt hne) (by omega)
      · intro hwrite
        have hcleanWrite := hwrite hchanged (by rw [hrun.original, hlength])
        rw [hrun.original] at hcleanWrite
        exact (hiff.mpr hcleanWrite).coversChanges

/-- A process with two zero bytes to write, where everything is answered in full. -/
def calmTask : Task :=
  ⟨fun _ => 0, [.got 2, .got 2], [.wrote 2]⟩

/-- A write of two bytes to it. -/
theorem calm_write_taken_back :
    let s := (prepare (.ok calmTask) 0x1000 2).2
    CoversChanges calmTask 0x1000 2 (afterCalls [.write [1, 1]] s) := by
  refine ((code_write_taken_back (s := (prepare (.ok calmTask) 0x1000 2).2) rfl
    [.write [1, 1]]).2.2.2 ⟨fun _ _ => ⟨?_, fun _ _ _ => trivial⟩, trivial⟩).1
  intro n hn _ hshort
  cases hn
  exact absurd hshort (by decide)

/-- The same process, where the write is interrupted after the second byte has changed and its retry
writes the first byte only. -/
def interruptedTask : Task :=
  ⟨fun _ => 0, [.got 2, .got 1], [.fail EINTR fun i => if i = 1 then some 7 else none, .wrote 1]⟩

/-- The second byte is lost: it is not an attempted one, and a restoration that succeeds leaves
it. -/
theorem interrupted_write_lost :
    ¬ ∀ fd address size s, prepare (.ok fd) address size = (.ok (), s) → ∀ calls,
      CoversChanges fd address size (afterCalls calls s) ∧
      ∀ s', finish restore (afterCalls calls s) = (.ok (), s') →
        slice s'.fd.mem address size = slice fd.mem address size := by
  intro h
  obtain ⟨hcovers, -⟩ := h interruptedTask 0x1000 2 (prepare (.ok interruptedTask) 0x1000 2).2 rfl
    [.write [1, 1]]
  exact absurd (hcovers 1 (by decide) (by decide)) (by decide)

end CodeWriteRecovery

end CheatEngine.CodeWrite
