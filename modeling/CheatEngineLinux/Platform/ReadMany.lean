import Mathlib.Tactic.Ring
import CheatEngineLinux.Library.Gather

/-!
# Reading many addresses

`LinuxProcessHandle::readMany` of `platform/linux/linux_process.cpp`: a dense list of addresses is
read as one span, any other in batches of vectors that join neighbouring records.  A short count
tells which record could not be read, and the rest is read again after it.

`process_vm_readv`, with the retry of `memoryTransfer`, is a parameter: it returns the number of
bytes copied, `none` for -1, and the local buffer.  Buffers are functions of the offset.  The
caller's buffers hold a record for each address, so that sizes do not wrap; addresses do.

* `CopiesInOrder`: vectors are copied in order, up to the first byte that cannot be read.
* `PageReadable`: the bytes of a page can all be read, or none of them.

* **PROVED `batchLoop_spec`**: the batches report and fill each record by itself.
* **PROVED `denseLoop_spec`**: so does the span, up to the first record that is short, which has
  a byte that cannot be read.
* **PROVED `readMany_reads_each`**: every record is reported and filled as if it were read alone.
-/

namespace CheatEngine.LinuxProcess

open Gather

abbrev Buffer := ℕ → UInt8

abbrev TargetBytes := UInt64 → Option UInt8

/-- `process_vm_readv`: local vectors by offset, remote ones by address, each with its length. -/
abbrev Readv := List (ℕ × ℕ) → List (UInt64 × ℕ) → Buffer → Option ℕ × Buffer

/-! ### The reader -/

section reader

variable (readv : Readv) (size : ℕ)

/-- One local and one remote vector of a call. -/
structure IoVector where
  slot : ℕ
  remote : UInt64
  bytes : ℕ
  deriving Repr, DecidableEq

def runLength (previous : UInt64) : List UInt64 → ℕ
  | [] => 0
  | a :: rest => if a == previous + UInt64.ofNat size then runLength a rest + 1 else 0

/-- The vectors of one call, at most so many, and where the addresses they cover end. -/
def buildVectors : ℕ → ℕ → List UInt64 → List IoVector × ℕ
  | 0, runStart, _ => ([], runStart)
  | _ + 1, runStart, [] => ([], runStart)
  | n + 1, runStart, base :: rest =>
    let run := runLength size base rest + 1
    let (vectors, last) := buildVectors n (runStart + run) (rest.drop (run - 1))
    (⟨runStart * size, base, run * size⟩ :: vectors, last)

def kMaxIov : ℕ := 1024

def callReadv (vectors : List IoVector) (out : Buffer) : Option ℕ × Buffer :=
  readv (vectors.map fun v => (v.slot, v.bytes)) (vectors.map fun v => (v.remote, v.bytes)) out

/-- The batches, from the address with number `i` on; each takes at least one address. -/
def batchLoop : ℕ → ℕ → List UInt64 → Buffer → List Bool × Buffer
  | 0, _, _, out => ([], out)
  | _ + 1, _, [], out => ([], out)
  | fuel + 1, i, a :: rest, out =>
    let (vectors, last) := buildVectors size kMaxIov i (a :: rest)
    let batch := last - i
    match callReadv readv vectors out with
    | (none, out) =>
      let (ok, out) := batchLoop fuel (i + 1) rest out
      (false :: ok, out)
    | (some n, out) =>
      let full := min batch (n / size)
      if full < batch then
        let (ok, out) := batchLoop fuel (i + full + 1) ((a :: rest).drop (full + 1)) out
        (List.replicate full true ++ false :: ok, out)
      else
        let (ok, out) := batchLoop fuel (i + full) ((a :: rest).drop full) out
        (List.replicate full true ++ ok, out)

def kMaxGap : ℕ := 64

def kSpanCap : ℕ := 4 * 1024 * 1024

def kMinRun : ℕ := 8

/-- Each address lies a small gap behind the one before it. -/
def dense (previous : UInt64) : List UInt64 → Bool
  | [] => true
  | a :: rest =>
    !(decide (a < previous) || decide ((a - previous).toNat > size + kMaxGap)) && dense a rest

/-- `memcpy` between two buffers. -/
def copyRecord (out : Buffer) (slot : ℕ) (scratch : Buffer) (off : ℕ) : Buffer := fun p =>
  if slot ≤ p ∧ p < slot + size then scratch (off + (p - slot)) else out p

/-- The records of the span that were transferred: how many, and the buffer. -/
def denseLoop (first : UInt64) (got : ℕ) (scratch : Buffer) :
    ℕ → List UInt64 → Buffer → ℕ × Buffer
  | k, [], out => (k, out)
  | k, a :: rest, out =>
    let off := (a - first).toNat
    if off + size ≤ got then
      denseLoop first got scratch (k + 1) rest (copyRecord size out (k * size) scratch off)
    else (k, out)

/-- Flags and bytes of the records at some addresses.  `allowed` says that the process is still
the one that was opened, and the caller's. -/
def readMany (allowed : Bool) (addrs : List UInt64) (scratch out : Buffer) : List Bool × Buffer :=
  let count := addrs.length
  if size == 0 || !allowed then (List.replicate count false, out)
  else
    match addrs with
    | [] => ([], out)
    | first :: rest =>
      let span := (addrs.getLastD 0 + UInt64.ofNat size - first).toNat
      if count ≥ kMinRun && span ≤ kSpanCap && span > count * size && dense size first rest then
        let (nr, scratch) := readv [(0, span)] [(first, span)] scratch
        let (k, out) := denseLoop size first (nr.getD 0) scratch 0 addrs out
        if k == count then (List.replicate count true, out)
        else
          let left := addrs.drop (k + 1)
          let (ok, out) := batchLoop readv size left.length (k + 1) left out
          (List.replicate k true ++ false :: ok, out)
      else batchLoop readv size count 0 addrs out

end reader

/-! ### What is relied on -/

def places (vectors : List (ℕ × ℕ)) : List ℕ := vectors.flatMap fun v => List.range' v.1 v.2

/-- The bytes from an address on, addresses taken modulo `2 ^ 64`. -/
def bytesAt (mem : TargetBytes) (size : ℕ) (a : UInt64) : List (Option UInt8) :=
  (List.range size).map fun i => mem (a + UInt64.ofNat i)

def remoteBytes (mem : TargetBytes) (vectors : List (UInt64 × ℕ)) : List (Option UInt8) :=
  vectors.flatMap fun v => bytesAt mem v.2 v.1

/-- The call copies the remote vectors in order to the local ones and stops at the first byte that
cannot be read; it returns how many bytes it copied, or -1 when there were none. -/
structure CopiesInOrder (mem : TargetBytes) (readv : Readv) : Prop where
  count : ∀ slots remote out, remote.length ≤ 1024 → slots.map Prod.snd = remote.map Prod.snd →
    (readv slots remote out).1 =
      if leading (remoteBytes mem remote) = [] then none
      else some (leading (remoteBytes mem remote)).length
  buffer : ∀ slots remote out, remote.length ≤ 1024 → slots.map Prod.snd = remote.map Prod.snd →
    (readv slots remote out).2 = scatter (places slots) (leading (remoteBytes mem remote)) out

/-- A page can be read as a whole or not at all. -/
def PageReadable (page : ℕ) (mem : TargetBytes) : Prop :=
  ∀ a b : UInt64, a.toNat / page = b.toNat / page → (mem a).isSome = (mem b).isSome

/-- All bytes of a record can be read. -/
def readable (mem : TargetBytes) (size : ℕ) (a : UInt64) : Bool := whole (bytesAt mem size) a

/-! ### Vectors -/

section vectors

variable {mem : TargetBytes} {size : ℕ}

theorem bytesAt_length (mem : TargetBytes) (size : ℕ) (a : UInt64) :
    (bytesAt mem size a).length = size := by
  rw [bytesAt, List.length_map, List.length_range]

theorem bytesAt_getElem? {b : ℕ} (hb : b < size) (a : UInt64) :
    (bytesAt mem size a)[b]? = some (mem (a + UInt64.ofNat b)) := by
  rw [bytesAt, List.getElem?_map, List.getElem?_range hb]
  rfl

theorem bytesAt_add (m n : ℕ) (a : UInt64) :
    bytesAt mem (m + n) a = bytesAt mem m a ++ bytesAt mem n (a + UInt64.ofNat m) := by
  rw [bytesAt, List.range_add, List.map_append, List.map_map, bytesAt, bytesAt]
  congr 1
  refine List.map_congr_left fun i _ => ?_
  rw [Function.comp_apply, UInt64.ofNat_add, UInt64.add_assoc]

theorem runLength_spec (a : UInt64) (rest : List UInt64) :
    runLength size a rest ≤ rest.length ∧
      bytesAt mem ((runLength size a rest + 1) * size) a =
        (a :: rest.take (runLength size a rest)).flatMap (bytesAt mem size) := by
  induction rest generalizing a with
  | nil => simp [runLength]
  | cons b rest ih =>
    rw [runLength]
    split
    · rename_i hb
      obtain ⟨hle, hbytes⟩ := ih b
      refine ⟨Nat.succ_le_succ hle, ?_⟩
      rw [show (runLength size b rest + 1 + 1) * size = size + (runLength size b rest + 1) * size by
          ring, bytesAt_add, ← beq_iff_eq.mp hb, hbytes, List.take_succ_cons, List.flatMap_cons,
        List.flatMap_cons, List.flatMap_cons]
    · simp

theorem buildVectors_spec (n s : ℕ) (as : List UInt64) :
    ∃ vectors covered, buildVectors size n s as = (vectors, s + covered) ∧
      covered ≤ as.length ∧ vectors.length ≤ n ∧ (0 < n → as ≠ [] → 0 < covered) ∧
      places (vectors.map fun v => (v.slot, v.bytes)) = List.range' (s * size) (covered * size) ∧
      remoteBytes mem (vectors.map fun v => (v.remote, v.bytes)) =
        (as.take covered).flatMap (bytesAt mem size) := by
  induction n generalizing s as with
  | zero =>
    exact ⟨[], 0, rfl, Nat.zero_le _, Nat.le_refl _, fun h => absurd h (Nat.lt_irrefl 0), by simp [places],
      by simp [remoteBytes]⟩
  | succ n ih =>
    cases as with
    | nil =>
      exact ⟨[], 0, rfl, Nat.zero_le _, Nat.zero_le _, fun _ h => absurd rfl h, by simp [places],
        by simp [remoteBytes]⟩
    | cons a rest =>
      obtain ⟨hrun, hbytes⟩ := @runLength_spec mem size a rest
      obtain ⟨vectors, covered, hbuild, hle, hlength, -, hplaces, hremote⟩ :=
        ih (s + (runLength size a rest + 1)) (rest.drop (runLength size a rest))
      rw [List.length_drop] at hle
      refine ⟨⟨s * size, a, (runLength size a rest + 1) * size⟩ :: vectors,
        runLength size a rest + 1 + covered, ?_, ?_, ?_, fun _ _ => by omega, ?_, ?_⟩
      · rw [buildVectors, Nat.add_sub_cancel, hbuild, Nat.add_assoc s]
      · rw [List.length_cons]
        omega
      · rw [List.length_cons]
        omega
      · have hcons : places (((⟨s * size, a, (runLength size a rest + 1) * size⟩ : IoVector) ::
            vectors).map fun v => (v.slot, v.bytes)) =
            List.range' (s * size) ((runLength size a rest + 1) * size) ++
              places (vectors.map fun v => (v.slot, v.bytes)) := rfl
        rw [hcons, hplaces, Nat.add_mul s, List.range'_append_1, ← Nat.add_mul]
      · have hcons : remoteBytes mem (((⟨s * size, a, (runLength size a rest + 1) * size⟩ :
            IoVector) :: vectors).map fun v => (v.remote, v.bytes)) =
            bytesAt mem ((runLength size a rest + 1) * size) a ++
              remoteBytes mem (vectors.map fun v => (v.remote, v.bytes)) := rfl
        rw [hcons, hremote, hbytes, ← List.flatMap_append]
        congr 1
        rw [List.cons_append, ← List.take_add, Nat.add_right_comm, List.take_succ_cons]

end vectors

/-! ### Records in their places -/

section records

variable {mem : TargetBytes} {size : ℕ}

/-- The readable records of a list, the first with number `i`, are in their places. -/
def Filled (mem : TargetBytes) (size i : ℕ) (as : List UInt64) (out : Buffer) : Prop :=
  ∀ j a, as[j]? = some a → readable mem size a = true →
    ∀ b < size, mem (a + UInt64.ofNat b) = some (out ((i + j) * size + b))

theorem Filled.cons {i : ℕ} {a : UInt64} {as : List UInt64} {out : Buffer}
    (hbad : readable mem size a = false) (h : Filled mem size (i + 1) as out) :
    Filled mem size i (a :: as) out := by
  intro j c hc hgood b hb
  cases j with
  | zero =>
    cases hc
    rw [hbad] at hgood
    cases hgood
  | succ j =>
    rw [show i + (j + 1) = i + 1 + j by omega]
    exact h j c hc hgood b hb

theorem Filled.append {i n : ℕ} {as : List UInt64} {out : Buffer}
    (hfront : ∀ j < n, ∀ a, as[j]? = some a → readable mem size a = true →
      ∀ b < size, mem (a + UInt64.ofNat b) = some (out ((i + j) * size + b)))
    (hback : Filled mem size (i + n) (as.drop n) out) : Filled mem size i as out := by
  intro j a ha hgood b hb
  rcases Nat.lt_or_ge j n with hj | hj
  · exact hfront j hj a ha hgood b hb
  · have hat : (as.drop n)[j - n]? = some a := by
      rw [List.getElem?_drop, Nat.add_sub_cancel' hj, ha]
    have := hback (j - n) a hat hgood b hb
    rwa [show i + n + (j - n) = i + j by omega] at this

theorem place_lt {k n b size : ℕ} (hk : k < n) (hb : b < size) : k * size + b < n * size := by
  calc k * size + b < k * size + size := by omega
    _ = (k + 1) * size := by ring
    _ ≤ n * size := Nat.mul_le_mul_right _ hk

theorem filled_scatter {i batch : ℕ} (hsize : 0 < size) (as : List UInt64)
    (out : Buffer) {j : ℕ} {a : UInt64}
    (hj : j < goodCount (readable mem size) batch as) (ha : as[j]? = some a) {b : ℕ}
    (hb : b < size) :
    mem (a + UInt64.ofNat b) =
      some (scatter (List.range' (i * size) (batch * size))
        (leading ((as.take batch).flatMap (bytesAt mem size))) out ((i + j) * size + b)) := by
  have hjb := hj.trans_le (goodCount_le batch as)
  have hat : (as.take batch)[j]? = some a := by rw [List.getElem?_take_of_lt hjb, ha]
  have hrecord := leading_record hsize (bytesAt_length mem size) (as.take batch) hat hj hb
  rw [bytesAt_getElem? hb, Option.some.injEq] at hrecord
  obtain ⟨x, hx⟩ : ∃ x, mem (a + UInt64.ofNat b) = some x := by
    have hgood : readable mem size a = true := goodCount_good hj ha
    have hmem : mem (a + UInt64.ofNat b) ∈ bytesAt mem size a :=
      List.mem_iff_getElem?.mpr ⟨b, bytesAt_getElem? hb a⟩
    exact Option.isSome_iff_exists.mp (List.all_eq_true.mp hgood _ hmem)
  have hplace := place_lt hjb hb
  have hin : i * size ≤ (i + j) * size + b ∧ (i + j) * size + b < i * size + batch * size := by
    rw [Nat.add_mul]
    omega
  rw [scatter_range, if_pos hin, show (i + j) * size + b - i * size = j * size + b by
    rw [Nat.add_mul]; omega, ← hrecord, hx]
  rfl

end records

/-! ### The batches -/

section batches

variable {mem : TargetBytes} {readv : Readv} {size : ℕ}

theorem callReadv_spec (h : CopiesInOrder mem readv) (hsize : 0 < size) (i : ℕ) (a : UInt64)
    (rest : List UInt64) (out : Buffer) :
    ∃ vectors batch, buildVectors size kMaxIov i (a :: rest) = (vectors, i + batch) ∧
      0 < batch ∧ batch ≤ (a :: rest).length ∧
      (callReadv readv vectors out).2 = scatter (List.range' (i * size) (batch * size))
        (leading (((a :: rest).take batch).flatMap (bytesAt mem size))) out ∧
      ((callReadv readv vectors out).1 = none → readable mem size a = false) ∧
      ∀ n, (callReadv readv vectors out).1 = some n →
        n / size = goodCount (readable mem size) batch (a :: rest) := by
  obtain ⟨vectors, batch, hbuild, hle, hlength, hpos, hplaces, hremote⟩ :=
    @buildVectors_spec mem size kMaxIov i (a :: rest)
  have hcovered := leading_records hsize (bytesAt_length mem size) ((a :: rest).take batch)
  have hbatch : 0 < batch := hpos (by decide) (by simp)
  have hshape : (vectors.map fun v => (v.slot, v.bytes)).map Prod.snd =
      (vectors.map fun v => (v.remote, v.bytes)).map Prod.snd := by
    rw [List.map_map, List.map_map]
    rfl
  have hmany : (vectors.map fun v => (v.remote, v.bytes)).length ≤ 1024 := by
    rw [List.length_map]
    exact hlength
  refine ⟨vectors, batch, hbuild, hbatch, hle, ?_, ?_, ?_⟩
  · rw [callReadv, h.buffer _ _ _ hmany hshape, hplaces, hremote]
  · intro hnone
    rw [callReadv, h.count _ _ _ hmany hshape, hremote] at hnone
    split at hnone
    · rename_i hempty
      rw [hempty, List.length_nil, Nat.zero_div] at hcovered
      by_contra hnot
      have hgood : whole (bytesAt mem size) a = true := by simpa [readable] using hnot
      obtain ⟨m, rfl⟩ := Nat.exists_eq_succ_of_ne_zero hbatch.ne'
      rw [List.take_succ_cons, List.takeWhile_cons, if_pos hgood] at hcovered
      cases hcovered
    · cases hnone
  · intro n hn
    rw [callReadv, h.count _ _ _ hmany hshape, hremote] at hn
    split at hn
    · cases hn
    · cases hn
      exact hcovered

theorem batchLoop_spec (h : CopiesInOrder mem readv) (hsize : 0 < size) (fuel i : ℕ)
    (as : List UInt64) (hfuel : as.length ≤ fuel) (out : Buffer) :
    (batchLoop readv size fuel i as out).1 = as.map (readable mem size) ∧
      (∀ p < i * size, (batchLoop readv size fuel i as out).2 p = out p) ∧
      Filled mem size i as (batchLoop readv size fuel i as out).2 := by
  induction fuel generalizing i as out with
  | zero =>
    have hnil : as = [] := List.length_eq_zero_iff.mp (by omega)
    subst hnil
    exact ⟨rfl, fun _ _ => rfl, fun j a ha => by cases ha⟩
  | succ fuel ih =>
    cases as with
    | nil => exact ⟨rfl, fun _ _ => rfl, fun j a ha => by cases ha⟩
    | cons a rest =>
      obtain ⟨vectors, batch, hbuild, hpos, hle, hout, hnone, hsome⟩ :=
        callReadv_spec h hsize i a rest out
      obtain ⟨result, out', hcall⟩ : ∃ result out', callReadv readv vectors out = (result, out') :=
        ⟨_, _, rfl⟩
      rw [hcall] at hout hnone hsome
      -- what the call writes lies behind the records before it
      have hframe : ∀ p < i * size, out' p = out p := by
        intro p hp
        have hout' : out' = _ := hout
        rw [hout', scatter_range, if_neg (by omega)]
      rw [batchLoop]
      simp only [hbuild, Nat.add_sub_cancel_left, hcall]
      cases result with
      | none =>
        have hbad := hnone rfl
        obtain ⟨hok, hkeep, hfilled⟩ := ih (i + 1) rest (by simpa using hfuel) out'
        refine ⟨?_, fun p hp => ?_, hfilled.cons hbad⟩
        · simp only [hok, List.map_cons, hbad]
        · have hp' : p < (i + 1) * size := by
            rw [Nat.add_mul]
            omega
          exact (hkeep p hp').trans (hframe p hp)
      | some n =>
        obtain ⟨full, hfull⟩ : ∃ full, full = goodCount (readable mem size) batch (a :: rest) :=
          ⟨_, rfl⟩
        have hfullLe : full ≤ batch := hfull ▸ goodCount_le batch (a :: rest)
        have hcount : min batch (n / size) = full := by
          rw [hsome n rfl, ← hfull]
          exact Nat.min_eq_right hfullLe
        -- the records of the call, in the buffer that the rest of the loop leaves
        have hfront : ∀ (m : ℕ) (final : Buffer), full ≤ m →
            (∀ p < (i + m) * size, final p = out' p) → ∀ j < full, ∀ c,
            (a :: rest)[j]? = some c → readable mem size c = true → ∀ b < size,
              mem (c + UInt64.ofNat b) = some (final ((i + j) * size + b)) := by
          intro m final hm hsame j hj c hc _ b hb
          have hout' : out' = _ := hout
          rw [hsame _ (place_lt (by omega) hb), hout']
          exact filled_scatter hsize (a :: rest) out (hfull ▸ hj) hc hb
        have hmap := map_goodCount (p := readable mem size) hle
        rw [← hfull] at hmap
        simp only [hcount]
        split
        · rename_i hshort
          obtain ⟨bad, hat, hbad⟩ := goodCount_bad (p := readable mem size) hle (hfull ▸ hshort)
          rw [← hfull] at hat
          have hdrop : (a :: rest).drop full = bad :: (a :: rest).drop (full + 1) := by
            rw [List.drop_eq_getElem_cons (List.getElem?_eq_some_iff.mp hat).1,
              (List.getElem?_eq_some_iff.mp hat).2]
          have hlength : ((a :: rest).drop (full + 1)).length ≤ fuel := by
            rw [List.length_drop]
            rw [List.length_cons] at hfuel ⊢
            omega
          obtain ⟨hok, hkeep, hfilled⟩ := ih (i + full + 1) _ hlength out'
          refine ⟨?_, fun p hp => ?_, ?_⟩
          · simp only [hok, hmap, hdrop, List.map_cons, hbad]
          · refine (hkeep p ?_).trans (hframe p hp)
            rw [Nat.add_mul, Nat.add_mul]
            omega
          · refine Filled.append (hfront (full + 1) _ (Nat.le_succ _) hkeep) ?_
            rw [hdrop]
            exact hfilled.cons hbad
        · rename_i hall
          have hlength : ((a :: rest).drop full).length ≤ fuel := by
            rw [List.length_drop]
            rw [List.length_cons] at hfuel ⊢
            omega
          obtain ⟨hok, hkeep, hfilled⟩ := ih (i + full) _ hlength out'
          refine ⟨?_, fun p hp => ?_, ?_⟩
          · simp only [hok, hmap]
          · refine (hkeep p ?_).trans (hframe p hp)
            rw [Nat.add_mul]
            omega
          · exact Filled.append (hfront full _ (Nat.le_refl _) hkeep) hfilled

end batches

/-! ### The span -/

section span

variable {mem : TargetBytes} {size page : ℕ} {first : UInt64} {got span : ℕ}

theorem toNat_sub_first {a : UInt64} (h : first.toNat ≤ a.toNat) :
    (a - first).toNat = a.toNat - first.toNat :=
  UInt64.toNat_sub_of_le _ _ (UInt64.le_iff_toNat_le.mpr h)

theorem add_offset {a : UInt64} (h : first.toNat ≤ a.toNat) (b : ℕ) :
    a + UInt64.ofNat b = first + UInt64.ofNat (a.toNat - first.toNat + b) := by
  have ha := a.toNat_lt
  have hbase : first + UInt64.ofNat (a.toNat - first.toNat) = a := by
    rw [← UInt64.toNat_inj, UInt64.toNat_add,
      UInt64.toNat_ofNat_of_lt' (by rw [UInt64.size]; omega)]
    omega
  rw [UInt64.ofNat_add, ← UInt64.add_assoc, hbase]

theorem toNat_offset {q : ℕ} (h : first.toNat + q < 2 ^ 64) :
    (first + UInt64.ofNat q).toNat = first.toNat + q := by
  rw [UInt64.toNat_add, UInt64.toNat_ofNat_of_lt' (by rw [UInt64.size]; omega)]
  omega

theorem not_readable_of_none {a : UInt64} {b : ℕ} (hb : b < size)
    (h : mem (a + UInt64.ofNat b) = none) : readable mem size a = false := by
  rw [readable, whole, Bool.eq_false_iff, ne_eq, List.all_eq_true]
  intro hall
  have := hall _ (List.mem_iff_getElem?.mpr ⟨b, bytesAt_getElem? hb a⟩)
  rw [h] at this
  cases this

theorem gap_unreadable (hpage : 4096 ≤ page) (hmem : PageReadable page mem)
    (hspan : first.toNat + span ≤ 2 ^ 64) (hgot : got < span) (hpos : 0 < got)
    (hbefore : (mem (first + UInt64.ofNat (got - 1))).isSome = true)
    (hstop : mem (first + UInt64.ofNat got) = none) {a : UInt64}
    (hlow : first.toNat + got < a.toNat) (hhigh : a.toNat ≤ first.toNat + got + kMaxGap) :
    mem a = none := by
  unfold kMaxGap at hhigh
  have hend := @toNat_offset first got (by omega)
  have hlast := @toNat_offset first (got - 1) (by omega)
  have hedge : (first.toNat + (got - 1)) / page ≠ (first.toNat + got) / page := by
    intro hsame
    have := hmem (first + UInt64.ofNat (got - 1)) (first + UInt64.ofNat got)
      (by rw [hend, hlast]; exact hsame)
    rw [hbefore, hstop] at this
    cases this
  have hstart : (first.toNat + got) % page = 0 := by
    by_contra hne
    apply hedge
    have hdiv := Nat.div_add_mod (first.toNat + got) page
    have hlt := Nat.mod_lt (first.toNat + got) (show page > 0 by omega)
    rw [Nat.div_eq_iff (by omega)]
    rw [Nat.mul_comm] at hdiv
    omega
  have hsame : a.toNat / page = (first + UInt64.ofNat got).toNat / page := by
    rw [hend]
    have hdiv := Nat.div_add_mod (first.toNat + got) page
    rw [hstart, Nat.add_zero, Nat.mul_comm] at hdiv
    rw [Nat.div_eq_iff (by omega)]
    omega
  have := hmem _ _ hsame
  rw [hstop] at this
  exact Option.isNone_iff_eq_none.mp (by simpa using this)

structure SpanRead (mem : TargetBytes) (first : UInt64) (span got : ℕ) (scratch : Buffer) : Prop where
  within : first.toNat + span ≤ 2 ^ 64
  copied : ∀ q < got, mem (first + UInt64.ofNat q) = some (scratch q)
  stopped : got < span → mem (first + UInt64.ofNat got) = none

theorem dense_bounds {a : UInt64} {rest : List UInt64} (h : dense size a rest = true) :
    ∀ c ∈ a :: rest, a.toNat ≤ c.toNat ∧ c.toNat ≤ ((a :: rest).getLastD 0).toNat := by
  induction rest generalizing a with
  | nil =>
    intro c hc
    rw [List.mem_singleton.mp hc]
    exact ⟨Nat.le_refl _, Nat.le_refl _⟩
  | cons b rest ih =>
    rw [dense, Bool.and_eq_true, Bool.not_eq_true', Bool.or_eq_false_iff] at h
    have hab : a.toNat ≤ b.toNat :=
      Nat.not_lt.mp fun hlt => of_decide_eq_false h.1.1 (UInt64.lt_iff_toNat_lt.mpr hlt)
    have hrest := ih h.2
    have hlast : (a :: b :: rest).getLastD 0 = (b :: rest).getLastD 0 := rfl
    rw [hlast]
    intro c hc
    rcases List.mem_cons.mp hc with rfl | hc
    · exact ⟨Nat.le_refl _, hab.trans (hrest b List.mem_cons_self).2⟩
    · exact ⟨hab.trans (hrest c hc).1, (hrest c hc).2⟩

theorem denseLoop_spec (hpage : 4096 ≤ page) (hmem : PageReadable page mem) (hsize : 0 < size)
    {scratch : Buffer} (hread : SpanRead mem first span got scratch) (k : ℕ) (as : List UInt64)
    (out : Buffer)
    (hbounds : ∀ a ∈ as, first.toNat ≤ a.toNat ∧ a.toNat - first.toNat + size ≤ span)
    (hdense : ∀ a rest, as = a :: rest → dense size a rest = true)
    (hhead : ∀ a, as.head? = some a →
      a = first ∨ (0 < got ∧ a.toNat - first.toNat ≤ got + kMaxGap)) :
    ∃ m ≤ as.length, (denseLoop size first got scratch k as out).1 = k + m ∧
      (∀ p < k * size, (denseLoop size first got scratch k as out).2 p = out p) ∧
      (∀ j < m, ∀ a, as[j]? = some a → readable mem size a = true ∧ ∀ b < size,
        mem (a + UInt64.ofNat b) =
          some ((denseLoop size first got scratch k as out).2 ((k + j) * size + b))) ∧
      (m < as.length → ∃ a, as[m]? = some a ∧ readable mem size a = false) := by
  induction as generalizing k out with
  | nil => exact ⟨0, Nat.le_refl _, rfl, fun _ _ => rfl, fun j hj => absurd hj (Nat.not_lt_zero j),
      fun h => absurd h (Nat.lt_irrefl 0)⟩
  | cons a rest ih =>
    obtain ⟨hfirst, hfits⟩ := hbounds a List.mem_cons_self
    rw [denseLoop]
    simp only [toNat_sub_first hfirst]
    split
    · -- the record was transferred
      rename_i hwhole
      have hbyte : ∀ b < size, mem (a + UInt64.ofNat b) =
          some (scratch (a.toNat - first.toNat + b)) := by
        intro b hb
        rw [add_offset hfirst]
        exact hread.copied _ (by omega)
      have hgood : readable mem size a = true := by
        rw [readable, whole, List.all_eq_true]
        intro x hx
        obtain ⟨b, hb, rfl⟩ := List.mem_map.mp hx
        rw [hbyte b (List.mem_range.mp hb)]
        rfl
      have hnext : ∀ b, rest.head? = some b →
          b = first ∨ (0 < got ∧ b.toNat - first.toNat ≤ got + kMaxGap) := by
        intro b hb
        obtain ⟨tail, rfl⟩ : ∃ tail, rest = b :: tail := List.head?_eq_some_iff.mp hb
        have hd := hdense a (b :: tail) rfl
        rw [dense, Bool.and_eq_true, Bool.not_eq_true', Bool.or_eq_false_iff] at hd
        have hab : a.toNat ≤ b.toNat :=
          Nat.not_lt.mp fun hlt => of_decide_eq_false hd.1.1 (UInt64.lt_iff_toNat_lt.mpr hlt)
        have hgap := of_decide_eq_false hd.1.2
        rw [toNat_sub_first hab] at hgap
        exact Or.inr ⟨by omega, by omega⟩
      have hdense' : ∀ b tail, rest = b :: tail → dense size b tail = true := by
        rintro b tail rfl
        have hd := hdense a (b :: tail) rfl
        rw [dense, Bool.and_eq_true] at hd
        exact hd.2
      obtain ⟨m, hm, hcount, hkeep, hfilled, hbad⟩ := ih (k + 1)
        (copyRecord size out (k * size) scratch (a.toNat - first.toNat))
        (fun c hc => hbounds c (List.mem_cons_of_mem _ hc)) hdense' hnext
      have hslot : (k + 1) * size = k * size + size := by ring
      refine ⟨m + 1, Nat.succ_le_succ hm, by rw [hcount]; omega, fun p hp => ?_, ?_, ?_⟩
      · rw [hkeep p (by omega), copyRecord, if_neg (by omega)]
      · intro j hj c hc
        cases j with
        | zero =>
          cases hc
          refine ⟨hgood, fun b hb => ?_⟩
          rw [show (k + 0) * size + b = k * size + b from rfl, hkeep _ (by omega), copyRecord,
            if_pos (by omega), Nat.add_sub_cancel_left, hbyte b hb]
        | succ j =>
          rw [show k + (j + 1) = k + 1 + j by omega]
          exact hfilled j (by omega) c hc
      · intro hlt
        exact hbad (by simpa using hlt)
    · -- the first short record
      rename_i hshort
      refine ⟨0, Nat.zero_le _, rfl, fun _ _ => rfl, fun j hj => absurd hj (Nat.not_lt_zero j),
        fun _ => ⟨a, rfl, ?_⟩⟩
      have hgot : got < span := by omega
      rcases Nat.lt_or_ge got (a.toNat - first.toNat) with hin | hin
      · rcases hhead a rfl with rfl | ⟨hpos, hgap⟩
        · omega
        · have hbefore : (mem (first + UInt64.ofNat (got - 1))).isSome = true := by
            rw [hread.copied _ (by omega)]
            rfl
          have hnone := gap_unreadable hpage hmem hread.within hgot hpos hbefore
            (hread.stopped hgot) (a := a) (by omega) (by omega)
          refine not_readable_of_none hsize ?_
          show mem (a + 0) = none
          rw [UInt64.add_zero]
          exact hnone
      · refine @not_readable_of_none _ _ _ (got - (a.toNat - first.toNat)) (by omega) ?_
        rw [add_offset hfirst, Nat.add_sub_cancel' hin]
        exact hread.stopped hgot

end span

/-! ### Both paths -/

section both

variable {mem : TargetBytes} {readv : Readv} {size page : ℕ}

theorem spanRead_readv (h : CopiesInOrder mem readv) {first : UInt64} {span : ℕ}
    (hwithin : first.toNat + span ≤ 2 ^ 64) (scratch : Buffer) :
    SpanRead mem first span ((readv [(0, span)] [(first, span)] scratch).1.getD 0)
      (readv [(0, span)] [(first, span)] scratch).2 := by
  have hremote : remoteBytes mem [(first, span)] = bytesAt mem span first := by
    simp [remoteBytes]
  have hgot : (readv [(0, span)] [(first, span)] scratch).1.getD 0 =
      (leading (bytesAt mem span first)).length := by
    rw [h.count _ _ _ (by simp) rfl, hremote]
    split
    · rename_i hempty
      rw [hempty]
      rfl
    · rfl
  have hlength := bytesAt_length mem span first
  have hle := leading_length_le (bytesAt mem span first)
  rw [hgot]
  refine ⟨hwithin, fun q hq => ?_, fun hlt => ?_⟩
  · have hat := getElem?_leading _ q hq
    rw [bytesAt_getElem? (by omega), Option.some.injEq] at hat
    have hplaces : places [(0, span)] = List.range' 0 span := by simp [places]
    rw [h.buffer _ _ _ (by simp) rfl, hremote, hplaces, scatter_range, if_pos (by omega), hat,
      Nat.sub_zero, List.getElem?_eq_getElem hq]
    rfl
  · have hat := leading_stops (by omega : (leading (bytesAt mem span first)).length <
      (bytesAt mem span first).length)
    rw [bytesAt_getElem? hlt] at hat
    exact Option.some.inj hat

theorem getLastD_mem (first : UInt64) (rest : List UInt64) :
    (first :: rest).getLastD 0 ∈ first :: rest := by
  rw [List.getLastD_eq_getLast?, List.getLast?_eq_some_getLast (List.cons_ne_nil _ _)]
  exact List.getLast_mem _

theorem span_eq {first : UInt64} {rest : List UInt64} (hdense : dense size first rest = true)
    (hwrap : ∀ a ∈ first :: rest, a.toNat + size ≤ 2 ^ 64)
    (hspan : 0 < (((first :: rest).getLastD 0) + UInt64.ofNat size - first).toNat) :
    (((first :: rest).getLastD 0) + UInt64.ofNat size - first).toNat =
      ((first :: rest).getLastD 0).toNat - first.toNat + size := by
  have hlast := getLastD_mem first rest
  have hbound := hwrap _ hlast
  have hle := (dense_bounds hdense _ hlast).1
  generalize (first :: rest).getLastD 0 = last at *
  have hfirst := first.toNat_lt
  rw [UInt64.toNat_sub, UInt64.toNat_add, UInt64.toNat_ofNat'] at hspan ⊢
  omega

/-- What a reader leaves: the flags of all records, and those that can be read in their places. -/
def ReadsEach (mem : TargetBytes) (size : ℕ) (addrs : List UInt64)
    (result : List Bool × Buffer) : Prop :=
  result.1 = addrs.map (readable mem size) ∧ Filled mem size 0 addrs result.2

theorem dense_readsEach (hread : CopiesInOrder mem readv) (hsize : 0 < size) {addrs : List UInt64}
    {m : ℕ} {out : Buffer} (hm : m ≤ addrs.length)
    (hfilled : ∀ j < m, ∀ a, addrs[j]? = some a → readable mem size a = true ∧
      ∀ b < size, mem (a + UInt64.ofNat b) = some (out ((0 + j) * size + b)))
    (hbad : m < addrs.length → ∃ a, addrs[m]? = some a ∧ readable mem size a = false) :
    ReadsEach mem size addrs
      (if m == addrs.length then (List.replicate addrs.length true, out)
        else
          let left := addrs.drop (m + 1)
          let (ok, out) := batchLoop readv size left.length (m + 1) left out
          (List.replicate m true ++ false :: ok, out)) := by
  have htrue := map_eq_replicate_append (p := readable mem size) hm
    fun j hj a ha => (hfilled j hj a ha).1
  split
  · rename_i hall
    have hall' : m = addrs.length := beq_iff_eq.mp hall
    refine ⟨?_, fun j a ha _ b hb => ?_⟩
    · rw [htrue, hall', List.drop_length, List.map_nil, List.append_nil]
    · have hj := (List.getElem?_eq_some_iff.mp ha).1
      exact (hfilled j (by omega) a ha).2 b hb
  · rename_i hshort
    have hlt : m < addrs.length := by
      have : m ≠ addrs.length := fun heq => hshort (beq_iff_eq.mpr heq)
      omega
    obtain ⟨bad, hat, hbadRecord⟩ := hbad hlt
    have hdrop : addrs.drop m = bad :: addrs.drop (m + 1) := by
      rw [List.drop_eq_getElem_cons hlt, (List.getElem?_eq_some_iff.mp hat).2]
    obtain ⟨hok, hkeep, hrest⟩ := batchLoop_spec hread hsize (addrs.drop (m + 1)).length (m + 1)
      (addrs.drop (m + 1)) (Nat.le_refl _) out
    refine ⟨?_, ?_⟩
    · simp only [hok, htrue, hdrop, List.map_cons, hbadRecord]
    · refine Filled.append (n := m) (fun j hj a ha _ b hb => ?_) ?_
      · rw [hkeep _ (place_lt (by omega) hb)]
        exact (hfilled j hj a ha).2 b hb
      · rw [hdrop, Nat.zero_add]
        exact hrest.cons hbadRecord

theorem readMany_readsEach (hpage : 4096 ≤ page) (hmem : PageReadable page mem)
    (hread : CopiesInOrder mem readv) (hsize : 1 ≤ size) (addrs : List UInt64)
    (hwrap : ∀ a ∈ addrs, a.toNat + size ≤ 2 ^ 64) (scratch out : Buffer) :
    ReadsEach mem size addrs (readMany readv size true addrs scratch out) := by
  unfold readMany
  simp only [show (size == 0) = false from beq_eq_false_iff_ne.mpr (by omega), Bool.not_true,
    Bool.or_self, Bool.false_eq_true, if_false]
  cases addrs with
  | nil => exact ⟨rfl, fun j a ha => by cases ha⟩
  | cons first rest =>
    dsimp only
    split
    · rename_i hcond
      simp only [Bool.and_eq_true, decide_eq_true_eq] at hcond
      obtain ⟨⟨⟨hmany, hcap⟩, hlong⟩, hdense⟩ := hcond
      have hspan := span_eq hdense hwrap (by omega)
      generalize ((first :: rest).getLastD 0 + UInt64.ofNat size - first).toNat = span at *
      have hlast := hwrap _ (getLastD_mem first rest)
      have hfirstLe := (dense_bounds hdense first List.mem_cons_self).2
      have hbounds : ∀ a ∈ first :: rest,
          first.toNat ≤ a.toNat ∧ a.toNat - first.toNat + size ≤ span := by
        intro a ha
        have := dense_bounds hdense a ha
        omega
      obtain ⟨m, hm, hcount, -, hfilled, hbad⟩ := denseLoop_spec hpage hmem hsize
        (spanRead_readv hread (by omega) scratch) 0 (first :: rest) out hbounds
        (fun a tail heq => by cases heq; exact hdense) (fun a ha => Or.inl (by cases ha; rfl))
      rw [Nat.zero_add] at hcount
      rw [hcount]
      exact dense_readsEach hread hsize hm hfilled hbad
    · obtain ⟨hok, -, hfilled⟩ := batchLoop_spec hread hsize (first :: rest).length 0
        (first :: rest) (Nat.le_refl _) out
      exact ⟨hok, hfilled⟩

/-- A record is reported exactly when all its bytes can be read, and then it is filled with
them: as if each address were read by itself. -/
theorem readMany_reads_each (hpage : 4096 ≤ page) (hmem : PageReadable page mem)
    (hread : CopiesInOrder mem readv) (hsize : 1 ≤ size) (addrs : List UInt64)
    (hwrap : ∀ a ∈ addrs, a.toNat + size ≤ 2 ^ 64) (scratch out : Buffer) :
    let result := readMany readv size true addrs scratch out
    result.1.length = addrs.length ∧
      ∀ i a, addrs[i]? = some a →
        (result.1[i]? = some true ↔ ∀ b < size, (mem (a + UInt64.ofNat b)).isSome = true) ∧
        (result.1[i]? = some true →
          ∀ b < size, mem (a + UInt64.ofNat b) = some (result.2 (i * size + b))) := by
  obtain ⟨hok, hfilled⟩ := readMany_readsEach hpage hmem hread hsize addrs hwrap scratch out
  refine ⟨by rw [hok, List.length_map], fun i a ha => ?_⟩
  have hflag : (readMany readv size true addrs scratch out).1[i]? = some true ↔
      readable mem size a = true := by
    rw [hok, List.getElem?_map, ha]
    simp
  refine ⟨?_, fun htrue b hb => ?_⟩
  · rw [hflag, readable, whole, List.all_eq_true]
    constructor
    · intro hall b hb
      exact hall _ (List.mem_iff_getElem?.mpr ⟨b, bytesAt_getElem? hb a⟩)
    · intro hall x hx
      obtain ⟨b, hb, rfl⟩ := List.mem_map.mp hx
      exact hall b (List.mem_range.mp hb)
  · have := hfilled i a ha (hflag.mp htrue) b hb
    rwa [Nat.zero_add] at this

end both

/-- A call that copies in order. -/
def copyVectors (mem : TargetBytes) : Readv := fun slots remote out =>
  (if leading (remoteBytes mem remote) = [] then none
    else some (leading (remoteBytes mem remote)).length,
    scatter (places slots) (leading (remoteBytes mem remote)) out)

theorem copyVectors_copies (mem : TargetBytes) : CopiesInOrder mem (copyVectors mem) :=
  ⟨fun _ _ _ _ _ => rfl, fun _ _ _ _ _ => rfl⟩

/-- Two pages that can be read, each byte the low part of its address. -/
def twoPages : TargetBytes := fun a => if a.toNat < 8192 then some a.toUInt8 else none

theorem twoPages_pages : PageReadable 4096 twoPages := by
  intro a b hab
  have hiff : a.toNat < 8192 ↔ b.toNat < 8192 := by omega
  unfold twoPages
  by_cases ha : a.toNat < 8192
  · rw [if_pos ha, if_pos (hiff.mp ha)]
    rfl
  · rw [if_neg ha, if_neg fun hb => ha (hiff.mpr hb)]

/-- Of records at 8190, 5 and 9000, only the second is read. -/
theorem reads_the_second_of_three :
    let result := readMany (copyVectors twoPages) 4 true [8190, 5, 9000] (fun _ => 0) (fun _ => 0)
    result.1[0]? ≠ some true ∧ result.1[1]? = some true ∧ result.1[2]? ≠ some true ∧
      result.2 5 = 6 := by
  have hwrap : ∀ a ∈ ([8190, 5, 9000] : List UInt64), a.toNat + 4 ≤ 2 ^ 64 := by
    intro a ha
    simp only [List.mem_cons, List.not_mem_nil, or_false] at ha
    rcases ha with rfl | rfl | rfl
    · decide
    · decide
    · decide
  obtain ⟨-, hrecord⟩ := readMany_reads_each (Nat.le_refl 4096) twoPages_pages
    (copyVectors_copies twoPages) (by decide : 1 ≤ 4) [8190, 5, 9000] hwrap (fun _ => 0)
    (fun _ => 0)
  refine ⟨fun htrue => ?_, ?_, fun htrue => ?_, ?_⟩
  · exact absurd ((hrecord 0 8190 rfl).1.mp htrue 2 (by decide)) (by decide)
  · exact (hrecord 1 5 rfl).1.mpr (by decide)
  · exact absurd ((hrecord 2 9000 rfl).1.mp htrue 0 (by decide)) (by decide)
  · have hfilled := (hrecord 1 5 rfl).2 ((hrecord 1 5 rfl).1.mpr (by decide)) 1 (by decide)
    exact (Option.some.inj hfilled).symm

end CheatEngine.LinuxProcess
