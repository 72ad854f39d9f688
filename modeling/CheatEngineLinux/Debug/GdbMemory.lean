import CheatEngineLinux.Library.ByteOverlay
import CheatEngineLinux.Library.Gather
import CheatEngineLinux.Debug.GdbClient

/-!
# Memory of a GDB target

`GdbRemoteClient::readMemory` and `writeMemory` (`src/debug/gdb_remote.cpp`) cut a range into
requests that fit a packet.

* `readMemory`, `writeMemory`: the source.
* `ServesMemory`: a stub that reads up to the first byte that cannot be read, and writes all or
  nothing.
* **PROVED `readLoop_spec`, `writeLoop_spec`**: what the loops have read or written so far, and what
  they asked for.
* **PROVED `memory_access_exact`**: what both functions return and leave.
-/

namespace CheatEngine.GdbRemote

open ByteOverlay Gather

/-! ### The source -/

def hexNumber (n : ℕ) : Bytes := text (Nat.toDigits 16 n)

def hexBytes (bytes : Bytes) : Bytes := bytes.flatMap hexByte

def decodePairs : Bytes → Except String Bytes
  | a :: b :: rest =>
    match hexValue a, hexValue b with
    | some x, some y => (decodePairs rest).map (UInt8.ofNat (16 * x + y) :: ·)
    | _, _ => .error "Unavailable or non-hexadecimal response data"
  | _ => .ok []

def decodeHex (digits : Bytes) : Except String Bytes :=
  if digits.length % 2 ≠ 0 then .error "Odd hexadecimal response length" else decodePairs digits

def readRequest (address count : ℕ) : Bytes :=
  text ['m'] ++ (hexNumber address ++ (text [','] ++ hexNumber count))

def writeRequest (address : ℕ) (bytes : Bytes) : Bytes :=
  text ['M'] ++ (hexNumber address ++ (text [','] ++ (hexNumber bytes.length ++
    (text [':'] ++ hexBytes bytes))))

/-- The range has no place in the address space, or is too large. -/
def overflows (address : UInt64) (size : ℕ) : Bool :=
  maxDecoded < size || (size != 0 && decide (2 ^ 64 - 1 - address.toNat < size - 1))

section client

variable {σ : Type} (peer : Peer σ)

def readLoop (address : UInt64) (size : ℕ) (bytes : Bytes) (s : Client × σ) :
    Except String Bytes × (Client × σ) :=
  if bytes.length < size then
    let count := min (size - bytes.length) (s.1.packetSize / 2)
    match sendPacket peer (readRequest (address + UInt64.ofNat bytes.length).toNat count) s with
    | (.error e, s') => (if bytes.isEmpty then .error e else .ok bytes, s')
    | (.ok response, s') =>
      match decodeHex response with
      | .error e => (.error e, s')
      | .ok block =>
        if count < block.length then (.error "GDB memory reply exceeds requested size", s')
        else if _h : block.length < min (size - bytes.length) (s.1.packetSize / 2) then
          (.ok (bytes ++ block), s')
        else readLoop address size (bytes ++ block) s'
  else (.ok bytes, s)
termination_by size - bytes.length
decreasing_by
  have hlarge := s.1.large
  rw [List.length_append]
  omega

def readMemory (address : UInt64) (size : ℕ) : Exchange (Client × σ) Bytes :=
  if overflows address size then throw "GDB memory read size or address overflow"
  else readLoop peer address size []

def writeLoop (address : UInt64) (bytes : Bytes) (done : ℕ) (s : Client × σ) :
    Except String ℕ × (Client × σ) :=
  if done < bytes.length then
    let block := (bytes.drop done).take ((s.1.packetSize - 40) / 2)
    match sendPacket peer (writeRequest (address + UInt64.ofNat done).toNat block) s with
    | (.error e, s') => (if 0 < done then .ok done else .error e, s')
    | (.ok response, s') =>
      if response ≠ text ['O', 'K'] then
        (if 0 < done then .ok done else .error "GDB memory write was not confirmed", s')
      else writeLoop address bytes (done + min (bytes.length - done) ((s.1.packetSize - 40) / 2)) s'
  else (.ok done, s)
termination_by bytes.length - done
decreasing_by
  have hlarge := s.1.large
  omega

def writeMemory (address : UInt64) (bytes : Bytes) : Exchange (Client × σ) ℕ :=
  if overflows address bytes.length then throw "GDB memory write size or address overflow"
  else writeLoop peer address bytes 0

end client

/-! ### Stubs -/

/-- Bytes in hexadecimal, with digits of either case. -/
inductive HexText : Bytes → Bytes → Prop
  | nil : HexText [] []
  | cons {b hi lo : UInt8} {bytes digits : Bytes} (hhi : hexValue hi = some (b.toNat / 16))
      (hlo : hexValue lo = some (b.toNat % 16)) (h : HexText bytes digits) :
      HexText (b :: bytes) (hi :: lo :: digits)

/-- The memory of a target: its bytes, and which of them can be read. -/
structure TargetView (μ : Type) where
  byte : μ → ℕ → UInt8
  readable : μ → ℕ → Bool

namespace TargetView

variable {μ : Type} (view : TargetView μ)

def read (target : μ) (a : ℕ) : Option UInt8 :=
  if view.readable target a then some (view.byte target a) else none

/-- The bytes before the first that cannot be read. -/
def readablePart (target : μ) (address size : ℕ) : Bytes :=
  leading (slice (view.read target) address size)

end TargetView

/-- Reads are answered with what can be read, or an error where that is nothing; writes are done
and confirmed, or not done.  This is so as far as requests and replies fit the packet. -/
structure ServesMemory {μ : Type} (stub : Stub μ) (view : TargetView μ) (packetSize : ℕ) :
    Prop where
  read : ∀ (target : μ) (address count : ℕ), address + count ≤ 2 ^ 64 → 2 * count ≤ packetSize →
    view.byte (stub.respond target (readRequest address count)).1 = view.byte target ∧
    view.readable (stub.respond target (readRequest address count)).1 = view.readable target ∧
    (HexText (view.readablePart target address count)
        (stub.respond target (readRequest address count)).2.reply.payload ∨
      view.readablePart target address count = [] ∧
        isError (stub.respond target (readRequest address count)).2.reply.payload = true)
  write : ∀ (target : μ) (address : ℕ) (bytes : Bytes), address + bytes.length ≤ 2 ^ 64 →
    (writeRequest address bytes).length ≤ packetSize →
    (stub.respond target (writeRequest address bytes)).2.reply.payload = text ['O', 'K'] ∧
      view.byte (stub.respond target (writeRequest address bytes)).1 =
        lay (view.byte target) address bytes ∨
    (stub.respond target (writeRequest address bytes)).2.reply.payload ≠ text ['O', 'K'] ∧
      view.byte (stub.respond target (writeRequest address bytes)).1 = view.byte target

/-! ### Requests that fit -/

theorem wireOf_plain {payload : Bytes} (h : ∀ c ∈ payload, isSpecial c = false) :
    wireOf (payload.map requestPiece) = payload := by
  induction payload with
  | nil => rfl
  | cons c payload ih =>
    have hwire : wireOf ((c :: payload).map requestPiece) =
        (requestPiece c).wire ++ wireOf (payload.map requestPiece) := by
      simp [wireOf]
    rw [hwire, requestPiece_wire, h c List.mem_cons_self,
      ih fun d hd => h d (List.mem_cons_of_mem _ hd)]
    rfl

theorem plain_hexNumber (n : ℕ) : ∀ c ∈ hexNumber n, isSpecial c = false := by
  intro c hc
  obtain ⟨d, hd, rfl⟩ := List.mem_map.mp hc
  have hall : ∀ e < 16, isSpecial (Nat.digitChar e).toUInt8 = false := by decide
  obtain ⟨e, he, rfl⟩ := Numerals.mem_toDigits (by decide) hd
  exact hall e he

theorem hexNumber_length_le {n k : ℕ} (hk : 0 < k) (h : n < 16 ^ k) :
    (hexNumber n).length ≤ k := by
  rw [hexNumber, text, List.length_map]
  exact (Nat.length_toDigits_le_iff (by decide) hk).mpr h

theorem plain_hexBytes (bytes : Bytes) : ∀ c ∈ hexBytes bytes, isSpecial c = false := by
  intro c hc
  obtain ⟨b, -, hc⟩ := List.mem_flatMap.mp hc
  have hall : ∀ e < 16, isSpecial (hexDigit e) = false := by decide
  have hlt := b.toNat_lt
  simp only [hexByte, List.mem_cons, List.not_mem_nil, or_false] at hc
  rcases hc with rfl | rfl
  · exact hall _ (by omega)
  · exact hall _ (by omega)

theorem hexBytes_length (bytes : Bytes) : (hexBytes bytes).length = 2 * bytes.length := by
  induction bytes with
  | nil => rfl
  | cons b bytes ih =>
    rw [hexBytes, List.flatMap_cons, List.length_append, List.length_cons]
    rw [hexBytes] at ih
    rw [ih]
    show 2 + 2 * bytes.length = 2 * (bytes.length + 1)
    omega

def Fits (client : Client) (request : Bytes) : Prop :=
  (wireOf (request.map requestPiece)).length ≤ client.packetSize

theorem plain_of_all {s : Bytes} (h : (s.all fun c => !isSpecial c) = true) :
    ∀ c ∈ s, isSpecial c = false := by
  simpa using h

theorem fits_readRequest {client : Client} {address count : ℕ} (haddress : address < 2 ^ 64)
    (hcount : count ≤ client.packetSize / 2) : Fits client (readRequest address count) := by
  have hplain : ∀ c ∈ readRequest address count, isSpecial c = false := by
    simp only [readRequest, List.forall_mem_append]
    exact ⟨plain_of_all (by decide), plain_hexNumber address, plain_of_all (by decide),
      plain_hexNumber count⟩
  have hlarge := client.large
  have hsmall := client.small
  have hmax : maxWire = 1048576 := rfl
  have hfirst := hexNumber_length_le (n := address) (k := 16) (by decide) (by omega)
  have hsecond := hexNumber_length_le (n := count) (k := 6) (by decide) (by omega)
  unfold Fits
  rw [wireOf_plain hplain]
  simp only [readRequest, List.length_append, text, List.length_map, List.length_singleton]
  omega

theorem fits_writeRequest {client : Client} {address : ℕ} {bytes : Bytes}
    (haddress : address < 2 ^ 64) (hcount : bytes.length ≤ (client.packetSize - 40) / 2) :
    Fits client (writeRequest address bytes) := by
  have hplain : ∀ c ∈ writeRequest address bytes, isSpecial c = false := by
    simp only [writeRequest, List.forall_mem_append]
    exact ⟨plain_of_all (by decide), plain_hexNumber address, plain_of_all (by decide),
      plain_hexNumber _, plain_of_all (by decide), plain_hexBytes bytes⟩
  have hlarge := client.large
  have hsmall := client.small
  have hmax : maxWire = 1048576 := rfl
  have hfirst := hexNumber_length_le (n := address) (k := 16) (by decide) (by omega)
  have hsecond := hexNumber_length_le (n := bytes.length) (k := 6) (by decide) (by omega)
  unfold Fits
  rw [wireOf_plain hplain]
  simp only [writeRequest, List.length_append, text, List.length_map, List.length_singleton,
    hexBytes_length]
  omega

theorem length_le_of_fits {client : Client} {request : Bytes} (h : Fits client request) :
    request.length ≤ client.packetSize := by
  have hle := length_le_wireOf (request.map requestPiece)
  rw [List.length_map] at hle
  exact hle.trans h

/-! ### Replies -/

theorem HexText.length {bytes digits : Bytes} (h : HexText bytes digits) :
    digits.length = 2 * bytes.length := by
  induction h with
  | nil => rfl
  | cons _ _ _ ih =>
    rw [List.length_cons, List.length_cons, List.length_cons, ih]
    omega

theorem HexText.decodePairs_eq {bytes digits : Bytes} (h : HexText bytes digits) :
    decodePairs digits = .ok bytes := by
  induction h with
  | nil => rfl
  | @cons b hi lo bytes digits hhi hlo _ ih =>
    have hbyte : UInt8.ofNat (16 * (b.toNat / 16) + b.toNat % 16) = b := by
      rw [Nat.div_add_mod, UInt8.ofNat_toNat]
    rw [decodePairs, hhi, hlo, ih]
    show Except.ok (UInt8.ofNat (16 * (b.toNat / 16) + b.toNat % 16) :: bytes) = _
    rw [hbyte]

theorem HexText.decodeHex_eq {bytes digits : Bytes} (h : HexText bytes digits) :
    decodeHex digits = .ok bytes := by
  rw [decodeHex, h.length, if_neg (by omega), h.decodePairs_eq]

theorem HexText.not_isError {bytes digits : Bytes} (h : HexText bytes digits) :
    isError digits = false := by
  cases h with
  | nil => rfl
  | @cons b hi lo bytes digits hhi hlo h =>
    have hdot : (lo == 0x2e) = false := by
      rw [beq_eq_false_iff_ne]
      rintro rfl
      cases hlo
    cases h with
    | nil =>
      unfold isError
      simp [hdot]
    | cons hhi' hlo' h' =>
      unfold isError
      simp [hdot]

/-! ### The loops -/

theorem toNat_add_ofNat {address : UInt64} {k : ℕ} (h : address.toNat + k < 2 ^ 64) :
    (address + UInt64.ofNat k).toNat = address.toNat + k := by
  rw [UInt64.toNat_add, UInt64.toNat_ofNat', Nat.add_mod_mod, Nat.mod_eq_of_lt h]

section loops

variable {μ : Type} {stub : Stub μ} {view : TargetView μ} {client : Client} {address : UInt64}

/-- A read request, the reply to which fits the packet too. -/
def AskedToRead (client : Client) (request : Bytes) : Prop :=
  Fits client request ∧
    ∃ address count, request = readRequest address count ∧ 2 * count ≤ client.packetSize

def Asked (test : Bytes → Prop) (l l' : Link μ) : Prop :=
  ∃ asked, l'.requests = l.requests ++ asked ∧ ∀ request ∈ asked, test request

theorem Asked.refl (test : Bytes → Prop) (l : Link μ) : Asked test l l :=
  ⟨[], (List.append_nil _).symm, by simp⟩

theorem Asked.head {test : Bytes → Prop} {l l' : Link μ} {payload : Bytes} (hp : test payload)
    (h : Asked test (l.asked stub payload) l') : Asked test l l' := by
  obtain ⟨asked, hrequests, hall⟩ := h
  refine ⟨payload :: asked, ?_, List.forall_mem_cons.mpr ⟨hp, hall⟩⟩
  rw [hrequests]
  show (l.requests ++ [payload]) ++ asked = _
  rw [List.append_assoc]
  rfl

def firstReply (stub : Stub μ) (client : Client) (target : μ) (address : UInt64) (size : ℕ) :
    Bytes :=
  (stub.respond target
    (readRequest address.toNat (min size (client.packetSize / 2)))).2.reply.payload

def readResult (stub : Stub μ) (view : TargetView μ) (client : Client) (target : μ)
    (address : UInt64) (size : ℕ) : Except String Bytes :=
  if view.readablePart target address.toNat size = [] ∧ 0 < size ∧
      isError (firstReply stub client target address size) = true then
    .error (errorResponse (firstReply stub client target address size))
  else .ok (view.readablePart target address.toNat size)

def readReplyTo (stub : Stub μ) (target : μ) (a count : ℕ) : Bytes :=
  (stub.respond target (readRequest a count)).2.reply.payload

theorem read_asked (hserves : ServesMemory stub view client.packetSize) {l : Link μ} {a count : ℕ}
    (htop : a + count ≤ 2 ^ 64) (hcount : count ≤ client.packetSize / 2) :
    view.byte (l.asked stub (readRequest a count)).target = view.byte l.target ∧
      view.read (l.asked stub (readRequest a count)).target = view.read l.target := by
  obtain ⟨hbyte, hreadable, -⟩ := hserves.read l.target a count htop (by omega)
  refine ⟨hbyte, ?_⟩
  funext b
  unfold TargetView.read
  show (if view.readable (stub.respond l.target (readRequest a count)).1 b = true then
    some (view.byte (stub.respond l.target (readRequest a count)).1 b) else none) = _
  rw [hbyte, hreadable]

theorem read_chunk (hserves : ServesMemory stub view client.packetSize)
    (hconnected : client.connected = true) {l : Link μ} (hquiet : l.pending = []) {a count : ℕ}
    (ha : a < 2 ^ 64)
    (htop : a + count ≤ 2 ^ 64) (hcount : count ≤ client.packetSize / 2) :
    (isError (readReplyTo stub l.target a count) = false ∧
      sendPacket (stubPeer stub client.noAck) (readRequest a count) (client, l) =
        (.ok (readReplyTo stub l.target a count),
          (client, l.asked stub (readRequest a count))) ∧
      decodeHex (readReplyTo stub l.target a count) =
        .ok (view.readablePart l.target a count)) ∨
    (isError (readReplyTo stub l.target a count) = true ∧
      sendPacket (stubPeer stub client.noAck) (readRequest a count) (client, l) =
        (.error (errorResponse (readReplyTo stub l.target a count)),
          (client, l.asked stub (readRequest a count))) ∧
      view.readablePart l.target a count = []) := by
  obtain ⟨-, -, hreply⟩ := hserves.read l.target a count htop (by omega)
  have hsend : sendPacket (stubPeer stub client.noAck) (readRequest a count) (client, l) = _ :=
    sendPacket_stub hconnected hquiet (fits_readRequest ha hcount)
  unfold outcome at hsend
  rcases hreply with hhex | ⟨hnothing, herror⟩
  · rw [hhex.not_isError] at hsend
    exact .inl ⟨hhex.not_isError, hsend, hhex.decodeHex_eq⟩
  · rw [herror] at hsend
    exact .inr ⟨herror, hsend, hnothing⟩

theorem readablePart_length_le (view : TargetView μ) (target : μ) (a count : ℕ) :
    (view.readablePart target a count).length ≤ count := by
  have hle := leading_length_le (slice (view.read target) a count)
  rwa [slice_length] at hle

theorem readablePart_add {target : μ} {a n : ℕ} {bytes : Bytes}
    (hbytes : slice (view.read target) a bytes.length = bytes.map some) :
    view.readablePart target a (bytes.length + n) =
      bytes ++ view.readablePart target (a + bytes.length) n := by
  rw [TargetView.readablePart, slice_append, hbytes, leading_append_some]
  rfl

theorem readablePart_short {target : μ} {a n m : ℕ}
    (h : (view.readablePart target a n).length < n) :
    view.readablePart target a (n + m) = view.readablePart target a n := by
  rw [TargetView.readablePart, slice_append]
  refine leading_append_of_short ?_ _
  rwa [slice_length]

/-- **The loop reads on** behind what it has read. -/
theorem readLoop_spec (hserves : ServesMemory stub view client.packetSize)
    (hconnected : client.connected = true) {size : ℕ} (htop : address.toNat + size ≤ 2 ^ 64)
    {bytes : Bytes} (hle : bytes.length ≤ size)
    {l : Link μ} (hquiet : l.pending = [])
    (hbytes : slice (view.read l.target) address.toNat bytes.length = bytes.map some) :
    ∃ l', (readLoop (stubPeer stub client.noAck) address size bytes (client, l)).2 = (client, l') ∧
      view.byte l'.target = view.byte l.target ∧ Asked (AskedToRead client) l l' ∧
      (readLoop (stubPeer stub client.noAck) address size bytes (client, l)).1 =
        if bytes = [] then readResult stub view client l.target address size
        else .ok (view.readablePart l.target address.toNat size) := by
  induction hn : size - bytes.length using Nat.strong_induction_on generalizing bytes l with
  | _ n ih =>
    subst hn
    have hlarge := client.large
    obtain ⟨left, rfl⟩ : ∃ left, size = bytes.length + left := ⟨size - bytes.length, by omega⟩
    have hpart := readablePart_add (n := left) hbytes
    rw [readLoop]
    rw [Nat.add_sub_cancel_left] at ih ⊢
    split
    · rename_i hlt
      obtain ⟨count, hcount⟩ : ∃ count, count = min left (client.packetSize / 2) := ⟨_, rfl⟩
      have hpos : 0 < count := by omega
      have haddress : (address + UInt64.ofNat bytes.length).toNat =
          address.toNat + bytes.length := toNat_add_ofNat (by omega)
      have hasked : AskedToRead client (readRequest (address.toNat + bytes.length) count) :=
        ⟨fits_readRequest (by omega) (by omega), _, _, rfl, by omega⟩
      have hfirst : bytes = [] → firstReply stub client l.target address (bytes.length + left) =
          readReplyTo stub l.target (address.toNat + bytes.length) count := by
        rintro rfl
        rw [firstReply, hcount, List.length_nil, Nat.zero_add, Nat.add_zero]
        rfl
      obtain ⟨hbyte, hread⟩ := read_asked (l := l) hserves
        (show address.toNat + bytes.length + count ≤ 2 ^ 64 by omega) (by omega)
      obtain ⟨rest, hrest⟩ : ∃ rest, left = count + rest := ⟨left - count, by omega⟩
      simp only [haddress, ← hcount]
      have ha : address.toNat + bytes.length < 2 ^ 64 := by omega
      have hend : address.toNat + bytes.length + count ≤ 2 ^ 64 := by omega
      rcases read_chunk hserves hconnected hquiet ha hend (by omega) with
        ⟨hanswer, hsend, hdecode⟩ | ⟨herror, hsend, hnothing⟩
      · have hblock := readablePart_length_le view l.target (address.toNat + bytes.length) count
        rw [hsend]
        simp only [hdecode]
        rw [if_neg (Nat.not_lt.mpr hblock)]
        split
        · -- the stub has nothing behind this
          rename_i hshort
          refine ⟨_, rfl, hbyte, .head hasked (.refl _ _), ?_⟩
          rw [hrest, readablePart_short hshort, ← hrest] at hpart
          split
          · rename_i hempty
            rw [readResult, if_neg (by rw [hfirst hempty, hanswer]; simp), hpart]
          · rw [hpart]
        · rename_i hfull
          have hlength : (view.readablePart l.target (address.toNat + bytes.length) count).length =
              count := by omega
          have hchunk : slice (view.read l.target) (address.toNat + bytes.length) count = _ :=
            leading_full (by rw [slice_length]; exact hlength.ge)
          generalize hb : view.readablePart l.target (address.toNat + bytes.length) count = block
            at hlength
          have hmore : slice (view.read l.target) address.toNat (bytes ++ block).length =
              (bytes ++ block).map some := by
            rw [List.length_append, hlength, slice_append, hbytes, hchunk, List.map_append, ← hb]
            rfl
          have hne : bytes ++ block ≠ [] := by
            intro hnil
            rw [(List.append_eq_nil_iff.mp hnil).2] at hlength
            exact absurd hlength.symm hpos.ne'
          have hless : bytes.length + left - (bytes ++ block).length < left := by
            rw [List.length_append]
            omega
          have hmost : (bytes ++ block).length ≤ bytes.length + left := by
            rw [List.length_append]
            omega
          rw [← hread] at hmore
          obtain ⟨l', hstate, hkept, hasked', hresult⟩ := ih _ hless hmost rfl hmore rfl
          have hsame : view.readablePart
              (l.asked stub (readRequest (address.toNat + bytes.length) count)).target
                address.toNat (bytes.length + left) =
              view.readablePart l.target address.toNat (bytes.length + left) := by
            rw [TargetView.readablePart, hread]
            rfl
          rw [if_neg hne, hsame] at hresult
          refine ⟨l', hstate, hkept.trans hbyte, .head hasked hasked', ?_⟩
          split
          · rename_i hempty
            rw [readResult, if_neg (by rw [hfirst hempty, hanswer]; simp)]
            exact hresult
          · exact hresult
      · rw [hsend]
        refine ⟨_, rfl, hbyte, .head hasked (.refl _ _), ?_⟩
        have hshort : (view.readablePart l.target (address.toNat + bytes.length) count).length <
            count := by
          rw [hnothing]
          exact hpos
        rw [hrest, readablePart_short hshort, hnothing, List.append_nil, ← hrest] at hpart
        by_cases hempty : bytes = []
        · rw [if_pos hempty, readResult, hfirst hempty, hpart,
            if_pos ⟨hempty, by omega, herror⟩, hempty]
          rfl
        · rw [if_neg hempty, hpart]
          show (if bytes.isEmpty then _ else Except.ok bytes) = _
          rw [if_neg (by simpa using hempty)]
    · rename_i hge
      obtain rfl : left = 0 := by omega
      refine ⟨l, rfl, rfl, .refl _ l, ?_⟩
      have hall : view.readablePart l.target address.toNat (bytes.length + 0) = bytes := by
        rw [hpart]
        exact List.append_nil bytes
      split
      · rename_i hempty
        rw [readResult, if_neg (by rw [hempty]; simp), hall]
      · rw [hall]

/-- **The loop writes on** behind what it has written, and knows how much that is. -/
theorem writeLoop_spec (hserves : ServesMemory stub view client.packetSize)
    (hconnected : client.connected = true) {bytes : Bytes}
    (htop : address.toNat + bytes.length ≤ 2 ^ 64) {memory : ℕ → UInt8} {done : ℕ}
    (hle : done ≤ bytes.length) {l : Link μ} (hquiet : l.pending = [])
    (hbytes : view.byte l.target = lay memory address.toNat (bytes.take done)) :
    ∃ l' n, (writeLoop (stubPeer stub client.noAck) address bytes done (client, l)).2 =
        (client, l') ∧ Asked (Fits client) l l' ∧ n ≤ bytes.length ∧
      view.byte l'.target = lay memory address.toNat (bytes.take n) ∧
      ((writeLoop (stubPeer stub client.noAck) address bytes done (client, l)).1 = .ok n ∨
        n = 0 ∧ ∃ e,
          (writeLoop (stubPeer stub client.noAck) address bytes done (client, l)).1 =
            .error e) := by
  induction hn : bytes.length - done using Nat.strong_induction_on generalizing done l with
  | _ n ih =>
    subst hn
    have hlarge := client.large
    rw [writeLoop]
    split
    · rename_i hlt
      obtain ⟨block, hblock⟩ : ∃ block,
        block = (bytes.drop done).take ((client.packetSize - 40) / 2) := ⟨_, rfl⟩
      have hlength : block.length = min (bytes.length - done) ((client.packetSize - 40) / 2) := by
        rw [hblock, List.length_take, List.length_drop]
        omega
      have haddress : (address + UInt64.ofNat done).toNat = address.toNat + done :=
        toNat_add_ofNat (by omega)
      have hfits : Fits client (writeRequest (address.toNat + done) block) :=
        fits_writeRequest (by omega) (by omega)
      have hwritten : bytes.take (done + block.length) = bytes.take done ++ block := by
        have hprefix : block <+: bytes.drop done := hblock ▸ List.take_prefix _ _
        rw [List.take_add, ← List.prefix_iff_eq_take.mp hprefix]
      have hdone : (bytes.take done).length = done := by
        rw [List.length_take, Nat.min_eq_left hle]
      obtain ⟨l', hl'⟩ : ∃ l', l' = l.asked stub (writeRequest (address.toNat + done) block) :=
        ⟨_, rfl⟩
      have hsend : sendPacket (stubPeer stub client.noAck)
          (writeRequest (address.toNat + done) block) (client, l) = _ :=
        sendPacket_stub hconnected hquiet hfits
      rw [← hl'] at hsend
      simp only [haddress, ← hblock, hsend]
      rcases hserves.write l.target (address.toNat + done) block (by omega)
          (length_le_of_fits hfits) with
        ⟨hok, hbyte⟩ | ⟨hrefused, hbyte⟩
      · rw [hok, show outcome (text ['O', 'K']) = .ok (text ['O', 'K']) from rfl]
        simp only [ne_eq, not_true_eq_false, if_false, ← hlength]
        have hmore : view.byte l'.target =
            lay memory address.toNat (bytes.take (done + block.length)) := by
          rw [hwritten, lay_append, hdone, ← hbytes, hl']
          exact hbyte
        obtain ⟨l'', n, hstate, hasked, hn, hkept, hresult⟩ := ih
          (bytes.length - (done + block.length)) (by omega) (by omega) (l := l')
          (by rw [hl']; rfl) hmore rfl
        rw [hl'] at hasked
        exact ⟨l'', n, hstate, hasked.head hfits, hn, hkept, hresult⟩
      · -- nothing of this request was written
        have hsame : view.byte l'.target = lay memory address.toNat (bytes.take done) := by
          rw [← hbytes, hl']
          exact hbyte
        have hasked : Asked (Fits client) l l' := by
          rw [hl']
          exact .head hfits (.refl _ _)
        have hstopped : ∀ e : String, (if 0 < done then Except.ok done else Except.error e) =
            (Except.ok done : Except String ℕ) ∨ done = 0 ∧ ∃ e',
              (if 0 < done then Except.ok done else Except.error e) =
                (Except.error e' : Except String ℕ) := by
          intro e
          by_cases hpos : 0 < done
          · exact .inl (if_pos hpos)
          · exact .inr ⟨by omega, e, if_neg hpos⟩
        unfold outcome
        by_cases herror : isError (stub.respond l.target
            (writeRequest (address.toNat + done) block)).2.reply.payload = true
        · simp only [if_pos herror]
          exact ⟨l', done, rfl, hasked, hle, hsame, hstopped _⟩
        · simp only [if_neg herror, ne_eq, hrefused, not_false_eq_true, if_true]
          exact ⟨l', done, rfl, hasked, hle, hsame, hstopped _⟩
    · rename_i hge
      obtain rfl : done = bytes.length := by omega
      exact ⟨l, bytes.length, rfl, .refl _ l, Nat.le_refl _, hbytes, .inl rfl⟩

theorem overflows_eq_false {size : ℕ} (hsize : size ≤ maxDecoded)
    (htop : address.toNat + size ≤ 2 ^ 64) : overflows address size = false := by
  unfold overflows
  simp only [Bool.or_eq_false_iff, Bool.and_eq_false_iff, decide_eq_false_iff_not, Nat.not_lt,
    bne_eq_false_iff_eq]
  exact ⟨hsize, .inr (by omega)⟩

/-- **Memory access is exact**, whatever the size of the packets. -/
theorem memory_access_exact (hserves : ServesMemory stub view client.packetSize)
    (hconnected : client.connected = true) {l : Link μ} (hquiet : l.pending = [])
    (address : UInt64) :
    (∀ size, size ≤ maxDecoded → address.toNat + size ≤ 2 ^ 64 →
      ∃ l', readMemory (stubPeer stub client.noAck) address size (client, l) =
          (readResult stub view client l.target address size, (client, l')) ∧
        view.byte l'.target = view.byte l.target ∧ Asked (AskedToRead client) l l') ∧
    (∀ bytes : Bytes, bytes.length ≤ maxDecoded → address.toNat + bytes.length ≤ 2 ^ 64 →
      ∃ l' n result, writeMemory (stubPeer stub client.noAck) address bytes (client, l) =
          (result, (client, l')) ∧
        (result = .ok n ∨ n = 0 ∧ ∃ e, result = .error e) ∧ n ≤ bytes.length ∧
        view.byte l'.target = lay (view.byte l.target) address.toNat (bytes.take n) ∧
        Asked (Fits client) l l') := by
  refine ⟨fun size hsize htop => ?_, fun bytes hsize htop => ?_⟩
  · have hnone : slice (view.read l.target) address.toNat ([] : Bytes).length =
        ([] : Bytes).map some := rfl
    obtain ⟨l', hstate, hkept, hasked, hresult⟩ :=
      readLoop_spec hserves hconnected htop (Nat.zero_le _) hquiet hnone
    refine ⟨l', ?_, hkept, hasked⟩
    unfold readMemory
    rw [overflows_eq_false hsize htop]
    exact Prod.ext hresult hstate
  · have hnone : view.byte l.target =
        lay (view.byte l.target) address.toNat (bytes.take 0) := by simp
    obtain ⟨l', n, hstate, hasked, hn, hkept, hresult⟩ :=
      writeLoop_spec hserves hconnected htop (Nat.zero_le _) hquiet hnone
    refine ⟨l', n, _, ?_, hresult, hn, hkept, hasked⟩
    unfold writeMemory
    rw [overflows_eq_false hsize htop]
    exact Prod.ext rfl hstate

end loops

/-! ### A stub -/

def refusal : Answer where
  printed := []
  reply := ⟨(text ['E', '0', '1']).map requestPiece, by decide, by decide⟩
  few := by decide
  areConsole := by simp
  notConsole := rfl

def answer (reply : Bytes) : Answer :=
  if h : (wireOf (reply.map requestPiece)).length ≤ maxWire ∧
      (payloadOf (reply.map requestPiece)).length ≤ maxDecoded ∧
      isConsole (payloadOf (reply.map requestPiece)) = false then
    ⟨[], ⟨reply.map requestPiece, h.1, h.2.1⟩, by simp, by simp, h.2.2⟩
  else refusal

def number (digits : Bytes) : ℕ := Numerals.value 16 (digits.map fun c => Char.ofNat c.toNat)

def comma : UInt8 := 0x2c
def colon : UInt8 := 0x3a

/-- All of its memory can be read and written. -/
def ramStub : Stub (ℕ → UInt8) where
  respond := fun memory payload =>
    let address := number (payload.tail.takeWhile (· != comma))
    let rest := (payload.dropWhile (· != comma)).tail
    if payload.head? = some 0x6d then
      (memory, answer (hexBytes (slice memory address (number rest))))
    else if payload.head? = some 0x4d then
      match decodePairs (rest.dropWhile (· != colon)).tail with
      | .ok bytes => (lay memory address bytes, answer (text ['O', 'K']))
      | .error _ => (memory, refusal)
    else (memory, answer [])

def ram : TargetView (ℕ → UInt8) := ⟨id, fun _ _ => true⟩

theorem hexDigit_facts : ∀ e < 16, Char.ofNat (Nat.digitChar e).toUInt8.toNat = Nat.digitChar e ∧
    (Nat.digitChar e).toUInt8 ≠ comma ∧ (Nat.digitChar e).toUInt8 ≠ colon := by
  decide

theorem number_hexNumber (n : ℕ) : number (hexNumber n) = n := by
  have hdigits : (hexNumber n).map (fun c => Char.ofNat c.toNat) = Nat.toDigits 16 n := by
    unfold hexNumber text
    rw [List.map_map]
    refine (List.map_congr_left fun c hc => ?_).trans (List.map_id _)
    obtain ⟨e, he, rfl⟩ := Numerals.mem_toDigits (by decide) hc
    exact (hexDigit_facts e he).1
  rw [number, hdigits, Numerals.value_toDigits (by decide) (by decide)]

theorem hexNumber_ne {n : ℕ} {c : UInt8} (hc : c ∈ hexNumber n) : c ≠ comma ∧ c ≠ colon := by
  obtain ⟨d, hd, rfl⟩ := List.mem_map.mp hc
  obtain ⟨e, he, rfl⟩ := Numerals.mem_toDigits (by decide) hd
  exact (hexDigit_facts e he).2

theorem span_hexNumber (n : ℕ) {separator : UInt8} (hsep : separator = comma ∨ separator = colon)
    (rest : Bytes) :
    (hexNumber n ++ separator :: rest).takeWhile (· != separator) = hexNumber n ∧
      (hexNumber n ++ separator :: rest).dropWhile (· != separator) = separator :: rest := by
  have hall : ∀ c ∈ hexNumber n, (c != separator) = true := by
    intro c hc
    obtain ⟨hcomma, hcolon⟩ := hexNumber_ne hc
    rcases hsep with rfl | rfl
    · simpa using hcomma
    · simpa using hcolon
  rw [List.takeWhile_append_of_pos hall, List.dropWhile_append_of_pos hall,
    List.takeWhile_cons_of_neg (by simp), List.dropWhile_cons_of_neg (by simp), List.append_nil]
  exact ⟨rfl, rfl⟩

theorem HexText.hexBytes (bytes : Bytes) : HexText bytes (hexBytes bytes) := by
  induction bytes with
  | nil => exact .nil
  | cons b bytes ih =>
    have hlt := b.toNat_lt
    exact .cons (hexValue_hexDigit (by omega)) (hexValue_hexDigit (by omega)) ih

theorem not_isConsole_hexBytes (bytes : Bytes) : isConsole (hexBytes bytes) = false := by
  cases bytes with
  | nil => rfl
  | cons b bytes =>
    have hlt := b.toNat_lt
    have hall : ∀ e < 16, (hexDigit e == 0x4f) = false := by decide
    show isConsole (hexDigit (b.toNat / 16) :: _) = false
    unfold isConsole
    simp only [hall _ (show b.toNat / 16 < 16 by omega), Bool.false_and]

theorem answer_reply {reply : Bytes} (hplain : ∀ c ∈ reply, isSpecial c = false)
    (hlength : reply.length ≤ maxWire) (hconsole : isConsole reply = false) :
    (answer reply).reply.payload = reply := by
  have hlimits : maxWire ≤ maxDecoded := by decide
  have hpayload : payloadOf (reply.map requestPiece) = reply := payloadOf_requestPiece reply
  have hcond : (wireOf (reply.map requestPiece)).length ≤ maxWire ∧
      (payloadOf (reply.map requestPiece)).length ≤ maxDecoded ∧
      isConsole (payloadOf (reply.map requestPiece)) = false := by
    rw [hpayload, wireOf_plain hplain]
    exact ⟨hlength, by omega, hconsole⟩
  unfold answer
  rw [dif_pos hcond]
  exact hpayload

theorem ram_readablePart (memory : ℕ → UInt8) (address size : ℕ) :
    ram.readablePart memory address size = slice memory address size := by
  have hslice : slice (ram.read memory) address size = (slice memory address size).map some := by
    unfold slice
    rw [List.map_map]
    exact List.map_congr_left fun i _ => if_pos rfl
  rw [TargetView.readablePart, hslice, leading_map_some]

theorem ramStub_serves {packetSize : ℕ} (hsmall : packetSize ≤ maxWire) :
    ServesMemory ramStub ram packetSize := by
  constructor
  · intro memory address count _ hcount
    have hshape : readRequest address count =
        0x6d :: (hexNumber address ++ comma :: hexNumber count) := rfl
    obtain ⟨htake, hdrop⟩ := span_hexNumber address (.inl rfl) (hexNumber count)
    have hrespond : ramStub.respond memory (readRequest address count) =
        (memory, answer (hexBytes (slice memory address count))) := by
      unfold ramStub
      simp only [hshape, List.tail_cons, htake, number_hexNumber, List.head?_cons, if_true]
      rw [List.dropWhile_cons_of_pos (by decide), hdrop, List.tail_cons, number_hexNumber]
    rw [hrespond, ram_readablePart, answer_reply (plain_hexBytes _)
      (by rw [hexBytes_length, slice_length]; omega) (not_isConsole_hexBytes _)]
    exact ⟨rfl, rfl, .inl (.hexBytes _)⟩
  · intro memory address bytes _ _
    have hshape : writeRequest address bytes = 0x4d :: (hexNumber address ++ comma ::
        (hexNumber bytes.length ++ colon :: hexBytes bytes)) := rfl
    obtain ⟨htake, hdrop⟩ := span_hexNumber address (.inl rfl)
      (hexNumber bytes.length ++ colon :: hexBytes bytes)
    obtain ⟨-, hdata⟩ := @span_hexNumber bytes.length colon (.inr rfl) (hexBytes bytes)
    have hrespond : ramStub.respond memory (writeRequest address bytes) =
        (lay memory address bytes, answer (text ['O', 'K'])) := by
      unfold ramStub
      simp only [hshape, List.tail_cons, htake, number_hexNumber, List.head?_cons]
      rw [List.dropWhile_cons_of_pos (by decide), hdrop, List.tail_cons, hdata, List.tail_cons,
        (HexText.hexBytes bytes).decodePairs_eq]
      rfl
    rw [hrespond]
    exact .inl ⟨answer_reply (plain_of_all (by decide)) (by decide) (by decide), rfl⟩

/-- Two bytes at the end of the address space. -/
theorem memory_access_exact_ram :
    ∃ l', readMemory (stubPeer ramStub false) 0xfffffffffffffffe 2 ({}, ⟨fun _ => 7, [], []⟩) =
      (readResult ramStub ram {} (fun _ => 7) 0xfffffffffffffffe 2, ({}, l')) ∧
        ram.byte l'.target = ram.byte (fun _ => 7) ∧
        Asked (AskedToRead {}) ⟨fun _ => 7, [], []⟩ l' :=
  (@memory_access_exact _ ramStub ram {} (ramStub_serves (Client.small {})) rfl
    ⟨fun _ => 7, [], []⟩ rfl 0xfffffffffffffffe).1 2 (by decide) (by decide)

/-- A packet that prints `A`. -/
def printedA : Packet where
  pieces := (text ['O', '4', '1']).map requestPiece
  wire := by decide
  fits := by decide

/-- A range of more than 16 MiB is refused, though all of it can be read, and an answer behind 64
packets of text is not heard. -/
theorem memory_access_limits :
    (0 : UInt64).toNat + (maxDecoded + 1) ≤ 2 ^ 64 ∧ ServesMemory ramStub ram 1024 ∧
    (ram.readablePart (fun _ => 7) 0 (maxDecoded + 1)).length = maxDecoded + 1 ∧
    (readMemory (stubPeer ramStub false) 0 (maxDecoded + 1) ({}, ⟨fun _ => 7, [], []⟩)).1 =
      .error "GDB memory read size or address overflow" ∧
    ∀ reply : Packet, (readReply (stubPeer ramStub false) false 64
      ⟨fun _ => 7, (List.replicate 64 printedA).flatMap Packet.bytes ++ reply.bytes, []⟩).1 =
        .error "Too many GDB console packets" := by
  refine ⟨by decide, ramStub_serves (by decide), ?_, ?_, fun reply => ?_⟩
  · rw [ram_readablePart, slice_length]
  · have hlarge : overflows 0 (maxDecoded + 1) = true := by decide
    unfold readMemory
    rw [hlarge]
    rfl
  · have hprinted : ∀ p ∈ List.replicate 64 printedA, isConsole p.payload = true := by
      intro p hp
      rw [List.eq_of_mem_replicate hp]
      rfl
    exact congrArg Prod.fst (readReply_flooded List.length_replicate hprinted rfl)

end CheatEngine.GdbRemote
