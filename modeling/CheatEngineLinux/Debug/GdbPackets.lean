import Mathlib.Tactic

/-!
# Packets of the GDB remote protocol

`readPacket` and the frame that `sendPacket` builds (`src/debug/gdb_remote.cpp`).  A packet is
`$`, the escaped and run-length encoded payload, `#` and two digits of checksum.

* `Peer`: the other end, by what `readByte` and `sendAll` do.
* `requestPacket`, `decode`, `readPacket`: the source.
* `Piece`: a byte of a payload as a stub may write it, escaped or not and repeated or not.
* **PROVED `decode_wire`**: what pieces stand for is what they are decoded to.
* **PROVED `readPacket_delivers`**: a frame with its checksum is read as what it holds.
* **PROVED `readPacket_reply`**: a reply is what the last frame holds, whose checksum matches.
-/

namespace CheatEngine.GdbRemote

abbrev Bytes := List UInt8

abbrev Exchange (σ α : Type) := ExceptT String (StateM σ) α

/-- The other end of a connection. -/
structure Peer (σ : Type) where
  readByte : Exchange σ UInt8
  sendAll : Bytes → Exchange σ Unit

def dollar : UInt8 := 0x24
def hash : UInt8 := 0x23
def brace : UInt8 := 0x7d
def star : UInt8 := 0x2a
def plus : UInt8 := 0x2b
def minus : UInt8 := 0x2d

def maxWire : ℕ := 2 ^ 20
def maxDecoded : ℕ := 16 * 2 ^ 20

/-! ### Digits -/

def hexValue (c : UInt8) : Option ℕ :=
  if 0x30 ≤ c ∧ c ≤ 0x39 then some (c.toNat - 0x30)
  else if 0x61 ≤ c ∧ c ≤ 0x66 then some (c.toNat - 0x61 + 10)
  else if 0x41 ≤ c ∧ c ≤ 0x46 then some (c.toNat - 0x41 + 10)
  else none

def hexDigit (n : ℕ) : UInt8 :=
  if n < 10 then UInt8.ofNat (0x30 + n) else UInt8.ofNat (0x61 + (n - 10))

def hexByte (b : UInt8) : Bytes := [hexDigit (b.toNat / 16), hexDigit (b.toNat % 16)]

theorem hexValue_hexDigit {n : ℕ} (h : n < 16) : hexValue (hexDigit n) = some n := by
  interval_cases n <;> rfl

/-! ### The frame of a request -/

def isSpecial (c : UInt8) : Bool := c == dollar || c == hash || c == brace || c == star

/-- The payload with its special bytes escaped, as long as it fits. -/
def escapeRequest (packetSize : ℕ) : Bytes → Bytes → Except String Bytes
  | raw, [] => .ok raw
  | raw, c :: payload =>
    let raw := raw ++ if isSpecial c then [brace, c ^^^ 0x20] else [c]
    if packetSize < raw.length then .error "Request exceeds negotiated GDB packet size"
    else escapeRequest packetSize raw payload

def checksum (raw : Bytes) : UInt8 := raw.foldl (· + ·) 0

def frame (raw : Bytes) : Bytes := dollar :: (raw ++ hash :: hexByte (checksum raw))

/-- What `sendPacket` puts on the wire. -/
def requestPacket (packetSize : ℕ) (payload : Bytes) : Except String Bytes :=
  (escapeRequest packetSize [] payload).map frame

/-! ### Decoding -/

def decodeLoop : Bytes → Bytes → Except String Bytes
  | decoded, [] => .ok decoded
  | decoded, c :: rest =>
    if c = brace then
      match rest with
      | [] => .error "Truncated GDB escape"
      | e :: rest =>
        if maxDecoded ≤ decoded.length then .error "Decoded GDB packet exceeds size limit"
        else decodeLoop (decoded ++ [e ^^^ 0x20]) rest
    else if c = star then
      match decoded.getLast?, rest with
      | some last, count :: rest =>
        if count < 32 ∨ 126 < count ∨ count = dollar ∨ count = hash then
          .error "Invalid GDB run-length count"
        else if maxDecoded - decoded.length < count.toNat - 29 then
          .error "Decoded GDB packet exceeds size limit"
        else decodeLoop (decoded ++ List.replicate (count.toNat - 29) last) rest
      | _, _ => .error "Invalid GDB run-length data"
    else if maxDecoded ≤ decoded.length then .error "Decoded GDB packet exceeds size limit"
    else decodeLoop (decoded ++ [c]) rest

def decode (raw : Bytes) : Except String Bytes := decodeLoop [] raw

/-! ### Reading -/

section reading

variable {σ : Type} (peer : Peer σ)

/-- Up to `left` acknowledgements, and the start of a packet. -/
def skipAcks : ℕ → Exchange σ Unit
  | 0 => do
    let c ← peer.readByte
    if c = dollar then return () else throw "Unexpected GDB packet prefix"
  | left + 1 => do
    let c ← peer.readByte
    if c = dollar then return ()
    else if c ≠ plus then throw "Unexpected GDB packet prefix"
    else skipAcks left

/-- The bytes up to `#`, of which there may be `left`. -/
def readRaw : ℕ → Exchange σ Bytes
  | 0 => do
    let c ← peer.readByte
    if c = hash then return [] else throw "GDB packet exceeds size limit"
  | left + 1 => do
    let c ← peer.readByte
    if c = hash then return []
    else
      let raw ← readRaw left
      return c :: raw

def readDigits : Exchange σ (UInt8 × UInt8) := fun s =>
  let (hi, s) := peer.readByte s
  let (lo, s) := peer.readByte s
  match hi, lo with
  | .ok hi, .ok lo => (.ok (hi, lo), s)
  | .error e, _ => (.error e, s)
  | .ok _, .error e => (.error e, s)

def checksumMatches (raw : Bytes) (digits : UInt8 × UInt8) : Bool :=
  match hexValue digits.1, hexValue digits.2 with
  | some a, some b => (checksum raw).toNat == 16 * a + b
  | _, _ => false

/-- What follows a frame: its payload, or `none` where it is asked for again. -/
def acceptFrame (noAck : Bool) (raw : Bytes) (digits : UInt8 × UInt8) :
    Exchange σ (Option Bytes) :=
  if checksumMatches raw digits then
    match decode raw with
    | .error e => throw e
    | .ok decoded => do
      if noAck then return some decoded
      peer.sendAll [plus]
      return some decoded
  else if noAck then throw "Invalid GDB checksum"
  else fun s =>
    match peer.sendAll [minus] s with
    | (.error _, s) => (.error "Invalid GDB checksum", s)
    | (.ok (), s) => (.ok none, s)

def readAttempt (noAck : Bool) : Exchange σ (Option Bytes) := do
  skipAcks peer 17
  let raw ← readRaw peer maxWire
  let digits ← readDigits peer
  acceptFrame peer noAck raw digits

def readAttempts (noAck : Bool) : ℕ → Exchange σ Bytes
  | 0 => throw "Repeated GDB checksum failures"
  | left + 1 => do
    match ← readAttempt peer noAck with
    | some decoded => return decoded
    | none => readAttempts noAck left

def readPacket (noAck : Bool) : Exchange σ Bytes := readAttempts peer noAck 3

end reading

/-! ### Steps of an exchange -/

section exchange

variable {σ α β : Type} {m : Exchange σ α} {f : α → Exchange σ β} {s s' : σ}

theorem bind_ok {a : α} (h : m s = (.ok a, s')) : (m >>= f) s = f a s' := by
  show (m.bind f) s = f a s'
  simp only [ExceptT.bind, ExceptT.mk, bind, StateT.bind, h, ExceptT.bindCont]

theorem bind_error {e : String} (h : m s = (.error e, s')) : (m >>= f) s = (.error e, s') := by
  show (m.bind f) s = (.error e, s')
  simp only [ExceptT.bind, ExceptT.mk, bind, StateT.bind, h, ExceptT.bindCont]
  rfl

/-- An exchange of two parts succeeds as both do. -/
theorem bind_eq_ok {b : β} {s'' : σ} : (m >>= f) s = (.ok b, s'') ↔
    ∃ a s', m s = (.ok a, s') ∧ f a s' = (.ok b, s'') := by
  rcases hm : m s with ⟨e | a, s'⟩
  · rw [bind_error hm]
    constructor
    · intro h
      cases h
    · rintro ⟨a, t, ⟨⟩, -⟩
  · rw [bind_ok hm]
    constructor
    · exact fun h => ⟨a, s', rfl, h⟩
    · rintro ⟨a, t, ⟨⟩, h⟩
      exact h

end exchange

/-! ### What a peer delivers -/

section delivers

variable {σ : Type} {peer : Peer σ}

/-- These bytes are read, one after the other. -/
inductive Delivers (peer : Peer σ) : σ → Bytes → σ → Prop
  | nil (s : σ) : Delivers peer s [] s
  | cons {s s' s'' : σ} {c : UInt8} {rest : Bytes} (h : peer.readByte s = (.ok c, s'))
      (hrest : Delivers peer s' rest s'') : Delivers peer s (c :: rest) s''

theorem Delivers.split {s s'' : σ} {first second : Bytes}
    (h : Delivers peer s (first ++ second) s'') :
    ∃ s', Delivers peer s first s' ∧ Delivers peer s' second s'' := by
  induction first generalizing s with
  | nil => exact ⟨s, .nil s, h⟩
  | cons c first ih =>
    cases h with
    | cons hbyte hrest =>
      obtain ⟨s', hfirst, hsecond⟩ := ih hrest
      exact ⟨s', .cons hbyte hfirst, hsecond⟩

theorem skipAcks_delivers {left acks : ℕ} (hacks : acks ≤ left) {s s' : σ}
    (h : Delivers peer s (List.replicate acks plus ++ [dollar]) s') :
    skipAcks peer left s = (.ok (), s') := by
  induction acks generalizing left s with
  | zero =>
    cases h with
    | cons hbyte hrest =>
      cases hrest
      cases left with
      | zero =>
        rw [skipAcks, bind_ok hbyte]
        rfl
      | succ left =>
        rw [skipAcks, bind_ok hbyte]
        rfl
  | succ acks ih =>
    cases h with
    | cons hbyte hrest =>
      obtain ⟨left, rfl⟩ : ∃ n, left = n + 1 := ⟨left - 1, by omega⟩
      rw [skipAcks, bind_ok hbyte]
      exact ih (by omega) hrest

theorem readRaw_delivers {left : ℕ} {raw : Bytes} (hraw : hash ∉ raw) (hleft : raw.length ≤ left)
    {s s' : σ} (h : Delivers peer s (raw ++ [hash]) s') :
    readRaw peer left s = (.ok raw, s') := by
  induction raw generalizing left s with
  | nil =>
    cases h with
    | cons hbyte hrest =>
      cases hrest
      cases left with
      | zero =>
        rw [readRaw, bind_ok hbyte]
        rfl
      | succ left =>
        rw [readRaw, bind_ok hbyte]
        rfl
  | cons c raw ih =>
    cases h with
    | cons hbyte hrest =>
      obtain ⟨left, rfl⟩ : ∃ n, left = n + 1 := ⟨left - 1, by
        rw [List.length_cons] at hleft
        omega⟩
      have hc : c ≠ hash := fun heq => hraw (heq ▸ List.mem_cons_self)
      have hrest' := ih (fun hmem => hraw (List.mem_cons_of_mem _ hmem))
        (Nat.le_of_succ_le_succ hleft) hrest
      rw [readRaw, bind_ok hbyte, if_neg hc, bind_ok hrest']
      rfl

theorem readDigits_delivers {hi lo : UInt8} {s s' : σ} (h : Delivers peer s [hi, lo] s') :
    readDigits peer s = (.ok (hi, lo), s') := by
  cases h with
  | cons hfirst hrest =>
    cases hrest with
    | cons hsecond hrest =>
      cases hrest
      unfold readDigits
      simp only [hfirst, hsecond]

theorem checksumMatches_hexByte (raw : Bytes) :
    checksumMatches raw (hexDigit ((checksum raw).toNat / 16),
      hexDigit ((checksum raw).toNat % 16)) = true := by
  have hlt := (checksum raw).toNat_lt
  unfold checksumMatches
  rw [hexValue_hexDigit (by omega), hexValue_hexDigit (by omega)]
  simp only [beq_iff_eq]
  omega

def Acknowledged (peer : Peer σ) (noAck : Bool) (s s' : σ) : Prop :=
  if noAck then s' = s else peer.sendAll [plus] s = (.ok (), s')

/-- **A frame is read as what it holds**, after up to 17 acknowledgements. -/
theorem readPacket_delivers {noAck : Bool} {acks : ℕ} (hacks : acks ≤ 17) {raw decoded : Bytes}
    (hraw : hash ∉ raw) (hwire : raw.length ≤ maxWire) (hdecode : decode raw = .ok decoded)
    {s s' s'' : σ} (h : Delivers peer s (List.replicate acks plus ++ frame raw) s')
    (hack : Acknowledged peer noAck s' s'') : readPacket peer noAck s = (.ok decoded, s'') := by
  have hparts : List.replicate acks plus ++ frame raw = (List.replicate acks plus ++ [dollar]) ++
      ((raw ++ [hash]) ++ hexByte (checksum raw)) := by
    simp [frame]
  rw [hparts] at h
  obtain ⟨s₁, hstart, h⟩ := h.split
  obtain ⟨s₂, hbody, hdigits⟩ := h.split
  have haccept : acceptFrame peer noAck raw
      (hexDigit ((checksum raw).toNat / 16), hexDigit ((checksum raw).toNat % 16)) s' =
        (.ok (some decoded), s'') := by
    unfold acceptFrame
    rw [if_pos (checksumMatches_hexByte raw), hdecode]
    unfold Acknowledged at hack
    cases noAck with
    | true =>
      rw [if_pos rfl] at hack
      rw [hack]
      rfl
    | false =>
      rw [if_neg (by simp)] at hack
      exact bind_ok hack
  have hattempt : readAttempt peer noAck s = (.ok (some decoded), s'') := by
    unfold readAttempt
    rw [bind_ok (skipAcks_delivers hacks hstart), bind_ok (readRaw_delivers hraw hwire hbody),
      bind_ok (readDigits_delivers hdigits), haccept]
  unfold readPacket
  rw [readAttempts, bind_ok hattempt]
  rfl

end delivers

/-! ### What a stub may write -/

def isCount (n : UInt8) : Bool := 32 ≤ n && n ≤ 126 && n != dollar && n != hash

/-- A byte of the payload, and how often it is repeated.  It may be escaped, and must be where it
means something else; what it is escaped to is not the end of the packet. -/
structure Piece where
  byte : UInt8
  escaped : Bool
  counts : List UInt8
  plain : escaped = false → isSpecial byte = false
  inside : escaped = true → byte ^^^ 0x20 ≠ hash
  areCounts : ∀ n ∈ counts, isCount n = true

namespace Piece

def symbol (p : Piece) : Bytes := if p.escaped then [brace, p.byte ^^^ 0x20] else [p.byte]

def runs (counts : List UInt8) : Bytes := counts.flatMap fun n => [star, n]

def wire (p : Piece) : Bytes := p.symbol ++ runs p.counts

def repeats (counts : List UInt8) : ℕ := (counts.map fun n => n.toNat - 29).sum

def payload (p : Piece) : Bytes := List.replicate (1 + repeats p.counts) p.byte

end Piece

def wireOf (pieces : List Piece) : Bytes := pieces.flatMap Piece.wire

def payloadOf (pieces : List Piece) : Bytes := pieces.flatMap Piece.payload

theorem xor_xor_cancel (c d : UInt8) : (c ^^^ d) ^^^ d = c := by
  rw [UInt8.xor_assoc, UInt8.xor_self, UInt8.xor_zero]

theorem isSpecial_eq_false {c : UInt8} :
    isSpecial c = false ↔ c ≠ dollar ∧ c ≠ hash ∧ c ≠ brace ∧ c ≠ star := by
  simp [isSpecial, and_assoc]

theorem isCount_eq_true {n : UInt8} :
    isCount n = true ↔ 32 ≤ n ∧ n ≤ 126 ∧ n ≠ dollar ∧ n ≠ hash := by
  simp [isCount, and_assoc]

theorem decodeLoop_runs {counts : List UInt8} (hcounts : ∀ n ∈ counts, isCount n = true)
    {decoded : Bytes} {byte : UInt8} (hlast : decoded.getLast? = some byte)
    (hfits : decoded.length + Piece.repeats counts ≤ maxDecoded) (rest : Bytes) :
    decodeLoop decoded (Piece.runs counts ++ rest) =
      decodeLoop (decoded ++ List.replicate (Piece.repeats counts) byte) rest := by
  induction counts generalizing decoded with
  | nil => simp [Piece.runs, Piece.repeats]
  | cons n counts ih =>
    obtain ⟨hmin, hmax, hdollar, hhash⟩ := isCount_eq_true.mp (hcounts n List.mem_cons_self)
    have hrepeats : Piece.repeats (n :: counts) = (n.toNat - 29) + Piece.repeats counts := by
      simp [Piece.repeats]
    have hpos : 0 < n.toNat - 29 := by
      have hmin' : 32 ≤ n.toNat := hmin
      omega
    rw [hrepeats] at hfits ⊢
    have hnext : (decoded ++ List.replicate (n.toNat - 29) byte).getLast? = some byte := by
      rw [List.getLast?_append_of_ne_nil _ (by simp; omega), List.getLast?_replicate,
        if_neg (by omega)]
    have hstep : decodeLoop decoded (star :: n :: (Piece.runs counts ++ rest)) =
        decodeLoop (decoded ++ List.replicate (n.toNat - 29) byte)
          (Piece.runs counts ++ rest) := by
      rw [decodeLoop, if_neg (by decide), if_pos rfl, hlast]
      simp only
      rw [if_neg (by simp only [not_or, UInt8.not_lt]; exact ⟨hmin, hmax, hdollar, hhash⟩),
        if_neg (by omega)]
    have hshape : Piece.runs (n :: counts) ++ rest =
        star :: n :: (Piece.runs counts ++ rest) := by
      simp [Piece.runs]
    rw [hshape, hstep, ih (fun k hk => hcounts k (List.mem_cons_of_mem _ hk)) hnext (by
      rw [List.length_append, List.length_replicate]
      omega), List.append_assoc, ← List.replicate_add]

theorem decodeLoop_symbol (p : Piece) {decoded : Bytes} (hfits : decoded.length < maxDecoded)
    (rest : Bytes) :
    decodeLoop decoded (p.symbol ++ rest) = decodeLoop (decoded ++ [p.byte]) rest := by
  unfold Piece.symbol
  split
  · rw [List.cons_append, List.cons_append, decodeLoop, if_pos rfl,
      if_neg (Nat.not_le.mpr hfits), xor_xor_cancel, List.nil_append]
  · rename_i hplain
    obtain ⟨-, -, hbrace, hstar⟩ := isSpecial_eq_false.mp (p.plain (by simpa using hplain))
    rw [List.cons_append, List.nil_append, decodeLoop.eq_def]
    simp only
    rw [if_neg hbrace, if_neg hstar, if_neg (Nat.not_le.mpr hfits)]

theorem decodeLoop_wire (p : Piece) {decoded : Bytes}
    (hfits : decoded.length + p.payload.length ≤ maxDecoded) (rest : Bytes) :
    decodeLoop decoded (p.wire ++ rest) = decodeLoop (decoded ++ p.payload) rest := by
  rw [Piece.payload, List.length_replicate] at hfits
  have hlast : (decoded ++ [p.byte]).getLast? = some p.byte := by simp
  rw [Piece.wire, List.append_assoc, decodeLoop_symbol p (by omega),
    decodeLoop_runs p.areCounts hlast (by
      rw [List.length_append, List.length_singleton]
      omega),
    List.append_assoc, Piece.payload, Nat.add_comm, List.replicate_succ, List.singleton_append]

/-- **Pieces are decoded to what they stand for.** -/
theorem decode_wire {pieces : List Piece} (hfits : (payloadOf pieces).length ≤ maxDecoded) :
    decode (wireOf pieces) = .ok (payloadOf pieces) := by
  suffices h : ∀ decoded : Bytes, decoded.length + (payloadOf pieces).length ≤ maxDecoded →
      decodeLoop decoded (wireOf pieces) = .ok (decoded ++ payloadOf pieces) by
    have hall := h [] (by simpa using hfits)
    exact hall
  clear hfits
  induction pieces with
  | nil =>
    intro decoded _
    simp [wireOf, payloadOf, decodeLoop]
  | cons p pieces ih =>
    intro decoded hfits
    have hlength : (payloadOf (p :: pieces)).length =
        p.payload.length + (payloadOf pieces).length := by
      simp [payloadOf]
    rw [hlength] at hfits
    have hwire : wireOf (p :: pieces) = p.wire ++ wireOf pieces := by
      simp [wireOf]
    rw [hwire, decodeLoop_wire p (by omega), ih _ (by
      rw [List.length_append]
      omega), List.append_assoc]
    simp [payloadOf]

/-- The end of the packet is not in it. -/
theorem hash_notMem_wire (p : Piece) : hash ∉ p.wire := by
  intro hmem
  rcases List.mem_append.mp hmem with hmem | hmem
  · unfold Piece.symbol at hmem
    split at hmem
    · rename_i hescaped
      simp only [List.mem_cons, List.not_mem_nil, or_false] at hmem
      rcases hmem with hmem | hmem
      · exact absurd hmem (by decide)
      · exact p.inside hescaped hmem.symm
    · rename_i hplain
      obtain ⟨-, hhash, -⟩ := isSpecial_eq_false.mp (p.plain (by simpa using hplain))
      exact hhash (List.mem_singleton.mp hmem).symm
  · obtain ⟨n, hn, hmem⟩ := List.mem_flatMap.mp hmem
    obtain ⟨-, -, -, hhash⟩ := isCount_eq_true.mp (p.areCounts n hn)
    simp only [List.mem_cons, List.not_mem_nil, or_false] at hmem
    rcases hmem with hmem | hmem
    · exact absurd hmem (by decide)
    · exact hhash hmem.symm

theorem hash_notMem_wireOf (pieces : List Piece) : hash ∉ wireOf pieces := by
  intro hmem
  obtain ⟨p, -, hmem⟩ := List.mem_flatMap.mp hmem
  exact hash_notMem_wire p hmem

/-! ### Requests -/

/-- A byte as `sendPacket` writes it. -/
def requestPiece (c : UInt8) : Piece where
  byte := c
  escaped := isSpecial c
  counts := []
  plain := id
  inside := by
    intro h heq
    have hc : c = 3 := by
      rw [← xor_xor_cancel c 0x20, heq]
      rfl
    rw [hc] at h
    cases h
  areCounts := by simp

theorem requestPiece_wire (c : UInt8) :
    (requestPiece c).wire = if isSpecial c then [brace, c ^^^ 0x20] else [c] := by
  rw [Piece.wire, show Piece.runs (requestPiece c).counts = [] from rfl, List.append_nil]
  rfl

theorem payloadOf_requestPiece (payload : Bytes) :
    payloadOf (payload.map requestPiece) = payload := by
  simp [payloadOf, List.flatMap_map, Piece.payload, Piece.repeats, requestPiece]

theorem escapeRequest_eq (packetSize : ℕ) (payload raw : Bytes) (hraw : raw.length ≤ packetSize) :
    escapeRequest packetSize raw payload =
      if packetSize < (raw ++ wireOf (payload.map requestPiece)).length then
        .error "Request exceeds negotiated GDB packet size"
      else .ok (raw ++ wireOf (payload.map requestPiece)) := by
  induction payload generalizing raw with
  | nil =>
    rw [if_neg (by simp [wireOf]; omega)]
    simp [escapeRequest, wireOf]
  | cons c payload ih =>
    have hwire : raw ++ wireOf ((c :: payload).map requestPiece) =
        (raw ++ (requestPiece c).wire) ++ wireOf (payload.map requestPiece) := by
      simp [wireOf]
    rw [hwire, escapeRequest, ← requestPiece_wire]
    split
    · rename_i hlarge
      rw [if_pos (by rw [List.length_append]; omega)]
    · rename_i hfits
      exact ih _ (Nat.not_lt.mp hfits)

theorem requestPacket_eq_ok {packetSize : ℕ} {payload packet : Bytes}
    (h : requestPacket packetSize payload = .ok packet) :
    packet = frame (wireOf (payload.map requestPiece)) ∧
      (wireOf (payload.map requestPiece)).length ≤ packetSize := by
  unfold requestPacket at h
  rw [escapeRequest_eq packetSize payload [] (Nat.zero_le _), List.nil_append] at h
  split at h
  · cases h
  · rename_i hfits
    cases h
    exact ⟨rfl, Nat.not_lt.mp hfits⟩

theorem length_le_wireOf (pieces : List Piece) : pieces.length ≤ (wireOf pieces).length := by
  induction pieces with
  | nil => simp [wireOf]
  | cons p pieces ih =>
    have hpos : 0 < p.wire.length := by
      simp only [Piece.wire, Piece.symbol, List.length_append]
      split <;> simp
    have hwire : wireOf (p :: pieces) = p.wire ++ wireOf pieces := by
      simp [wireOf]
    rw [hwire, List.length_append, List.length_cons]
    omega

/-! ### What was received -/

theorem decodeLoop_length {decoded raw reply : Bytes} (h : decodeLoop decoded raw = .ok reply)
    (hfits : decoded.length ≤ maxDecoded) : reply.length ≤ maxDecoded := by
  induction decoded, raw using decodeLoop.induct with
  | case1 decoded =>
    cases h
    exact hfits
  | case2 decoded =>
    rw [decodeLoop, if_pos rfl] at h
    cases h
  | case3 decoded e rest hlarge =>
    rw [decodeLoop, if_pos rfl, if_pos hlarge] at h
    cases h
  | case4 decoded e rest hsmall ih =>
    rw [decodeLoop, if_pos rfl, if_neg hsmall] at h
    refine ih h ?_
    rw [List.length_append, List.length_singleton]
    omega
  | case5 decoded last count rest hlast hcount hbrace =>
    rw [decodeLoop, if_neg hbrace, if_pos rfl, hlast] at h
    simp only [if_pos hcount] at h
    cases h
  | case6 decoded last count rest hlast hcount hlarge hbrace =>
    rw [decodeLoop, if_neg hbrace, if_pos rfl, hlast] at h
    simp only [if_neg hcount, if_pos hlarge] at h
    cases h
  | case7 decoded last count rest hlast hcount hsmall hbrace ih =>
    rw [decodeLoop, if_neg hbrace, if_pos rfl, hlast] at h
    simp only [if_neg hcount, if_neg hsmall] at h
    refine ih h ?_
    rw [List.length_append, List.length_replicate]
    omega
  | case8 decoded rest hnone hbrace =>
    rw [decodeLoop.eq_def] at h
    simp only [if_neg hbrace, if_true] at h
    cases h
  | case9 decoded c rest hbrace hstar hlarge =>
    rw [decodeLoop.eq_def] at h
    simp only [if_neg hbrace, if_neg hstar, if_pos hlarge] at h
    cases h
  | case10 decoded c rest hbrace hstar hsmall ih =>
    rw [decodeLoop.eq_def] at h
    simp only [if_neg hbrace, if_neg hstar, if_neg hsmall] at h
    refine ih h ?_
    rw [List.length_append, List.length_singleton]
    omega

/-- A connection, by the bytes that are still to come and by which of its writes succeed. -/
structure Wire where
  incoming : Bytes
  writable : ℕ → Bool := fun _ => true
  sent : List (Bytes × Bool) := []

def wirePeer : Peer Wire where
  readByte := fun w =>
    match w.incoming with
    | [] => (.error "GDB peer disconnected", w)
    | c :: rest => (.ok c, { w with incoming := rest })
  sendAll := fun data w =>
    let written := w.writable w.sent.length
    (if written then .ok () else .error "send", { w with sent := w.sent ++ [(data, written)] })

theorem delivers_wire {w : Wire} {bytes rest : Bytes} (h : w.incoming = bytes ++ rest) :
    Delivers wirePeer w bytes { w with incoming := rest } := by
  induction bytes generalizing w with
  | nil =>
    have hw : { w with incoming := rest } = w := by
      rw [← show w.incoming = rest from h]
    rw [hw]
    exact .nil w
  | cons c bytes ih =>
    have hbyte : wirePeer.readByte w = (.ok c, { w with incoming := bytes ++ rest }) := by
      unfold wirePeer
      simp only [h, List.cons_append]
    exact .cons hbyte (ih rfl)

theorem readByte_wire {w w' : Wire} {c : UInt8} (h : wirePeer.readByte w = (.ok c, w')) :
    w.incoming = c :: w'.incoming := by
  unfold wirePeer at h
  simp only at h
  split at h
  · cases h
  · rename_i d rest hincoming
    cases h
    exact hincoming

theorem sendAll_wire (data : Bytes) (w : Wire) :
    (wirePeer.sendAll data w).2.incoming = w.incoming := rfl

theorem skipAcks_wire {left : ℕ} {w w' : Wire} (h : skipAcks wirePeer left w = (.ok (), w')) :
    ∃ n, w.incoming = List.replicate n plus ++ dollar :: w'.incoming := by
  induction left generalizing w with
  | zero =>
    rw [skipAcks, bind_eq_ok] at h
    obtain ⟨c, w₁, hbyte, hrest⟩ := h
    have hincoming := readByte_wire hbyte
    split at hrest
    · rename_i hdollar
      cases hrest
      exact ⟨0, by rw [hincoming, hdollar]; rfl⟩
    · cases hrest
  | succ left ih =>
    rw [skipAcks, bind_eq_ok] at h
    obtain ⟨c, w₁, hbyte, hrest⟩ := h
    have hincoming := readByte_wire hbyte
    split at hrest
    · rename_i hdollar
      cases hrest
      exact ⟨0, by rw [hincoming, hdollar]; rfl⟩
    · split at hrest
      · cases hrest
      · rename_i hplus
        obtain ⟨n, hn⟩ := ih hrest
        exact ⟨n + 1, by rw [hincoming, hn, not_not.mp hplus]; rfl⟩

theorem readRaw_wire {left : ℕ} {raw : Bytes} {w w' : Wire}
    (h : readRaw wirePeer left w = (.ok raw, w')) :
    w.incoming = raw ++ hash :: w'.incoming ∧ hash ∉ raw ∧ raw.length ≤ left := by
  induction left generalizing w raw with
  | zero =>
    rw [readRaw, bind_eq_ok] at h
    obtain ⟨c, w₁, hbyte, hrest⟩ := h
    have hincoming := readByte_wire hbyte
    split at hrest
    · rename_i hhash
      cases hrest
      exact ⟨by rw [hincoming, hhash]; rfl, List.not_mem_nil, Nat.le_refl _⟩
    · cases hrest
  | succ left ih =>
    rw [readRaw, bind_eq_ok] at h
    obtain ⟨c, w₁, hbyte, hrest⟩ := h
    have hincoming := readByte_wire hbyte
    split at hrest
    · rename_i hhash
      cases hrest
      exact ⟨by rw [hincoming, hhash]; rfl, List.not_mem_nil, Nat.zero_le _⟩
    · rename_i hhash
      obtain ⟨rest, w₂, hraw, hdone⟩ := bind_eq_ok.mp hrest
      cases hdone
      obtain ⟨hsplit, hnone, hlength⟩ := ih hraw
      refine ⟨by rw [hincoming, hsplit]; rfl, ?_, Nat.succ_le_succ hlength⟩
      intro hmem
      rcases List.mem_cons.mp hmem with heq | hmem
      · exact hhash heq.symm
      · exact hnone hmem

theorem readDigits_wire {digits : UInt8 × UInt8} {w w' : Wire}
    (h : readDigits wirePeer w = (.ok digits, w')) :
    w.incoming = digits.1 :: digits.2 :: w'.incoming := by
  rcases hfirst : wirePeer.readByte w with ⟨hi, w₁⟩
  rcases hsecond : wirePeer.readByte w₁ with ⟨lo, w₂⟩
  unfold readDigits at h
  simp only [hfirst, hsecond] at h
  cases hi with
  | error e => cases h
  | ok hi =>
    cases lo with
    | error e => cases h
    | ok lo =>
      cases h
      rw [readByte_wire hfirst, readByte_wire hsecond]

def received (raw : Bytes) (digits : UInt8 × UInt8) : Bytes :=
  dollar :: (raw ++ [hash, digits.1, digits.2])

/-- Acknowledgements, and frames whose checksum does not match. -/
inductive Refused : Bytes → Prop
  | acks (n : ℕ) : Refused (List.replicate n plus)
  | frame (n : ℕ) {raw : Bytes} {digits : UInt8 × UInt8} {rest : Bytes} (hraw : hash ∉ raw)
      (hsum : checksumMatches raw digits = false) (h : Refused rest) :
      Refused (List.replicate n plus ++ (received raw digits ++ rest))

def Answers (raw : Bytes) (digits : UInt8 × UInt8) : Option Bytes → Prop
  | none => checksumMatches raw digits = false
  | some reply => checksumMatches raw digits = true ∧ decode raw = .ok reply

theorem acceptFrame_wire {noAck : Bool} {raw : Bytes} {digits : UInt8 × UInt8} {w w' : Wire}
    {answer : Option Bytes} (h : acceptFrame wirePeer noAck raw digits w = (.ok answer, w')) :
    w'.incoming = w.incoming ∧ Answers raw digits answer := by
  unfold acceptFrame at h
  split at h
  · rename_i hsum
    cases hdecode : decode raw with
    | error e =>
      rw [hdecode] at h
      cases h
    | ok decoded =>
      rw [hdecode] at h
      cases noAck with
      | true =>
        cases h
        exact ⟨rfl, hsum, hdecode⟩
      | false =>
        obtain ⟨⟨⟩, w₁, hsend, hdone⟩ := bind_eq_ok.mp h
        cases hdone
        have hkept := sendAll_wire [plus] w
        rw [hsend] at hkept
        exact ⟨hkept, hsum, hdecode⟩
  · rename_i hsum
    cases noAck with
    | true => cases h
    | false =>
      rcases hsend : wirePeer.sendAll [minus] w with ⟨outcome, w₁⟩
      have hkept := sendAll_wire [minus] w
      rw [hsend] at hkept
      simp only [Bool.false_eq_true, if_false, hsend] at h
      cases outcome with
      | error e => cases h
      | ok u =>
        cases h
        have hfalse : checksumMatches raw digits = false := by simpa using hsum
        exact ⟨hkept, hfalse⟩

theorem readAttempt_wire {noAck : Bool} {w w' : Wire} {answer : Option Bytes}
    (h : readAttempt wirePeer noAck w = (.ok answer, w')) :
    ∃ n raw digits, w.incoming = List.replicate n plus ++ (received raw digits ++ w'.incoming) ∧
      hash ∉ raw ∧ raw.length ≤ maxWire ∧ Answers raw digits answer := by
  unfold readAttempt at h
  obtain ⟨⟨⟩, w₁, hskip, h⟩ := bind_eq_ok.mp h
  obtain ⟨raw, w₂, hread, h⟩ := bind_eq_ok.mp h
  obtain ⟨digits, w₃, hdigits, h⟩ := bind_eq_ok.mp h
  obtain ⟨n, hn⟩ := skipAcks_wire hskip
  obtain ⟨hraw, hhash, hlength⟩ := readRaw_wire hread
  obtain ⟨hkept, hanswer⟩ := acceptFrame_wire h
  refine ⟨n, raw, digits, ?_, hhash, hlength, hanswer⟩
  rw [hn, hraw, readDigits_wire hdigits, hkept]
  simp [received]

theorem readAttempts_wire {noAck : Bool} {left : ℕ} {w w' : Wire} {reply : Bytes}
    (h : readAttempts wirePeer noAck left w = (.ok reply, w')) :
    ∃ before n raw digits, Refused before ∧
      w.incoming = before ++ (List.replicate n plus ++ (received raw digits ++ w'.incoming)) ∧
      hash ∉ raw ∧ raw.length ≤ maxWire ∧ checksumMatches raw digits = true ∧
      decode raw = .ok reply := by
  induction left generalizing w with
  | zero => cases h
  | succ left ih =>
    rw [readAttempts] at h
    obtain ⟨answer, w₁, hattempt, h⟩ := bind_eq_ok.mp h
    obtain ⟨n, raw, digits, hincoming, hraw, hlength, hanswer⟩ := readAttempt_wire hattempt
    cases answer with
    | some decoded =>
      cases h
      exact ⟨[], n, raw, digits, .acks 0, hincoming, hraw, hlength, hanswer.1, hanswer.2⟩
    | none =>
      obtain ⟨before, k, raw', digits', hrefused, hrest, htail⟩ := ih h
      refine ⟨_, k, raw', digits', .frame n hraw hanswer hrefused, ?_, htail⟩
      rw [hincoming, hrest]
      simp only [List.append_assoc]

/-! ### The codec -/

/-- The bytes are read as the payload, up to their end, after up to 17 acknowledgements. -/
def ReadAs (noAck : Bool) (bytes payload : Bytes) : Prop :=
  ∀ (acks : ℕ) (w : Wire) (rest : Bytes), acks ≤ 17 →
    w.incoming = List.replicate acks plus ++ (bytes ++ rest) →
    noAck = true ∨ w.writable w.sent.length = true →
      ∃ w', readPacket wirePeer noAck w = (.ok payload, w') ∧ w'.incoming = rest

theorem readAs_frame {noAck : Bool} {raw decoded : Bytes} (hraw : hash ∉ raw)
    (hwire : raw.length ≤ maxWire) (hdecode : decode raw = .ok decoded) :
    ReadAs noAck (frame raw) decoded := by
  intro acks w rest hacks hincoming hwritable
  rw [← List.append_assoc] at hincoming
  have hdelivers := delivers_wire hincoming
  have hack : ∃ w', Acknowledged wirePeer noAck { w with incoming := rest } w' ∧
      w'.incoming = rest := by
    unfold Acknowledged
    cases noAck with
    | true => exact ⟨_, rfl, rfl⟩
    | false =>
      have hsend : w.writable w.sent.length = true := by simpa using hwritable
      refine ⟨{ w with incoming := rest, sent := w.sent ++ [([plus], true)] }, ?_, rfl⟩
      simp [wirePeer, hsend]
  obtain ⟨w', hack, hrest⟩ := hack
  exact ⟨w', readPacket_delivers hacks hraw hwire hdecode hdelivers hack, hrest⟩

/-- **What stubs write is read**, as they may write it. -/
theorem readAs_wireOf (noAck : Bool) {pieces : List Piece}
    (hwire : (wireOf pieces).length ≤ maxWire) (hfits : (payloadOf pieces).length ≤ maxDecoded) :
    ReadAs noAck (frame (wireOf pieces)) (payloadOf pieces) :=
  readAs_frame (hash_notMem_wireOf pieces) hwire (decode_wire hfits)

theorem readAs_requestPacket (noAck : Bool) {packetSize : ℕ} {payload packet : Bytes}
    (hsize : packetSize ≤ maxWire) (h : requestPacket packetSize payload = .ok packet) :
    ReadAs noAck packet payload := by
  obtain ⟨rfl, hwire⟩ := requestPacket_eq_ok h
  have hlength := length_le_wireOf (payload.map requestPiece)
  have hlimits : maxWire ≤ maxDecoded := by decide
  rw [List.length_map] at hlength
  have hfits : (payloadOf (payload.map requestPiece)).length ≤ maxDecoded := by
    rw [payloadOf_requestPiece]
    omega
  have hread := readAs_wireOf noAck (hwire.trans hsize) hfits
  rw [payloadOf_requestPiece] at hread
  exact hread

/-- **The codec**: requests and all that a stub may write are read as what they stand for, and a
reply is what a frame with a matching checksum holds. -/
theorem packets_decode (noAck : Bool) :
    (∀ (packetSize : ℕ) (payload packet : Bytes), packetSize ≤ maxWire →
      requestPacket packetSize payload = .ok packet → ReadAs noAck packet payload) ∧
    (∀ pieces : List Piece, (wireOf pieces).length ≤ maxWire →
      (payloadOf pieces).length ≤ maxDecoded →
        ReadAs noAck (frame (wireOf pieces)) (payloadOf pieces)) ∧
    (∀ (w w' : Wire) (reply : Bytes), readPacket wirePeer noAck w = (.ok reply, w') →
      reply.length ≤ maxDecoded ∧ ∃ before n raw digits, Refused before ∧
        w.incoming = before ++ (List.replicate n plus ++ (received raw digits ++ w'.incoming)) ∧
        hash ∉ raw ∧ checksumMatches raw digits = true ∧ decode raw = .ok reply) := by
  refine ⟨fun packetSize payload packet => readAs_requestPacket noAck,
    fun pieces => readAs_wireOf noAck, fun w w' reply h => ?_⟩
  obtain ⟨before, n, raw, digits, hrefused, hincoming, hraw, -, hsum, hdecode⟩ :=
    readAttempts_wire h
  exact ⟨decodeLoop_length hdecode (Nat.zero_le _), before, n, raw, digits, hrefused, hincoming,
    hraw, hsum, hdecode⟩

/-- An escape that ends the packet. -/
theorem escaped_end_not_read :
    ¬ReadAs true (frame [brace, (0x03 : UInt8) ^^^ 0x20]) [0x03] := by
  intro h
  obtain ⟨w', hread, -⟩ := h 0 ⟨frame [brace, (0x03 : UInt8) ^^^ 0x20], fun _ => true, []⟩ []
    (Nat.zero_le _) rfl (.inl rfl)
  have herror : (readPacket wirePeer true
      ⟨frame [brace, (0x03 : UInt8) ^^^ 0x20], fun _ => true, []⟩).1 =
        .error "Invalid GDB checksum" := rfl
  rw [hread] at herror
  cases herror

end CheatEngine.GdbRemote
