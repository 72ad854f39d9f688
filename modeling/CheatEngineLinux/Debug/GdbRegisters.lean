import CheatEngineLinux.Debug.GdbMemory

/-!
# Registers of a GDB target

`GdbRemoteClient::readRegister` and `writeRegister` (`src/debug/gdb_remote.cpp`), by the whole bank
where the stub does not serve single registers.

* `declare`, `describe`: the registers of a target description, in the order of the bank.
* `readRegisterBank`, `readRegister`, `writeRegister`: the source.
* `ServesRegisters`: a stub whose bank lists the described registers, up to some register.
* **PROVED `readRegisterBank_spec`**: where the bank holds the register.
* **PROVED `bank_access_exact`**: a write through the bank changes one register, and a read returns
  what the register holds.
-/

namespace CheatEngine.GdbRemote

/-! ### Descriptions -/

/-- The attributes of a `<reg>` element; numbers that cannot be read are `none`. -/
structure RegElement where
  name : Option String
  bitsize : Option ℕ
  regnum : Option (Option ℕ)

structure Description where
  registers : List RegisterDescription := []
  next : ℕ := 0

def declare (d : Description) (e : RegElement) : Except String Description :=
  match e.name, e.bitsize with
  | some name, some bits =>
    if name.isEmpty ∨ 256 < name.utf8ByteSize ∨ bits = 0 ∨ 524288 < bits then
      .error "Invalid GDB register description"
    else match e.regnum.getD (some d.next) with
    | none => .error "Invalid GDB register number"
    | some number =>
      if 65535 < number ∨ 2048 ≤ d.registers.length ∨
          d.registers.any (fun r => r.number == number || r.name == name) then
        .error "Duplicate or excessive GDB register description"
      else .ok ⟨d.registers ++ [⟨name, number, bits⟩], number + 1⟩
  | _, _ => .error "Invalid GDB register description"

def byNumber (a b : RegisterDescription) : Bool := a.number ≤ b.number

/-- `registerLayout_`: the registers in the order of their numbers. -/
def describe (elements : List RegElement) : Except String (List RegisterDescription) :=
  match elements.foldlM declare {} with
  | .error e => .error e
  | .ok d =>
    if d.registers.isEmpty then .error "Incomplete GDB target description"
    else .ok (d.registers.mergeSort byNumber)

/-! ### The bank -/

def byteCount (r : RegisterDescription) : ℕ := (r.bits + 7) / 8

structure Bank where
  data : Bytes
  offset : ℕ
  width : ℕ

/-- The size of the bank, and the place and the size of the register in it. -/
def locate (reg : RegisterDescription) :
    List RegisterDescription → ℕ → Option (ℕ × ℕ) → Except String (ℕ × Option (ℕ × ℕ))
  | [], total, found => .ok (total, found)
  | field :: rest, total, found =>
    let width := 2 * byteCount field
    if maxDecoded - total < width then .error "GDB register bank exceeds size limit"
    else if field.number = reg.number then
      if field.name ≠ reg.name ∨ field.bits ≠ reg.bits then
        .error "Register does not match target XML"
      else locate reg rest (total + width) (some (total, width))
    else locate reg rest (total + width) found

/-- The end of the last register that begins before `size`. -/
def boundary (size : ℕ) : List RegisterDescription → ℕ → ℕ
  | [], b => b
  | field :: rest, b => if b = size then b else boundary size rest (b + 2 * byteCount field)

/-- Pairs of digits, or of `x` where a byte is not available. -/
def bankDigits : Bytes → Bool
  | a :: b :: rest => ((isHex a && isHex b) || (a == 0x78 && b == 0x78)) && bankDigits rest
  | _ => true

/-- The reply to `g`, if it is a bank of these registers that holds the place. -/
def checkBank (layout : List RegisterDescription) (total offset width : ℕ) (response : Bytes) :
    Except String Bank :=
  if total < response.length ∨ response.length % 2 ≠ 0 then
    .error "GDB register bank size does not match target XML"
  else if boundary response.length layout 0 ≠ response.length then
    .error "GDB register bank ends inside a register"
  else if ¬bankDigits response then .error "Invalid GDB register bank data"
  else if response.length < offset ∨ response.length - offset < width then
    .error "Register unavailable in the GDB register bank"
  else .ok ⟨response, offset, width⟩

def readOne (reg : RegisterDescription) : Bytes := text ['p'] ++ hexNumber reg.number

def writeOne (reg : RegisterDescription) (bytes : Bytes) : Bytes :=
  text ['P'] ++ (hexNumber reg.number ++ (text ['='] ++ hexBytes bytes))

section client

variable {σ : Type} (peer : Peer σ)

def readRegisters : Exchange (Client × σ) Bytes := sendPacket peer (text ['g'])

def readRegisterBank (reg : RegisterDescription) : Exchange (Client × σ) Bank := fun s =>
  if s.1.registerLayout.isEmpty then
    (.error "Whole-register access requires a target XML layout", s)
  else match locate reg s.1.registerLayout 0 none with
  | .error e => (.error e, s)
  | .ok (_, none) => (.error "Register absent from GDB target XML", s)
  | .ok (total, some (offset, width)) =>
    match readRegisters peer s with
    | (.error e, s') => (.error e, s')
    | (.ok response, s') => (checkBank s.1.registerLayout total offset width response, s')

def readThroughBank (reg : RegisterDescription) : Exchange (Client × σ) Bytes := fun s =>
  match readRegisterBank peer reg s with
  | (.error e, s) => (.error e, s)
  | (.ok bank, s) => (decodeHex ((bank.data.drop bank.offset).take bank.width), s)

/-- An empty reply says that the request is not supported. -/
def readRegister (reg : RegisterDescription) : Exchange (Client × σ) Bytes := fun s =>
  if reg.bits = 0 ∨ 524288 < reg.bits then (.error "Invalid GDB register width", s)
  else if s.1.individualReads then
    match sendPacket peer (readOne reg) s with
    | (.error e, s) => (.error e, s)
    | (.ok response, (client, s)) =>
      if response ≠ [] then
        match decodeHex response with
        | .error e => (.error e, (client, s))
        | .ok bytes =>
          if bytes.length ≠ byteCount reg then
            (.error "GDB register size does not match target XML", (client, s))
          else (.ok bytes, (client, s))
      else readThroughBank peer reg ({ client with individualReads := false }, s)
  else readThroughBank peer reg s

/-- The bank is read anew for every edit. -/
def writeThroughBank (reg : RegisterDescription) (bytes : Bytes) : Exchange (Client × σ) Unit :=
  fun s =>
    match readRegisterBank peer reg s with
    | (.error e, s) => (.error e, s)
    | (.ok bank, s) =>
      if s.1.packetSize < bank.data.length + 1 then
        (.error "Whole-register write exceeds negotiated GDB packet size", s)
      else
        let data := bank.data.take bank.offset ++
          (hexBytes bytes ++ bank.data.drop (bank.offset + bank.width))
        if ¬data.all isHex then
          (.error "Whole-register write cannot preserve unavailable registers", s)
        else match sendPacket peer (text ['G'] ++ data) s with
        | (.error e, s) => (.error e, s)
        | (.ok response, s) =>
          if response ≠ text ['O', 'K'] then
            (.error "GDB whole-register write was not confirmed", s)
          else (.ok (), s)

def writeRegister (reg : RegisterDescription) (bytes : Bytes) : Exchange (Client × σ) Unit :=
  fun s =>
    if reg.bits = 0 ∨ 524288 < reg.bits ∨ bytes.length ≠ byteCount reg then
      (.error "GDB register write size mismatch", s)
    else if s.1.individualWrites then
      match sendPacket peer (writeOne reg bytes) s with
      | (.error e, s) => (.error e, s)
      | (.ok response, (client, s)) =>
        if response = text ['O', 'K'] then (.ok (), (client, s))
        else if response ≠ [] then
          (.error "GDB register write was not confirmed", (client, s))
        else writeThroughBank peer reg bytes ({ client with individualWrites := false }, s)
    else writeThroughBank peer reg bytes s

end client

/-! ### Stubs -/

/-- Bytes of a bank in hexadecimal, those that are not available as `xx`. -/
inductive BankText : List (Option UInt8) → Bytes → Prop
  | nil : BankText [] []
  | byte {b hi lo : UInt8} {bytes : List (Option UInt8)} {digits : Bytes}
      (hhi : hexValue hi = some (b.toNat / 16)) (hlo : hexValue lo = some (b.toNat % 16))
      (h : BankText bytes digits) : BankText (some b :: bytes) (hi :: lo :: digits)
  | missing {bytes : List (Option UInt8)} {digits : Bytes} (h : BankText bytes digits) :
      BankText (none :: bytes) (0x78 :: 0x78 :: digits)

/-- The registers of a target by number, and how many of the described ones its bank lists. -/
structure RegisterView (μ : Type) where
  file : μ → ℕ → List (Option UInt8)
  cut : μ → ℕ

namespace RegisterView

variable {μ : Type} (view : RegisterView μ)

/-- The bytes of these registers, one after the other. -/
def bankOf (target : μ) (registers : List RegisterDescription) : List (Option UInt8) :=
  registers.flatMap fun r => view.file target r.number

end RegisterView

/-- The bank lists the described registers up to the cut; writing it sets these. -/
structure ServesRegisters {μ : Type} (stub : Stub μ) (view : RegisterView μ)
    (layout : List RegisterDescription) : Prop where
  widths : ∀ (target : μ), ∀ r ∈ layout, (view.file target r.number).length = byteCount r
  bank : ∀ target : μ,
    view.file (stub.respond target (text ['g'])).1 = view.file target ∧
    view.cut (stub.respond target (text ['g'])).1 = view.cut target ∧
    BankText (view.bankOf target (layout.take (view.cut target)))
      (stub.respond target (text ['g'])).2.reply.payload
  writeBank : ∀ (target : μ) (bytes digits : Bytes), HexText bytes digits →
    bytes.length = (view.bankOf target (layout.take (view.cut target))).length →
    (stub.respond target (text ['G'] ++ digits)).2.reply.payload = text ['O', 'K'] →
      view.bankOf (stub.respond target (text ['G'] ++ digits)).1
        (layout.take (view.cut target)) = bytes.map some ∧
      ∀ n, (∀ r ∈ layout.take (view.cut target), r.number ≠ n) →
        view.file (stub.respond target (text ['G'] ++ digits)).1 n = view.file target n
  unsupported : ∀ (target : μ) (reg : RegisterDescription) (bytes request : Bytes),
    request = readOne reg ∨ request = writeOne reg bytes →
    (stub.respond target request).2.reply.payload = [] →
      view.file (stub.respond target request).1 = view.file target ∧
      view.cut (stub.respond target request).1 = view.cut target

/-! ### Descriptions, again -/

structure RegisterDescription.Valid (r : RegisterDescription) : Prop where
  pos : 0 < r.bits
  bits_le : r.bits ≤ 524288
  number_le : r.number ≤ 65535

theorem declare_spec {d d' : Description} {e : RegElement} (h : declare d e = .ok d')
    (hnumbers : (d.registers.map (·.number)).Nodup) (hvalid : ∀ r ∈ d.registers, r.Valid) :
    (d'.registers.map (·.number)).Nodup ∧ ∀ r ∈ d'.registers, r.Valid := by
  unfold declare at h
  split at h
  · rename_i name bits hname hbitsize
    split at h
    · cases h
    · rename_i hbits
      simp only [not_or, Nat.not_lt] at hbits
      obtain ⟨-, -, hpos, hmax⟩ := hbits
      split at h
      · cases h
      · rename_i number hnumber
        split at h
        · cases h
        · rename_i hnew
          simp only [not_or, Bool.not_eq_true, List.any_eq_false, Bool.or_eq_true, beq_iff_eq,
            Nat.not_lt] at hnew
          cases h
          constructor
          · rw [List.map_append]
            refine List.Nodup.append hnumbers (by simp) ?_
            intro n hn hmem
            obtain ⟨r, hr, rfl⟩ := List.mem_map.mp hn
            have heq : r.number = number := by simpa using hmem
            exact (hnew.2.2 r hr).1 heq
          · intro r hr
            rcases List.mem_append.mp hr with hr | hr
            · exact hvalid r hr
            · rw [List.mem_singleton.mp hr]
              exact ⟨Nat.pos_of_ne_zero hpos, hmax, hnew.1⟩
  · cases h

/-- **The layout** is sorted, and its registers are valid. -/
theorem describe_spec {elements : List RegElement} {layout : List RegisterDescription}
    (h : describe elements = .ok layout) :
    layout.Pairwise (fun a b => a.number < b.number) ∧ layout ≠ [] ∧
      ∀ r ∈ layout, r.Valid := by
  have hfold : ∀ (es : List RegElement) (d d' : Description), es.foldlM declare d = .ok d' →
      (d.registers.map (·.number)).Nodup → (∀ r ∈ d.registers, r.Valid) →
      (d'.registers.map (·.number)).Nodup ∧ ∀ r ∈ d'.registers, r.Valid := by
    intro es
    induction es with
    | nil =>
      intro d d' hd hnumbers hbits
      cases hd
      exact ⟨hnumbers, hbits⟩
    | cons e es ih =>
      intro d d' hd hnumbers hbits
      rw [List.foldlM_cons] at hd
      cases hdeclare : declare d e with
      | error message =>
        rw [hdeclare] at hd
        cases hd
      | ok d₁ =>
        rw [hdeclare] at hd
        obtain ⟨hnumbers', hbits'⟩ := declare_spec hdeclare hnumbers hbits
        exact ih d₁ d' hd hnumbers' hbits'
  unfold describe at h
  split at h
  · cases h
  · rename_i d hd
    split at h
    · cases h
    · rename_i hsome
      cases h
      obtain ⟨hnumbers, hbits⟩ := hfold elements {} d hd (by simp) (by simp)
      have hperm := List.mergeSort_perm d.registers byNumber
      have hsorted : (d.registers.mergeSort byNumber).Pairwise fun a b => byNumber a b = true :=
        List.pairwise_mergeSort (by simp [byNumber]; omega) (by simp [byNumber]; omega) _
      have hnodup : (d.registers.mergeSort byNumber).Pairwise fun a b => a.number ≠ b.number := by
        have hmap := (hperm.map (·.number)).nodup_iff.mpr hnumbers
        exact List.pairwise_map.mp hmap
      refine ⟨?_, ?_, fun r hr => hbits r (hperm.mem_iff.mp hr)⟩
      · refine (hsorted.and hnodup).imp fun {a b} hab => ?_
        have hle : a.number ≤ b.number := by simpa [byNumber] using hab.1
        have hne := hab.2
        omega
      · intro hnil
        rw [hnil] at hperm
        rw [← List.Perm.nil_eq hperm] at hsome
        exact hsome rfl

/-! ### Places in the bank -/

def bankWidth (registers : List RegisterDescription) : ℕ :=
  (registers.map fun r => 2 * byteCount r).sum

@[simp] theorem bankWidth_cons (r : RegisterDescription) (registers : List RegisterDescription) :
    bankWidth (r :: registers) = 2 * byteCount r + bankWidth registers := by
  simp [bankWidth]

@[simp] theorem bankWidth_append (xs ys : List RegisterDescription) :
    bankWidth (xs ++ ys) = bankWidth xs + bankWidth ys := by
  simp [bankWidth]

structure Placed (reg : RegisterDescription) (layout : List RegisterDescription) (start : ℕ)
    (place : ℕ × ℕ) : Prop where
  split : ∃ before field after, layout = before ++ field :: after ∧
    field.number = reg.number ∧ field.bits = reg.bits ∧ place.1 = start + bankWidth before
  width : place.2 = 2 * byteCount reg

theorem Placed.cons {reg field : RegisterDescription} {layout : List RegisterDescription}
    {start : ℕ} {place : ℕ × ℕ} (h : Placed reg layout (start + 2 * byteCount field) place) :
    Placed reg (field :: layout) start place := by
  obtain ⟨before, found, after, rfl, hnumber, hbits, hstart⟩ := h.split
  refine ⟨⟨field :: before, found, after, rfl, hnumber, hbits, ?_⟩, h.width⟩
  rw [hstart, bankWidth_cons, Nat.add_assoc]

theorem locate_spec {reg : RegisterDescription} {layout : List RegisterDescription}
    {total size : ℕ} {found place : Option (ℕ × ℕ)}
    (h : locate reg layout total found = .ok (size, place)) :
    size = total + bankWidth layout ∧
      (place = found ∨ ∃ p, place = some p ∧ Placed reg layout total p) := by
  induction layout generalizing total found with
  | nil =>
    cases h
    exact ⟨rfl, .inl rfl⟩
  | cons field layout ih =>
    rw [locate] at h
    split at h
    · cases h
    · split at h
      · rename_i hnumber
        split at h
        · cases h
        · rename_i hsame
          simp only [not_or, not_not] at hsame
          obtain ⟨hsize, hplace⟩ := ih h
          refine ⟨by rw [hsize, bankWidth_cons, Nat.add_assoc], .inr ?_⟩
          rcases hplace with rfl | ⟨p, rfl, hp⟩
          · refine ⟨_, rfl, ⟨[], field, layout, rfl, hnumber, hsame.2, rfl⟩, ?_⟩
            simp only [byteCount, hsame.2]
          · exact ⟨p, rfl, hp.cons⟩
      · obtain ⟨hsize, hplace⟩ := ih h
        refine ⟨by rw [hsize, bankWidth_cons, Nat.add_assoc], ?_⟩
        rcases hplace with rfl | ⟨p, rfl, hp⟩
        · exact .inl rfl
        · exact .inr ⟨p, rfl, hp.cons⟩

theorem locate_found {reg : RegisterDescription} {layout : List RegisterDescription}
    (hsame : ∀ f ∈ layout, f.number = reg.number → f.name = reg.name ∧ f.bits = reg.bits)
    {total : ℕ} (hsmall : total + bankWidth layout ≤ maxDecoded) (found : Option (ℕ × ℕ)) :
    ∃ place, locate reg layout total found = .ok (total + bankWidth layout, place) ∧
      (found.isSome ∨ (∃ f ∈ layout, f.number = reg.number) → place.isSome) := by
  induction layout generalizing total found with
  | nil =>
    refine ⟨found, rfl, fun h => ?_⟩
    rcases h with h | ⟨f, hf, -⟩
    · exact h
    · exact absurd hf List.not_mem_nil
  | cons field layout ih =>
    rw [bankWidth_cons] at hsmall ⊢
    have hrest : ∀ f ∈ layout, f.number = reg.number → f.name = reg.name ∧ f.bits = reg.bits :=
      fun f hf => hsame f (List.mem_cons_of_mem _ hf)
    have hfits : total + 2 * byteCount field + bankWidth layout ≤ maxDecoded := by omega
    rw [locate, if_neg (by omega), ← Nat.add_assoc]
    split
    · rename_i hnumber
      obtain ⟨hname, hbits⟩ := hsame field List.mem_cons_self hnumber
      rw [if_neg (by simp [hname, hbits])]
      obtain ⟨place, hlocate, hsome⟩ :=
        ih hrest hfits (some (total, 2 * byteCount field))
      exact ⟨place, hlocate, fun _ => hsome (.inl rfl)⟩
    · rename_i hnumber
      obtain ⟨place, hlocate, hsome⟩ := ih hrest hfits found
      refine ⟨place, hlocate, fun h => hsome ?_⟩
      rcases h with h | ⟨f, hf, heq⟩
      · exact .inl h
      · rcases List.mem_cons.mp hf with rfl | hf
        · exact absurd heq hnumber
        · exact .inr ⟨f, hf, heq⟩

theorem boundary_take {layout : List RegisterDescription} (k start : ℕ) :
    boundary (start + bankWidth (layout.take k)) layout start =
      start + bankWidth (layout.take k) := by
  induction layout generalizing k start with
  | nil => simp [boundary, bankWidth]
  | cons field layout ih =>
    rw [boundary]
    split
    · assumption
    · rename_i hne
      cases k with
      | zero => exact absurd (by simp [bankWidth]) hne
      | succ k =>
        rw [List.take_succ_cons, bankWidth_cons, ← Nat.add_assoc]
        exact ih k _

theorem checkBank_eq_ok {layout : List RegisterDescription} {total offset width : ℕ}
    {response : Bytes} {bank : Bank}
    (h : checkBank layout total offset width response = .ok bank) :
    bank = ⟨response, offset, width⟩ ∧ offset + width ≤ response.length := by
  unfold checkBank at h
  split at h
  · cases h
  split at h
  · cases h
  split at h
  · cases h
  split at h
  · cases h
  rename_i hinside
  cases h
  exact ⟨rfl, by omega⟩

/-! ### Texts of banks -/

theorem BankText.length {bytes : List (Option UInt8)} {digits : Bytes} (h : BankText bytes digits) :
    digits.length = 2 * bytes.length := by
  induction h with
  | nil => rfl
  | byte _ _ _ ih =>
    simp only [List.length_cons, ih]
    omega
  | missing _ ih =>
    simp only [List.length_cons, ih]
    omega

theorem BankText.split {first second : List (Option UInt8)} {digits : Bytes}
    (h : BankText (first ++ second) digits) :
    BankText first (digits.take (2 * first.length)) ∧
      BankText second (digits.drop (2 * first.length)) := by
  induction first generalizing digits with
  | nil => exact ⟨.nil, h⟩
  | cons x first ih =>
    rw [List.length_cons, show 2 * (first.length + 1) = 2 * first.length + 1 + 1 by omega]
    cases h with
    | byte hhi hlo h =>
      rw [List.take_succ_cons, List.take_succ_cons, List.drop_succ_cons, List.drop_succ_cons]
      exact ⟨.byte hhi hlo (ih h).1, (ih h).2⟩
    | missing h =>
      rw [List.take_succ_cons, List.take_succ_cons, List.drop_succ_cons, List.drop_succ_cons]
      exact ⟨.missing (ih h).1, (ih h).2⟩

theorem BankText.bankDigits {bytes : List (Option UInt8)} {digits : Bytes}
    (h : BankText bytes digits) : bankDigits digits = true := by
  induction h with
  | nil => rfl
  | byte hhi hlo _ ih =>
    rw [GdbRemote.bankDigits, ih]
    simp [isHex, hhi, hlo]
  | missing _ ih =>
    rw [GdbRemote.bankDigits, ih]
    rfl

theorem BankText.available {bytes : List (Option UInt8)} {digits : Bytes}
    (h : BankText bytes digits) (hdigits : digits.all isHex = true) :
    ∃ values : Bytes, bytes = values.map some ∧ HexText values digits := by
  induction h with
  | nil => exact ⟨[], rfl, .nil⟩
  | @byte b hi lo bytes digits hhi hlo _ ih =>
    rw [List.all_cons, List.all_cons, Bool.and_eq_true, Bool.and_eq_true] at hdigits
    obtain ⟨values, rfl, hvalues⟩ := ih hdigits.2.2
    exact ⟨b :: values, rfl, .cons hhi hlo hvalues⟩
  | missing _ _ =>
    rw [List.all_cons] at hdigits
    cases hdigits

theorem HexText.bankText {values digits : Bytes} (h : HexText values digits) :
    BankText (values.map some) digits := by
  induction h with
  | nil => exact .nil
  | cons hhi hlo _ ih => exact .byte hhi hlo ih

theorem HexText.append {xs ys ds es : Bytes} (hx : HexText xs ds) (hy : HexText ys es) :
    HexText (xs ++ ys) (ds ++ es) := by
  induction hx with
  | nil => exact hy
  | cons hhi hlo _ ih => exact .cons hhi hlo ih

def knownBytes : List (Option UInt8) → Except String Bytes
  | [] => .ok []
  | some b :: rest => (knownBytes rest).map (b :: ·)
  | none :: _ => .error "Unavailable or non-hexadecimal response data"

theorem BankText.decodeHex_eq {bytes : List (Option UInt8)} {digits : Bytes}
    (h : BankText bytes digits) : decodeHex digits = knownBytes bytes := by
  have hpairs : decodePairs digits = knownBytes bytes := by
    induction h with
    | nil => rfl
    | @byte b hi lo bytes digits hhi hlo _ ih =>
      have hbyte : UInt8.ofNat (16 * (b.toNat / 16) + b.toNat % 16) = b := by
        rw [Nat.div_add_mod, UInt8.ofNat_toNat]
      rw [decodePairs, hhi, hlo, ih]
      show (knownBytes bytes).map
        (UInt8.ofNat (16 * (b.toNat / 16) + b.toNat % 16) :: ·) = _
      rw [hbyte]
      rfl
    | missing _ _ => rfl
  rw [decodeHex, h.length, if_neg (by omega), hpairs]

theorem BankText.not_isError {bytes : List (Option UInt8)} {digits : Bytes}
    (h : BankText bytes digits) : isError digits = false := by
  have hhex : ∀ {c : UInt8} {n : ℕ}, hexValue c = some n → (c == 0x2e) = false := by
    intro c n hc
    rw [beq_eq_false_iff_ne]
    rintro rfl
    cases hc
  cases h with
  | nil => rfl
  | byte hhi hlo h =>
    cases h with
    | nil => simp [isError, hhex hlo]
    | byte _ _ _ => simp [isError, hhex hlo]
    | missing _ => simp [isError, hhex hlo]
  | missing h =>
    cases h with
    | nil => rfl
    | byte _ _ _ => rfl
    | missing _ => rfl

/-! ### The bank of a stub -/

section bank

variable {μ : Type} {stub : Stub μ} {view : RegisterView μ} {layout : List RegisterDescription}

theorem bankOf_append (view : RegisterView μ) (target : μ) (xs ys : List RegisterDescription) :
    view.bankOf target (xs ++ ys) = view.bankOf target xs ++ view.bankOf target ys := by
  simp [RegisterView.bankOf]

theorem bankOf_cons (view : RegisterView μ) (target : μ) (r : RegisterDescription)
    (registers : List RegisterDescription) : view.bankOf target (r :: registers) =
      view.file target r.number ++ view.bankOf target registers := by
  simp [RegisterView.bankOf]

theorem bankOf_length (hserves : ServesRegisters stub view layout) (target : μ)
    {registers : List RegisterDescription} (hsub : ∀ r ∈ registers, r ∈ layout) :
    2 * (view.bankOf target registers).length = bankWidth registers := by
  induction registers with
  | nil => rfl
  | cons r registers ih =>
    have hr := hserves.widths target r (hsub r List.mem_cons_self)
    have hrest := ih fun r hr => hsub r (List.mem_cons_of_mem _ hr)
    rw [bankOf_cons, List.length_append, hr, bankWidth_cons]
    omega

theorem bankOf_inj {f g : ℕ → List (Option UInt8)} {registers : List RegisterDescription}
    (hlength : ∀ r ∈ registers, (f r.number).length = (g r.number).length)
    (h : (registers.flatMap fun r => f r.number) = registers.flatMap fun r => g r.number) :
    ∀ r ∈ registers, f r.number = g r.number := by
  induction registers with
  | nil => simp
  | cons r registers ih =>
    rw [List.flatMap_cons, List.flatMap_cons] at h
    obtain ⟨hfirst, hrest⟩ := List.append_inj h (hlength r List.mem_cons_self)
    refine List.forall_mem_cons.mpr ⟨hfirst, ?_⟩
    exact ih (fun r hr => hlength r (List.mem_cons_of_mem _ hr)) hrest

theorem split_take {before after : List RegisterDescription} {field : RegisterDescription}
    (hpos : 0 < byteCount field) {k : ℕ}
    (hfits : bankWidth before + 2 * byteCount field ≤
      bankWidth ((before ++ field :: after).take k)) :
    ∃ rest, (before ++ field :: after).take k = before ++ field :: rest := by
  rcases Nat.lt_or_ge before.length k with hk | hk
  · obtain ⟨n, rfl⟩ : ∃ n, k = before.length + (n + 1) := ⟨k - before.length - 1, by omega⟩
    exact ⟨after.take n, by rw [List.take_append, List.take_of_length_le (by omega),
      Nat.add_sub_cancel_left, List.take_succ_cons]⟩
  · exfalso
    rw [List.take_append_of_le_length hk] at hfits
    have hsplit := bankWidth_append (before.take k) (before.drop k)
    rw [List.take_append_drop] at hsplit
    omega

structure Holds (view : RegisterView μ) (layout : List RegisterDescription) (target : μ)
    (reg : RegisterDescription) (bank : Bank) : Prop where
  text : BankText (view.bankOf target (layout.take (view.cut target))) bank.data
  place : ∃ before field rest, layout.take (view.cut target) = before ++ field :: rest ∧
    field.number = reg.number ∧ byteCount field = byteCount reg ∧
    bank.offset = 2 * (view.bankOf target before).length
  width : bank.width = 2 * (view.file target reg.number).length

structure SameRegisters (view : RegisterView μ) (l l' : Link μ) : Prop where
  file : view.file l'.target = view.file l.target
  cut : view.cut l'.target = view.cut l.target
  quiet : l'.pending = []
  requests : ∃ asked, l'.requests = l.requests ++ asked

theorem SameRegisters.bankOf_eq {l l' : Link μ} (h : SameRegisters view l l')
    (registers : List RegisterDescription) :
    view.bankOf l'.target registers = view.bankOf l.target registers := by
  rw [RegisterView.bankOf, h.file]
  rfl

variable {client : Client} {reg : RegisterDescription}

theorem readRegisters_stub (hserves : ServesRegisters stub view layout)
    (hconnected : client.connected = true) {l : Link μ} (hquiet : l.pending = []) :
    SameRegisters view l (l.asked stub (text ['g'])) ∧ ∃ response,
      readRegisters (stubPeer stub client.noAck) (client, l) =
        (.ok response, (client, l.asked stub (text ['g']))) ∧
      BankText (view.bankOf l.target (layout.take (view.cut l.target))) response := by
  obtain ⟨hfile, hcut, htext⟩ := hserves.bank l.target
  refine ⟨⟨hfile, hcut, rfl, [text ['g']], rfl⟩, _, ?_, htext⟩
  have hlarge := client.large
  have hwire : (wireOf ((text ['g']).map requestPiece)).length = 1 := by decide
  have hfits : Fits client (text ['g']) := by
    unfold Fits
    omega
  unfold readRegisters
  rw [sendPacket_stub hconnected hquiet hfits, outcome, htext.not_isError]
  rfl

/-- **The bank that was read** holds the register where it was located. -/
theorem readRegisterBank_spec (hserves : ServesRegisters stub view client.registerLayout)
    (hvalid : ∀ r ∈ client.registerLayout, r.Valid) (hconnected : client.connected = true)
    {l : Link μ} (hquiet : l.pending = []) :
    ∃ l', (readRegisterBank (stubPeer stub client.noAck) reg (client, l)).2 = (client, l') ∧
      SameRegisters view l l' ∧
      (∀ request ∈ l'.requests, request ∈ l.requests ∨ request = text ['g']) ∧
      (∀ bank, (readRegisterBank (stubPeer stub client.noAck) reg (client, l)).1 = .ok bank →
        Holds view client.registerLayout l'.target reg bank) := by
  obtain ⟨hsame, response, hread, htext⟩ :=
    @readRegisters_stub _ stub view _ client hserves hconnected l hquiet
  have hnone : ∀ request ∈ l.requests, request ∈ l.requests ∨ request = text ['g'] :=
    fun request h => .inl h
  have hrefl : SameRegisters view l l := ⟨rfl, rfl, hquiet, [], (List.append_nil _).symm⟩
  have hasked : ∀ request ∈ (l.asked stub (text ['g'])).requests,
      request ∈ l.requests ∨ request = text ['g'] := by
    intro request h
    rcases List.mem_append.mp h with h | h
    · exact .inl h
    · exact .inr (List.mem_singleton.mp h)
  unfold readRegisterBank
  simp only
  split
  · exact ⟨l, rfl, hrefl, hnone, fun bank h => by cases h⟩
  · cases hlocate : locate reg client.registerLayout 0 none with
    | error e => exact ⟨l, rfl, hrefl, hnone, fun bank h => by cases h⟩
    | ok located =>
      obtain ⟨total, place⟩ := located
      obtain ⟨-, hplace⟩ := locate_spec hlocate
      cases place with
      | none => exact ⟨l, rfl, hrefl, hnone, fun bank h => by cases h⟩
      | some place =>
        obtain ⟨offset, width⟩ := place
        rcases hplace with hplace | ⟨p, hp, hplaced⟩
        · cases hplace
        · cases hp
          rw [hread]
          refine ⟨l.asked stub (text ['g']), rfl, hsame, hasked, fun bank h => ?_⟩
          obtain ⟨hbank, hinside⟩ := checkBank_eq_ok h
          obtain ⟨before, field, after, hsplit, hnumber, hsize, hoffset⟩ := hplaced.split
          have hfield : byteCount field = byteCount reg := by
            rw [byteCount, byteCount, hsize]
          have hmem : ∀ r ∈ before ++ field :: after, r ∈ client.registerLayout := by
            rw [hsplit]
            exact fun r hr => hr
          have hpos : 0 < byteCount field := by
            have hpos := (hvalid field (hmem field (by simp))).pos
            rw [byteCount]
            omega
          have hbefore := bankOf_length hserves l.target
            fun r hr => hmem r (List.mem_append_left _ hr)
          have hlisted : 2 * (view.bankOf l.target
              (client.registerLayout.take (view.cut l.target))).length = _ :=
            bankOf_length hserves l.target fun r hr => List.mem_of_mem_take hr
          have hlength := htext.length
          have hwidth : width = 2 * byteCount reg := hplaced.width
          have hfits : bankWidth before + 2 * byteCount field ≤
              bankWidth ((before ++ field :: after).take (view.cut l.target)) := by
            rw [← hsplit, ← hlisted, ← hlength, hfield]
            simp only at hoffset
            omega
          obtain ⟨rest, hrest⟩ := split_take hpos hfits
          rw [← hsplit] at hrest
          have hregister : (view.file l.target reg.number).length = byteCount reg := by
            rw [← hnumber, hserves.widths l.target field (hmem field (by simp)), hfield]
          rw [hbank]
          refine ⟨?_, ⟨before, field, rest, ?_, hnumber, hfield, ?_⟩, ?_⟩
          · rw [hsame.cut, hsame.bankOf_eq]
            exact htext
          · rw [hsame.cut]
            exact hrest
          · rw [hsame.bankOf_eq]
            show offset = _
            simp only at hoffset
            omega
          · rw [hsame.file, hregister]
            exact hwidth

/-! ### Writing -/

theorem isSpecial_of_isHex {c : UInt8} (h : isHex c = true) : isSpecial c = false := by
  rw [isSpecial_eq_false]
  refine ⟨?_, ?_, ?_, ?_⟩
  all_goals
    rintro rfl
    cases h

theorem Holds.parts {target : μ} {bank : Bank} (h : Holds view layout target reg bank) :
    ∃ before field rest, layout.take (view.cut target) = before ++ field :: rest ∧
      field.number = reg.number ∧ byteCount field = byteCount reg ∧
      BankText (view.bankOf target before) (bank.data.take bank.offset) ∧
      BankText (view.file target reg.number)
        ((bank.data.drop bank.offset).take bank.width) ∧
      BankText (view.bankOf target rest) (bank.data.drop (bank.offset + bank.width)) := by
  obtain ⟨before, field, rest, hsplit, hnumber, hfield, hoffset⟩ := h.place
  have htext := h.text
  rw [hsplit, bankOf_append, bankOf_cons, hnumber] at htext
  obtain ⟨hbefore, htail⟩ := htext.split
  obtain ⟨hregister, hrest⟩ := htail.split
  refine ⟨before, field, rest, hsplit, hnumber, hfield, ?_, ?_, ?_⟩
  · rw [hoffset]
    exact hbefore
  · rw [hoffset, h.width]
    exact hregister
  · rw [hoffset, h.width, ← List.drop_drop]
    exact hrest

theorem Holds.written {target : μ} {bank : Bank} {bytes : Bytes}
    (h : Holds view layout target reg bank)
    (hnumbers : layout.Pairwise fun a b => a.number < b.number)
    (hdigits : (bank.data.take bank.offset ++
      (hexBytes bytes ++ bank.data.drop (bank.offset + bank.width))).all isHex = true) :
    ∃ values, HexText values (bank.data.take bank.offset ++
        (hexBytes bytes ++ bank.data.drop (bank.offset + bank.width))) ∧
      ((layout.take (view.cut target)).flatMap fun r =>
        Function.update (view.file target) reg.number (bytes.map some) r.number) =
          values.map some := by
  obtain ⟨before, field, rest, hsplit, hnumber, -, hbefore, -, hrest⟩ := h.parts
  rw [List.all_append, List.all_append, Bool.and_eq_true, Bool.and_eq_true] at hdigits
  obtain ⟨first, hfirst, hfirsttext⟩ := hbefore.available hdigits.1
  obtain ⟨last, hlast, hlasttext⟩ := hrest.available hdigits.2.2
  refine ⟨first ++ (bytes ++ last), hfirsttext.append ((HexText.hexBytes bytes).append hlasttext),
    ?_⟩
  have hsorted := hnumbers.sublist (List.take_sublist (view.cut target) layout)
  rw [hsplit] at hsorted
  obtain ⟨-, hafter, hcross⟩ := List.pairwise_append.mp hsorted
  have hother : ∀ registers : List RegisterDescription, (∀ r ∈ registers, r.number ≠ reg.number) →
      (registers.flatMap fun r =>
        Function.update (view.file target) reg.number (bytes.map some) r.number) =
          view.bankOf target registers := by
    intro registers hne
    refine List.flatMap_congr fun r hr => ?_
    exact Function.update_of_ne (hne r hr) _ _
  rw [hsplit, List.flatMap_append, List.flatMap_cons, hother before, hother rest, hnumber,
    Function.update_self, hfirst, hlast]
  · simp
  · intro r hr
    have hlt := (List.pairwise_cons.mp hafter).1 r hr
    omega
  · intro r hr
    have hlt := hcross r hr field List.mem_cons_self
    omega

theorem Holds.written_length {target : μ} {bank : Bank} {bytes : Bytes}
    (h : Holds view layout target reg bank)
    (hbytes : (view.file target reg.number).length = bytes.length) :
    (bank.data.take bank.offset ++
      (hexBytes bytes ++ bank.data.drop (bank.offset + bank.width))).length =
        bank.data.length := by
  obtain ⟨before, field, rest, hsplit, hnumber, -, hoffset⟩ := h.place
  have hlength := h.text.length
  rw [hsplit, bankOf_append, bankOf_cons, hnumber, List.length_append, List.length_append]
    at hlength
  have hwidth := h.width
  simp only [List.length_append, List.length_take, List.length_drop, hexBytes_length]
  omega

theorem written_file {target target' : μ} {registers : List RegisterDescription}
    {bytes values : Bytes}
    (hset : view.bankOf target' registers = values.map some ∧
      ∀ n, (∀ r ∈ registers, r.number ≠ n) → view.file target' n = view.file target n)
    (hwidths : ∀ r ∈ registers, (view.file target r.number).length = byteCount r)
    (hwidths' : ∀ r ∈ registers, (view.file target' r.number).length = byteCount r)
    (hbytes : (view.file target reg.number).length = bytes.length)
    (hfile : (registers.flatMap fun r =>
      Function.update (view.file target) reg.number (bytes.map some) r.number) = values.map some)
    (hmem : ∃ r ∈ registers, r.number = reg.number) :
    view.file target' = Function.update (view.file target) reg.number (bytes.map some) := by
  obtain ⟨hbank, hother⟩ := hset
  have hlength : ∀ r ∈ registers, (view.file target' r.number).length =
      (Function.update (view.file target) reg.number (bytes.map some) r.number).length := by
    intro r hr
    rw [hwidths' r hr]
    by_cases hr' : r.number = reg.number
    · rw [hr', Function.update_self, List.length_map, ← hbytes, ← hr', hwidths r hr]
    · rw [Function.update_of_ne hr', hwidths r hr]
  have hlisted := bankOf_inj hlength (hbank.trans hfile.symm)
  funext n
  by_cases hn : ∃ r ∈ registers, r.number = n
  · obtain ⟨r, hr, rfl⟩ := hn
    exact hlisted r hr
  · have hne : ∀ r ∈ registers, r.number ≠ n := fun r hr heq => hn ⟨r, hr, heq⟩
    obtain ⟨r, hr, hreg⟩ := hmem
    rw [hother n hne, Function.update_of_ne fun heq => hne r hr (hreg.trans heq.symm)]

/-- What a write through the bank leaves: one register changed, or none as long as no bank was
sent. -/
def Leaves (view : RegisterView μ) (reg : RegisterDescription) (bytes : Bytes) (l l' : Link μ)
    (result : Except String Unit) : Prop :=
  ∃ asked, l'.requests = l.requests ++ asked ∧
    (result = .ok () → view.file l'.target =
      Function.update (view.file l.target) reg.number (bytes.map some)) ∧
    (result ≠ .ok () → (∀ request ∈ asked, request.head? ≠ some 0x47) →
      view.file l'.target = view.file l.target)

theorem SameRegisters.leaves {l l' : Link μ} (h : SameRegisters view l l') (bytes : Bytes)
    (e : String) : Leaves view reg bytes l l' (.error e) := by
  obtain ⟨asked, hasked⟩ := h.requests
  refine ⟨asked, hasked, fun hok => ?_, fun _ _ => h.file⟩
  cases hok

/-- **A write through the bank** changes one register. -/
theorem writeThroughBank_spec (hserves : ServesRegisters stub view client.registerLayout)
    (hnumbers : client.registerLayout.Pairwise fun a b => a.number < b.number)
    (hvalid : ∀ r ∈ client.registerLayout, r.Valid) (hconnected : client.connected = true)
    {l : Link μ} (hquiet : l.pending = []) {bytes : Bytes} (hbytes : bytes.length = byteCount reg) :
    ∃ result client' l',
      writeThroughBank (stubPeer stub client.noAck) reg bytes (client, l) =
        (result, (client', l')) ∧ Leaves view reg bytes l l' result := by
  obtain ⟨l₁, hstate, hsame, -, hholds⟩ :=
    @readRegisterBank_spec _ stub view client reg hserves hvalid hconnected l hquiet
  rcases hread : readRegisterBank (stubPeer stub client.noAck) reg (client, l) with ⟨outcome, s₁⟩
  rw [hread] at hstate hholds
  obtain rfl : s₁ = (client, l₁) := hstate
  unfold writeThroughBank
  simp only [hread]
  cases outcome with
  | error e => exact ⟨_, _, _, rfl, hsame.leaves bytes _⟩
  | ok bank =>
    simp only
    split
    · exact ⟨_, _, _, rfl, hsame.leaves bytes _⟩
    · rename_i hsize
      split
      · exact ⟨_, _, _, rfl, hsame.leaves bytes _⟩
      · rename_i hdigits
        have hall := not_not.mp hdigits
        have hbank := hholds bank rfl
        obtain ⟨before, field, rest, hlisted, hnumber, hfield, -⟩ := hbank.place
        have hmem : field ∈ client.registerLayout := by
          have htake : field ∈ client.registerLayout.take (view.cut l₁.target) := by
            rw [hlisted]
            exact List.mem_append_right _ List.mem_cons_self
          exact List.mem_of_mem_take htake
        have hregister : (view.file l₁.target reg.number).length = bytes.length := by
          rw [← hnumber, hserves.widths l₁.target field hmem, hfield, hbytes]
        obtain ⟨values, hvalues, hfile⟩ := hbank.written hnumbers hall
        have hlength := hbank.written_length hregister
        generalize bank.data.take bank.offset ++
          (hexBytes bytes ++ bank.data.drop (bank.offset + bank.width)) = data
            at hvalues hall hlength
        have hplain : ∀ c ∈ text ['G'] ++ data, isSpecial c = false := by
          rw [List.forall_mem_append]
          exact ⟨plain_of_all (by decide),
            fun c hc => isSpecial_of_isHex (List.all_eq_true.mp hall c hc)⟩
        have hfits : Fits client (text ['G'] ++ data) := by
          unfold Fits
          rw [wireOf_plain hplain, List.length_append, hlength]
          show 1 + _ ≤ _
          omega
        have hcount : values.length =
            (view.bankOf l₁.target (client.registerLayout.take (view.cut l₁.target))).length := by
          have htext := hbank.text.length
          have hhex := hvalues.length
          omega
        obtain ⟨asked, hasked⟩ := hsame.requests
        have hrequests : (l₁.asked stub (text ['G'] ++ data)).requests =
            l.requests ++ (asked ++ [text ['G'] ++ data]) := by
          rw [← List.append_assoc, ← hasked]
          rfl
        have hsent : ¬∀ request ∈ asked ++ [text ['G'] ++ data], request.head? ≠ some 0x47 :=
          fun h => h _ (List.mem_append_right _ (List.mem_singleton.mpr rfl)) rfl
        have hfailed : ∀ e : String, Leaves view reg bytes l (l₁.asked stub (text ['G'] ++ data))
            (.error e) := fun e => by
          refine ⟨_, hrequests, fun hok => ?_, fun _ h => absurd h hsent⟩
          cases hok
        rw [sendPacket_stub hconnected hsame.quiet hfits]
        unfold outcome
        by_cases herror : isError (stub.respond l₁.target
            (text ['G'] ++ data)).2.reply.payload = true
        · simp only [if_pos herror]
          exact ⟨_, _, _, rfl, hfailed _⟩
        · simp only [if_neg herror]
          by_cases hok : (stub.respond l₁.target (text ['G'] ++ data)).2.reply.payload =
              text ['O', 'K']
          · rw [if_neg (not_not.mpr hok)]
            refine ⟨_, _, _, rfl, _, hrequests, fun _ => ?_, fun hne => absurd rfl hne⟩
            rw [← hsame.file]
            have hsub : ∀ r ∈ client.registerLayout.take (view.cut l₁.target),
                r ∈ client.registerLayout := fun r hr => List.mem_of_mem_take hr
            exact written_file (hserves.writeBank l₁.target values data hvalues hcount hok)
              (fun r hr => hserves.widths _ r (hsub r hr))
              (fun r hr => hserves.widths _ r (hsub r hr)) hregister hfile
              ⟨field, by rw [hlisted]; exact List.mem_append_right _ List.mem_cons_self, hnumber⟩
          · rw [if_pos hok]
            exact ⟨_, _, _, rfl, hfailed _⟩

/-! ### Reading -/

theorem readRegisterBank_listed (hserves : ServesRegisters stub view client.registerLayout)
    (hnumbers : client.registerLayout.Pairwise fun a b => a.number < b.number)
    (hconnected : client.connected = true) {l : Link μ} (hquiet : l.pending = [])
    (hmem : reg ∈ client.registerLayout.take (view.cut l.target))
    (hsmall : bankWidth client.registerLayout ≤ maxDecoded) :
    ∃ bank, (readRegisterBank (stubPeer stub client.noAck) reg (client, l)).1 = .ok bank := by
  have hlayout : reg ∈ client.registerLayout := List.mem_of_mem_take hmem
  have hunique : ∀ f ∈ client.registerLayout, f.number = reg.number → f = reg := by
    have hnodup : (client.registerLayout.map (·.number)).Nodup :=
      List.pairwise_map.mpr (hnumbers.imp fun hlt => Nat.ne_of_lt hlt)
    exact fun f hf heq => List.inj_on_of_nodup_map hnodup hf hlayout heq
  obtain ⟨place, hlocate, hsome⟩ := @locate_found reg client.registerLayout
    (fun f hf heq => by rw [hunique f hf heq]; exact ⟨rfl, rfl⟩) 0 (by omega) none
  obtain ⟨place, rfl⟩ := Option.isSome_iff_exists.mp (hsome (.inr ⟨reg, hlayout, rfl⟩))
  obtain ⟨offset, width⟩ := place
  obtain ⟨-, hplace⟩ := locate_spec hlocate
  obtain ⟨-, response, hread, htext⟩ :=
    @readRegisters_stub _ stub view _ client hserves hconnected l hquiet
  have hlisted : 2 * (view.bankOf l.target
      (client.registerLayout.take (view.cut l.target))).length = _ :=
    bankOf_length hserves l.target fun r hr => List.mem_of_mem_take hr
  have hlength := htext.length.trans hlisted
  have hplaced : Placed reg client.registerLayout 0 (offset, width) := by
    rcases hplace with hplace | ⟨p, hp, hplaced⟩
    · cases hplace
    · cases hp
      exact hplaced
  have hinside : offset + width ≤ response.length := by
    obtain ⟨before, field, after, hsplit, hnumber, -, hoffset⟩ := hplaced.split
    have hfield : field = reg := hunique field (by rw [hsplit]; simp) hnumber
    subst hfield
    have hwidth : width = 2 * byteCount field := hplaced.width
    have hcut : before.length < view.cut l.target := by
      by_contra hle
      rw [hsplit, List.take_append_of_le_length (Nat.not_lt.mp hle)] at hmem
      rw [hsplit] at hnumbers
      have hlt := (List.pairwise_append.mp hnumbers).2.2 field (List.mem_of_mem_take hmem) field
        List.mem_cons_self
      exact absurd hlt (Nat.lt_irrefl _)
    obtain ⟨n, hn⟩ : ∃ n, view.cut l.target = before.length + (n + 1) :=
      ⟨view.cut l.target - before.length - 1, by omega⟩
    have htake : client.registerLayout.take (view.cut l.target) =
        before ++ field :: after.take n := by
      rw [hsplit, hn, List.take_append, List.take_of_length_le (by omega),
        Nat.add_sub_cancel_left, List.take_succ_cons]
    rw [hlength, htake, bankWidth_append, bankWidth_cons]
    simp only at hoffset
    omega
  have htotal : bankWidth (client.registerLayout.take (view.cut l.target)) ≤
      bankWidth client.registerLayout := by
    have hsplit := bankWidth_append (client.registerLayout.take (view.cut l.target))
      (client.registerLayout.drop (view.cut l.target))
    rw [List.take_append_drop] at hsplit
    omega
  have hboundary : boundary response.length client.registerLayout 0 = response.length := by
    have htake := @boundary_take client.registerLayout (view.cut l.target) 0
    rwa [Nat.zero_add, ← hlength] at htake
  refine ⟨⟨response, offset, width⟩, ?_⟩
  unfold readRegisterBank
  rw [if_neg (by rw [List.isEmpty_iff]; exact List.ne_nil_of_mem hlayout)]
  simp only [hlocate, hread]
  rw [checkBank, if_neg (by omega), if_neg (not_not.mpr hboundary),
    if_neg (not_not.mpr htext.bankDigits), if_neg (by omega)]

/-- **A read through the bank** returns the bytes of the register. -/
theorem readThroughBank_spec (hserves : ServesRegisters stub view client.registerLayout)
    (hnumbers : client.registerLayout.Pairwise fun a b => a.number < b.number)
    (hvalid : ∀ r ∈ client.registerLayout, r.Valid) (hconnected : client.connected = true)
    {l : Link μ} (hquiet : l.pending = []) :
    ∃ result l', readThroughBank (stubPeer stub client.noAck) reg (client, l) =
        (result, (client, l')) ∧
      (∀ bytes, result = .ok bytes → knownBytes (view.file l.target reg.number) = .ok bytes) ∧
      (reg ∈ client.registerLayout.take (view.cut l.target) →
        bankWidth client.registerLayout ≤ maxDecoded →
          result = knownBytes (view.file l.target reg.number)) := by
  obtain ⟨l₁, hstate, hsame, -, hholds⟩ :=
    @readRegisterBank_spec _ stub view client reg hserves hvalid hconnected l hquiet
  have hlisted := @readRegisterBank_listed _ stub view client reg hserves hnumbers hconnected l
    hquiet
  rcases hread : readRegisterBank (stubPeer stub client.noAck) reg (client, l) with ⟨outcome, s₁⟩
  rw [hread] at hstate hholds hlisted
  obtain rfl : s₁ = (client, l₁) := hstate
  unfold readThroughBank
  simp only [hread]
  cases outcome with
  | error e =>
    refine ⟨_, l₁, rfl, ?_, fun hmem hsmall => ?_⟩
    · intro bytes h
      cases h
    · obtain ⟨bank, hbank⟩ := hlisted hmem hsmall
      cases hbank
  | ok bank =>
    obtain ⟨-, -, -, -, -, -, -, htext, -⟩ := (hholds bank rfl).parts
    have hdecode := htext.decodeHex_eq
    rw [hsame.file] at hdecode
    exact ⟨_, l₁, rfl, fun bytes h => hdecode.symm.trans h, fun _ _ => hdecode⟩

/-! ### Single registers -/

theorem outcome_nil : outcome [] = .ok [] := rfl

theorem unsupported_asked (hserves : ServesRegisters stub view layout) {l : Link μ}
    {bytes request : Bytes} (hrequest : request = readOne reg ∨ request = writeOne reg bytes)
    (hempty : (stub.respond l.target request).2.reply.payload = []) :
    SameRegisters view l (l.asked stub request) := by
  obtain ⟨hfile, hcut⟩ := hserves.unsupported l.target reg bytes request hrequest hempty
  exact ⟨hfile, hcut, rfl, [request], rfl⟩

theorem Leaves.after {l l₁ l' : Link μ} {bytes request : Bytes} {result : Except String Unit}
    (h : Leaves view reg bytes l₁ l' result) (hfile : view.file l₁.target = view.file l.target)
    (hrequests : l₁.requests = l.requests ++ [request]) :
    Leaves view reg bytes l l' result := by
  obtain ⟨asked, hasked, hdone, hfailed⟩ := h
  rw [hfile] at hdone hfailed
  refine ⟨request :: asked, ?_, hdone, fun hne hall => hfailed hne fun q hq => ?_⟩
  · rw [hasked, hrequests, List.append_assoc]
    rfl
  · exact hall q (List.mem_cons_of_mem _ hq)

theorem fits_readOne (hnumber : reg.number ≤ 65535) : Fits client (readOne reg) := by
  have hplain : ∀ c ∈ readOne reg, isSpecial c = false := by
    rw [readOne, List.forall_mem_append]
    exact ⟨plain_of_all (by decide), plain_hexNumber _⟩
  have hlarge := client.large
  have hlength := @hexNumber_length_le reg.number 4 (by decide) (by omega)
  unfold Fits
  rw [wireOf_plain hplain, readOne, List.length_append]
  show 1 + _ ≤ _
  omega

theorem sendPacket_large {peer : Peer (Link μ)} {l : Link μ} {request : Bytes}
    (hlarge : ¬Fits client request) : ∃ e, sendPacket peer request (client, l) =
      (.error e, (client, l)) := by
  have hpacket : requestPacket client.packetSize request =
      .error "Request exceeds negotiated GDB packet size" := by
    unfold requestPacket
    rw [escapeRequest_eq _ _ _ (Nat.zero_le _), List.nil_append,
      if_pos (Nat.not_le.mp hlarge)]
    rfl
  unfold sendPacket
  simp only [hpacket]
  split
  · exact ⟨_, rfl⟩
  · exact ⟨_, rfl⟩

/-- **Whole-register access is exact**: where single registers are not served, a write changes the
register alone, and a read returns what the stub would reply for it. -/
theorem bank_access_exact {elements : List RegElement}
    (hdescribe : describe elements = .ok client.registerLayout)
    (hserves : ServesRegisters stub view client.registerLayout)
    (hconnected : client.connected = true) {l : Link μ} (hquiet : l.pending = []) :
    (∀ (reg : RegisterDescription) (bytes : Bytes), (client.individualWrites = false ∨
        (stub.respond l.target (writeOne reg bytes)).2.reply.payload = []) →
      ∃ result client' l', writeRegister (stubPeer stub client.noAck) reg bytes (client, l) =
        (result, (client', l')) ∧ Leaves view reg bytes l l' result) ∧
    (∀ (reg : RegisterDescription) (digits : Bytes), (client.individualReads = false ∨
        (stub.respond l.target (readOne reg)).2.reply.payload = []) →
      BankText (view.file l.target reg.number) digits →
      ∃ result client' l', readRegister (stubPeer stub client.noAck) reg (client, l) =
        (result, (client', l')) ∧ (∀ bytes, result = .ok bytes → decodeHex digits = .ok bytes) ∧
        (reg ∈ client.registerLayout.take (view.cut l.target) →
          bankWidth client.registerLayout ≤ maxDecoded → result = decodeHex digits)) := by
  obtain ⟨hnumbers, -, hvalid⟩ := describe_spec hdescribe
  have hrefl : SameRegisters view l l := ⟨rfl, rfl, hquiet, [], (List.append_nil _).symm⟩
  constructor
  · intro reg bytes hfallback
    unfold writeRegister
    split
    · exact ⟨_, _, _, rfl, hrefl.leaves bytes _⟩
    · rename_i hsize
      simp only [not_or, not_not] at hsize
      split
      · rename_i hwrites
        have hempty := hfallback.resolve_left (by rw [hwrites]; simp)
        by_cases hfits : Fits client (writeOne reg bytes)
        · have hsame := unsupported_asked hserves (.inr rfl) hempty
          rw [sendPacket_stub hconnected hquiet hfits, hempty, outcome_nil]
          simp only
          rw [if_neg (by decide), if_neg (by simp)]
          obtain ⟨result, client', l', hwrite, hleaves⟩ := @writeThroughBank_spec _ stub view
            { client with individualWrites := false } reg hserves hnumbers hvalid hconnected
            (l.asked stub (writeOne reg bytes)) rfl bytes hsize.2.2
          exact ⟨result, client', l', hwrite, hleaves.after hsame.file rfl⟩
        · obtain ⟨e, hsend⟩ := sendPacket_large hfits
          rw [hsend]
          exact ⟨_, _, _, rfl, hrefl.leaves bytes _⟩
      · exact writeThroughBank_spec hserves hnumbers hvalid hconnected hquiet hsize.2.2
  · intro reg digits hfallback htext
    rw [htext.decodeHex_eq]
    unfold readRegister
    split
    · rename_i hbits
      refine ⟨_, _, _, rfl, ?_, fun hmem _ => ?_⟩
      · intro bytes h
        cases h
      · have hreg := hvalid reg (List.mem_of_mem_take hmem)
        have hpos := hreg.pos
        have hmax := hreg.bits_le
        omega
    · split
      · rename_i hreads
        have hempty := hfallback.resolve_left (by rw [hreads]; simp)
        by_cases hfits : Fits client (readOne reg)
        · have hsame := @unsupported_asked _ stub view _ reg hserves l [] _ (.inl rfl) hempty
          rw [sendPacket_stub hconnected hquiet hfits, hempty, outcome_nil]
          simp only
          rw [if_neg (by simp)]
          obtain ⟨result, l', hread, hsound, hlisted⟩ := @readThroughBank_spec _ stub view
            { client with individualReads := false } reg hserves hnumbers hvalid hconnected
            (l.asked stub (readOne reg)) rfl
          rw [hsame.file, hsame.cut] at hlisted
          rw [hsame.file] at hsound
          exact ⟨result, _, l', hread, hsound, hlisted⟩
        · obtain ⟨e, hsend⟩ := sendPacket_large hfits
          rw [hsend]
          refine ⟨_, _, _, rfl, ?_, fun hmem _ => ?_⟩
          · intro bytes h
            cases h
          · exact absurd (fits_readOne (hvalid reg (List.mem_of_mem_take hmem)).number_le) hfits
      · obtain ⟨result, l', hread, hsound, hlisted⟩ :=
          readThroughBank_spec hserves hnumbers hvalid hconnected hquiet
        exact ⟨result, _, l', hread, hsound, hlisted⟩

end bank

/-! ### A stub -/

/-- Two bytes of one register, and one of another. -/
structure Three where
  low : UInt8
  high : UInt8
  flag : UInt8

def Three.bytes (t : Three) : Bytes := [t.low, t.high, t.flag]

/-- Single registers are not served. -/
def threeStub : Stub Three where
  respond := fun t payload =>
    if payload = text ['g'] then (t, answer (hexBytes t.bytes))
    else if payload.head? = some 0x47 then
      match decodePairs payload.tail with
      | .ok [low, high, flag] => (⟨low, high, flag⟩, answer (text ['O', 'K']))
      | _ => (t, refusal)
    else (t, answer [])

def threeView : RegisterView Three where
  file := fun t n =>
    if n = 2 then [some t.low, some t.high] else if n = 5 then [some t.flag] else []
  cut := fun _ => 2

/-- The register of the higher number is declared first. -/
def threeElements : List RegElement :=
  [⟨some "f", some 1, some (some 5)⟩, ⟨some "r", some 12, some (some 2)⟩]

def threeLayout : List RegisterDescription := [⟨"r", 2, 12⟩, ⟨"f", 5, 1⟩]

theorem describe_three : describe threeElements = .ok threeLayout := by
  have hfold : threeElements.foldlM declare {} = .ok ⟨[⟨"f", 5, 1⟩, ⟨"r", 2, 12⟩], 3⟩ := by
    rfl
  unfold describe
  rw [hfold]
  simp [List.mergeSort, byNumber, threeLayout]

theorem threeStub_serves : ServesRegisters threeStub threeView threeLayout := by
  constructor
  · intro t r hr
    simp only [threeLayout, List.mem_cons, List.not_mem_nil, or_false] at hr
    rcases hr with rfl | rfl
    · simp [threeView, byteCount]
    · simp [threeView, byteCount]
  · intro t
    have hrespond : threeStub.respond t (text ['g']) = (t, answer (hexBytes t.bytes)) := rfl
    have hshort : (hexBytes t.bytes).length ≤ maxWire := by
      rw [hexBytes_length]
      show 2 * 3 ≤ maxWire
      decide
    rw [hrespond, answer_reply (plain_hexBytes _) hshort (not_isConsole_hexBytes _)]
    exact ⟨rfl, rfl, (HexText.hexBytes t.bytes).bankText⟩
  · intro t bytes digits hhex hlength _
    obtain ⟨low, high, flag, rfl⟩ := List.length_eq_three.mp hlength
    have hrespond : threeStub.respond t (text ['G'] ++ digits) =
        (⟨low, high, flag⟩, answer (text ['O', 'K'])) := by
      unfold threeStub
      simp only [show text ['G'] ++ digits = 0x47 :: digits from rfl, List.head?_cons,
        List.tail_cons, hhex.decodePairs_eq]
      rfl
    rw [hrespond]
    refine ⟨rfl, fun n hn => ?_⟩
    have htwo : 2 ≠ n := hn ⟨"r", 2, 12⟩ List.mem_cons_self
    have hfive : 5 ≠ n := hn ⟨"f", 5, 1⟩ (List.mem_cons_of_mem _ List.mem_cons_self)
    simp only [threeView, htwo.symm, hfive.symm, if_false]
  · intro t reg bytes request hrequest _
    have hrespond : threeStub.respond t request = (t, answer []) := by
      rcases hrequest with rfl | rfl
      · rfl
      · rfl
    rw [hrespond]
    exact ⟨rfl, rfl⟩

/-- The flag is written, and the other register stays. -/
theorem bank_access_exact_three : ∃ result client' l',
    writeRegister (stubPeer threeStub false) ⟨"f", 5, 1⟩ [9]
      ({ registerLayout := threeLayout }, ⟨⟨1, 2, 3⟩, [], []⟩) = (result, (client', l')) ∧
    Leaves threeView ⟨"f", 5, 1⟩ [9] ⟨⟨1, 2, 3⟩, [], []⟩ l' result :=
  (@bank_access_exact _ threeStub threeView { registerLayout := threeLayout } threeElements
    describe_three threeStub_serves rfl ⟨⟨1, 2, 3⟩, [], []⟩ rfl).1 ⟨"f", 5, 1⟩ [9] (.inr rfl)

end CheatEngine.GdbRemote
