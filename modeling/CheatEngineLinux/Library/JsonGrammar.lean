import Mathlib.Data.List.Basic

/-!
# The grammar of JSON texts

RFC 8259 over bytes.  A text denotes a value of any type with the operations of `Meaning`;
`JsonValue D d text v` says that `text` is a value whose nesting is at most `d` deep and that it
denotes `v`.  Bytes from 0x80 on stand for themselves in strings.

* `JsonValue.mono` — **PROVED**: a larger bound on the nesting allows more;
* `JsonValue.first` — **PROVED**: what a value starts with.
-/

namespace JsonGrammar

abbrev Bytes := List UInt8

/-! ### Tokens -/

def isWs (b : UInt8) : Bool := b == 0x20 || b == 0x09 || b == 0x0a || b == 0x0d

def isDigit (b : UInt8) : Bool := decide (0x30 ≤ b) && decide (b ≤ 0x39)

/-- `ws` -/
def Ws (w : Bytes) : Prop := ∀ b ∈ w, isWs b = true

theorem Ws.nil : Ws [] := fun _ h => by simp at h

theorem Ws.append {w w' : Bytes} (h : Ws w) (h' : Ws w') : Ws (w ++ w') := by
  intro b hb
  rcases List.mem_append.mp hb with hb | hb
  · exact h b hb
  · exact h' b hb

/-- `1*DIGIT` -/
def Digits (ds : Bytes) : Prop := ds ≠ [] ∧ ∀ b ∈ ds, isDigit b = true

/-- `int = zero / ( digit1-9 *DIGIT )` -/
inductive IntPart : Bytes → Prop
  | zero : IntPart [0x30]
  | digits (d : UInt8) (ds : Bytes) : isDigit d = true → d ≠ 0x30 → (∀ b ∈ ds, isDigit b = true) →
      IntPart (d :: ds)

/-- `[ frac ]`, with `frac = decimal-point 1*DIGIT` -/
def Frac (t : Bytes) : Prop := t = [] ∨ ∃ ds, Digits ds ∧ t = 0x2e :: ds

/-- `[ exp ]`, with `exp = e [ minus / plus ] 1*DIGIT` -/
def Exp (t : Bytes) : Prop :=
  t = [] ∨ ∃ e sign ds, (e = 0x65 ∨ e = 0x45) ∧ (sign = [] ∨ sign = [0x2b] ∨ sign = [0x2d]) ∧
    Digits ds ∧ t = e :: (sign ++ ds)

/-- `number = [ minus ] int [ frac ] [ exp ]` -/
def Number (t : Bytes) : Prop :=
  ∃ minus int frac exp, (minus = [] ∨ minus = [0x2d]) ∧ IntPart int ∧ Frac frac ∧ Exp exp ∧
    t = minus ++ (int ++ (frac ++ exp))

def hexValue (b : UInt8) : Option ℕ :=
  if 0x30 ≤ b && b ≤ 0x39 then some (b.toNat - 0x30)
  else if 0x61 ≤ b && b ≤ 0x66 then some (b.toNat - 0x61 + 10)
  else if 0x41 ≤ b && b ≤ 0x46 then some (b.toNat - 0x41 + 10)
  else none

/-- `4HEXDIG`, with its value -/
inductive Hex4 : Bytes → ℕ → Prop
  | mk {a b c d : UInt8} {w x y z : ℕ} : hexValue a = some w → hexValue b = some x →
      hexValue c = some y → hexValue d = some z →
      Hex4 [a, b, c, d] (((w * 16 + x) * 16 + y) * 16 + z)

/-- The characters with an escape of two characters, and what they stand for. -/
def escapes : List (UInt8 × UInt8) :=
  [(0x22, 0x22), (0x5c, 0x5c), (0x2f, 0x2f), (0x62, 0x08), (0x66, 0x0c), (0x6e, 0x0a), (0x72, 0x0d),
    (0x74, 0x09)]

/-- `char`, with the bytes it stands for.  A `\u` escape is a character, or half of a pair that
is one. -/
inductive JsonChar : Bytes → Bytes → Prop
  | raw (b : UInt8) : 0x20 ≤ b → b ≠ 0x22 → b ≠ 0x5c → JsonChar [b] [b]
  | escape (e b : UInt8) : (e, b) ∈ escapes → JsonChar [0x5c, e] [b]
  | unit (hex : Bytes) (c : Char) : Hex4 hex c.toNat →
      JsonChar (0x5c :: 0x75 :: hex) (String.utf8EncodeChar c)
  | pair (hex hex' : Bytes) (high low : ℕ) (c : Char) : Hex4 hex high → Hex4 hex' low →
      0xd800 ≤ high → high ≤ 0xdbff → 0xdc00 ≤ low → low ≤ 0xdfff →
      c.toNat = 0x10000 + (high - 0xd800) * 0x400 + (low - 0xdc00) →
      JsonChar (0x5c :: 0x75 :: (hex ++ 0x5c :: 0x75 :: hex')) (String.utf8EncodeChar c)

/-- `string = quotation-mark *char quotation-mark` -/
def JsonString (text chars : Bytes) : Prop :=
  ∃ parts : List (Bytes × Bytes), (∀ p ∈ parts, JsonChar p.1 p.2) ∧
    text = 0x22 :: (parts.flatMap Prod.fst ++ [0x22]) ∧ chars = parts.flatMap Prod.snd

/-! ### Values -/

/-- What the productions of a value stand for.  The members of an object are in the order of
the text. -/
structure Meaning (V : Type*) where
  null : V
  bool : Bool → V
  number : Bytes → V
  string : Bytes → V
  array : List V → V
  object : List (Bytes × V) → V

/-- A value of an array with the space around it. -/
structure Element (V : Type*) where
  before : Bytes
  text : Bytes
  after : Bytes
  value : V

/-- A member of an object with the space around its parts. -/
structure Member (V : Type*) where
  before : Bytes
  key : Bytes
  afterKey : Bytes
  name : Bytes
  element : Element V

variable {V : Type*}

def Element.bytes (e : Element V) : Bytes := e.before ++ (e.text ++ e.after)

/-- `member = string name-separator value` -/
def Member.bytes (m : Member V) : Bytes :=
  m.before ++ (m.key ++ (m.afterKey ++ 0x3a :: m.element.bytes))

/-- `x *( value-separator x )` -/
def commaSeparated : List Bytes → Bytes
  | [] => []
  | [x] => x
  | x :: xs => x ++ 0x2c :: commaSeparated xs

/-! ### Equal keys -/

def firstKeys : List Bytes → List Bytes
  | [] => []
  | k :: ks => k :: (firstKeys ks).filter (fun k' => k' != k)

/-- The members of an object: each key once, where it first occurs, with its last value. -/
def lastWins (ms : List (Bytes × V)) : List (Bytes × V) :=
  (firstKeys (ms.map Prod.fst)).filterMap fun k => (ms.reverse.lookup k).map fun v => (k, v)

theorem mem_firstKeys {k : Bytes} {ks : List Bytes} : k ∈ firstKeys ks ↔ k ∈ ks := by
  induction ks with
  | nil => simp [firstKeys]
  | cons k' ks ih =>
    simp only [firstKeys, List.mem_cons, List.mem_filter, ih, bne_iff_ne]
    by_cases h : k = k' <;> simp [h]

theorem firstKeys_append (ks : List Bytes) (k : Bytes) :
    firstKeys (ks ++ [k]) = if k ∈ ks then firstKeys ks else firstKeys ks ++ [k] := by
  induction ks with
  | nil => rfl
  | cons k' ks ih =>
    rw [List.cons_append, firstKeys, ih]
    by_cases hmem : k ∈ ks
    · rw [if_pos hmem, if_pos (by simp [hmem]), firstKeys]
    · rw [if_neg hmem, List.filter_append]
      by_cases hk : k = k'
      · simp [hk, firstKeys]
      · simp [hk, hmem, firstKeys]

theorem lookup_isSome {k : Bytes} {ms : List (Bytes × V)} (h : k ∈ ms.map Prod.fst) :
    ∃ v, ms.lookup k = some v := by
  induction ms with
  | nil => simp at h
  | cons m ms ih =>
    obtain ⟨k', v⟩ := m
    rw [List.lookup_cons]
    by_cases hk : k == k'
    · exact ⟨v, by simp [hk]⟩
    · have hne : k ≠ k' := by simpa using hk
      simpa [hk] using ih (by simpa [hne] using h)

/-! ### Derivations -/

/-- `value`, at most `d` deep. -/
inductive JsonValue (D : Meaning V) : ℕ → Bytes → V → Prop
  | null (d : ℕ) : JsonValue D (d + 1) [0x6e, 0x75, 0x6c, 0x6c] D.null
  | true (d : ℕ) : JsonValue D (d + 1) [0x74, 0x72, 0x75, 0x65] (D.bool Bool.true)
  | false (d : ℕ) : JsonValue D (d + 1) [0x66, 0x61, 0x6c, 0x73, 0x65] (D.bool Bool.false)
  | number (d : ℕ) (t : Bytes) : Number t → JsonValue D (d + 1) t (D.number t)
  | string (d : ℕ) (t chars : Bytes) : JsonString t chars → JsonValue D (d + 1) t (D.string chars)
  | emptyArray (d : ℕ) (w : Bytes) : Ws w → JsonValue D (d + 1) (0x5b :: (w ++ [0x5d])) (D.array [])
  | array (d : ℕ) (es : List (Element V)) : es ≠ [] →
      (∀ e ∈ es, Ws e.before ∧ Ws e.after) → (∀ e ∈ es, JsonValue D d e.text e.value) →
      JsonValue D (d + 1) (0x5b :: (commaSeparated (es.map Element.bytes) ++ [0x5d]))
        (D.array (es.map Element.value))
  | emptyObject (d : ℕ) (w : Bytes) : Ws w →
      JsonValue D (d + 1) (0x7b :: (w ++ [0x7d])) (D.object [])
  | object (d : ℕ) (ms : List (Member V)) : ms ≠ [] →
      (∀ m ∈ ms, Ws m.before ∧ Ws m.afterKey ∧ Ws m.element.before ∧ Ws m.element.after) →
      (∀ m ∈ ms, JsonString m.key m.name) →
      (∀ m ∈ ms, JsonValue D d m.element.text m.element.value) →
      JsonValue D (d + 1) (0x7b :: (commaSeparated (ms.map Member.bytes) ++ [0x7d]))
        (D.object (ms.map fun m => (m.name, m.element.value)))

/-- `JSON-text = ws value ws`, at most `d` deep. -/
def JsonText (D : Meaning V) (d : ℕ) (text : Bytes) (v : V) : Prop :=
  ∃ w t w', Ws w ∧ Ws w' ∧ JsonValue D d t v ∧ text = w ++ (t ++ w')

theorem commaSeparated_cons (x y : Bytes) (xs : List Bytes) :
    commaSeparated (x :: y :: xs) = x ++ 0x2c :: commaSeparated (y :: xs) := rfl

/-- What is allowed at a depth is allowed deeper. -/
theorem JsonValue.mono {D : Meaning V} {d d' : ℕ} {t : Bytes} {v : V} (h : JsonValue D d t v)
    (hd : d ≤ d') : JsonValue D d' t v := by
  induction h generalizing d' with
  | null d =>
    obtain ⟨e, rfl⟩ := Nat.exists_eq_add_of_lt hd
    exact JsonValue.null _
  | true d =>
    obtain ⟨e, rfl⟩ := Nat.exists_eq_add_of_lt hd
    exact JsonValue.true _
  | false d =>
    obtain ⟨e, rfl⟩ := Nat.exists_eq_add_of_lt hd
    exact JsonValue.false _
  | number d t ht =>
    obtain ⟨e, rfl⟩ := Nat.exists_eq_add_of_lt hd
    exact JsonValue.number _ t ht
  | string d t chars ht =>
    obtain ⟨e, rfl⟩ := Nat.exists_eq_add_of_lt hd
    exact JsonValue.string _ t chars ht
  | emptyArray d w hw =>
    obtain ⟨e, rfl⟩ := Nat.exists_eq_add_of_lt hd
    exact JsonValue.emptyArray _ w hw
  | array d es hne hws _ ih =>
    obtain ⟨e, rfl⟩ := Nat.exists_eq_add_of_lt hd
    exact JsonValue.array _ es hne hws fun x hx => ih x hx (by omega)
  | emptyObject d w hw =>
    obtain ⟨e, rfl⟩ := Nat.exists_eq_add_of_lt hd
    exact JsonValue.emptyObject _ w hw
  | object d ms hne hws hkeys _ ih =>
    obtain ⟨e, rfl⟩ := Nat.exists_eq_add_of_lt hd
    exact JsonValue.object _ ms hne hws hkeys fun x hx => ih x hx (by omega)

theorem Number.first {t : Bytes} (h : Number t) :
    ∃ b rest, t = b :: rest ∧ (b = 0x2d ∨ isDigit b = true) := by
  obtain ⟨minus, int, frac, exp, hminus, hint, -, -, rfl⟩ := h
  rcases hminus with rfl | rfl
  · cases hint with
    | zero => exact ⟨0x30, frac ++ exp, rfl, Or.inr (by decide)⟩
    | digits d ds hd _ _ => exact ⟨d, ds ++ (frac ++ exp), rfl, Or.inr hd⟩
  · exact ⟨0x2d, int ++ (frac ++ exp), rfl, Or.inl rfl⟩

/-- The first byte of a value, which is no space. -/
def firstBytes (b : UInt8) : Bool :=
  b == 0x22 || b == 0x7b || b == 0x5b || b == 0x2d || isDigit b || b == 0x74 || b == 0x66 || b == 0x6e

theorem JsonValue.first {D : Meaning V} {d : ℕ} {t : Bytes} {v : V} (h : JsonValue D d t v) :
    ∃ b rest, t = b :: rest ∧ firstBytes b = Bool.true := by
  cases h with
  | null => exact ⟨_, _, rfl, by decide⟩
  | true => exact ⟨_, _, rfl, by decide⟩
  | false => exact ⟨_, _, rfl, by decide⟩
  | number d t ht =>
    obtain ⟨b, rest, rfl, hb⟩ := ht.first
    refine ⟨b, rest, rfl, ?_⟩
    rcases hb with rfl | hb
    · decide
    · simp [firstBytes, hb]
  | string d t chars ht =>
    obtain ⟨parts, -, rfl, -⟩ := ht
    exact ⟨_, _, rfl, by decide⟩
  | emptyArray => exact ⟨_, _, rfl, by decide⟩
  | array => exact ⟨_, _, rfl, by decide⟩
  | emptyObject => exact ⟨_, _, rfl, by decide⟩
  | object => exact ⟨_, _, rfl, by decide⟩

theorem firstBytes_not_ws {b : UInt8} (h : firstBytes b = true) : isWs b = false := by
  simp only [firstBytes, isDigit, Bool.or_eq_true, beq_iff_eq, Bool.and_eq_true,
    decide_eq_true_eq, UInt8.le_iff_toNat_le, ← UInt8.toNat_inj] at h
  simp only [isWs, Bool.or_eq_false_iff, beq_eq_false_iff_ne, ne_eq, ← UInt8.toNat_inj]
  simp at h ⊢
  omega

end JsonGrammar
