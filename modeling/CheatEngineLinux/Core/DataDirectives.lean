import CheatEngineLinux.Core.ScriptText
import CheatEngineLinux.Scanner.ScanConfig

/-!
# Data directives

`db`, `dw`, `dd` and `dq` (`src/core/autoasm.cpp`): the bytes that `parseDataDirective` emits, and
the size that `parseStructDataSize` counts for a member of a STRUCT.  `std::from_chars` for floating
point is a parameter, from the text to the bits.

* `splitDataValues`, `evalDataToken`, `tokenBytes`, `parseDataDirective`: emitting.
* `tokenSize`, `parseStructDataSize`: counting.

* **PROVED `parseStructDataSize_eq`**: both cut the operands into the same tokens.
* **PROVED `struct_size_iff`**: the size is the number of emitted bytes if and only if every cast
  has the width of its directive.
-/

namespace CheatEngine.AutoAssembler

open Numerals (digitValue)

/-! ### Tokens -/

def endValue (current : Text) (values : List Text) : List Text :=
  if (trim current).isEmpty then values else trim current :: values

/-- The values from a character on, with `quote` and `current` as they stand there. -/
def splitFrom (quote : Option Char) (current : Text) : Text → List Text
  | [] => endValue current []
  | c :: rest =>
    if isQuote c && (quote.isNone || quote == some c) then
      splitFrom (if quote == some c then none else some c) (current ++ [c]) rest
    else if quote.isNone && (c == ',' || isSpace c) then
      if (trim current).isEmpty then splitFrom quote current rest
      else trim current :: splitFrom quote [] rest
    else splitFrom quote (current ++ [c]) rest

def splitDataValues (data : Text) : List Text := splitFrom none [] data

/-! ### Numbers -/

/-- `std::from_chars` of a text that must be read to its end. -/
def fromChars (base : ℕ) (s : Text) : Option UInt64 :=
  if s.isEmpty then none
  else ((s.foldlM (fun value c =>
    ((digitValue c).filter (· < base)).map fun d => value * base + d) 0).filter
      (· < 2 ^ 64)).map UInt64.ofNat

/-- `std::swap(tok[at], tok[at + 1])` where `"#" ++ sign` is found first. -/
def swapSign (sign : Char) : Text → Option Text
  | '#' :: c :: rest =>
    if c = sign then some (c :: '#' :: rest) else (swapSign sign (c :: rest)).map ('#' :: ·)
  | c :: rest => (swapSign sign rest).map (c :: ·)
  | [] => none

/-- `"#-5"` is a negative decimal: the sign moves in front of the `#`, as often as there is one. -/
def moveSigns : ℕ → Text → Text
  | 0, tok => tok
  | turns + 1, tok =>
    match (swapSign '-' tok).or (swapSign '+' tok) with
    | some tok => moveSigns turns tok
    | none => tok

def isSign (c : Char) : Bool := c == '+' || c == '-'

/-- One term: hexadecimal, or decimal after a `#`. -/
def evalTerm (term : Text) : Option UInt64 :=
  match term with
  | '#' :: digits => fromChars 10 digits
  | '0' :: 'x' :: c :: rest => fromChars 16 (c :: rest)
  | '0' :: 'X' :: c :: rest => fromChars 16 (c :: rest)
  | _ => fromChars 16 term

/-- `while (i < tok.size())`, with one turn for each term. -/
def evalTerms : ℕ → Bool → UInt64 → Text → Option UInt64
  | 0, _, acc, _ => some acc
  | turns + 1, sub, acc, tok =>
    if tok.isEmpty then some acc
    else do
      let v ← evalTerm (trim (tok.takeWhile fun c => !isSign c))
      let acc := if sub then acc - v else acc + v
      match tok.dropWhile fun c => !isSign c with
      | [] => some acc
      | sign :: rest => evalTerms turns (sign == '-') acc rest

def evalDataToken (tok : Text) : Option UInt64 :=
  if tok.isEmpty then none
  else
    match moveSigns (tok.length * tok.length) tok with
    | [] => none
    | c :: rest =>
      if isSign c then evalTerms tok.length (c == '-') 0 rest
      else evalTerms tok.length false 0 (c :: rest)

/-! ### Emitting -/

inductive DataOp
  | db | dw | dd | dq
  deriving Repr, DecidableEq

def DataOp.name : DataOp → Text
  | db => "DB".toList
  | dw => "DW".toList
  | dd => "DD".toList
  | dq => "DQ".toList

def DataOp.width : DataOp → ℕ
  | db => 1
  | dw => 2
  | dd => 4
  | dq => 8

/-- `std::from_chars` for floating point, as the bits of the value. -/
structure FloatChars where
  float : Text → Option UInt32
  double : Text → Option UInt64

/-- `(float)` or `(double)` in front of a value. -/
inductive Cast
  | float | double
  deriving Repr, DecidableEq

def Cast.width : Cast → ℕ
  | float => 4
  | double => 8

def Cast.text : Cast → Text
  | float => "(float)".toList
  | double => "(double)".toList

def castOf (token : Text) : Option Cast :=
  if startsWith (toLower token) Cast.float.text then some .float
  else if startsWith (toLower token) Cast.double.text then some .double
  else none

/-- `appendValue` -/
def appendValue (order : ByteOrder) (value : UInt64) (count : ℕ) : List UInt8 :=
  (List.range count).map fun i =>
    let shift := if order = .big then count - 1 - i else i
    (value >>> UInt64.ofNat (8 * shift)).toUInt8

def DataOp.maxValue (op : DataOp) : UInt64 :=
  if op.width = 8 then 0xffffffffffffffff else (1 <<< UInt64.ofNat (op.width * 8)) - 1

/-- `bits` of the number after a cast; a comma stands for the point. -/
def castBits (floats : FloatChars) (cast : Cast) (token : Text) : Option UInt64 :=
  let num := (trim (token.drop cast.text.length)).map fun c => if c = ',' then '.' else c
  match cast with
  | .float => (floats.float num).map UInt32.toUInt64
  | .double => floats.double num

/-- A negative value is its two's complement in the width. -/
def negativeFits (op : DataOp) (value : UInt64) : Bool :=
  decide (op.width < 8) && decide (value.toInt64 < 0) &&
    decide (-(2 ^ (op.width * 8 - 1) : ℤ) ≤ value.toInt64.toInt)

def tokenBytes (floats : FloatChars) (op : DataOp) (order : ByteOrder) (token : Text) :
    Except Text (List UInt8) :=
  if isQuoted token then
    if op.width ≠ 1 then .error (op.name ++ " string literal is only supported for DB".toList)
    else .ok ((stripOptionalQuotes token).map fun c => UInt8.ofNat c.toNat)
  else
    match castOf token with
    | some cast =>
      match castBits floats cast token with
      | none => .error ("Invalid ".toList ++ op.name ++
          (if cast = .float then " float value: ".toList else " double value: ".toList) ++ token)
      | some bits => .ok (appendValue order bits cast.width)
    | none =>
      match evalDataToken token with
      | none => .error ("Invalid ".toList ++ op.name ++ " value: ".toList ++ token)
      | some value =>
        if value > op.maxValue ∧ negativeFits op value = false then
          .error (op.name ++ " value out of range: ".toList ++ token)
        else .ok (appendValue order (value &&& op.maxValue) op.width)

def valuesBytes (floats : FloatChars) (op : DataOp) (order : ByteOrder) :
    List Text → Except Text (List UInt8)
  | [] => .ok []
  | token :: values => do
    let bytes ← tokenBytes floats op order (trim token)
    let rest ← valuesBytes floats op order values
    return bytes ++ rest

def parseDataDirective (floats : FloatChars) (op : DataOp) (data : Text) (order : ByteOrder) :
    Except Text (List UInt8) :=
  if op.width > 1 ∧ order = .unknown then .error "Target byte order is unknown".toList
  else if (splitDataValues data).isEmpty then
    .error (op.name ++ " requires at least one value".toList)
  else valuesBytes floats op order (splitDataValues data)

/-! ### Counting -/

/-- The size of one value of a STRUCT member. -/
def tokenSize (op : DataOp) (token : Text) : Except Text ℕ :=
  if isQuoted token then
    if op.width ≠ 1 then .error "STRUCT string literal is only supported for DB".toList
    else .ok (stripOptionalQuotes token).length
  else .ok op.width

def valuesSize (op : DataOp) : List Text → Except Text ℕ
  | [] => .ok 0
  | token :: values => do
    let size ← tokenSize op (trim token)
    let rest ← valuesSize op values
    return size + rest

/-- The directive that a line starts with. -/
def dataOp (upper : Text) : Option DataOp :=
  if startsWith upper "DB ".toList then some .db
  else if startsWith upper "DW ".toList then some .dw
  else if startsWith upper "DD ".toList then some .dd
  else if startsWith upper "DQ ".toList then some .dq
  else none

def parseStructDataSize (line : Text) : Except Text ℕ :=
  let trimmed := trim line
  let upper := toUpper trimmed
  match dataOp upper with
  | some op =>
    let values := splitDataValues (trimmed.drop 3)
    if values.isEmpty then .error "STRUCT data directive requires at least one value".toList
    else valuesSize op values
  | none =>
    if startsWith upper "DS ".toList then
      let text := stripOptionalQuotes (trimmed.drop 3)
      if text.isEmpty then .error "STRUCT DS requires a string".toList else .ok text.length
    else .error []

/-! ### The same tokens -/

theorem splitFrom_blanks {blanks : Text} (h : ∀ c ∈ blanks, isBlank c = true)
    (quote : Option Char) (current : Text) :
    splitFrom quote current blanks = endValue current [] := by
  induction blanks generalizing current with
  | nil => rfl
  | cons c blanks ih =>
    have hc := h c List.mem_cons_self
    have ih := ih fun c hc => h c (List.mem_cons_of_mem _ hc)
    have hquote : isQuote c = false := by
      by_contra hquote
      rw [isQuote_not_blank (by simpa using hquote)] at hc
      cases hc
    unfold splitFrom
    rw [hquote, Bool.false_and, if_neg Bool.false_ne_true]
    split
    · split
      · exact ih current
      · rename_i htrim
        rw [ih, endValue, endValue, if_neg htrim]
        rfl
    · rw [ih, endValue, endValue,
        trim_append_blanks fun b hb => by rwa [List.mem_singleton.mp hb]]

theorem splitFrom_append_blanks {blanks : Text} (h : ∀ c ∈ blanks, isBlank c = true)
    (quote : Option Char) (current data : Text) :
    splitFrom quote current (data ++ blanks) = splitFrom quote current data := by
  induction data generalizing quote current with
  | nil => exact splitFrom_blanks h quote current
  | cons c data ih =>
    rw [List.cons_append, splitFrom, splitFrom]
    split
    · exact ih _ _
    · split
      · split
        · exact ih _ _
        · rw [ih]
      · exact ih _ _

theorem splitDataValues_append_blanks {blanks : Text} (h : ∀ c ∈ blanks, isBlank c = true)
    (data : Text) : splitDataValues (data ++ blanks) = splitDataValues data :=
  splitFrom_append_blanks h _ _ _

theorem splitDataValues_blank {data : Text} (h : ∀ c ∈ data, isBlank c = true) :
    splitDataValues data = [] :=
  splitDataValues_append_blanks h []

/-! ### A member as a line -/

theorem toUpper_append (s t : Text) : toUpper (s ++ t) = toUpper s ++ toUpper t :=
  List.map_append

/-- A directive in either case. -/
def DataOp.Written (op : DataOp) (text : Text) : Prop := toUpper text = op.name

theorem DataOp.Written.cons {op : DataOp} {text : Text} (h : op.Written text) :
    ∃ a b, text = [a, b] ∧ isBlank a = false := by
  have hlength : text.length = 2 := by
    have := congrArg List.length h
    rw [toUpper, List.length_map] at this
    rw [this]
    cases op <;> rfl
  obtain ⟨a, b, rfl⟩ := List.length_eq_two.mp hlength
  refine ⟨a, b, rfl, ?_⟩
  by_contra hblank
  have ha : a.toUpper = 'D' := by
    have := congrArg List.head? h
    cases op <;> exact Option.some.inj this
  simp only [isBlank, Bool.not_eq_false, Bool.or_eq_true, beq_iff_eq] at hblank
  rcases hblank with ((rfl | rfl) | rfl) | rfl <;> exact absurd ha (by decide)

theorem dataOp_written {op : DataOp} (rest : Text) : dataOp (op.name ++ ' ' :: rest) = some op := by
  cases op <;> rfl

/-- A line that starts with a directive has the values of its operands counted. -/
theorem parseStructDataSize_eq {op : DataOp} {text : Text} (h : op.Written text) {data : Text}
    (hvalues : splitDataValues data ≠ []) :
    parseStructDataSize (text ++ ' ' :: data) = valuesSize op (splitDataValues data) := by
  obtain ⟨a, b, rfl, ha⟩ := h.cons
  obtain ⟨blanks, hblanks, hline⟩ := trim_cons ha (b :: ' ' :: data)
  have hkept : ∃ kept, trim (a :: b :: ' ' :: data) = a :: b :: ' ' :: kept ∧
      data = kept ++ blanks := by
    have hdata : ¬ ∀ c ∈ data, isBlank c = true := fun h => hvalues (splitDataValues_blank h)
    rcases htrim : trim (a :: b :: ' ' :: data) with _ | ⟨t₁, _ | ⟨t₂, _ | ⟨t₃, kept⟩⟩⟩
    all_goals rw [htrim] at hline
    all_goals simp only [List.nil_append, List.cons_append, List.cons.injEq] at hline
    · exact absurd (fun c hc => hblanks c (by rw [← hline]; simp [hc])) hdata
    · exact absurd (fun c hc => hblanks c (by rw [← hline.2]; simp [hc])) hdata
    · exact absurd (fun c hc => hblanks c (by rw [← hline.2.2]; simp [hc])) hdata
    · obtain ⟨rfl, rfl, rfl, rfl⟩ := hline
      exact ⟨kept, rfl, rfl⟩
  obtain ⟨kept, hkept, rfl⟩ := hkept
  unfold parseStructDataSize
  rw [List.cons_append, List.cons_append, List.nil_append, hkept]
  have hop : dataOp (toUpper (a :: b :: ' ' :: kept)) = some op := by
    have := toUpper_append [a, b] (' ' :: kept)
    rw [h] at this
    exact (congrArg dataOp this).trans (dataOp_written _)
  simp only [hop]
  rw [splitDataValues_append_blanks hblanks] at hvalues ⊢
  rw [if_neg (by simpa using hvalues)]
  rfl

/-! ### Emitted and counted -/

variable {floats : FloatChars} {op : DataOp} {order : ByteOrder}

theorem bind_eq_ok {ε α β : Type} {m : Except ε α} {f : α → Except ε β} {y : β}
    (h : m >>= f = .ok y) : ∃ x, m = .ok x ∧ f x = .ok y := by
  cases m with
  | error e => cases h
  | ok x => exact ⟨x, rfl, h⟩

@[simp] theorem appendValue_length (order : ByteOrder) (value : UInt64) (count : ℕ) :
    (appendValue order value count).length = count := by
  simp [appendValue]

theorem castOf_quoted {token : Text} (h : isQuoted token = true) : castOf token = none := by
  cases token with
  | nil => rfl
  | cons c rest =>
    simp only [isQuoted, isQuote, Bool.and_eq_true, Bool.or_eq_true, beq_iff_eq] at h
    rcases h.1 with rfl | rfl <;> rfl

theorem tokenSize_of_bytes {token : Text} {bytes : List UInt8}
    (h : tokenBytes floats op order token = .ok bytes) :
    ∃ size, tokenSize op token = .ok size ∧
      match castOf token with
      | some cast => bytes.length = cast.width ∧ size = op.width
      | none => size = bytes.length := by
  unfold tokenBytes at h
  unfold tokenSize
  split at h
  · rename_i hquoted
    rw [if_pos hquoted, castOf_quoted hquoted]
    split at h
    · cases h
    · rename_i hwidth
      cases h
      exact ⟨_, if_neg hwidth, by rw [List.length_map]⟩
  · rename_i hquoted
    rw [if_neg hquoted]
    refine ⟨_, rfl, ?_⟩
    split at h
    · rename_i cast hcast
      split at h
      · cases h
      · cases h
        exact ⟨appendValue_length _ _ _, rfl⟩
    · split at h
      · cases h
      · split at h
        · cases h
        · cases h
          exact (appendValue_length _ _ _).symm

def FitsDirective (op : DataOp) (token : Text) : Prop :=
  ∀ cast, castOf token = some cast → cast.width = op.width

instance (op : DataOp) : DecidablePred (FitsDirective op) := fun token =>
  inferInstanceAs (Decidable (∀ cast ∈ castOf token, cast.width = op.width))

/-- For all values: the errors of single casts do not make up for one another, since a directive
counts every cast too short or none of them. -/
theorem valuesSize_of_bytes {values : List Text} {bytes : List UInt8}
    (h : valuesBytes floats op order values = .ok bytes) :
    ∃ size, valuesSize op values = .ok size ∧
      (op = .dq → bytes.length ≤ size) ∧ (op ≠ .dq → size ≤ bytes.length) ∧
      (size = bytes.length ↔ ∀ token ∈ values, FitsDirective op (trim token)) := by
  induction values generalizing bytes with
  | nil =>
    cases h
    exact ⟨0, rfl, fun _ => Nat.le_refl _, fun _ => Nat.le_refl _, by simp⟩
  | cons token values ih =>
    obtain ⟨first, hfirst, h⟩ := bind_eq_ok h
    obtain ⟨rest, hrest, h⟩ := bind_eq_ok h
    cases h
    obtain ⟨n, hn, hcast⟩ := tokenSize_of_bytes hfirst
    obtain ⟨m, hm, hle, hge, hiff⟩ := ih hrest
    refine ⟨n + m, by rw [valuesSize, hn, hm]; rfl, ?_⟩
    have hone : (op = .dq → first.length ≤ n) ∧ (op ≠ .dq → n ≤ first.length) ∧
        (n = first.length ↔ FitsDirective op (trim token)) := by
      unfold FitsDirective
      cases hc : castOf (trim token) with
      | none =>
        rw [hc] at hcast
        subst hcast
        simp
      | some cast =>
        rw [hc] at hcast
        obtain ⟨hlength, rfl⟩ := hcast
        rw [hlength]
        cases op <;> cases cast <;> simp [DataOp.width, Cast.width]
    rw [List.length_append, List.forall_mem_cons, ← hiff, ← hone.2.2]
    by_cases hop : op = .dq
    · have h₁ := hle hop
      have h₂ := hone.1 hop
      exact ⟨fun _ => by omega, fun h => absurd hop h, by omega⟩
    · have h₁ := hge hop
      have h₂ := hone.2.1 hop
      exact ⟨fun h => absurd h hop, fun _ => by omega, by omega⟩

/-- **Struct sizes agree with emitted data** if and only if every cast among the operands has the
width of the directive. -/
theorem struct_size_iff {text data : Text} (hop : op.Written text) {bytes : List UInt8}
    (h : parseDataDirective floats op data order = .ok bytes) :
    parseStructDataSize (text ++ ' ' :: data) = .ok bytes.length ↔
      ∀ token ∈ splitDataValues data, FitsDirective op (trim token) := by
  unfold parseDataDirective at h
  split at h
  · cases h
  · split at h
    · cases h
    · rename_i hvalues
      obtain ⟨size, hsize, -, -, hiff⟩ := valuesSize_of_bytes h
      rw [parseStructDataSize_eq hop (by simpa using hvalues), hsize, ← hiff]
      exact ⟨fun h => Except.ok.inj h, fun h => congrArg _ h⟩

/-- What `std::from_chars` makes of `1`. -/
def readsOne : FloatChars where
  float num := if num = ['1'] then some 0x3f800000 else none
  double num := if num = ['1'] then some 0x3ff0000000000000 else none

/-- A cast of the right width among numbers. -/
theorem struct_size_float : parseStructDataSize "dd (float)1, #-5 8+8".toList = .ok 12 :=
  (@struct_size_iff readsOne .dd .little "dd".toList "(float)1, #-5 8+8".toList rfl
    [0, 0, 0x80, 0x3f, 0xfb, 0xff, 0xff, 0xff, 0x10, 0, 0, 0] (by decide)).mpr (by decide)

/-- A double in a list of double words is emitted with eight bytes and counted as four. -/
theorem struct_size_double : ¬ ∀ (floats : FloatChars) (op : DataOp) (order : ByteOrder)
    (text data : Text) (bytes : List UInt8), op.Written text →
      parseDataDirective floats op data order = .ok bytes →
      parseStructDataSize (text ++ ' ' :: data) = .ok bytes.length := by
  intro h
  have hsize := h readsOne .dd .little "dd".toList "(double)1".toList
    [0, 0, 0, 0, 0, 0, 0xf0, 0x3f] rfl (by decide)
  exact absurd hsize (by decide)

end CheatEngine.AutoAssembler
