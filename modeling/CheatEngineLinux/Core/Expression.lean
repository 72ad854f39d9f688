import CheatEngineLinux.Core.PointerText

/-!
# Address expressions

`core/expression.cpp`: sums and products of numbers, symbols, module names and dereferences.  The
parser is written on the text that is left; the levels that `kMaxDepth` leaves are an argument,
and the length of the text is the fuel of its loops.

* `parse_levels` — **PROVED**: a text needs only as many levels as its brackets nest.
-/

namespace CheatEngine.Expression

open JsonGrammar (Bytes)
open CtFile (isBlank)

/-! ### The target -/

/-- What the parser asks of a `ProcessHandle`. -/
structure Process where
  /-- Names and bases. -/
  modules : List (Bytes × UInt64)
  /-- `pointerWidth()` -/
  pointerWidth : ℕ
  is64bit : Bool
  pointerWidthAt : UInt64 → ℕ
  byteOrderAt : UInt64 → ByteOrder
  /-- The bytes that were read, `none` for an error. -/
  read : UInt64 → ℕ → Option Bytes

/-- `ExpressionParser`; without a process there are no modules, and a symbol that is unknown has
the address 0. -/
structure ExpressionParser where
  proc : Option Process
  lookup : Bytes → UInt64

def isXDigit (b : UInt8) : Bool :=
  (0x30 ≤ b && b ≤ 0x39) || (0x61 ≤ b && b ≤ 0x66) || (0x41 ≤ b && b ≤ 0x46)

def isDigit (b : UInt8) : Bool := 0x30 ≤ b && b ≤ 0x39

/-- `std::tolower` in the C locale. -/
def toLower (b : UInt8) : UInt8 := if 0x41 ≤ b && b ≤ 0x5a then b + 0x20 else b

def sameNameIgnoringCase (a b : Bytes) : Bool := a.map toLower == b.map toLower

/-- `moduleBase`: an exact match first. -/
def moduleBase (modules : List (Bytes × UInt64)) (name : Bytes) : Option UInt64 :=
  match modules.find? (·.1 == name) with
  | some m => some m.2
  | none => (modules.find? (sameNameIgnoringCase ·.1 name)).map Prod.snd

/-- `number`, for the bases 10 and 16. -/
def number (text : Bytes) (base : ℕ) : Option UInt64 :=
  if text.isEmpty then none
  else if text.all (if base = 16 then isXDigit else isDigit) then
    if CtFile.readDigits base text ≤ CtFile.uint64Max then
      some (UInt64.ofNat (CtFile.readDigits base text))
    else none
  else none

/-- `decodeTargetUnsigned` -/
def decodeTargetUnsigned (bytes : Bytes) (order : ByteOrder) : Option UInt64 :=
  if bytes.isEmpty || bytes.length > 8 then none
  else
    match order with
    | .unknown => none
    | .little => some (bytes.reverse.foldl (fun value b => value <<< 8 ||| b.toUInt64) 0)
    | .big => some (bytes.foldl (fun value b => value <<< 8 ||| b.toUInt64) 0)

def readPointer (p : Process) (address : UInt64) : Option UInt64 :=
  let ptrSize := p.pointerWidthAt address
  if ptrSize = 4 ∨ ptrSize = 8 then
    match p.read address ptrSize with
    | some bytes =>
      if bytes.length = ptrSize then decodeTargetUnsigned bytes (p.byteOrderAt address) else none
    | none => none
  else none

/-- `trim` -/
def trim (s : Bytes) : Bytes := (s.dropWhile isBlank).rdropWhile isBlank

def skipSpaces (s : Bytes) : Bytes := s.dropWhile isBlank

/-- The text up to the bracket that closes `depth` more than one, and the text after it. -/
def closing : ℕ → Bytes → Option (Bytes × Bytes)
  | _, [] => none
  | depth, c :: s =>
    if c == 0x5b then (closing (depth + 1) s).map fun r => (c :: r.1, r.2)
    else if c == 0x5d then
      match depth with
      | 0 => some ([], s)
      | depth + 1 => (closing depth s).map fun r => (c :: r.1, r.2)
    else (closing depth s).map fun r => (c :: r.1, r.2)

def endsToken (b : UInt8) : Bool := b == 0x2b || b == 0x2d || b == 0x2a || isBlank b

section parser

variable (e : ExpressionParser)

def modules : List (Bytes × UInt64) := (e.proc.map Process.modules).getD []

/-- `resolveToken` -/
def resolveToken (token : Bytes) : Option UInt64 :=
  match token with
  | [] => none
  | c :: rest =>
    if (c == 0x22 || c == 0x27) && !rest.isEmpty && rest.getLast? == some c then
      let name := rest.dropLast
      if e.lookup name ≠ 0 then some (e.lookup name) else moduleBase (modules e) name
    else if c == 0x30 && (rest.head? == some 0x78 || rest.head? == some 0x58) then
      number rest.tail 16
    else if c == 0x23 then number rest 10
    else
      let allHex := token.all isXDigit
      if allHex && (!rest.isEmpty || token.all isDigit) then number token 16
      else if e.lookup token ≠ 0 then some (e.lookup token)
      else
        match moduleBase (modules e) token with
        | some base => some base
        | none => if allHex then number token 16 else none

/-- `mixedWidth_` -/
def mixedWidth : Bool := e.proc.any fun p => p.pointerWidth == 4 && p.is64bit

/-- `*mask_` -/
def mask : UInt64 :=
  if e.proc.any (fun p => p.pointerWidth == 4 && !p.is64bit) then 0xffffffff else 0xffffffffffffffff

/-- `combine` -/
def combine (left right : UInt64) (op : UInt8) : UInt64 :=
  let value := (if op == 0x2d then left - right else if op == 0x2a then left * right
    else left + right) &&& mask e
  if mixedWidth e ∧ left ≤ 0xffffffff ∧ right ≤ 0xffffffff ∧ value > 0xffffffff then
    value &&& 0xffffffff
  else value

/-- The longest module name that stands here as a whole token. -/
def moduleLength (s : Bytes) (modules : List (Bytes × UInt64)) : ℕ :=
  modules.foldl (fun modLen m =>
    if m.1.isEmpty || m.1.length ≤ modLen || m.1.length > s.length ||
        !sameNameIgnoringCase (s.take m.1.length) m.1 then modLen
    else if (s.drop m.1.length).head?.all endsToken then m.1.length else modLen) 0

/-- The ends a symbol with `*` in it is tried at: the whole span, then each `*` from the right
but the first. -/
def spanEnds (span : Bytes) : List ℕ :=
  span.length :: ((List.range span.length).filter fun i =>
    span[i]? == some 0x2a && (span.take i).contains 0x2a).reverse

/-- `plainNumber`: the text up to the next operator or blank. -/
def plainNumber (s : Bytes) : Bool :=
  let head := s.takeWhile (!endsToken ·)
  let digits := if head.take 2 == [0x30, 0x78] || head.take 2 == [0x30, 0x58] then head.drop 2 else head
  !head.isEmpty && (head.head? == some 0x23 || digits.all isXDigit)

/-- A symbol that holds `*`. -/
def starred (s : Bytes) : Option (UInt64 × Bytes) :=
  let span := s.takeWhile fun b => b != 0x2b && b != 0x2d
  if !plainNumber s && span.contains 0x2a then
    (spanEnds span).findSome? fun stop =>
      (resolveToken e (trim (s.take stop))).map fun v => (v, s.drop stop)
  else none

/-- The operand of a name or a number. -/
def named (s : Bytes) : Option (UInt64 × Bytes) :=
  let modLen := moduleLength s (if plainNumber s then [] else modules e)
  if modLen ≠ 0 then (resolveToken e (trim (s.take modLen))).map fun v => (v, s.drop modLen)
  else
    match starred e s with
    | some r => some r
    | none =>
      let token := s.takeWhile fun b => b != 0x2b && b != 0x2d && b != 0x2a
      (resolveToken e (trim token)).map fun v => (v, s.drop token.length)

variable (parse : Bytes → Option UInt64)

/-- `factor`, with the parser for what stands in brackets. -/
def factor (s : Bytes) : Option (UInt64 × Bytes) :=
  match skipSpaces s with
  | [] => none
  | c :: rest =>
    if c == 0x2b || c == 0x2d || c == 0x2a then none
    else if c == 0x5b then
      match closing 0 rest, e.proc with
      | some (inner, after), some p =>
        (parse inner).bind fun address => (readPointer p address).map fun ptr => (ptr, after)
      | _, _ => none
    else if c == 0x22 || c == 0x27 then
      let name := rest.takeWhile (· != c)
      if name.length = rest.length then none
      else (resolveToken e (c :: (name ++ [c]))).map fun v => (v, rest.drop (name.length + 1))
    else named e (c :: rest)

/-- The loop of `term`, with the product so far. -/
def termLoop : ℕ → UInt64 → Bytes → Option (UInt64 × Bytes)
  | 0, _, _ => none
  | fuel + 1, value, s =>
    match skipSpaces s with
    | 0x2a :: rest =>
      (factor e parse rest).bind fun r => termLoop fuel (combine e value r.1 0x2a) r.2
    | _ => some (value, s)

/-- `term` -/
def term (s : Bytes) : Option (UInt64 × Bytes) :=
  (factor e parse s).bind fun r => termLoop e parse (r.2.length + 1) r.1 r.2

/-- The loop of `parseImpl`, with `result` and `op`. -/
def sumLoop : ℕ → UInt64 → UInt8 → Bytes → Option UInt64
  | 0, _, _, _ => none
  | fuel + 1, result, op, s =>
    (term e parse s).bind fun r =>
      let result := combine e result r.1 op
      match skipSpaces r.2 with
      | [] => some result
      | c :: rest =>
        if c == 0x2b || c == 0x2d then
          if rest.isEmpty then none else sumLoop fuel result c rest
        else none

end parser

/-- `parseImpl` -/
def parseImpl (e : ExpressionParser) : ℕ → Bytes → Option UInt64
  | 0, _ => none
  | levels + 1, expr =>
    match trim expr with
    | [] => none
    | c :: rest =>
      if c == 0x2b || c == 0x2d then sumLoop e (parseImpl e levels) (rest.length + 1) 0 c rest
      else sumLoop e (parseImpl e levels) (rest.length + 2) 0 0x2b (c :: rest)

def kMaxDepth : ℕ := 64

/-- `ExpressionParser::parse` -/
def parse (e : ExpressionParser) (expr : Bytes) : Option UInt64 := parseImpl e (kMaxDepth + 1) expr

/-! ### Brackets -/

/-- The brackets that are open after a text, `none` where one closes that is not open. -/
def brackets : ℕ → Bytes → Option ℕ
  | depth, [] => some depth
  | depth, c :: s =>
    if c == 0x5b then brackets (depth + 1) s
    else if c == 0x5d then
      match depth with
      | 0 => none
      | depth + 1 => brackets depth s
    else brackets depth s

/-- The brackets of a text match. -/
def Balanced (s : Bytes) : Prop := brackets 0 s = some 0

instance (s : Bytes) : Decidable (Balanced s) := inferInstanceAs (Decidable (_ = _))

/-- The most brackets that are open at once. -/
def nesting : ℕ → Bytes → ℕ
  | depth, [] => depth
  | depth, c :: s =>
    if c == 0x5b then max depth (nesting (depth + 1) s)
    else if c == 0x5d then max depth (nesting (depth - 1) s)
    else max depth (nesting depth s)

theorem brackets_append (depth : ℕ) (s t : Bytes) :
    brackets depth (s ++ t) = (brackets depth s).bind fun d => brackets d t := by
  induction s generalizing depth with
  | nil => rfl
  | cons c s ih =>
    simp only [List.cons_append, brackets]
    split
    · exact ih (depth + 1)
    · split
      · cases depth with
        | zero => rfl
        | succ depth => exact ih depth
      · exact ih depth

theorem closing_append {depth depth' : ℕ} {s : Bytes} (h : brackets depth s = some depth')
    (t : Bytes) :
    closing depth (s ++ t) = (closing depth' t).map fun r => (s ++ r.1, r.2) := by
  induction s generalizing depth with
  | nil =>
    cases h
    simp
  | cons c s ih =>
    simp only [brackets] at h
    simp only [List.cons_append, closing]
    split at h
    · next hopen =>
      rw [if_pos hopen, ih h, Option.map_map]
      rfl
    · next hopen =>
      rw [if_neg hopen]
      split at h
      · next hclose =>
        rw [if_pos hclose]
        cases depth with
        | zero => cases h
        | succ depth =>
          dsimp only at h ⊢
          rw [ih h, Option.map_map]
          rfl
      · next hclose =>
        rw [if_neg hclose, ih h, Option.map_map]
        rfl

theorem closing_balanced {s : Bytes} (h : Balanced s) (t : Bytes) :
    closing 0 (s ++ 0x5d :: t) = some (s, t) := by
  rw [closing_append h]
  simp [closing]

theorem le_nesting (depth : ℕ) (s : Bytes) : depth ≤ nesting depth s := by
  cases s with
  | nil => exact Nat.le_refl _
  | cons c s =>
    simp only [nesting]
    split
    · exact Nat.le_max_left _ _
    · split <;> exact Nat.le_max_left _ _

theorem nesting_mono {d d' : ℕ} (h : d ≤ d') (s : Bytes) : nesting d s ≤ nesting d' s := by
  induction s generalizing d d' with
  | nil => exact h
  | cons c s ih =>
    simp only [nesting]
    split
    · exact max_le_max h (ih (Nat.succ_le_succ h))
    · split
      · exact max_le_max h (ih (Nat.sub_le_sub_right h 1))
      · exact max_le_max h (ih h)

theorem nesting_suffix {s t : Bytes} (h : t <:+ s) : nesting 0 t ≤ nesting 0 s := by
  obtain ⟨front, rfl⟩ := h
  suffices hall : ∀ d, nesting 0 t ≤ nesting d (front ++ t) from hall 0
  induction front with
  | nil => exact fun d => nesting_mono (Nat.zero_le d) t
  | cons c front ih =>
    intro d
    simp only [List.cons_append, nesting]
    split
    · exact Nat.le_trans (ih _) (Nat.le_max_right _ _)
    · split <;> exact Nat.le_trans (ih _) (Nat.le_max_right _ _)

theorem nesting_start {s t : Bytes} (d : ℕ) (h : t <+: s) : nesting d t ≤ nesting d s := by
  obtain ⟨back, rfl⟩ := h
  induction t generalizing d with
  | nil => exact le_nesting d _
  | cons c t ih =>
    simp only [List.cons_append, nesting]
    split
    · exact max_le_max (Nat.le_refl _) (ih _)
    · split <;> exact max_le_max (Nat.le_refl _) (ih _)

theorem nesting_closing {depth : ℕ} {s inner after : Bytes}
    (h : closing depth s = some (inner, after)) (k : ℕ) :
    nesting depth inner + k ≤ nesting (depth + k) s := by
  induction s generalizing depth inner with
  | nil => cases h
  | cons c s ih =>
    simp only [closing] at h
    split at h
    · next hopen =>
      obtain ⟨r, hr, heq⟩ := Option.map_eq_some_iff.mp h
      cases heq
      have hstep := ih hr
      rw [nesting, nesting, if_pos hopen, if_pos hopen, Nat.add_right_comm]
      omega
    · next hopen =>
      split at h
      · next hclose =>
        cases depth with
        | zero =>
          cases h
          rw [nesting]
          exact le_nesting _ _
        | succ depth =>
          obtain ⟨r, hr, heq⟩ := Option.map_eq_some_iff.mp h
          cases heq
          have hstep := ih hr
          rw [nesting, nesting, if_neg hopen, if_neg hopen, if_pos hclose, if_pos hclose,
            Nat.add_right_comm, Nat.add_sub_cancel, Nat.add_sub_cancel]
          omega
      · next hclose =>
        obtain ⟨r, hr, heq⟩ := Option.map_eq_some_iff.mp h
        cases heq
        have hstep := ih hr
        rw [nesting, nesting, if_neg hopen, if_neg hopen, if_neg hclose, if_neg hclose]
        omega

/-! ### Levels -/

section levels

variable (e : ExpressionParser) {p q : Bytes → Option UInt64} {k : ℕ}

/-- What `p` finds for texts that nest less deep than `k`, `q` finds too. -/
def Covers (k : ℕ) (p q : Bytes → Option UInt64) : Prop :=
  ∀ t a, nesting 0 t < k → p t = some a → q t = some a

theorem skipSpaces_suffix (s : Bytes) : skipSpaces s <:+ s := List.dropWhile_suffix _

theorem closing_suffix {depth : ℕ} {s inner after : Bytes}
    (h : closing depth s = some (inner, after)) : after <:+ s := by
  induction s generalizing depth inner with
  | nil => cases h
  | cons c s ih =>
    simp only [closing] at h
    split at h
    · obtain ⟨r, hr, heq⟩ := Option.map_eq_some_iff.mp h
      cases heq
      exact (ih hr).trans (List.suffix_cons c s)
    · split at h
      · cases depth with
        | zero =>
          simp only [Option.some.injEq, Prod.mk.injEq] at h
          exact h.2 ▸ List.suffix_cons c s
        | succ depth =>
          obtain ⟨r, hr, heq⟩ := Option.map_eq_some_iff.mp h
          cases heq
          exact (ih hr).trans (List.suffix_cons c s)
      · obtain ⟨r, hr, heq⟩ := Option.map_eq_some_iff.mp h
        cases heq
        exact (ih hr).trans (List.suffix_cons c s)

theorem map_drop_suffix {o : Option UInt64} {n : ℕ} {s : Bytes} {r : UInt64 × Bytes}
    (h : (o.map fun v => (v, s.drop n)) = some r) : r.2 <:+ s := by
  obtain ⟨v, -, rfl⟩ := Option.map_eq_some_iff.mp h
  exact List.drop_suffix n s

theorem starred_suffix {s : Bytes} {r : UInt64 × Bytes} (h : starred e s = some r) : r.2 <:+ s := by
  unfold starred at h
  dsimp only at h
  split at h
  · obtain ⟨stop, -, hstop⟩ := List.exists_of_findSome?_eq_some h
    exact map_drop_suffix hstop
  · cases h

theorem named_suffix {s : Bytes} {r : UInt64 × Bytes} (h : named e s = some r) : r.2 <:+ s := by
  unfold named at h
  generalize moduleLength s (if plainNumber s then [] else modules e) = modLen at h
  dsimp only at h
  split at h
  · exact map_drop_suffix h
  · split at h
    · next r' hstarred =>
      cases h
      exact starred_suffix e hstarred
    · exact map_drop_suffix h

theorem factor_suffix {s : Bytes} {r : UInt64 × Bytes} (h : factor e p s = some r) : r.2 <:+ s := by
  unfold factor at h
  split at h
  · cases h
  · next c rest hskip =>
    have hs : (c :: rest) <:+ s := hskip ▸ skipSpaces_suffix s
    have hrest : rest <:+ s := (List.suffix_cons c rest).trans hs
    split at h
    · cases h
    split at h
    · split at h
      · next inner after _ hclosing _ =>
        obtain ⟨a, -, ha⟩ := Option.bind_eq_some_iff.mp h
        obtain ⟨ptr, -, rfl⟩ := Option.map_eq_some_iff.mp ha
        exact (closing_suffix hclosing).trans hrest
      · cases h
    split at h
    · dsimp only at h
      split at h
      · cases h
      · obtain ⟨v, -, rfl⟩ := Option.map_eq_some_iff.mp h
        exact (List.drop_suffix _ _).trans hrest
    · exact (named_suffix e h).trans hs

theorem factor_covers (h : Covers k p q) {s : Bytes} {r : UInt64 × Bytes}
    (hdeep : nesting 0 s ≤ k) (hs : factor e p s = some r) : factor e q s = some r := by
  unfold factor at hs ⊢
  cases hskip : skipSpaces s with
  | nil =>
    rw [hskip] at hs
    cases hs
  | cons c rest =>
    rw [hskip] at hs
    dsimp only at hs ⊢
    split at hs
    · cases hs
    next hop =>
    rw [if_neg hop]
    split at hs
    · next hopen =>
      rw [if_pos hopen]
      split at hs
      · next inner after proc hclosing hproc =>
        obtain ⟨a, hinner, hptr⟩ := Option.bind_eq_some_iff.mp hs
        have hnest : nesting 0 inner < k := by
          have hin := nesting_closing hclosing 1
          have hsuffix : (c :: rest) <:+ s := hskip ▸ skipSpaces_suffix s
          have hwhole := nesting_suffix hsuffix
          have hc : nesting 0 (c :: rest) = max 0 (nesting (0 + 1) rest) := by
            rw [nesting, if_pos hopen]
          omega
        rw [h inner a hnest hinner]
        exact hptr
      · cases hs
    · next hopen =>
      rw [if_neg hopen]
      exact hs

theorem termLoop_covers (h : Covers k p q) {fuel : ℕ} {value : UInt64} {s : Bytes}
    {r : UInt64 × Bytes} (hdeep : nesting 0 s ≤ k) (hs : termLoop e p fuel value s = some r) :
    termLoop e q fuel value s = some r ∧ r.2 <:+ s := by
  induction fuel generalizing value s with
  | zero => cases hs
  | succ fuel ih =>
    unfold termLoop at hs ⊢
    split at hs
    · next rest hskip =>
      have hrest : rest <:+ s :=
        (List.suffix_cons _ rest).trans (hskip ▸ skipSpaces_suffix s)
      obtain ⟨f, hf, hloop⟩ := Option.bind_eq_some_iff.mp hs
      have hfs := (factor_suffix e hf).trans hrest
      have hnest : nesting 0 rest ≤ k := Nat.le_trans (nesting_suffix hrest) hdeep
      obtain ⟨hr, hsuffix⟩ := ih (Nat.le_trans (nesting_suffix hfs) hdeep) hloop
      rw [factor_covers e h hnest hf, Option.bind_some]
      exact ⟨hr, hsuffix.trans hfs⟩
    · cases hs
      exact ⟨rfl, List.suffix_refl s⟩

theorem term_covers (h : Covers k p q) {s : Bytes} {r : UInt64 × Bytes} (hdeep : nesting 0 s ≤ k)
    (hs : term e p s = some r) : term e q s = some r ∧ r.2 <:+ s := by
  unfold term at hs ⊢
  obtain ⟨f, hf, hloop⟩ := Option.bind_eq_some_iff.mp hs
  have hfs := factor_suffix e hf
  obtain ⟨hr, hsuffix⟩ := termLoop_covers e h (Nat.le_trans (nesting_suffix hfs) hdeep) hloop
  rw [factor_covers e h hdeep hf, Option.bind_some]
  exact ⟨hr, hsuffix.trans hfs⟩

theorem sumLoop_covers (h : Covers k p q) {fuel : ℕ} {result a : UInt64} {op : UInt8} {s : Bytes}
    (hdeep : nesting 0 s ≤ k) (hs : sumLoop e p fuel result op s = some a) :
    sumLoop e q fuel result op s = some a := by
  induction fuel generalizing result op s with
  | zero => cases hs
  | succ fuel ih =>
    unfold sumLoop at hs ⊢
    obtain ⟨r, hr, hloop⟩ := Option.bind_eq_some_iff.mp hs
    obtain ⟨hterm, hsuffix⟩ := term_covers e h hdeep hr
    rw [hterm, Option.bind_some]
    dsimp only at hloop ⊢
    split at hloop
    · exact hloop
    · next c rest hskip =>
      have hrest : rest <:+ s := (List.suffix_cons c rest).trans
        ((hskip ▸ skipSpaces_suffix r.2).trans hsuffix)
      split at hloop
      · next hop =>
        rw [if_pos hop]
        split at hloop
        · cases hloop
        · next hne =>
          rw [if_neg hne]
          exact ih (Nat.le_trans (nesting_suffix hrest) hdeep) hloop
      · cases hloop

theorem trim_nesting (s : Bytes) : nesting 0 (trim s) ≤ nesting 0 s :=
  Nat.le_trans (nesting_start 0 (List.rdropWhile_prefix _ _))
    (nesting_suffix (List.dropWhile_suffix _))

theorem parse_levels {levels k : ℕ} {s : Bytes} {a : UInt64} (hdeep : nesting 0 s < k)
    (hs : parseImpl e levels s = some a) : parseImpl e k s = some a := by
  induction k generalizing levels s a with
  | zero => exact absurd hdeep (Nat.not_lt_zero _)
  | succ k ih =>
    cases levels with
    | zero => cases hs
    | succ levels =>
      have hcovers : Covers k (parseImpl e levels) (parseImpl e k) :=
        fun t b ht hb => ih ht hb
      have hle := Nat.le_trans (trim_nesting s) (Nat.le_of_lt_succ hdeep)
      unfold parseImpl at hs ⊢
      cases htrim : trim s with
      | nil =>
        rw [htrim] at hs
        cases hs
      | cons c rest =>
        rw [htrim] at hs hle
        dsimp only at hs ⊢
        split at hs
        · next hop =>
          rw [if_pos hop]
          have hrest := nesting_suffix (List.suffix_cons c rest)
          exact sumLoop_covers e hcovers (Nat.le_trans hrest hle) hs
        · next hop =>
          rw [if_neg hop]
          exact sumLoop_covers e hcovers hle hs

end levels

end CheatEngine.Expression
