import Mathlib.Data.List.Basic

/-!
# Lexing C

A C text as preprocessing tokens: lines that end in a backslash are joined, and comments are blanks.
Trigraphs are not read, and a header name is read as the tokens that it is made of.

* `splice`: the joined lines.
* `Mode`, `step`: what is being read, and the next character.
* `tokens`: the tokens of a text.
* `denotes`: what the characters between the quotes of a string literal stand for.

* **PROVED `tokens_pieces`**: the tokens of a text that is put together from code, string literals
  and comments.
* **PROVED `Lexes.word`, `Lexes.number`**: a text that goes on with a word or a number.
-/

namespace CLexer

/-- Backslashes before a newline vanish, with it. -/
def splice : List UInt8 → List UInt8
  | [] => []
  | [c] => [c]
  | c :: d :: rest => if c = 0x5c ∧ d = 0x0a then splice rest else c :: splice (d :: rest)

inductive Token
  | newline
  | word (s : List UInt8)
  | number (s : List UInt8)
  | punct (s : List UInt8)
  | string (encoding raw : List UInt8)
  | char (encoding raw : List UInt8)
  | other (c : UInt8)
  /-- A quote that the line does not close. -/
  | unclosed (s : List UInt8)
  deriving Repr, DecidableEq

inductive Mode
  | code
  | word (s : List UInt8)
  | number (s : List UInt8)
  | punct (s : List UInt8)
  | slash
  | line
  | block (star : Bool)
  | string (encoding raw : List UInt8) (escaped : Bool)
  | char (encoding raw : List UInt8) (escaped : Bool)
  deriving Repr, DecidableEq

/-! ### Characters -/

def isDigit (c : UInt8) : Bool := 0x30 ≤ c && c ≤ 0x39

def isIdentStart (c : UInt8) : Bool :=
  (0x41 ≤ c && c ≤ 0x5a) || (0x61 ≤ c && c ≤ 0x7a) || c == 0x5f

def isIdent (c : UInt8) : Bool := isIdentStart c || isDigit c

def isBlank (c : UInt8) : Bool := c == 0x20 || c == 0x09 || c == 0x0b || c == 0x0c || c == 0x0d

/-- The punctuators of more than one character: `->` `++` `--` `<<` `>>` `<=` `>=` `==` `!=` `&&`
`||` `...` `*=` `%=` `+=` `-=` `<<=` `>>=` `&=` `^=` `|=` `##` `<:` `:>` `<%` `%>` `%:` `%:%:`, but
not `/=`. -/
def longPuncts : List (List UInt8) :=
  [[0x2d, 0x3e], [0x2b, 0x2b], [0x2d, 0x2d], [0x3c, 0x3c], [0x3e, 0x3e], [0x3c, 0x3d],
    [0x3e, 0x3d], [0x3d, 0x3d], [0x21, 0x3d], [0x26, 0x26], [0x7c, 0x7c], [0x2e, 0x2e, 0x2e],
    [0x2a, 0x3d], [0x25, 0x3d], [0x2b, 0x3d], [0x2d, 0x3d], [0x3c, 0x3c, 0x3d],
    [0x3e, 0x3e, 0x3d], [0x26, 0x3d], [0x5e, 0x3d], [0x7c, 0x3d], [0x23, 0x23], [0x3c, 0x3a],
    [0x3a, 0x3e], [0x3c, 0x25], [0x25, 0x3e], [0x25, 0x3a], [0x25, 0x3a, 0x25, 0x3a]]

/-- `[` `]` `(` `)` `,` `;` `?` `~` `.` `&` `*` `+` `-` `!` `%` `<` `>` `^` `|` `=` `#` `:` and
braces. -/
def shortPuncts : List UInt8 :=
    [0x5b, 0x5d, 0x28, 0x29, 0x2c, 0x3b, 0x3f, 0x7e, 0x2e, 0x26, 0x2a, 0x2b, 0x2d, 0x21, 0x25,
    0x3c, 0x3e, 0x5e, 0x7c, 0x3d, 0x23, 0x3a, 0x7b, 0x7d]

/-- `L`, `u`, `U` and `u8` -/
def encodings : List (List UInt8) := [[0x4c], [0x75], [0x55], [0x75, 0x38]]

/-- `e`, `E`, `p` and `P`, which a sign may follow. -/
def exponents : List UInt8 := [0x65, 0x45, 0x70, 0x50]

/-! ### The lexer -/

/-- Characters that may begin a punctuator, where it goes no further. -/
def munch (s : List UInt8) : List Token :=
  if longPuncts.contains s then [.punct s]
  else if longPuncts.contains (s.take 2) then
    .punct (s.take 2) :: (s.drop 2).map fun c => .punct [c]
  else s.map fun c => .punct [c]

/-- A character between tokens. -/
def start (c : UInt8) : Mode × List Token :=
  if c == 0x0a then (.code, [.newline])
  else if isBlank c then (.code, [])
  else if c == 0x22 then (.string [] [] false, [])
  else if c == 0x27 then (.char [] [] false, [])
  else if c == 0x2f then (.slash, [])
  else if isIdentStart c then (.word [c], [])
  else if isDigit c then (.number [c], [])
  else if longPuncts.any fun p => p.head? == some c then (.punct [c], [])
  else if shortPuncts.contains c then (.code, [.punct [c]])
  else (.code, [.other c])

def after (ts : List Token) (c : UInt8) : Mode × List Token := ((start c).1, ts ++ (start c).2)

def step : Mode → UInt8 → Mode × List Token
  | .code, c => start c
  | .word s, c =>
    if isIdent c then (.word (s ++ [c]), [])
    else if c == 0x22 && encodings.contains s then (.string s [] false, [])
    else if c == 0x27 && encodings.contains s then (.char s [] false, [])
    else after [.word s] c
  | .number s, c =>
    if isIdent c || c == 0x2e ||
        ((c == 0x2b || c == 0x2d) && s.getLast?.any exponents.contains) then
      (.number (s ++ [c]), [])
    else after [.number s] c
  | .punct s, c =>
    if s == [0x2e] && isDigit c then (.number [0x2e, c], [])
    else if longPuncts.any fun p => (s ++ [c]).isPrefixOf p then (.punct (s ++ [c]), [])
    else after (munch s) c
  | .slash, c =>
    if c == 0x2f then (.line, [])
    else if c == 0x2a then (.block false, [])
    else if c == 0x3d then (.code, [.punct [0x2f, 0x3d]])
    else after [.punct [0x2f]] c
  | .line, c => if c == 0x0a then (.code, [.newline]) else (.line, [])
  | .block star, c => if star && c == 0x2f then (.code, []) else (.block (c == 0x2a), [])
  | .string encoding raw escaped, c =>
    if c == 0x0a then (.code, [.unclosed (0x22 :: raw), .newline])
    else if escaped then (.string encoding (raw ++ [c]) false, [])
    else if c == 0x22 then (.code, [.string encoding raw])
    else (.string encoding (raw ++ [c]) (c == 0x5c), [])
  | .char encoding raw escaped, c =>
    if c == 0x0a then (.code, [.unclosed (0x27 :: raw), .newline])
    else if escaped then (.char encoding (raw ++ [c]) false, [])
    else if c == 0x27 then (.code, [.char encoding raw])
    else (.char encoding (raw ++ [c]) (c == 0x5c), [])

def run : Mode → List UInt8 → Mode × List Token
  | m, [] => (m, [])
  | m, c :: rest =>
    let r := run (step m c).1 rest
    (r.1, (step m c).2 ++ r.2)

/-- What is over at the end of a text. -/
def finish : Mode → List Token
  | .code | .line | .block _ => []
  | .word s => [.word s]
  | .number s => [.number s]
  | .punct s => munch s
  | .slash => [.punct [0x2f]]
  | .string _ raw _ => [.unclosed (0x22 :: raw)]
  | .char _ raw _ => [.unclosed (0x27 :: raw)]

def tokens (s : List UInt8) : List Token :=
  let r := run .code (splice s)
  r.2 ++ finish r.1

/-! ### String literals -/

def isOctal (c : UInt8) : Bool := 0x30 ≤ c && c ≤ 0x37

def simpleEscape (c : UInt8) : Option UInt8 :=
  if c == 0x27 || c == 0x22 || c == 0x3f || c == 0x5c then some c
  else if c == 0x61 then some 0x07
  else if c == 0x62 then some 0x08
  else if c == 0x66 then some 0x0c
  else if c == 0x6e then some 0x0a
  else if c == 0x72 then some 0x0d
  else if c == 0x74 then some 0x09
  else if c == 0x76 then some 0x0b
  else none

def hexValue (c : UInt8) : Option ℕ :=
  if isDigit c then some (c.toNat - 0x30)
  else if 0x61 ≤ c && c ≤ 0x66 then some (c.toNat - 0x57)
  else if 0x41 ≤ c && c ≤ 0x46 then some (c.toNat - 0x37)
  else none

/-- What an escape sequence stands for, without its backslash, and what is behind it. -/
def escape (s : List UInt8) : Option (ℕ × List UInt8) :=
  match s with
  | [] => none
  | c :: rest =>
    if isOctal c then
      let digits := (s.take 3).takeWhile isOctal
      some (digits.foldl (fun n d => 8 * n + (d.toNat - 0x30)) 0, s.drop digits.length)
    else if c == 0x78 then
      let digits := rest.takeWhile fun d => (hexValue d).isSome
      if digits.isEmpty then none
      else some (digits.foldl (fun n d => 16 * n + (hexValue d).getD 0) 0, rest.drop digits.length)
    else (simpleEscape c).map fun v => (v.toNat, rest)

/-- The bytes of a string literal, where its escape sequences stand for bytes. -/
def denotesLoop : ℕ → List UInt8 → Option (List UInt8)
  | 0, s => if s.isEmpty then some [] else none
  | _, [] => some []
  | fuel + 1, c :: rest =>
    if c == 0x5c then
      (escape rest).bind fun r =>
        if r.1 < 256 then (denotesLoop fuel r.2).map (UInt8.ofNat r.1 :: ·) else none
    else (denotesLoop fuel rest).map (c :: ·)

def denotes (raw : List UInt8) : Option (List UInt8) := denotesLoop raw.length raw

/-! ### Quotes and comments -/

/-- What a mode is, but for the token that is being read. -/
inductive Kind
  | code
  | slash
  | line
  | block (star : Bool)
  | quoted (quote : UInt8) (escaped : Bool)
  deriving Repr, DecidableEq

def Mode.kind : Mode → Kind
  | .code | .word _ | .number _ | .punct _ => .code
  | .slash => .slash
  | .line => .line
  | .block star => .block star
  | .string _ _ escaped => .quoted 0x22 escaped
  | .char _ _ escaped => .quoted 0x27 escaped

def startKind (c : UInt8) : Kind :=
  if c == 0x22 || c == 0x27 then .quoted c false else if c == 0x2f then .slash else .code

def stepKind : Kind → UInt8 → Kind
  | .code, c => startKind c
  | .slash, c => if c == 0x2f then .line else if c == 0x2a then .block false else startKind c
  | .line, c => if c == 0x0a then .code else .line
  | .block star, c => if star && c == 0x2f then .code else .block (c == 0x2a)
  | .quoted quote escaped, c =>
    if c == 0x0a then .code
    else if escaped then .quoted quote false
    else if c == quote then .code
    else .quoted quote (c == 0x5c)

def runKind (k : Kind) (s : List UInt8) : Kind := s.foldl stepKind k

/-- A character that no longer token begins with or goes on with. -/
def isFlush (c : UInt8) : Bool :=
  c == 0x20 || c == 0x0a || c == 0x28 || c == 0x2c || c == 0x3b || c == 0x7b

theorem ident_table : ∀ n < 256, (isIdent (UInt8.ofNat n) || UInt8.ofNat n == 0x2e ||
    UInt8.ofNat n == 0x2b || UInt8.ofNat n == 0x2d) = true →
    startKind (UInt8.ofNat n) = .code := by decide +kernel

/-- What a number may go on with. -/
theorem startKind_of_ident {c : UInt8}
    (h : (isIdent c || c == 0x2e || c == 0x2b || c == 0x2d) = true) : startKind c = .code := by
  have hc := ident_table c.toNat c.toNat_lt
  rw [UInt8.ofNat_toNat] at hc
  exact hc h

theorem startKind_of_punct : ∀ p ∈ longPuncts, ∀ c ∈ p, startKind c = .code := by decide +kernel

theorem kind_start (c : UInt8) : (start c).1.kind = startKind c := by
  rw [start]
  split
  · rename_i h
    rw [beq_iff_eq.1 h]
    rfl
  split
  · rename_i h
    simp only [isBlank, Bool.or_eq_true, beq_iff_eq] at h
    rcases h with (((rfl | rfl) | rfl) | rfl) | rfl <;> rfl
  split
  · rename_i h
    rw [beq_iff_eq.1 h]
    rfl
  split
  · rename_i h
    rw [beq_iff_eq.1 h]
    rfl
  split
  · rename_i h
    rw [beq_iff_eq.1 h]
    rfl
  rename_i hquote hquote' hslash
  have hcode : startKind c = .code := by
    rw [startKind, Bool.eq_false_iff.2 hquote, Bool.eq_false_iff.2 hquote',
      Bool.eq_false_iff.2 hslash]
    rfl
  rw [hcode]
  split_ifs <;> rfl

theorem kind_step (m : Mode) (c : UInt8) : (step m c).1.kind = stepKind m.kind c := by
  cases m with
  | code => exact kind_start c
  | word s =>
    rw [step]
    split
    · rename_i hident
      exact (startKind_of_ident (by rw [hident]; rfl)).symm
    split
    · rename_i hquote
      rw [Bool.and_eq_true, beq_iff_eq] at hquote
      rw [hquote.1]
      rfl
    split
    · rename_i hquote
      rw [Bool.and_eq_true, beq_iff_eq] at hquote
      rw [hquote.1]
      rfl
    · exact kind_start c
  | number s =>
    rw [step]
    split
    · rename_i hnumber
      refine (startKind_of_ident ?_).symm
      rcases Bool.or_eq_true_iff.1 hnumber with h | h
      · rw [h]
        rfl
      · rw [Bool.or_assoc, (Bool.and_eq_true_iff.1 h).1, Bool.or_true]
    · exact kind_start c
  | punct s =>
    rw [step]
    split
    · rename_i hdigit
      rw [Bool.and_eq_true] at hdigit
      exact (startKind_of_ident (by rw [isIdent, hdigit.2, Bool.or_true]; rfl)).symm
    split
    · rename_i hlong
      obtain ⟨p, hp, hpre⟩ := List.any_eq_true.1 hlong
      refine (startKind_of_punct p hp c ?_).symm
      exact (List.isPrefixOf_iff_prefix.1 hpre).subset
        (List.mem_append_right _ (List.mem_singleton.2 rfl))
    · exact kind_start c
  | slash =>
    rw [step, Mode.kind, stepKind]
    split
    · rfl
    split
    · rfl
    split
    · rename_i hequals
      rw [beq_iff_eq] at hequals
      rw [hequals]
      rfl
    · exact kind_start c
  | line =>
    rw [step, Mode.kind, stepKind]
    split <;> rfl
  | block star =>
    rw [step, Mode.kind, stepKind]
    split <;> rfl
  | string encoding raw escaped =>
    rw [step, Mode.kind, stepKind]
    split_ifs <;> rfl
  | char encoding raw escaped =>
    rw [step, Mode.kind, stepKind]
    split_ifs <;> rfl

theorem kind_run (m : Mode) (s : List UInt8) : (run m s).1.kind = runKind m.kind s := by
  induction s generalizing m with
  | nil => rfl
  | cons c rest ih =>
    rw [run, runKind, List.foldl_cons, ← kind_step, ← runKind, ← ih]

theorem run_append (m : Mode) (s t : List UInt8) :
    run m (s ++ t) =
      ((run (run m s).1 t).1, (run m s).2 ++ (run (run m s).1 t).2) := by
  induction s generalizing m with
  | nil => rfl
  | cons c rest ih => rw [List.cons_append, run, ih, run, List.append_assoc]

theorem flush_table : ∀ n < 256, isFlush (UInt8.ofNat n) = true →
    (start (UInt8.ofNat n)).1 = .code ∧ isIdent (UInt8.ofNat n) = false ∧
      UInt8.ofNat n ≠ 0x22 ∧ UInt8.ofNat n ≠ 0x27 ∧ UInt8.ofNat n ≠ 0x2e ∧
      UInt8.ofNat n ≠ 0x2b ∧ UInt8.ofNat n ≠ 0x2d := by decide +kernel

theorem not_flush_of_punct : ∀ p ∈ longPuncts, ∀ c ∈ p, isFlush c = false := by decide +kernel

/-- Nothing is being read after such a character. -/
theorem step_flush {m : Mode} {c : UInt8} (hm : m.kind = .code) (hc : isFlush c = true) :
    (step m c).1 = .code := by
  have htable := flush_table c.toNat c.toNat_lt
  rw [UInt8.ofNat_toNat] at htable
  obtain ⟨hstart, hident, hquote, hquote', hpoint, hplus, hminus⟩ := htable hc
  cases m with
  | code => exact hstart
  | word s =>
    rw [step, hident, beq_false_of_ne hquote, beq_false_of_ne hquote', Bool.false_and]
    exact hstart
  | number s =>
    rw [step, hident, beq_false_of_ne hpoint, beq_false_of_ne hplus, beq_false_of_ne hminus]
    exact hstart
  | punct s =>
    have hdigit : isDigit c = false := (Bool.or_eq_false_iff.1 hident).2
    have hlong : (longPuncts.any fun p => (s ++ [c]).isPrefixOf p) = false := by
      rw [List.any_eq_false]
      intro p hp hpre
      have hmem := (List.isPrefixOf_iff_prefix.1 hpre).subset
        (List.mem_append_right s (List.mem_singleton.2 rfl))
      rw [not_flush_of_punct p hp c hmem] at hc
      cases hc
    rw [step, hdigit, hlong, Bool.and_false]
    exact hstart
  | slash | line | block _ | string _ _ _ | char _ _ _ => cases hm

/-! ### Lines that are not joined -/

/-- No backslash before a newline, and none at the end. -/
def clean : List UInt8 → Bool
  | [] => true
  | [c] => c != 0x5c
  | c :: d :: rest => !(c == 0x5c && d == 0x0a) && clean (d :: rest)

theorem clean_cons {c : UInt8} {s : List UInt8} (hc : c ≠ 0x5c) (hs : clean s = true) :
    clean (c :: s) = true := by
  cases s with
  | nil => rwa [clean, bne_iff_ne]
  | cons d rest => rw [clean, beq_false_of_ne hc, hs]; rfl

theorem clean_of_not_mem {s : List UInt8} (h : 0x5c ∉ s) : clean s = true := by
  induction s with
  | nil => rfl
  | cons c rest ih =>
    rw [List.mem_cons, not_or] at h
    exact clean_cons (Ne.symm h.1) (ih h.2)

theorem clean_append {s t : List UInt8} (hs : clean s = true) (ht : clean t = true) :
    clean (s ++ t) = true := by
  induction s with
  | nil => exact ht
  | cons c rest ih =>
    cases rest with
    | nil => exact clean_cons (bne_iff_ne.1 hs) ht
    | cons d rest =>
      rw [clean, Bool.and_eq_true] at hs
      rw [List.cons_append, List.cons_append, clean, hs.1, Bool.true_and]
      exact ih hs.2

theorem splice_of_clean {s : List UInt8} (h : clean s = true) : splice s = s := by
  induction s with
  | nil => rfl
  | cons c rest ih =>
    cases rest with
    | nil => rfl
    | cons d rest =>
      rw [clean, Bool.and_eq_true, Bool.not_eq_true', Bool.and_eq_false_iff, beq_eq_false_iff_ne,
        beq_eq_false_iff_ne] at h
      rw [splice, if_neg (fun hc => h.1.elim (· hc.1) (· hc.2)), ih h.2]

/-! ### Texts that are put together -/

/-- Code as it is, what stands between the quotes of a literal, or the end of a comment's line. -/
inductive Piece
  | code (s : List UInt8)
  | literal (raw : List UInt8)
  | comment (s : List UInt8)
  deriving Repr, DecidableEq

def Piece.text : Piece → List UInt8
  | .code s => s
  | .literal raw => 0x22 :: (raw ++ [0x22])
  | .comment s => s

/-- Between quotes: no quote and no newline without a backslash, and none alone at the end. -/
inductive Quotable : List UInt8 → Prop
  | nil : Quotable []
  | plain {c : UInt8} {s : List UInt8} : c ≠ 0x22 → c ≠ 0x5c → c ≠ 0x0a → Quotable s →
      Quotable (c :: s)
  | escaped {c : UInt8} {s : List UInt8} : c ≠ 0x0a → Quotable s → Quotable (0x5c :: c :: s)

/-- Every piece stands where it can: a literal between tokens, the end of a comment in a comment. -/
def Placed : Mode → List Piece → Prop
  | _, [] => True
  | m, .code s :: ps => clean s = true ∧ Placed (run m s).1 ps
  | m, .literal raw :: ps => m = .code ∧ Quotable raw ∧ Placed .code ps
  | m, .comment s :: ps => m = .line ∧ 0x0a ∉ s ∧ 0x5c ∉ s ∧ Placed .line ps

def modeAfter : Mode → List Piece → Mode
  | m, [] => m
  | m, .code s :: ps => modeAfter (run m s).1 ps
  | _, .literal _ :: ps => modeAfter .code ps
  | _, .comment _ :: ps => modeAfter .line ps

def pieceTokens : Mode → List Piece → List (List Token)
  | _, [] => []
  | m, .code s :: ps => (run m s).2 :: pieceTokens (run m s).1 ps
  | _, .literal raw :: ps => [.string [] raw] :: pieceTokens .code ps
  | _, .comment _ :: ps => [] :: pieceTokens .line ps

theorem placed_append {m : Mode} {ps qs : List Piece} (hps : Placed m ps)
    (hqs : Placed (modeAfter m ps) qs) : Placed m (ps ++ qs) := by
  induction ps generalizing m with
  | nil => exact hqs
  | cons p ps ih =>
    cases p with
    | code s => exact ⟨hps.1, ih hps.2 hqs⟩
    | literal raw => exact ⟨hps.1, hps.2.1, ih hps.2.2 hqs⟩
    | comment s => exact ⟨hps.1, hps.2.1, hps.2.2.1, ih hps.2.2.2 hqs⟩

theorem modeAfter_append (m : Mode) (ps qs : List Piece) :
    modeAfter m (ps ++ qs) = modeAfter (modeAfter m ps) qs := by
  induction ps generalizing m with
  | nil => rfl
  | cons p ps ih => cases p <;> exact ih _

theorem run_cons_silent {m m' : Mode} {c : UInt8} (h : step m c = (m', [])) (s : List UInt8) :
    run m (c :: s) = run m' s := by
  rw [run, h, List.nil_append]

theorem step_string_plain (encoding raw : List UInt8) {c : UInt8} (hquote : c ≠ 0x22)
    (hslash : c ≠ 0x5c) (hline : c ≠ 0x0a) :
    step (.string encoding raw false) c = (.string encoding (raw ++ [c]) false, []) := by
  rw [step, beq_false_of_ne hline, beq_false_of_ne hquote, beq_false_of_ne hslash]
  rfl

theorem step_string_escaped (encoding raw : List UInt8) {c : UInt8} (hline : c ≠ 0x0a) :
    step (.string encoding raw true) c = (.string encoding (raw ++ [c]) false, []) := by
  rw [step, beq_false_of_ne hline]
  rfl

/-- Between the quotes nothing ends the literal. -/
theorem run_quotable {raw : List UInt8} (h : Quotable raw) (encoding acc : List UInt8) :
    run (.string encoding acc false) raw = (.string encoding (acc ++ raw) false, []) := by
  induction h generalizing acc with
  | nil => rw [List.append_nil]; rfl
  | plain hquote hslash hline _ ih =>
    rw [run_cons_silent (step_string_plain encoding acc hquote hslash hline), ih,
      List.append_assoc, List.singleton_append]
  | escaped hline _ ih =>
    rw [run_cons_silent (show step (.string encoding acc false) 0x5c =
        (.string encoding (acc ++ [0x5c]) true, []) from rfl),
      run_cons_silent (step_string_escaped encoding _ hline), ih, List.append_assoc,
      List.append_assoc, List.singleton_append, List.singleton_append]

theorem run_literal {raw : List UInt8} (h : Quotable raw) :
    run .code (Piece.literal raw).text = (.code, [.string [] raw]) := by
  rw [Piece.text, run_cons_silent (show step .code 0x22 = (.string [] [] false, []) from rfl),
    run_append, run_quotable h]
  rfl

theorem run_comment {s : List UInt8} (h : 0x0a ∉ s) : run .line s = (.line, []) := by
  induction s with
  | nil => rfl
  | cons c rest ih =>
    rw [List.mem_cons, not_or] at h
    have hstep : step .line c = (.line, []) := by
      rw [step, beq_false_of_ne (Ne.symm h.1)]
      rfl
    rw [run_cons_silent hstep, ih h.2]

theorem Quotable.no_newline {raw : List UInt8} (h : Quotable raw) : 0x0a ∉ raw := by
  induction h with
  | nil => exact List.not_mem_nil
  | plain _ _ hline _ ih => exact fun hmem => (List.mem_cons.1 hmem).elim (hline ∘ Eq.symm) ih
  | escaped hline _ ih =>
    intro hmem
    rcases List.mem_cons.1 hmem with hc | hmem
    · exact absurd hc (by decide)
    · exact (List.mem_cons.1 hmem).elim (hline ∘ Eq.symm) ih

theorem clean_of_no_newline {s : List UInt8} {c : UInt8} (hs : 0x0a ∉ s) (hc : c ≠ 0x5c)
    (hline : c ≠ 0x0a) : clean (s ++ [c]) = true := by
  induction s with
  | nil => exact bne_iff_ne.2 hc
  | cons d rest ih =>
    rw [List.mem_cons, not_or] at hs
    cases rest with
    | nil =>
      rw [List.singleton_append, clean, beq_false_of_ne hline, Bool.and_false]
      exact bne_iff_ne.2 hc
    | cons d' rest =>
      have hd' : d' ≠ 0x0a := fun h => hs.2 (h ▸ List.mem_cons_self ..)
      rw [List.cons_append, List.cons_append, clean, beq_false_of_ne hd', Bool.and_false]
      exact ih hs.2

theorem clean_literal {raw : List UInt8} (h : Quotable raw) :
    clean (Piece.literal raw).text = true :=
  clean_cons (by decide) (clean_of_no_newline h.no_newline (by decide) (by decide))

def render (ps : List Piece) : List UInt8 := ps.flatMap Piece.text

theorem clean_render {m : Mode} {ps : List Piece} (h : Placed m ps) : clean (render ps) = true := by
  induction ps generalizing m with
  | nil => rfl
  | cons p ps ih =>
    rw [render, List.flatMap_cons]
    cases p with
    | code s => exact clean_append h.1 (ih h.2)
    | literal raw => exact clean_append (clean_literal h.2.1) (ih h.2.2)
    | comment s => exact clean_append (clean_of_not_mem h.2.2.1) (ih h.2.2.2)

theorem run_render {m : Mode} {ps : List Piece} (h : Placed m ps) :
    run m (render ps) = (modeAfter m ps, (pieceTokens m ps).flatten) := by
  induction ps generalizing m with
  | nil => rfl
  | cons p ps ih =>
    rw [render, List.flatMap_cons, run_append, ← render]
    cases p with
    | code s => rw [Piece.text, ih h.2]; rfl
    | literal raw =>
      obtain ⟨rfl, hraw, hps⟩ := h
      rw [run_literal hraw, ih hps]
      rfl
    | comment s =>
      obtain ⟨rfl, hline, -, hps⟩ := h
      rw [Piece.text, run_comment hline, ih hps]
      rfl

theorem tokens_pieces {ps : List Piece} (h : Placed .code ps) :
    tokens (render ps) = (pieceTokens .code ps).flatten ++ finish (modeAfter .code ps) := by
  rw [tokens, splice_of_clean (clean_render h), run_render h]

/-! ### Whole code -/

/-- Code that begins and ends between tokens. -/
structure Whole (s : List UInt8) : Prop where
  clean : clean s = true
  ends : (run .code s).1 = .code

theorem whole_append {s t : List UInt8} (hs : Whole s) (ht : Whole t) : Whole (s ++ t) := by
  refine ⟨clean_append hs.clean ht.clean, ?_⟩
  rw [run_append, hs.ends]
  exact ht.ends

/-- A text that ends with a token that is over, or with the line of a comment. -/
def isWhole (s : List UInt8) : Bool :=
  clean s &&
    match s.getLast? with
    | none => true
    | some c =>
      let k := runKind .code s.dropLast
      (k == .code && isFlush c) || (k == .line && c == 0x0a)

theorem whole_of_isWhole {s : List UInt8} (h : isWhole s = true) : Whole s := by
  rw [isWhole, Bool.and_eq_true] at h
  refine ⟨h.1, ?_⟩
  rcases List.eq_nil_or_concat s with rfl | ⟨front, c, rfl⟩
  · rfl
  rw [List.concat_eq_append, List.getLast?_concat, List.dropLast_concat] at h
  have hkind := kind_run .code front
  rw [List.concat_eq_append, run_append]
  show (step (run .code front).1 c).1 = .code
  rcases Bool.or_eq_true_iff.1 h.2 with h | h
  · rw [Bool.and_eq_true, beq_iff_eq] at h
    exact step_flush (hkind.trans h.1) h.2
  · rw [Bool.and_eq_true, beq_iff_eq, beq_iff_eq] at h
    rw [show Mode.kind .code = .code from rfl, h.1] at hkind
    cases hmode : (run .code front).1 with
    | line => rw [h.2]; rfl
    | _ => rw [hmode] at hkind; cases hkind

/-- A character that is neither of a quote nor of a comment. -/
def isPlain (c : UInt8) : Bool := c != 0x22 && c != 0x27 && c != 0x2f && c != 0x5c

theorem runKind_plain {s : List UInt8} (h : ∀ c ∈ s, isPlain c = true) :
    runKind .code s = .code := by
  induction s with
  | nil => rfl
  | cons c rest ih =>
    have hc := h c (List.mem_cons_self ..)
    rw [isPlain, Bool.and_eq_true, Bool.and_eq_true, Bool.and_eq_true, bne_iff_ne, bne_iff_ne,
      bne_iff_ne] at hc
    have hstep : stepKind .code c = .code := by
      rw [stepKind, startKind, beq_false_of_ne hc.1.1.1, beq_false_of_ne hc.1.1.2,
        beq_false_of_ne hc.1.2]
      rfl
    rw [runKind, List.foldl_cons, hstep]
    exact ih fun d hd => h d (List.mem_cons_of_mem _ hd)

theorem whole_plain {s : List UInt8} {c : UInt8} (hs : ∀ d ∈ s, isPlain d = true)
    (hc : isFlush c = true) : Whole (s ++ [c]) := by
  have hslash : 0x5c ∉ s := fun h => absurd (hs _ h) (by decide)
  have hlast : c ≠ 0x5c := by
    rintro rfl
    cases hc
  have hend : clean [c] = true := bne_iff_ne.2 hlast
  refine whole_of_isWhole ?_
  rw [isWhole, clean_append (clean_of_not_mem hslash) hend, List.getLast?_concat,
    List.dropLast_concat, runKind_plain hs]
  show (true && ((Kind.code == .code && isFlush c) || _)) = true
  rw [hc]
  rfl

/-- Pieces that begin and end between tokens. -/
structure Placing (ps : List Piece) : Prop where
  placed : Placed .code ps
  ends : modeAfter .code ps = .code

theorem placing_nil : Placing [] := ⟨trivial, rfl⟩

theorem placing_append {ps qs : List Piece} (hps : Placing ps) (hqs : Placing qs) :
    Placing (ps ++ qs) := by
  refine ⟨placed_append hps.placed ?_, ?_⟩
  · rw [hps.ends]
    exact hqs.placed
  · rw [modeAfter_append, hps.ends, hqs.ends]

theorem placing_code {s : List UInt8} {ps : List Piece} (hs : Whole s) (hps : Placing ps) :
    Placing (.code s :: ps) := by
  refine ⟨⟨hs.clean, ?_⟩, ?_⟩
  · rw [hs.ends]
    exact hps.placed
  · rw [modeAfter, hs.ends, hps.ends]

theorem placing_literal {raw : List UInt8} {ps : List Piece} (hraw : Quotable raw)
    (hps : Placing ps) : Placing (.literal raw :: ps) :=
  ⟨⟨rfl, hraw, hps.placed⟩, hps.ends⟩

theorem placing_comment {s t u : List UInt8} {ps : List Piece} (hs : clean s = true)
    (hkind : runKind .code s = .line) (hline : 0x0a ∉ t) (hslash : 0x5c ∉ t)
    (hps : Placing (.code u :: ps)) :
    Placing (.code s :: .comment t :: .code (0x0a :: u) :: ps) := by
  have hmode : (run .code s).1 = .line := by
    have h := kind_run .code s
    rw [show Mode.kind .code = .code from rfl, hkind] at h
    cases hm : (run .code s).1 with
    | line => rfl
    | _ => rw [hm] at h; cases h
  refine ⟨⟨hs, hmode, hline, hslash, ?_⟩, ?_⟩
  · exact ⟨clean_cons (by decide) hps.placed.1, hps.placed.2⟩
  · exact hps.ends

/-! ### Other texts in the same places -/

def Piece.shape : Piece → Piece
  | .code s => .code s
  | .literal _ => .literal []
  | .comment _ => .comment []

/-- A token without the contents of a string literal. -/
def Token.shape : Token → Token
  | .string encoding _ => .string encoding []
  | t => t

theorem modeAfter_shape (m : Mode) (ps : List Piece) :
    modeAfter m (ps.map Piece.shape) = modeAfter m ps := by
  induction ps generalizing m with
  | nil => rfl
  | cons p ps ih => cases p <;> exact ih _

theorem pieceTokens_shape (m : Mode) (ps : List Piece) :
    (pieceTokens m (ps.map Piece.shape)).map (List.map Token.shape) =
      (pieceTokens m ps).map (List.map Token.shape) := by
  induction ps generalizing m with
  | nil => rfl
  | cons p ps ih => cases p <;> exact congrArg (List.cons _) (ih _)

theorem tokens_shape {ps qs : List Piece} (hps : Placed .code ps) (hqs : Placed .code qs)
    (h : ps.map Piece.shape = qs.map Piece.shape) :
    (tokens (render ps)).map Token.shape = (tokens (render qs)).map Token.shape := by
  rw [tokens_pieces hps, tokens_pieces hqs, List.map_append, List.map_append, List.map_flatten,
    List.map_flatten, ← pieceTokens_shape, h, pieceTokens_shape, ← modeAfter_shape, h,
    modeAfter_shape]

/-! ### One token after another -/

/-- The tokens of a text from its start, and what is being read at its end. -/
structure Lexes (s : List UInt8) (m : Mode) (ts : List Token) : Prop where
  clean : clean s = true
  lexed : run .code s = (m, ts)

/-- An identifier or a keyword. -/
structure IsWord (w : List UInt8) : Prop where
  starts : w.head?.any isIdentStart = true
  all : ∀ c ∈ w, isIdent c = true

/-- A number without a point and without a sign. -/
structure IsNumber (w : List UInt8) : Prop where
  starts : w.head?.any isDigit = true
  all : ∀ c ∈ w, isIdent c = true

section lexes

variable {s t w b : List UInt8} {m m' : Mode} {ts us : List Token}

theorem Lexes.nil : Lexes [] .code [] := ⟨rfl, rfl⟩

theorem Lexes.code (h : Lexes s m ts) (hb : CLexer.clean b = true) (hrun : run m b = (m', us)) :
    Lexes (s ++ b) m' (ts ++ us) := by
  refine ⟨clean_append h.clean hb, ?_⟩
  rw [run_append, h.lexed, hrun]

theorem Lexes.append (h : Lexes s .code ts) (ht : Lexes t m us) : Lexes (s ++ t) m (ts ++ us) :=
  h.code ht.clean ht.lexed

theorem Lexes.flatMap {α : Type*} {xs : List α} {text : α → List UInt8} {toks : α → List Token}
    (h : ∀ x ∈ xs, Lexes (text x) .code (toks x)) :
    Lexes (xs.flatMap text) .code (xs.flatMap toks) := by
  induction xs with
  | nil => exact Lexes.nil
  | cons x xs ih =>
    obtain ⟨hx, hxs⟩ := List.forall_mem_cons.mp h
    rw [List.flatMap_cons, List.flatMap_cons]
    exact hx.append (ih hxs)

theorem Lexes.tokens (h : Lexes s .code ts) : tokens s = ts := by
  rw [CLexer.tokens, splice_of_clean h.clean, h.lexed]
  exact List.append_nil ts

theorem start_table : ∀ n < 256,
    (isIdentStart (UInt8.ofNat n) = true →
      start (UInt8.ofNat n) = (.word [UInt8.ofNat n], [])) ∧
    (isDigit (UInt8.ofNat n) = true →
      start (UInt8.ofNat n) = (.number [UInt8.ofNat n], [])) ∧
    (isIdent (UInt8.ofNat n) = true → UInt8.ofNat n ≠ 0x5c ∧ UInt8.ofNat n ≠ 0x0a) := by
  decide +kernel

theorem ident_ne {c : UInt8} (h : isIdent c = true) : c ≠ 0x5c ∧ c ≠ 0x0a := by
  have htable := start_table c.toNat c.toNat_lt
  rw [UInt8.ofNat_toNat] at htable
  exact htable.2.2 h

theorem clean_of_ident (h : ∀ c ∈ w, isIdent c = true) : CLexer.clean w = true :=
  clean_of_not_mem fun hmem => (ident_ne (h _ hmem)).1 rfl

/-- A token that goes on with what can be in an identifier. -/
theorem run_token {mode : List UInt8 → Mode}
    (hstep : ∀ s c, isIdent c = true → step (mode s) c = (mode (s ++ [c]), []))
    (h : ∀ c ∈ t, isIdent c = true) : run (mode s) t = (mode (s ++ t), []) := by
  induction t generalizing s with
  | nil => rw [List.append_nil]; rfl
  | cons c rest ih =>
    obtain ⟨hc, hrest⟩ := List.forall_mem_cons.mp h
    rw [run_cons_silent (hstep s c hc), ih hrest, List.append_assoc, List.singleton_append]

theorem Lexes.token {mode : List UInt8 → Mode} {begins : UInt8 → Bool} (h : Lexes s .code ts)
    (hstart : ∀ c, begins c = true → start c = (mode [c], []))
    (hstep : ∀ s c, isIdent c = true → step (mode s) c = (mode (s ++ [c]), []))
    (hhead : w.head?.any begins = true) (hall : ∀ c ∈ w, isIdent c = true) :
    Lexes (s ++ w) (mode w) ts := by
  have hrun : run .code w = (mode w, []) := by
    cases w with
    | nil => cases hhead
    | cons c rest =>
      have hfirst : step .code c = (mode [c], []) := hstart c hhead
      rw [run_cons_silent hfirst, run_token hstep fun d hd => hall d (.tail c hd)]
      rfl
  have := h.code (clean_of_ident hall) hrun
  rwa [List.append_nil] at this

theorem Lexes.word (h : Lexes s .code ts) (hw : IsWord w) : Lexes (s ++ w) (.word w) ts := by
  refine h.token (fun c hc => ?_) (fun s c hc => ?_) hw.starts hw.all
  · have htable := start_table c.toNat c.toNat_lt
    rw [UInt8.ofNat_toNat] at htable
    exact htable.1 hc
  · rw [step, if_pos hc]

theorem Lexes.number (h : Lexes s .code ts) (hw : IsNumber w) :
    Lexes (s ++ w) (.number w) ts := by
  refine h.token (fun c hc => ?_) (fun s c hc => ?_) hw.starts hw.all
  · have htable := start_table c.toNat c.toNat_lt
    rw [UInt8.ofNat_toNat] at htable
    exact htable.2.1 hc
  · rw [step, if_pos (by rw [hc]; rfl)]

theorem Lexes.comment (h : Lexes s .line ts) (hw : ∀ c ∈ w, isIdent c = true) :
    Lexes (s ++ w) .line ts := by
  have := h.code (clean_of_ident hw) (run_comment fun hmem => (ident_ne (hw _ hmem)).2 rfl)
  rwa [List.append_nil] at this

end lexes

end CLexer
