import Mathlib.Data.List.DropRight
import CheatEngineLinux.Core.TableIntegers
import CheatEngineLinux.Library.Markup

/-!
# Texts in XML

The escapes of `core/ct_file.cpp` and the numbers of the standard library that its XML loader
reads.  A `std::string::find` is a `Markup.cut`: the text before the occurrence and after it.

* `fromCharsInt_intText` — **PROVED**: a number that was written is read back.
* `xmlUnescape_of_escaped` — **PROVED**: an escaped text is read back.
-/

namespace CheatEngine.CtFile

open JsonGrammar (Bytes isDigit)
open Markup (cut)

/-! ### Escapes -/

def xmlEscape (s : Bytes) : Bytes :=
  s.flatMap fun c =>
    if c == 0x26 then lit "&amp;"
    else if c == 0x3c then lit "&lt;"
    else if c == 0x3e then lit "&gt;"
    else if c == 0x22 then lit "&quot;"
    else [c]

def xmlEscapeText (s : Bytes) : Bytes :=
  s.flatMap fun c =>
    if c == 0x26 then lit "&amp;"
    else if c == 0x3c then lit "&lt;"
    else if c == 0x3e then lit "&gt;"
    else [c]

/-- `appendCharacterReference`: the character and the text after the `;`. -/
def characterReference (s : Bytes) : Option (Bytes × Bytes) :=
  if (lit "&#").isPrefixOf s then
    match cut [0x3b] s with
    | none => none
    | some (reference, rest) =>
      if reference.length > 12 then none
      else
        let hex := s[2]? == some 0x78 || s[2]? == some 0x58
        match fromCharsAll (if hex then 16 else 10) (reference.drop (if hex then 3 else 2)) with
        | none => none
        | some cp =>
          if cp = 0 ∨ cp > 0x10ffff ∨ (0xd800 ≤ cp ∧ cp ≤ 0xdfff) then none
          else some (Json.encodeUtf8 cp, rest)
  else none

def namedReference (s : Bytes) : Option (UInt8 × Bytes) :=
  if (lit "&lt;").isPrefixOf s then some (0x3c, s.drop 4)
  else if (lit "&gt;").isPrefixOf s then some (0x3e, s.drop 4)
  else if (lit "&amp;").isPrefixOf s then some (0x26, s.drop 5)
  else if (lit "&quot;").isPrefixOf s then some (0x22, s.drop 6)
  else if (lit "&apos;").isPrefixOf s then some (0x27, s.drop 6)
  else none

/-- The loop of `xmlUnescape`, with the length of the text as fuel. -/
def unescapeLoop : ℕ → Bytes → Bytes
  | 0, _ => []
  | _, [] => []
  | fuel + 1, c :: s =>
    if (lit "<![CDATA[").isPrefixOf (c :: s) then
      match cut (lit "]]>") ((c :: s).drop 9) with
      | none => (c :: s).drop 9
      | some (text, rest) => text ++ unescapeLoop fuel rest
    else if c == 0x26 then
      match characterReference (c :: s) with
      | some (text, rest) => text ++ unescapeLoop fuel rest
      | none =>
        match namedReference (c :: s) with
        | some (b, rest) => b :: unescapeLoop fuel rest
        | none => c :: unescapeLoop fuel s
    else c :: unescapeLoop fuel s

def xmlUnescape (s : Bytes) : Bytes := unescapeLoop s.length s

def isXmlSpace (b : UInt8) : Bool := b == 0x20 || b == 0x09 || b == 0x0d || b == 0x0a

def trimmedXmlText (s : Bytes) : Bytes := (s.dropWhile isXmlSpace).rdropWhile isXmlSpace

/-! ### Numbers -/

/-- The values of `int`. -/
def inInt (n : ℤ) : Bool := decide (-2 ^ 31 ≤ n) && decide (n < 2 ^ 31)

/-- `std::from_chars` for an `int`: the number a text starts with and what is left. -/
def fromCharsInt (s : Bytes) : Option (ℤ × Bytes) :=
  let negative := s.head? == some 0x2d
  let s := if negative then s.tail else s
  let digits := s.takeWhile isDigit
  let n : ℤ := if negative then -(readDigits 10 digits : ℤ) else readDigits 10 digits
  if digits.isEmpty || !inInt n then none else some (n, s.drop digits.length)

/-- `std::stoi` -/
def stoi (text : Bytes) : Option ℤ :=
  let s := text.dropWhile isSpace
  let negative := s.head? == some 0x2d
  let s := if negative || s.head? == some 0x2b then s.tail else s
  let digits := s.takeWhile isDigit
  let n : ℤ := if negative then -(readDigits 10 digits : ℤ) else readDigits 10 digits
  if digits.isEmpty || !inInt n then none else some n

/-- The base that `strtoull` takes for 0, and the digits. -/
def detectBase (s : Bytes) : ℕ × Bytes :=
  match s with
  | 0x30 :: x :: d :: rest =>
    if (x == 0x78 || x == 0x58) && decide (charDigit d < 16) then (16, d :: rest) else (8, s)
  | 0x30 :: _ => (8, s)
  | _ => (10, s)

/-- `std::stoull` with the base 0. -/
def stoullAnyBase (text : Bytes) : Option UInt64 :=
  let s := text.dropWhile isSpace
  let negative := s.head? == some 0x2d
  let s := if negative || s.head? == some 0x2b then s.tail else s
  let (base, s) := detectBase s
  let digits := s.takeWhile fun b => decide (charDigit b < base)
  if digits.isEmpty || decide (readDigits base digits > uint64Max) then none
  else if negative then some (-UInt64.ofNat (readDigits base digits))
  else some (UInt64.ofNat (readDigits base digits))

/-! ### Numbers that were written -/

section digits

variable (n : ℕ)

theorem isDigit_of_mem {b : UInt8} (h : b ∈ digitsText 10 n) : isDigit b = true := by
  obtain ⟨d, hd, rfl⟩ := mem_digitsText (by decide) (by decide) h
  exact isDigit_digitByte hd

theorem takeWhile_digitsText : (digitsText 10 n).takeWhile isDigit = digitsText 10 n :=
  List.takeWhile_eq_self_iff.mpr fun _ => isDigit_of_mem n

theorem digitsText_first : ∃ b tail, digitsText 10 n = b :: tail ∧ isSpace b = false ∧ b ≠ 0x2d ∧ b ≠ 0x2b := by
  have hfacts : ∀ d < 10, isSpace (digitByte d) = false ∧ digitByte d ≠ 0x2d ∧ digitByte d ≠ 0x2b := by decide
  obtain ⟨b, tail, htext⟩ := List.exists_cons_of_ne_nil (@digitsText_ne_nil 10 n)
  obtain ⟨d, hd, hb⟩ := @mem_digitsText 10 n (by decide) (by decide) b (by rw [htext]; simp)
  exact ⟨b, tail, htext, hb ▸ hfacts d hd⟩

end digits

theorem fromCharsInt_intText {n : ℤ} (h : inInt n = true) : fromCharsInt (intText n) = some (n, []) := by
  obtain ⟨b, tail, htext, -, hminus, -⟩ := digitsText_first n.natAbs
  have hhead : ((digitsText 10 n.natAbs).head? == some 0x2d) = false := by
    rw [htext]
    simpa using hminus
  have hempty : (digitsText 10 n.natAbs).isEmpty = false := by
    rw [htext]
    rfl
  have hread := @readDigits_digitsText 10 n.natAbs (by decide) (by decide)
  unfold fromCharsInt intText
  by_cases hneg : n < 0
  · simp [if_pos hneg, takeWhile_digitsText, hempty, hread, abs_of_neg hneg, h]
  · have hvalue : (n.natAbs : ℤ) = n := by omega
    simp [if_neg hneg, hhead, takeWhile_digitsText, hempty, hread, hvalue, h]

/-! ### Reading back what was escaped -/

/-- A text and what it is an escape of. -/
inductive Escaped : Bytes → Bytes → Prop
  | nil : Escaped [] []
  | plain {x s : Bytes} (c : UInt8) : c ≠ 0x26 → c ≠ 0x3c → Escaped x s → Escaped (c :: x) (c :: s)
  | amp {x s : Bytes} : Escaped x s → Escaped (lit "&amp;" ++ x) (0x26 :: s)
  | lt {x s : Bytes} : Escaped x s → Escaped (lit "&lt;" ++ x) (0x3c :: s)
  | gt {x s : Bytes} : Escaped x s → Escaped (lit "&gt;" ++ x) (0x3e :: s)
  | quot {x s : Bytes} : Escaped x s → Escaped (lit "&quot;" ++ x) (0x22 :: s)

theorem escaped_xmlEscapeText (s : Bytes) : Escaped (xmlEscapeText s) s := by
  induction s with
  | nil => exact .nil
  | cons c s ih =>
    unfold xmlEscapeText at ih ⊢
    rw [List.flatMap_cons]
    split
    · next h => exact eq_of_beq h ▸ .amp ih
    split
    · next h => exact eq_of_beq h ▸ .lt ih
    split
    · next h => exact eq_of_beq h ▸ .gt ih
    · next hamp hlt _ =>
      exact .plain c (by simpa using hamp) (by simpa using hlt) ih

/-- One turn of the loop at a named reference `y`. -/
theorem unescapeLoop_named {x y s : Bytes} {b : UInt8} (hhead : y.head? = some 0x26)
    (hhash : (lit "&#").isPrefixOf (y ++ x) = false) (hname : namedReference (y ++ x) = some (b, x))
    (h : ∀ fuel, x.length ≤ fuel → unescapeLoop fuel x = s) (fuel : ℕ)
    (hfuel : (y ++ x).length ≤ fuel) : unescapeLoop fuel (y ++ x) = b :: s := by
  obtain ⟨c, y, rfl⟩ := List.exists_cons_of_ne_nil (show y ≠ [] by rintro rfl; cases hhead)
  cases hhead
  rw [List.cons_append, List.length_cons, List.length_append] at hfuel
  obtain ⟨fuel, rfl⟩ := Nat.exists_eq_succ_of_ne_zero (show fuel ≠ 0 by omega)
  have hcdata : (lit "<![CDATA[").isPrefixOf (0x26 :: (y ++ x)) = false := rfl
  have hreference : characterReference (0x26 :: (y ++ x)) = none := by
    rw [List.cons_append] at hhash
    rw [characterReference, hhash]
    rfl
  rw [List.cons_append] at hname ⊢
  rw [Nat.succ_eq_add_one, unescapeLoop, hcdata, hreference, hname]
  simp [h fuel (by omega)]

theorem xmlUnescape_of_escaped {x s : Bytes} (h : Escaped x s) : xmlUnescape x = s := by
  suffices hall : ∀ fuel, x.length ≤ fuel → unescapeLoop fuel x = s from hall _ (Nat.le_refl _)
  induction h with
  | nil =>
    intro fuel _
    cases fuel <;> rfl
  | @plain x s c hamp hlt _ ih =>
    intro fuel hfuel
    rw [List.length_cons] at hfuel
    obtain ⟨fuel, rfl⟩ := Nat.exists_eq_succ_of_ne_zero (show fuel ≠ 0 by omega)
    have hcdata : (lit "<![CDATA[").isPrefixOf (c :: x) = false := by
      show (0x3c == c && _) = false
      rw [Bool.and_eq_false_iff]
      exact Or.inl (by simpa using Ne.symm hlt)
    rw [Nat.succ_eq_add_one, unescapeLoop, hcdata, if_neg (by simp), if_neg (by simpa using hamp),
      ih fuel (by omega)]
  | amp _ ih => exact unescapeLoop_named rfl rfl rfl ih
  | lt _ ih => exact unescapeLoop_named rfl rfl rfl ih
  | gt _ ih => exact unescapeLoop_named rfl rfl rfl ih
  | quot _ ih => exact unescapeLoop_named rfl rfl rfl ih

end CheatEngine.CtFile
