import CheatEngineLinux.Core.ExpressionChain

/-!
# Operands of address expressions

The numbers and names that may stand in an address expression, and what the parser
(`core/expression.cpp`) makes of one where a blank, an operator or nothing follows.

* `resolveToken_word`, `resolveToken_star` — **PROVED**: a bare word is a number or a name, and none
  that goes on over a `*` is either;
* `moduleLength_spec` — **PROVED**: the longest module name that stands in the text is found;
* `factor_number`, `factor_quoted` — **PROVED**: a number is read whatever the symbols are called,
  and what stands in quotes is a name;
* `factor_leaf` — **PROVED**: an operand is read as its value, up to the blanks after it.
-/

namespace CheatEngine.Expression

open JsonGrammar (Bytes)
open CtFile (isBlank readDigits uint64Max)

/-! ### Operands -/

/-- The digits of a number below `2^64`. -/
structure Digits (base : ℕ) where
  text : Bytes
  nonempty : text.isEmpty = false
  valid : text.all (if base = 16 then isXDigit else isDigit) = true
  fits : readDigits base text ≤ uint64Max

def Digits.value {base : ℕ} (d : Digits base) : UInt64 := UInt64.ofNat (readDigits base d.text)

theorem Digits.number_text {base : ℕ} (d : Digits base) : number d.text base = some d.value := by
  rw [number, d.nonempty, if_neg Bool.false_ne_true, if_pos d.valid, if_pos d.fits]
  rfl

/-- A quote or a bracket. -/
def isMark (b : UInt8) : Bool := b == 0x22 || b == 0x27 || b == 0x5b || b == 0x5d

/-- A character of a name: no operator, blank, quote or bracket. -/
def isNameChar (b : UInt8) : Bool := !endsToken b && !isMark b

theorem isNameChar_iff {b : UInt8} :
    isNameChar b = true ↔ endsToken b = false ∧ isMark b = false := by
  rw [isNameChar, Bool.and_eq_true, Bool.not_eq_true', Bool.not_eq_true']

def beginsNumber (s : Bytes) : Bool :=
  s.head? == some 0x23 || s.take 2 == [0x30, 0x78] || s.take 2 == [0x30, 0x58]

/-- A bare name. -/
structure Identifier where
  text : Bytes
  plain : text.all isNameChar = true
  notHex : text.all isXDigit = false
  notNumber : beginsNumber text = false

structure QuotedName where
  text : Bytes
  plain : text.all (!isMark ·) = true

inductive Operand where
  | hex (upper : Bool) (d : Digits 16)
  | decimal (d : Digits 10)
  | bare (d : Digits 16)
  | identifier (name : Identifier)
  | quoted (single : Bool) (name : QuotedName)

def quoteMark (single : Bool) : UInt8 := if single then 0x27 else 0x22

def Operand.text : Operand → Bytes
  | .hex upper d => 0x30 :: (if upper then 0x58 else 0x78) :: d.text
  | .decimal d => 0x23 :: d.text
  | .bare d => d.text
  | .identifier name => name.text
  | .quoted single name => quoteMark single :: (name.text ++ [quoteMark single])

/-- The address of a name: that of the symbol, else that of the module. -/
def nameValue (e : ExpressionParser) (name : Bytes) : Option UInt64 :=
  if e.lookup name ≠ 0 then some (e.lookup name) else moduleBase (modules e) name

def loneLetter (s : Bytes) : Bool := s.length == 1 && !s.all isDigit

/-- The value of an operand; a lone hex letter is a name first. -/
def Operand.value (e : ExpressionParser) : Operand → Option UInt64
  | .hex _ d => some d.value
  | .decimal d => some d.value
  | .bare d => if loneLetter d.text then (nameValue e d.text).or (some d.value) else some d.value
  | .identifier name => nameValue e name.text
  | .quoted _ name => nameValue e name.text

/-! ### Resolving a token -/

section token

variable (e : ExpressionParser)

theorem resolveToken_hex (upper : Bool) (d : Digits 16) :
    resolveToken e (Operand.hex upper d).text = some d.value := by
  rw [Operand.text, resolveToken]
  cases upper <;> simpa using d.number_text

theorem resolveToken_decimal (d : Digits 10) :
    resolveToken e (Operand.decimal d).text = some d.value := by
  rw [Operand.text, resolveToken]
  simpa using d.number_text

theorem quoteMark_cases (single : Bool) : quoteMark single = 0x22 ∨ quoteMark single = 0x27 := by
  cases single
  · exact Or.inl rfl
  · exact Or.inr rfl

theorem resolveToken_quoted {q : UInt8} (hq : q = 0x22 ∨ q = 0x27) (name : Bytes) :
    resolveToken e (q :: (name ++ [q])) = nameValue e name := by
  rw [resolveToken, nameValue]
  rcases hq with rfl | rfl <;> simp

theorem isXDigit_nameChar {b : UInt8} (h : isXDigit b = true) :
    isNameChar b = true ∧ b ≠ 0x23 ∧ b ≠ 0x78 ∧ b ≠ 0x58 := by
  have hall : ∀ n < 256, isXDigit (UInt8.ofNat n) = true → isNameChar (UInt8.ofNat n) = true ∧
      UInt8.ofNat n ≠ 0x23 ∧ UInt8.ofNat n ≠ 0x78 ∧ UInt8.ofNat n ≠ 0x58 := by
    decide +kernel
  have hb := hall b.toNat b.toNat_lt
  rw [UInt8.ofNat_toNat] at hb
  exact hb h

theorem beginsNumber_of_hex {s : Bytes} (h : s.all isXDigit = true) : beginsNumber s = false := by
  have hdigit := List.all_eq_true.mp h
  have htake : ∀ b ∈ s.take 2, b ≠ 0x78 ∧ b ≠ 0x58 := fun b hb =>
    (isXDigit_nameChar (hdigit b (List.mem_of_mem_take hb))).2.2
  simp only [beginsNumber, Bool.or_eq_false_iff, beq_eq_false_iff_ne]
  refine ⟨⟨fun hhead => ?_, fun hlower => ?_⟩, fun hupper => ?_⟩
  · exact (isXDigit_nameChar (hdigit _ (List.mem_of_mem_head? hhead))).2.1 rfl
  · exact (htake 0x78 (by simp [hlower])).1 rfl
  · exact (htake 0x58 (by simp [hupper])).2 rfl

/-- The first tests of `resolveToken` let a bare word pass. -/
theorem resolveToken_word {c : UInt8} {rest : Bytes} (hquote : isMark c = false)
    (hnumber : beginsNumber (c :: rest) = false) :
    resolveToken e (c :: rest) =
      if ((c :: rest).all isXDigit && (!rest.isEmpty || (c :: rest).all isDigit)) = true then
        number (c :: rest) 16
      else if e.lookup (c :: rest) ≠ 0 then some (e.lookup (c :: rest))
      else
        match moduleBase (modules e) (c :: rest) with
        | some base => some base
        | none => if (c :: rest).all isXDigit then number (c :: rest) 16 else none := by
  simp only [isMark, Bool.or_eq_false_iff] at hquote
  obtain ⟨⟨⟨hdouble, hsingle⟩, -⟩, -⟩ := hquote
  simp only [beginsNumber, Bool.or_eq_false_iff, List.head?_cons] at hnumber
  obtain ⟨⟨hhash, hlower⟩, hupper⟩ := hnumber
  have hhash' : (c == 0x23) = false := by simpa using hhash
  have hmark : (c == 0x30 && (rest.head? == some 0x78 || rest.head? == some 0x58)) = false := by
    cases rest with
    | nil => simp
    | cons d rest =>
      simp only [List.take_succ_cons, List.take_zero, beq_eq_false_iff_ne, ne_eq, List.cons.injEq,
        and_true] at hlower hupper
      simp only [List.head?_cons, Bool.and_eq_false_iff, beq_eq_false_iff_ne, Bool.or_eq_false_iff,
        ne_eq, Option.some.injEq]
      by_cases hc : c = 0x30
      · exact Or.inr ⟨fun h => hlower ⟨hc, h⟩, fun h => hupper ⟨hc, h⟩⟩
      · exact Or.inl hc
  rw [resolveToken]
  cases moduleBase (modules e) (c :: rest) <;>
    simp only [hdouble, hsingle, hhash', hmark, Bool.or_self, Bool.false_and, Bool.false_eq_true,
      if_false]

theorem resolveToken_bare (d : Digits 16) :
    resolveToken e (Operand.bare d).text = (Operand.bare d).value e := by
  have hnumber := d.number_text
  have hall : d.text.all isXDigit = true := d.valid
  rw [Operand.text, Operand.value]
  cases htext : d.text with
  | nil =>
    have hne := d.nonempty
    rw [htext] at hne
    cases hne
  | cons c rest =>
    rw [htext] at hall hnumber
    have hc : isXDigit c = true := (List.all_eq_true.mp hall) c (List.mem_cons_self ..)
    have hmark := (isNameChar_iff.mp (isXDigit_nameChar hc).1).2
    rw [resolveToken_word e hmark (beginsNumber_of_hex hall), hall, Bool.true_and, hnumber,
      loneLetter, nameValue]
    cases rest with
    | cons b rest => simp
    | nil =>
      cases hdigit : [c].all isDigit with
      | true => simp
      | false =>
        by_cases hlookup : e.lookup [c] = 0
        · cases moduleBase (modules e) [c] <;> simp [hlookup]
        · simp [hlookup]

theorem resolveToken_identifier (name : Identifier) :
    resolveToken e name.text = nameValue e name.text := by
  cases htext : name.text with
  | nil =>
    have h := name.notHex
    rw [htext] at h
    cases h
  | cons c rest =>
    have hplain := name.plain
    have hbegins := name.notNumber
    have hhex := name.notHex
    rw [htext] at hplain hbegins hhex
    have hmark := (isNameChar_iff.mp (List.all_eq_true.mp hplain c (List.mem_cons_self ..))).2
    rw [resolveToken_word e hmark hbegins, hhex, nameValue]
    simp only [Bool.false_and, Bool.false_eq_true, if_false]
    cases moduleBase (modules e) (c :: rest) <;> rfl

end token

/-! ### The end of a token -/

def isOperator (b : UInt8) : Bool := b == 0x2b || b == 0x2d || b == 0x2a

theorem endsToken_eq (b : UInt8) : endsToken b = (isOperator b || isBlank b) := rfl

/-- What may stand after an operand: nothing but blanks, or an operator. -/
def Follows (r : Bytes) : Prop := ∀ b ∈ (skipSpaces r).head?, isOperator b = true

theorem skipSpaces_blanks {blanks : Bytes} (h : ∀ b ∈ blanks, isBlank b = true) (s : Bytes) :
    skipSpaces (blanks ++ s) = skipSpaces s := by
  rw [skipSpaces, List.dropWhile_append_of_pos h]
  rfl

theorem skipSpaces_append {s : Bytes} (h : skipSpaces s ≠ []) (t : Bytes) :
    skipSpaces (s ++ t) = skipSpaces s ++ t := by
  rw [skipSpaces] at h
  rw [skipSpaces, List.dropWhile_append, if_neg (by simpa using h)]
  rfl

theorem skipSpaces_skipSpaces (s : Bytes) : skipSpaces (skipSpaces s) = skipSpaces s :=
  List.dropWhile_idempotent isBlank s

theorem Follows.head {r : Bytes} (h : Follows r) : ∀ b ∈ r.head?, endsToken b = true := by
  cases r with
  | nil => nofun
  | cons c r =>
    intro b hb
    obtain rfl := Option.some.inj hb
    rw [endsToken_eq]
    cases hblank : isBlank c with
    | true => rw [Bool.or_true]
    | false =>
      have hskip : skipSpaces (c :: r) = c :: r := skipSpaces_of_head fun b hb => by
        rw [← Option.some.inj hb, hblank]
      rw [Follows, hskip] at h
      rw [h c rfl, Bool.true_or]

section token

variable {token r : Bytes}

/-- The characters of a number or of a bare name. -/
structure IsToken (token : Bytes) : Prop where
  nonempty : token ≠ []
  chars : ∀ b ∈ token, isNameChar b = true

theorem IsToken.ends (ht : IsToken token) : ∀ b ∈ token, endsToken b = false :=
  fun b hb => (isNameChar_iff.mp (ht.chars b hb)).1

theorem takeWhile_append_of_head {α : Type} {p : α → Bool} {s t : List α} (hs : ∀ b ∈ s, p b = true)
    (ht : ∀ b ∈ t.head?, p b = false) : (s ++ t).takeWhile p = s := by
  rw [List.takeWhile_append_of_pos hs]
  cases t with
  | nil => rw [List.takeWhile_nil, List.append_nil]
  | cons c t => rw [List.takeWhile_cons_of_neg (by simp [ht c rfl]), List.append_nil]

theorem takeWhile_token (ht : IsToken token) (hr : Follows r) :
    (token ++ r).takeWhile (!endsToken ·) = token :=
  takeWhile_append_of_head (fun b hb => by rw [ht.ends b hb]; rfl) fun b hb => by rw [hr.head b hb]; rfl

theorem isOperator_eq (b : UInt8) : (b != 0x2b && b != 0x2d && b != 0x2a) = !isOperator b := by
  rw [isOperator, Bool.not_or, Bool.not_or]
  rfl

theorem takeWhile_operand (ht : IsToken token) (hr : Follows r) :
    (token ++ r).takeWhile (fun b => b != 0x2b && b != 0x2d && b != 0x2a) =
      token ++ r.takeWhile isBlank := by
  simp only [isOperator_eq]
  have hsplit : token ++ r = (token ++ r.takeWhile isBlank) ++ skipSpaces r := by
    rw [List.append_assoc, skipSpaces, List.takeWhile_append_dropWhile]
  rw [hsplit]
  refine takeWhile_append_of_head (fun b hb => ?_) fun b hb => by rw [hr b hb]; rfl
  rcases List.mem_append.mp hb with hb | hb
  · have hends := ht.ends b hb
    rw [endsToken_eq, Bool.or_eq_false_iff] at hends
    rw [hends.1]
    rfl
  · have hblank := List.mem_takeWhile_imp hb
    simp only [isBlank, Bool.or_eq_true, beq_iff_eq] at hblank
    rcases hblank with rfl | rfl <;> rfl

theorem drop_operand (token r : Bytes) :
    (token ++ r).drop (token ++ r.takeWhile isBlank).length = skipSpaces r := by
  rw [List.length_append, List.drop_length_add_append]
  have hsplit := @List.takeWhile_append_dropWhile _ isBlank r
  have hdrop := congrArg (List.drop (r.takeWhile isBlank).length) hsplit
  rw [List.drop_left] at hdrop
  exact hdrop.symm

theorem trim_append {s : Bytes} (hs : CtFile.Trimmed s) (hne : s ≠ []) (t : Bytes) :
    trim (s ++ t) = s ++ t.rdropWhile isBlank := by
  have hfront : (s ++ t).dropWhile isBlank = s ++ t := by
    obtain ⟨c, s, rfl⟩ := List.exists_cons_of_ne_nil hne
    exact List.dropWhile_cons_of_neg (by simpa using hs.1 c rfl)
  have hback : s.reverse.dropWhile isBlank = s.reverse := by
    have hself : s.rdropWhile isBlank = s := by
      rw [List.rdropWhile_eq_self_iff]
      intro hne
      simpa using hs.2 _ (List.getLast?_eq_some_getLast hne)
    rw [← List.reverse_reverse (s.reverse.dropWhile isBlank)]
    exact congrArg List.reverse hself
  rw [trim, hfront, List.rdropWhile, List.reverse_append, List.dropWhile_append, hback,
    List.rdropWhile]
  split
  · next hempty => rw [List.isEmpty_iff.mp hempty, List.reverse_reverse, List.reverse_nil,
      List.append_nil]
  · rw [List.reverse_append, List.reverse_reverse]

theorem trim_of_trimmed {s blanks : Bytes} (hs : CtFile.Trimmed s) (hne : s ≠ [])
    (hb : ∀ b ∈ blanks, isBlank b = true) : trim (s ++ blanks) = s := by
  rw [trim_append hs hne, List.rdropWhile_eq_nil_iff.mpr hb, List.append_nil]

theorem mem_rdropWhile {α : Type} {p : α → Bool} {a : α} {l : List α} (ha : a ∈ l)
    (hp : p a = false) : a ∈ l.rdropWhile p := by
  rw [List.rdropWhile, List.mem_reverse]
  have hmem : a ∈ l.reverse.takeWhile p ++ l.reverse.dropWhile p := by
    rwa [List.takeWhile_append_dropWhile, List.mem_reverse]
  rcases List.mem_append.mp hmem with h | h
  · rw [List.mem_takeWhile_imp h] at hp
    cases hp
  · exact h

theorem IsToken.trimmed (ht : IsToken token) : CtFile.Trimmed token := by
  have hblank : ∀ b ∈ token, isBlank b = false := fun b hb => by
    have hends := ht.ends b hb
    rw [endsToken_eq, Bool.or_eq_false_iff] at hends
    exact hends.2
  exact ⟨fun b hb => hblank b (List.mem_of_mem_head? hb),
    fun b hb => hblank b (List.mem_of_mem_getLast? hb)⟩

theorem trim_operand (ht : IsToken token) : trim (token ++ r.takeWhile isBlank) = token :=
  trim_of_trimmed ht.trimmed ht.nonempty fun _ hb => List.mem_takeWhile_imp hb

end token

/-! ### An operand and what follows -/

section operand

variable (e : ExpressionParser) {token r : Bytes}

def afterBlanks (found : Option (UInt64 × Bytes)) : Option (UInt64 × Bytes) :=
  found.map fun a => (a.1, skipSpaces a.2)

theorem named_token (ht : IsToken token) (hr : Follows r)
    (hmodule : moduleLength (token ++ r) (if plainNumber (token ++ r) then [] else modules e) = 0)
    (hstarred : starred e (token ++ r) = none) :
    named e (token ++ r) = (resolveToken e token).map fun v => (v, skipSpaces r) := by
  rw [named]
  simp only [hmodule, hstarred, takeWhile_operand ht hr, trim_operand ht, drop_operand, ne_eq,
    not_true, if_false]

theorem named_number (ht : IsToken token) (hr : Follows r)
    (hplain : plainNumber (token ++ r) = true) :
    named e (token ++ r) = (resolveToken e token).map fun v => (v, skipSpaces r) := by
  refine named_token e ht hr ?_ ?_
  · rw [hplain]
    rfl
  · rw [starred]
    simp only [hplain, Bool.not_true, Bool.false_and, Bool.false_eq_true, if_false]

theorem plainNumber_token (ht : IsToken token) (hr : Follows r) :
    plainNumber (token ++ r) = plainNumber token := by
  have htoken := takeWhile_token ht hr
  have halone := takeWhile_token ht (show Follows [] from nofun)
  rw [List.append_nil] at halone
  rw [plainNumber, plainNumber]
  simp only [htoken, halone]

/-- No operator, bracket, quote or blank in the names of symbols and modules. -/
structure PlainNames (e : ExpressionParser) : Prop where
  symbols : ∀ name, e.lookup name ≠ 0 → name.all isNameChar = true
  modules : ∀ m ∈ modules e, m.1.all isNameChar = true

theorem endsToken_toLower (b : UInt8) : endsToken (toLower b) = endsToken b := by
  have hall : ∀ n < 256, endsToken (toLower (UInt8.ofNat n)) = endsToken (UInt8.ofNat n) := by
    decide +kernel
  have hb := hall b.toNat b.toNat_lt
  rwa [UInt8.ofNat_toNat] at hb

theorem endsToken_of_sameName {s name : Bytes} (h : sameNameIgnoringCase s name = true)
    (hname : name.all isNameChar = true) : ∀ b ∈ s, endsToken b = false := by
  intro b hb
  have hmap : s.map toLower = name.map toLower := beq_iff_eq.mp h
  obtain ⟨c, hc, hlower⟩ := List.mem_map.mp (hmap ▸ List.mem_map_of_mem (f := toLower) hb)
  have hends := (isNameChar_iff.mp (List.all_eq_true.mp hname c hc)).1
  rw [← endsToken_toLower, ← hlower, endsToken_toLower, hends]

/-- A module name stands at the head of a text as a whole token, but for the case. -/
structure StandsAt (name s : Bytes) : Prop where
  nonempty : name.isEmpty = false
  length_le : name.length ≤ s.length
  same : sameNameIgnoringCase (s.take name.length) name = true
  ends : (s.drop name.length).head?.all endsToken = true

theorem moduleLength_spec (s : Bytes) (names : List (Bytes × UInt64)) :
    (∀ m ∈ names, StandsAt m.1 s → m.1.length ≤ moduleLength s names) ∧
      (moduleLength s names = 0 ∨
        ∃ m ∈ names, StandsAt m.1 s ∧ moduleLength s names = m.1.length) := by
  induction names using List.reverseRecOn with
  | nil => exact ⟨List.forall_mem_nil _, Or.inl rfl⟩
  | append_singleton names m ih =>
    obtain ⟨hmax, hlen⟩ := ih
    have hstep : moduleLength s (names ++ [m]) =
        if m.1.isEmpty || m.1.length ≤ moduleLength s names || m.1.length > s.length ||
            !sameNameIgnoringCase (s.take m.1.length) m.1 then moduleLength s names
        else if (s.drop m.1.length).head?.all endsToken then m.1.length
        else moduleLength s names := by
      rw [moduleLength, List.foldl_append]
      rfl
    have hold : moduleLength s names = 0 ∨ ∃ m' ∈ names ++ [m], StandsAt m'.1 s ∧
        moduleLength s names = m'.1.length := by
      refine hlen.imp_right ?_
      rintro ⟨m', hm', h⟩
      exact ⟨m', List.mem_append_left _ hm', h⟩
    have hkeep : (StandsAt m.1 s → m.1.length ≤ moduleLength s names) →
        ∀ m' ∈ names ++ [m], StandsAt m'.1 s → m'.1.length ≤ moduleLength s names := by
      intro hm m' hm' hat
      rcases List.mem_append.mp hm' with hm' | hm'
      · exact hmax m' hm' hat
      · rw [List.mem_singleton] at hm'
        subst hm'
        exact hm hat
    rw [hstep]
    split
    · next hskip =>
      refine ⟨hkeep fun hat => ?_, hold⟩
      simp only [Bool.or_eq_true, decide_eq_true_eq, Bool.not_eq_true'] at hskip
      rcases hskip with ((h | h) | h) | h
      · rw [hat.nonempty] at h
        cases h
      · exact h
      · exact absurd hat.length_le (Nat.not_le.mpr h)
      · rw [hat.same] at h
        cases h
    · next hno =>
      simp only [Bool.or_eq_true, decide_eq_true_eq, Bool.not_eq_true', not_or, not_lt, not_le,
        Bool.not_eq_false, Bool.not_eq_true] at hno
      obtain ⟨⟨⟨hempty, hlonger⟩, hle⟩, hsame⟩ := hno
      split
      · next hends =>
        refine ⟨fun m' hm' hat => ?_, Or.inr ⟨m, by simp, ⟨hempty, hle, hsame, hends⟩, rfl⟩⟩
        rcases List.mem_append.mp hm' with hm' | hm'
        · exact Nat.le_trans (hmax m' hm' hat) (Nat.le_of_lt hlonger)
        · rw [List.mem_singleton.mp hm']
      · next hends => exact ⟨hkeep fun hat => absurd hat.ends hends, hold⟩

theorem moduleLength_token (ht : IsToken token) (hr : Follows r) {names : List (Bytes × UInt64)}
    (hnames : ∀ m ∈ names, m.1.all isNameChar = true) :
    moduleLength (token ++ r) names = 0 ∨ moduleLength (token ++ r) names = token.length := by
  refine (moduleLength_spec (token ++ r) names).2.imp_right fun ⟨m, hm, hat, hlen⟩ => ?_
  have htake : (token ++ r).takeWhile (!endsToken ·) = (token ++ r).take m.1.length := by
    conv_lhs => rw [← List.take_append_drop m.1.length (token ++ r)]
    refine takeWhile_append_of_head (fun b hb => ?_) fun b hb => ?_
    · rw [endsToken_of_sameName hat.same (hnames m hm) b hb]
      rfl
    · have hends := hat.ends
      rw [Option.mem_def.mp hb, Option.all_some] at hends
      rw [hends]
      rfl
  rw [takeWhile_token ht hr] at htake
  rw [hlen, htake, List.length_take, Nat.min_eq_left hat.length_le]

/-- A text with `*` in it names nothing. -/
theorem nameValue_star (hplain : PlainNames e) {name : Bytes} (hstar : 0x2a ∈ name) :
    e.lookup name = 0 ∧ moduleBase (modules e) name = none := by
  have hnone : ∀ s : Bytes, s.all isNameChar = true → 0x2a ∉ s := fun s hs h =>
    absurd (List.all_eq_true.mp hs _ h) (by decide)
  refine ⟨by_contra fun h => hnone name (hplain.symbols name h) hstar, ?_⟩
  have hexact : (modules e).find? (·.1 == name) = none := by
    rw [List.find?_eq_none]
    intro m hm h
    rw [← beq_iff_eq.mp h] at hstar
    exact hnone m.1 (hplain.modules m hm) hstar
  have hcase : (modules e).find? (sameNameIgnoringCase ·.1 name) = none := by
    rw [List.find?_eq_none]
    intro m hm h
    have hmap : m.1.map toLower = name.map toLower := beq_iff_eq.mp h
    obtain ⟨b, hb, hlower⟩ := List.mem_map.mp (hmap ▸ List.mem_map_of_mem (f := toLower) hstar)
    have hchar := List.all_eq_true.mp (hplain.modules m hm) b hb
    rw [isNameChar, ← endsToken_toLower, hlower] at hchar
    exact absurd hchar (by simp only [show endsToken (toLower 0x2a) = true from by decide,
      Bool.not_true, Bool.false_and]; decide)
  rw [moduleBase, hexact, hcase]
  rfl

theorem Identifier.isToken (name : Identifier) : IsToken name.text := by
  refine ⟨fun hnil => ?_, fun b hb => ?_⟩
  · have h := name.notHex
    rw [hnil] at h
    cases h
  · exact List.all_eq_true.mp name.plain b hb

/-- No text that a name begins and that has `*` in it is an operand. -/
theorem resolveToken_star (hplain : PlainNames e) (name : Identifier) {t : Bytes}
    (hstar : 0x2a ∈ t) : resolveToken e (name.text ++ t) = none := by
  obtain ⟨hlookup, hmodule⟩ := nameValue_star e hplain
    (List.mem_append_right name.text hstar)
  have hhex : (name.text ++ t).all isXDigit = false := by
    rw [List.all_append, name.notHex, Bool.false_and]
  have hnumber := name.notNumber
  have hnotHex := name.notHex
  cases htext : name.text with
  | nil => exact absurd htext name.isToken.nonempty
  | cons c rest =>
    have hchar := isNameChar_iff.mp (List.all_eq_true.mp name.plain c (htext ▸ List.mem_cons_self ..))
    rw [htext] at hlookup hmodule hhex hnumber hnotHex
    have hbegins : beginsNumber (c :: (rest ++ t)) = false := by
      cases rest with
      | cons b rest => exact hnumber
      | nil =>
        simp only [beginsNumber, List.head?_cons, Bool.or_eq_false_iff] at hnumber ⊢
        refine ⟨⟨hnumber.1.1, ?_⟩, ?_⟩ <;>
        · rw [beq_eq_false_iff_ne]
          intro h
          have hc := List.take_succ_cons ▸ h
          obtain rfl : c = 0x30 := by simpa using congrArg List.head? h
          cases hnotHex
    rw [List.cons_append] at hlookup hmodule hhex ⊢
    rw [resolveToken_word e hchar.2 hbegins, hhex, hmodule, hlookup]
    rfl

/-- Whatever of the text is tried as a symbol, it holds `*`. -/
theorem mem_take_of_spanEnds {s : Bytes} {stop : ℕ}
    (hspan : (s.takeWhile fun b => b != 0x2b && b != 0x2d).contains 0x2a = true)
    (hstop : stop ∈ spanEnds (s.takeWhile fun b => b != 0x2b && b != 0x2d)) :
    0x2a ∈ s.take stop := by
  have hfront := List.takeWhile_prefix (fun b : UInt8 => b != 0x2b && b != 0x2d) (l := s)
  generalize s.takeWhile (fun b => b != 0x2b && b != 0x2d) = span at *
  have htake : span = s.take span.length := List.prefix_iff_eq_take.mp hfront
  rcases List.mem_cons.mp hstop with rfl | hstop
  · rw [← htake]
    exact List.contains_iff_mem.mp hspan
  · have hstar := (List.mem_filter.mp (List.mem_reverse.mp hstop)).2
    rw [Bool.and_eq_true] at hstar
    have hmem := List.contains_iff_mem.mp hstar.2
    rw [htake, List.take_take, Nat.min_comm, ← List.take_take] at hmem
    exact List.mem_of_mem_take hmem

theorem starred_identifier (hplain : PlainNames e) (name : Identifier) (r : Bytes) :
    starred e (name.text ++ r) = none := by
  have htoken := name.isToken
  rw [starred]
  split
  · next hspan =>
    rw [Bool.and_eq_true] at hspan
    rw [List.findSome?_eq_none_iff]
    intro stop hstop
    have hstar := mem_take_of_spanEnds hspan.2 hstop
    rw [List.take_append] at hstar ⊢
    have hnot : 0x2a ∉ name.text.take stop := fun h => by
      have hends := htoken.ends _ (List.mem_of_mem_take h)
      cases hends
    have hrest := (List.mem_append.mp hstar).resolve_left hnot
    have hle : name.text.length ≤ stop := by
      by_contra hlt
      rw [show stop - name.text.length = 0 by omega] at hrest
      cases hrest
    rw [List.take_of_length_le hle, trim_append htoken.trimmed htoken.nonempty,
      resolveToken_star e hplain name (mem_rdropWhile hrest (by decide))]
    rfl
  · rfl

theorem plainNumber_eq (ht : IsToken token) : plainNumber token =
    (token.head? == some 0x23 ||
      (if token.take 2 == [0x30, 0x78] || token.take 2 == [0x30, 0x58] then token.drop 2
        else token).all isXDigit) := by
  have halone := takeWhile_token ht (show Follows [] from nofun)
  rw [List.append_nil] at halone
  have hempty : token.isEmpty = false := by simpa using ht.nonempty
  rw [plainNumber]
  simp only [halone, hempty, Bool.not_false, Bool.true_and]

theorem named_identifier (hplain : PlainNames e) (name : Identifier) (hr : Follows r) :
    afterBlanks (named e (name.text ++ r)) =
      (nameValue e name.text).map fun v => (v, skipSpaces r) := by
  have htoken := name.isToken
  have hnumber : plainNumber (name.text ++ r) = false := by
    have hbegins := name.notNumber
    simp only [beginsNumber, Bool.or_eq_false_iff] at hbegins
    rw [plainNumber_token htoken hr, plainNumber_eq htoken, hbegins.1.1, hbegins.1.2, hbegins.2]
    exact name.notHex
  have hlength := moduleLength_token htoken hr hplain.modules
  have hresolve := resolveToken_identifier e name
  have hnames : (if plainNumber (name.text ++ r) then [] else modules e) = modules e := by
    rw [hnumber, if_neg Bool.false_ne_true]
  rcases hlength with hzero | hwhole
  · rw [named_token e htoken hr (by rw [hnames, hzero]) (starred_identifier e hplain name r),
      hresolve, afterBlanks, Option.map_map]
    simp only [Function.comp_def, skipSpaces_skipSpaces]
  · -- a module has the name, but for the case
    have hne : name.text.length ≠ 0 := fun h => htoken.nonempty (List.length_eq_zero_iff.mp h)
    have htrim : trim (name.text ++ []) = name.text :=
      trim_of_trimmed htoken.trimmed htoken.nonempty nofun
    rw [List.append_nil] at htrim
    rw [named, hnames]
    simp only [hwhole, hne, ne_eq, not_false_iff, if_true, List.take_left, List.drop_left, htrim,
      hresolve, afterBlanks, Option.map_map, Function.comp_def]

theorem isDigit_isXDigit {b : UInt8} (h : isDigit b = true) : isXDigit b = true := by
  rw [isDigit, Bool.and_eq_true] at h
  rw [isXDigit, h.1, h.2]
  rfl

theorem Digits.isXDigit {base : ℕ} (d : Digits base) : ∀ b ∈ d.text, isXDigit b = true := by
  have hvalid := d.valid
  split at hvalid
  · exact List.all_eq_true.mp hvalid
  · exact fun b hb => isDigit_isXDigit (List.all_eq_true.mp hvalid b hb)

/-- The three ways to write a number. -/
inductive Operand.IsNumber : Operand → Prop
  | hex (upper : Bool) (d : Digits 16) : IsNumber (.hex upper d)
  | decimal (d : Digits 10) : IsNumber (.decimal d)
  | bare (d : Digits 16) : IsNumber (.bare d)

theorem Operand.IsNumber.isToken {o : Operand} (h : o.IsNumber) : IsToken o.text := by
  cases h with
  | hex upper d =>
    refine ⟨List.cons_ne_nil _ _, List.forall_mem_cons.mpr ⟨rfl, List.forall_mem_cons.mpr
      ⟨by cases upper <;> rfl, fun b hb => (isXDigit_nameChar (d.isXDigit b hb)).1⟩⟩⟩
  | decimal d =>
    exact ⟨List.cons_ne_nil _ _, List.forall_mem_cons.mpr
      ⟨rfl, fun b hb => (isXDigit_nameChar (d.isXDigit b hb)).1⟩⟩
  | bare d =>
    refine ⟨fun hnil => ?_, fun b hb => (isXDigit_nameChar (d.isXDigit b hb)).1⟩
    have hne := d.nonempty
    rw [show d.text = [] from hnil] at hne
    cases hne

theorem Operand.IsNumber.plainNumber {o : Operand} (h : o.IsNumber) : plainNumber o.text = true := by
  rw [plainNumber_eq h.isToken]
  cases h with
  | hex upper d =>
    have hall : d.text.all Expression.isXDigit = true := List.all_eq_true.mpr d.isXDigit
    cases upper <;> simpa [Operand.text] using hall
  | decimal d => rfl
  | bare d =>
    have hbegins := beginsNumber_of_hex (List.all_eq_true.mpr d.isXDigit)
    simp only [beginsNumber, Bool.or_eq_false_iff] at hbegins
    rw [Operand.text, hbegins.1.1, hbegins.1.2, hbegins.2]
    exact List.all_eq_true.mpr d.isXDigit

theorem Operand.IsNumber.resolve {o : Operand} (h : o.IsNumber) :
    resolveToken e o.text = o.value e := by
  cases h with
  | hex upper d => exact resolveToken_hex e upper d
  | decimal d => exact resolveToken_decimal e d
  | bare d => exact resolveToken_bare e d

theorem factor_skipSpaces (p : Bytes → Option UInt64) (s : Bytes) :
    factor e p (skipSpaces s) = factor e p s := by
  rw [factor, factor, skipSpaces_skipSpaces]

/-- Numbers and bare names are read by `named`. -/
theorem factor_cons (p : Bytes → Option UInt64) {c : UInt8} (hc : isNameChar c = true)
    (rest : Bytes) : factor e p (c :: rest) = named e (c :: rest) := by
  obtain ⟨hends, hmark⟩ := isNameChar_iff.mp hc
  simp only [endsToken, Bool.or_eq_false_iff] at hends
  simp only [isMark, Bool.or_eq_false_iff] at hmark
  have hskip : skipSpaces (c :: rest) = c :: rest := skipSpaces_of_head fun b hb => by
    rw [← Option.some.inj hb, hends.2]
  rw [factor, hskip]
  simp only [hends, hmark, Bool.or_self, Bool.false_eq_true, if_false]

theorem factor_named (p : Bytes → Option UInt64) {blanks : Bytes}
    (hblanks : ∀ b ∈ blanks, isBlank b = true) (ht : IsToken token)
    (r : Bytes) :
    factor e p (blanks ++ token ++ r) = named e (token ++ r) := by
  obtain ⟨c, rest, rfl⟩ := List.exists_cons_of_ne_nil ht.nonempty
  have hskip : skipSpaces (blanks ++ (c :: rest) ++ r) = c :: rest ++ r := by
    rw [List.append_assoc, skipSpaces_blanks hblanks]
    exact skipSpaces_of_head (fun b hb => by
      rw [← Option.some.inj hb]
      exact ht.trimmed.1 c rfl)
  rw [← factor_skipSpaces, hskip]
  exact factor_cons e p (ht.chars c (List.mem_cons_self ..)) (rest ++ r)

theorem factor_quoted (p : Bytes → Option UInt64) {q : UInt8} (hq : q = 0x22 ∨ q = 0x27)
    {name : Bytes} (hname : q ∉ name) (r : Bytes) :
    factor e p (q :: (name ++ q :: r)) = (nameValue e name).map fun v => (v, r) := by
  have hskip : skipSpaces (q :: (name ++ q :: r)) = q :: (name ++ q :: r) :=
    skipSpaces_of_head fun b hb => by
      rw [← Option.some.inj hb]
      rcases hq with rfl | rfl <;> rfl
  have htake : (name ++ q :: r).takeWhile (· != q) = name := by
    refine takeWhile_append_of_head (fun b hb => ?_) fun b hb => ?_
    · rw [bne_iff_ne]
      exact fun h => hname (h ▸ hb)
    · rw [← Option.some.inj hb, bne_self_eq_false]
  have hlen : name.length ≠ (name ++ q :: r).length := by
    rw [List.length_append, List.length_cons]
    omega
  have hdrop : (name ++ q :: r).drop (name.length + 1) = r := by
    rw [List.drop_length_add_append]
    rfl
  have hkind : (q == 0x2b || q == 0x2d || q == 0x2a) = false ∧ (q == 0x5b) = false ∧
      (q == 0x22 || q == 0x27) = true := by
    rcases hq with rfl | rfl <;> exact ⟨rfl, rfl, rfl⟩
  rw [factor, hskip]
  simp only [hkind, htake, hlen, hdrop, Bool.false_eq_true, if_false, if_true,
    resolveToken_quoted e hq]

theorem factor_number (p : Bytes → Option UInt64) {blanks : Bytes}
    (hblanks : ∀ b ∈ blanks, isBlank b = true) {o : Operand} (h : o.IsNumber) (hr : Follows r) :
    afterBlanks (factor e p (blanks ++ o.text ++ r)) =
      (o.value e).map fun v => (v, skipSpaces r) := by
  rw [factor_named e p hblanks h.isToken, named_number e h.isToken hr
    (by rw [plainNumber_token h.isToken hr, h.plainNumber]), h.resolve, afterBlanks,
    Option.map_map]
  simp only [Function.comp_def, skipSpaces_skipSpaces]

theorem factor_leaf (hplain : PlainNames e) (p : Bytes → Option UInt64) {blanks : Bytes}
    (hblanks : ∀ b ∈ blanks, isBlank b = true) (o : Operand) (hr : Follows r) :
    afterBlanks (factor e p (blanks ++ o.text ++ r)) =
      (o.value e).map fun v => (v, skipSpaces r) := by
  cases o with
  | hex upper d => exact factor_number e p hblanks (.hex upper d) hr
  | decimal d => exact factor_number e p hblanks (.decimal d) hr
  | bare d => exact factor_number e p hblanks (.bare d) hr
  | identifier name =>
    rw [Operand.text, factor_named e p hblanks name.isToken]
    exact named_identifier e hplain name hr
  | quoted single name =>
    have hquote := quoteMark_cases single
    have hmark : isMark (quoteMark single) = true := by
      rcases hquote with h | h <;> rw [h] <;> rfl
    have hname : quoteMark single ∉ name.text := fun h => by
      have hplain := List.all_eq_true.mp name.plain _ h
      rw [hmark] at hplain
      cases hplain
    have hskip : skipSpaces (blanks ++ quoteMark single :: (name.text ++ [quoteMark single]) ++ r)
        = skipSpaces (quoteMark single :: (name.text ++ quoteMark single :: r)) := by
      rw [List.append_assoc, skipSpaces_blanks hblanks]
      simp
    rw [Operand.text, ← factor_skipSpaces, hskip, factor_skipSpaces,
      factor_quoted e p hquote hname, afterBlanks, Option.map_map]
    rfl

end operand

end CheatEngine.Expression
