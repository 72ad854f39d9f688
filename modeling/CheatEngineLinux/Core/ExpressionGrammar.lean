import CheatEngineLinux.Core.ExpressionOperands
import CheatEngineLinux.Library.ArithmeticTree

/-!
# The grammar of address expressions

Sums and differences of products of operands and dereferences, their texts with blanks around the
tokens, and what `ExpressionParser::parse` (`core/expression.cpp`) makes of such a text.

* `termLoop_fuel`, `sumLoop_fuel` — **PROVED**: the length of the text is fuel enough;
* `term_product`, `start_sum` — **PROVED**: products and sums are read as their trees;
* `agrees_exact` — **PROVED**: cutting every step to the width of the addresses is cutting the end;
* `parse_expression` — **PROVED**: the text of a tree evaluates to the value of the tree;
* `parse_not_exact` — **PROVED**: not to the exact one for a lone letter that is a symbol, nor in a
  process with both widths.
-/

namespace CheatEngine.Expression

open JsonGrammar (Bytes)
open CtFile (isBlank readDigits uint64Max)
open ArithmeticTree

/-! ### The loops without fuel -/

section loops

variable (e : ExpressionParser) (p : Bytes → Option UInt64)

theorem term_skipSpaces (s : Bytes) : term e p (skipSpaces s) = term e p s := by
  rw [term, term, factor_skipSpaces]

theorem term_suffix {s : Bytes} {r : UInt64 × Bytes} (h : term e p s = some r) : r.2 <:+ s :=
  (@term_covers e p p (nesting 0 s) (fun _ _ _ h => h) s r (Nat.le_refl _) h).2

theorem skipSpaces_cons_length {s rest : Bytes} {c : UInt8} (h : skipSpaces s = c :: rest) :
    rest.length < s.length := by
  have hle := (skipSpaces_suffix s).length_le
  rw [h, List.length_cons] at hle
  exact hle

theorem termLoop_fuel {n m : ℕ} {v : UInt64} {s : Bytes} (hn : s.length < n) (hm : s.length < m) :
    termLoop e p n v s = termLoop e p m v s := by
  induction n generalizing m v s with
  | zero => exact absurd hn (Nat.not_lt_zero _)
  | succ n ih =>
    obtain ⟨m, rfl⟩ := Nat.exists_eq_succ_of_ne_zero (Nat.ne_of_gt (Nat.zero_lt_of_lt hm))
    rw [termLoop, termLoop]
    split
    · next rest hskip =>
      have hlt := skipSpaces_cons_length hskip
      cases hfactor : factor e p rest with
      | none => rfl
      | some a =>
        have hle := (factor_suffix e hfactor).length_le
        exact ih (by omega) (by omega)
    · rfl

/-- The loop of `term` on a text. -/
def termRest (v : UInt64) (s : Bytes) : Option (UInt64 × Bytes) := termLoop e p (s.length + 1) v s

theorem term_eq (s : Bytes) : term e p s = (factor e p s).bind fun a => termRest e p a.1 a.2 := rfl

theorem termRest_star {v : UInt64} {s rest : Bytes} (h : skipSpaces s = 0x2a :: rest) :
    termRest e p v s =
      (factor e p rest).bind fun a => termRest e p (combine e v a.1 0x2a) a.2 := by
  have hlt := skipSpaces_cons_length h
  rw [termRest, termLoop, h]
  refine Option.bind_congr fun a ha => ?_
  have hle := (factor_suffix e ha).length_le
  exact termLoop_fuel e p (by omega) (Nat.lt_succ_self _)

theorem termRest_done {v : UInt64} {s : Bytes} (h : ∀ b ∈ (skipSpaces s).head?, b ≠ 0x2a) :
    termRest e p v s = some (v, s) := by
  rw [termRest, termLoop]
  split
  · next rest hskip =>
    rw [hskip] at h
    exact absurd rfl (h _ rfl)
  · rfl

theorem sumLoop_fuel {n m : ℕ} {v : UInt64} {op : UInt8} {s : Bytes} (hn : s.length < n)
    (hm : s.length < m) : sumLoop e p n v op s = sumLoop e p m v op s := by
  induction n generalizing m v op s with
  | zero => exact absurd hn (Nat.not_lt_zero _)
  | succ n ih =>
    obtain ⟨m, rfl⟩ := Nat.exists_eq_succ_of_ne_zero (Nat.ne_of_gt (Nat.zero_lt_of_lt hm))
    rw [sumLoop, sumLoop]
    refine Option.bind_congr fun a ha => ?_
    have hle := (term_suffix e p ha).length_le
    dsimp only
    split
    · rfl
    · next c rest hskip =>
      have hlt := skipSpaces_cons_length hskip
      rw [@ih m _ c rest (by omega) (by omega)]

/-- The loop of `parseImpl` on a text. -/
def sumRest (v : UInt64) (op : UInt8) (s : Bytes) : Option UInt64 :=
  sumLoop e p (s.length + 1) v op s

/-- The loop after an operand. -/
def sumNext (v : UInt64) (s : Bytes) : Option UInt64 :=
  match skipSpaces s with
  | [] => some v
  | c :: rest =>
    if c == 0x2b || c == 0x2d then
      if rest.isEmpty then none else sumRest e p v c rest
    else none

theorem sumRest_eq (v : UInt64) (op : UInt8) (s : Bytes) :
    sumRest e p v op s = (term e p s).bind fun a => sumNext e p (combine e v a.1 op) a.2 := by
  rw [sumRest, sumLoop]
  refine Option.bind_congr fun a ha => ?_
  have hle := (term_suffix e p ha).length_le
  rw [sumNext]
  dsimp only
  cases hskip : skipSpaces a.2 with
  | nil => rfl
  | cons c rest =>
    have hlt := skipSpaces_cons_length hskip
    dsimp only
    rw [sumRest, @sumLoop_fuel e p s.length (rest.length + 1) _ c rest (by omega) (by omega)]

/-- `parseImpl` on a text without blanks at its ends. -/
def start (s : Bytes) : Option UInt64 :=
  match skipSpaces s with
  | [] => none
  | c :: rest => if c == 0x2b || c == 0x2d then sumRest e p 0 c rest else sumRest e p 0 0x2b (c :: rest)

theorem parseImpl_eq (levels : ℕ) {s : Bytes} (h : skipSpaces (trim s) = trim s) :
    parseImpl e (levels + 1) s = start e (parseImpl e levels) (trim s) := by
  rw [parseImpl, start, h]
  rfl

end loops

/-! ### Values -/

/-- A result modulo the width at which two values are combined. -/
def wrap (e : ExpressionParser) (left right : UInt64) (value : ℤ) : UInt64 :=
  UInt64.ofNat (value % 2 ^ combineWidth e left right).toNat

theorem combineWidth_le (e : ExpressionParser) (left right : UInt64) :
    combineWidth e left right = 32 ∨ combineWidth e left right = 64 := by
  rw [combineWidth]
  split
  · exact Or.inl rfl
  · split
    · exact Or.inl rfl
    · exact Or.inr rfl

theorem wrap_eq {e : ExpressionParser} {left right v : UInt64} {value : ℤ}
    (h : ∃ raw : UInt64, v.toNat = raw.toNat % 2 ^ combineWidth e left right ∧
      (raw.toNat : ℤ) = value % 2 ^ 64) : v = wrap e left right value := by
  obtain ⟨raw, hv, hraw⟩ := h
  apply UInt64.toNat_inj.mp
  rw [wrap, UInt64.toNat_ofNat', hv]
  have hlt := raw.toNat_lt
  rcases combineWidth_le e left right with hw | hw <;> rw [hw] <;> omega

theorem combine_star (e : ExpressionParser) (left right : UInt64) :
    combine e left right 0x2a = wrap e left right (left.toNat * right.toNat) := by
  refine wrap_eq ⟨left * right, combine_toNat e left right 0x2a, ?_⟩
  rw [UInt64.toNat_mul]
  push_cast
  rfl

def signed : Sign → ℤ → ℤ
  | .plus, v => v
  | .minus, v => -v

def signByte : Sign → UInt8
  | .plus => 0x2b
  | .minus => 0x2d

theorem combine_sign (e : ExpressionParser) (left right : UInt64) (sign : Sign) :
    combine e left right (signByte sign)
      = wrap e left right (left.toNat + signed sign right.toNat) := by
  have hr := right.toNat_lt
  cases sign with
  | plus =>
    refine wrap_eq ⟨left + right, combine_toNat e left right 0x2b, ?_⟩
    rw [UInt64.toNat_add, signed]
    push_cast
    rfl
  | minus =>
    refine wrap_eq ⟨left - right, combine_toNat e left right 0x2d, ?_⟩
    rw [UInt64.toNat_sub, signed]
    omega

/-- The operators, blanks and brackets of a text. -/
def marks : Marks UInt8 where
  opening := 0x5b
  closing := 0x5d
  star := 0x2a
  sign := signByte
  blank := isBlank

abbrev Expr := ArithmeticTree.Tree Operand

/-- What the parser computes: every operation wraps at its own width. -/
def wrapped (e : ExpressionParser) : Reading Operand UInt64 where
  leaf o := o.value e
  load := dereference e
  times v w := wrap e v w (v.toNat * w.toNat)
  first sign v := wrap e 0 v (signed sign v.toNat)
  next sign v w := wrap e v w (v.toNat + signed sign w.toNat)

/-! ### The text of a tree -/

section text

variable {k : Kind} {t : Expr k} {s : Bytes}

theorem Operand.cases_token (o : Operand) :
    IsToken o.text ∨ ∃ single name, o = .quoted single name := by
  cases o with
  | hex upper d => exact Or.inl (IsNumber.hex upper d).isToken
  | decimal d => exact Or.inl (IsNumber.decimal d).isToken
  | bare d => exact Or.inl (IsNumber.bare d).isToken
  | identifier name => exact Or.inl name.isToken
  | quoted single name => exact Or.inr ⟨single, name, rfl⟩

theorem Operand.text_ends (o : Operand) : ∃ b ∈ o.text.getLast?, isBlank b = false := by
  rcases o.cases_token with ht | ⟨single, name, rfl⟩
  · have hlast := List.getLast?_eq_some_getLast ht.nonempty
    exact ⟨_, hlast, ht.trimmed.2 _ hlast⟩
  · refine ⟨quoteMark single, ?_, ?_⟩
    · rw [Operand.text, ← List.cons_append, List.getLast?_concat]
      rfl
    · rcases quoteMark_cases single with h | h <;> rw [h] <;> rfl

theorem Operand.text_begins (o : Operand) : ∃ b ∈ o.text.head?, endsToken b = false := by
  rcases o.cases_token with ht | ⟨single, name, rfl⟩
  · obtain ⟨c, rest, hc⟩ := List.exists_cons_of_ne_nil ht.nonempty
    exact ⟨c, by rw [hc]; rfl, ht.ends c (by rw [hc]; exact List.mem_cons_self ..)⟩
  · refine ⟨quoteMark single, rfl, ?_⟩
    rcases quoteMark_cases single with h | h <;> rw [h] <;> rfl

theorem isMark_brackets {b : UInt8} (h : isMark b = false) : b ≠ 0x5d ∧ b ≠ 0x5b := by
  simp only [isMark, Bool.or_eq_false_iff, beq_eq_false_iff_ne] at h
  exact ⟨h.2, h.1.2⟩

theorem Operand.text_brackets (o : Operand) : ∀ b ∈ o.text, b ≠ 0x5d ∧ b ≠ 0x5b := by
  rcases o.cases_token with ht | ⟨single, name, rfl⟩
  · exact fun b hb => isMark_brackets (isNameChar_iff.mp (ht.chars b hb)).2
  · have hquote : quoteMark single ≠ 0x5d ∧ quoteMark single ≠ 0x5b := by
      rcases quoteMark_cases single with h | h <;> rw [h] <;> decide
    intro b hb
    rw [Operand.text, List.mem_cons, List.mem_append, List.mem_singleton] at hb
    rcases hb with rfl | hb | rfl
    · exact hquote
    · exact isMark_brackets (by simpa using List.all_eq_true.mp name.plain b hb)
    · exact hquote

theorem brackets_blanks {blanks : Bytes} (h : marks.Blanks blanks) (depth : ℕ) :
    brackets depth blanks = some depth :=
  brackets_plain (fun b hb => by
    have hblank : isBlank b = true := h b hb
    simp only [isBlank, Bool.or_eq_true, beq_iff_eq] at hblank
    rcases hblank with rfl | rfl <;> decide) depth

theorem brackets_star (depth : ℕ) (s : Bytes) :
    brackets depth (marks.star :: s) = brackets depth s := by
  simp [brackets, marks]

theorem brackets_sign (sign : Sign) (depth : ℕ) (s : Bytes) :
    brackets depth (marks.sign sign :: s) = brackets depth s := by
  cases sign <;> simp [brackets, marks, signByte]

theorem brackets_load {depth : ℕ} {w : Bytes} (h : ∀ depth, brackets depth w = some depth) :
    brackets depth (marks.opening :: (w ++ [marks.closing])) = some depth := by
  have hopen : brackets depth (marks.opening :: (w ++ [marks.closing]))
      = brackets (depth + 1) (w ++ [marks.closing]) := by
    simp [brackets, marks]
  rw [hopen, brackets_append, h]
  simp [brackets, marks]

theorem prints_brackets (h : t.Prints marks Operand.text s) (depth : ℕ) :
    brackets depth s = some depth := by
  induction t generalizing s depth with
  | leaf o =>
    rw [show s = o.text from h]
    exact brackets_plain o.text_brackets depth
  | load t ih =>
    obtain ⟨w, blanks, ht, hb, rfl⟩ := h
    refine brackets_load fun depth => ?_
    rw [brackets_append, ih ht, Option.bind_some, brackets_blanks hb]
  | one f ih =>
    obtain ⟨blanks, w, hb, hf, rfl⟩ := h
    rw [brackets_append, brackets_blanks hb, Option.bind_some, ih hf]
  | times q f ihq ihf =>
    obtain ⟨front, blanks, blanks', w, hq, hb, hb', hf, rfl⟩ := h
    rw [brackets_append, brackets_append, ihq hq, Option.bind_some, brackets_blanks hb,
      Option.bind_some, brackets_star, brackets_append, brackets_blanks hb',
      Option.bind_some, ihf hf]
  | first sign q ih =>
    cases sign with
    | none => exact ih h depth
    | some sign =>
      obtain ⟨blanks, w, hb, hq, rfl⟩ := h
      rw [brackets_append, brackets_blanks hb, Option.bind_some, brackets_sign, ih hq]
  | next t sign q iht ihq =>
    obtain ⟨front, blanks, w, ht, hb, hq, rfl⟩ := h
    rw [brackets_append, brackets_append, iht ht, Option.bind_some, brackets_blanks hb,
      Option.bind_some, brackets_sign, ihq hq]

theorem prints_begins : ∀ {q : Expr .product} {s : Bytes}, q.Prints marks Operand.text s →
    ∃ b rest, skipSpaces s = b :: rest ∧ endsToken b = false
  | .one f, s, h => by
    obtain ⟨blanks, w, hb, hf, rfl⟩ := h
    have hw : ∃ b rest, w = b :: rest ∧ endsToken b = false := by
      cases f with
      | leaf o =>
        rw [show w = o.text from hf]
        obtain ⟨b, hhead, hends⟩ := o.text_begins
        exact ⟨b, _, List.eq_cons_of_mem_head? hhead, hends⟩
      | load t =>
        obtain ⟨w, blanks, -, -, rfl⟩ := hf
        exact ⟨0x5b, _, rfl, rfl⟩
    obtain ⟨b, rest, rfl, hends⟩ := hw
    refine ⟨b, rest, ?_, hends⟩
    rw [skipSpaces_blanks hb]
    refine skipSpaces_of_head fun c hc => ?_
    rw [endsToken_eq, Bool.or_eq_false_iff] at hends
    rw [← Option.some.inj hc, hends.2]
  | .times q f, s, h => by
    obtain ⟨front, blanks, blanks', w, hq, -, -, -, rfl⟩ := h
    obtain ⟨b, rest, hskip, hends⟩ := prints_begins hq
    refine ⟨b, rest ++ (blanks ++ marks.star :: (blanks' ++ w)), ?_, hends⟩
    rw [List.append_assoc, skipSpaces_append (by rw [hskip]; exact List.cons_ne_nil _ _), hskip]
    rfl

theorem prints_last (h : t.Prints marks Operand.text s) : ∃ b ∈ s.getLast?, isBlank b = false := by
  have happend : ∀ {front w : Bytes}, (∃ b ∈ w.getLast?, isBlank b = false) →
      ∃ b ∈ (front ++ w).getLast?, isBlank b = false := by
    rintro front w ⟨b, hb, hblank⟩
    exact ⟨b, by rw [List.getLast?_append, Option.mem_def.mp hb]; rfl, hblank⟩
  have hcons : ∀ {c : UInt8} {w : Bytes}, (∃ b ∈ w.getLast?, isBlank b = false) →
      ∃ b ∈ (c :: w).getLast?, isBlank b = false := @fun c w h => @happend [c] w h
  induction t generalizing s with
  | leaf o =>
    rw [show s = o.text from h]
    exact o.text_ends
  | load t ih =>
    obtain ⟨w, blanks, -, -, rfl⟩ := h
    exact hcons (happend ⟨0x5d, rfl, rfl⟩)
  | one f ih =>
    obtain ⟨blanks, w, -, hf, rfl⟩ := h
    exact happend (ih hf)
  | times q f ihq ihf =>
    obtain ⟨front, blanks, blanks', w, -, -, -, hf, rfl⟩ := h
    exact happend (hcons (happend (ihf hf)))
  | first sign q ih =>
    cases sign with
    | none => exact ih h
    | some sign =>
      obtain ⟨blanks, w, -, hq, rfl⟩ := h
      exact happend (hcons (ih hq))
  | next t sign q iht ihq =>
    obtain ⟨front, blanks, w, -, -, hq, rfl⟩ := h
    exact happend (hcons (ihq hq))

/-! ### Reading a tree -/

section read

variable {e : ExpressionParser} (hplain : PlainNames e) {P : Bytes → Option UInt64} {n : ℕ}
  (hP : ∀ (t : Expr .sum) (line : Bytes), t.depth < n → t.PrintsLine marks Operand.text line →
    P line = t.eval (wrapped e))

theorem bind_afterBlanks {α : Type} {x : Option (UInt64 × Bytes)}
    {g : UInt64 × Bytes → Option α} (hg : ∀ a, g a = g (a.1, skipSpaces a.2)) :
    x.bind g = (afterBlanks x).bind g := by
  cases x with
  | none => rfl
  | some a => exact hg a

theorem afterBlanks_termRest {v : UInt64} {s s' : Bytes} (h : skipSpaces s = skipSpaces s') :
    afterBlanks (termRest e P v s) = afterBlanks (termRest e P v s') := by
  by_cases hstar : ∃ rest, skipSpaces s = 0x2a :: rest
  · obtain ⟨rest, hrest⟩ := hstar
    rw [termRest_star e P hrest, termRest_star e P (h ▸ hrest)]
  · have hne : ∀ b ∈ (skipSpaces s).head?, b ≠ 0x2a := by
      rintro b hb rfl
      exact hstar ⟨_, List.eq_cons_of_mem_head? hb⟩
    rw [termRest_done e P hne, termRest_done e P (h ▸ hne), afterBlanks, afterBlanks,
      Option.map_some, Option.map_some, h]

/-- The loop of `term` after an operand of which the value is known. -/
theorem bind_termRest {x : Option (UInt64 × Bytes)} {v : Option UInt64} {r : Bytes}
    (h : afterBlanks x = v.map fun v => (v, skipSpaces r)) (f : UInt64 → UInt64) :
    (x.bind fun a => afterBlanks (termRest e P (f a.1) a.2)) =
      v.bind fun v => afterBlanks (termRest e P (f v) r) := by
  have hcut := @bind_afterBlanks _ x (fun a => afterBlanks (termRest e P (f a.1) a.2))
    fun a => afterBlanks_termRest (skipSpaces_skipSpaces a.2).symm
  rw [hcut, h, Option.bind_map]
  exact Option.bind_congr fun v _ => afterBlanks_termRest (skipSpaces_skipSpaces r)

include hplain hP

theorem factor_operand {f : Expr .operand} {s r blanks : Bytes} (hdepth : f.depth ≤ n)
    (hs : f.Prints marks Operand.text s) (hb : marks.Blanks blanks) (hr : Follows r) :
    afterBlanks (factor e P (blanks ++ s ++ r)) =
      (f.eval (wrapped e)).map fun v => (v, skipSpaces r) := by
  cases f with
  | leaf o =>
    rw [show s = o.text from hs]
    exact factor_leaf e hplain P hb o hr
  | load t =>
    obtain ⟨w, blanks', ht, hb', rfl⟩ := hs
    have hline : P (w ++ blanks') = t.eval (wrapped e) :=
      hP t _ hdepth ⟨w, blanks', ht, hb', rfl⟩
    have hbalanced : Balanced (w ++ blanks') := by
      rw [Balanced, brackets_append, prints_brackets ht, Option.bind_some, brackets_blanks hb']
    have htext : skipSpaces (blanks ++ marks.opening :: (w ++ blanks' ++ [marks.closing]) ++ r)
        = 0x5b :: (w ++ blanks' ++ 0x5d :: r) := by
      rw [List.append_assoc, skipSpaces_blanks hb, List.cons_append, List.append_assoc]
      exact List.dropWhile_cons_of_neg (by decide)
    rw [← factor_skipSpaces e P, htext, factor_dereference P hbalanced, hline, afterBlanks,
      Option.map_map]
    rfl

theorem term_product : ∀ {q : Expr .product} {s r : Bytes}, q.depth ≤ n →
    q.Prints marks Operand.text s → Follows r →
    afterBlanks (term e P (s ++ r)) =
      (q.eval (wrapped e)).bind fun v => afterBlanks (termRest e P v r)
  | .one f, s, r, hdepth, hs, hr => by
    obtain ⟨blanks, w, hb, hf, rfl⟩ := hs
    have hfactor := factor_operand hplain hP hdepth hf hb hr
    rw [term_eq, afterBlanks, Option.map_bind]
    exact bind_termRest hfactor fun v => v
  | .times q f, s, r, hdepth, hs, hr => by
    obtain ⟨front, blanks, blanks', w, hq, hb, hb', hf, rfl⟩ := hs
    have hskip : skipSpaces (blanks ++ marks.star :: (blanks' ++ w ++ r))
        = 0x2a :: (blanks' ++ w ++ r) := by
      rw [skipSpaces_blanks hb]
      exact List.dropWhile_cons_of_neg (by decide)
    have hfollows : Follows (blanks ++ marks.star :: (blanks' ++ w ++ r)) := fun b hb => by
      rw [hskip] at hb
      rw [← Option.some.inj hb]
      rfl
    have hfront := term_product (Nat.le_trans (Nat.le_max_left _ _) hdepth) hq hfollows
    have hfactor := factor_operand hplain hP (Nat.le_trans (Nat.le_max_right _ _) hdepth) hf hb' hr
    rw [show front ++ blanks ++ marks.star :: (blanks' ++ w) ++ r
      = front ++ (blanks ++ marks.star :: (blanks' ++ w ++ r)) by simp, hfront, Tree.eval,
      Option.bind_assoc]
    refine Option.bind_congr fun v _ => ?_
    rw [termRest_star e P hskip, afterBlanks, Option.map_bind, Option.bind_map]
    exact (bind_termRest hfactor fun u => combine e v u 0x2a).trans
      (Option.bind_congr fun u _ => by rw [combine_star]; rfl)

/-- What may stand after a product of a sum. -/
def Ends (r : Bytes) : Prop := ∀ b ∈ (skipSpaces r).head?, (b == 0x2b || b == 0x2d) = true

omit hplain hP in
theorem Ends.follows {r : Bytes} (h : Ends r) : Follows r := fun b hb => by
  rw [isOperator, h b hb, Bool.true_or]

omit hplain hP in
theorem sumNext_skipSpaces (v : UInt64) (r : Bytes) :
    sumNext e P v (skipSpaces r) = sumNext e P v r := by
  rw [sumNext, sumNext, skipSpaces_skipSpaces]

theorem sumRest_product {q : Expr .product} {s r : Bytes} (hdepth : q.depth ≤ n)
    (hs : q.Prints marks Operand.text s) (hr : Ends r) (v : UInt64) (sign : Sign) :
    sumRest e P v (signByte sign) (s ++ r) = (q.eval (wrapped e)).bind fun u =>
      sumNext e P (wrap e v u (v.toNat + signed sign u.toNat)) r := by
  have hterm := term_product hplain hP hdepth hs hr.follows
  have hdone : ∀ u, termRest e P u r = some (u, r) := fun u => termRest_done e P fun b hb => by
    rintro rfl
    cases hr _ hb
  rw [sumRest_eq, bind_afterBlanks fun a => (sumNext_skipSpaces _ _).symm, hterm,
    Option.bind_assoc]
  refine Option.bind_congr fun u _ => ?_
  rw [hdone, ← combine_sign]
  exact sumNext_skipSpaces _ _

theorem start_sum : ∀ {t : Expr .sum} {s r : Bytes}, t.depth ≤ n →
    t.Prints marks Operand.text s → Ends r →
    start e P (s ++ r) = (t.eval (wrapped e)).bind fun v => sumNext e P v r
  | .first none q, s, r, hdepth, hs, hr => by
    obtain ⟨b, rest, hskip, hends⟩ := prints_begins hs
    have hskip' : skipSpaces (s ++ r) = b :: (rest ++ r) := by
      rw [skipSpaces_append (by rw [hskip]; exact List.cons_ne_nil _ _), hskip]
      rfl
    have hsign : ¬ (b == 0x2b || b == 0x2d) = true := fun h => by
      rw [endsToken_eq, isOperator, h] at hends
      cases hends
    have hproduct := sumRest_product hplain hP hdepth hs hr 0 .plus
    rw [sumRest_eq, ← term_skipSpaces, hskip', ← sumRest_eq] at hproduct
    rw [start, hskip']
    dsimp only
    rw [if_neg hsign, Tree.eval, Option.bind_map]
    refine hproduct.trans (Option.bind_congr fun u _ => ?_)
    rw [UInt64.toNat_zero, Nat.cast_zero, zero_add]
    rfl
  | .first (some sign) q, s, r, hdepth, hs, hr => by
    obtain ⟨blanks, w, hb, hq, rfl⟩ := hs
    have hskip : skipSpaces (blanks ++ marks.sign sign :: w ++ r) = signByte sign :: (w ++ r) := by
      rw [List.append_assoc, skipSpaces_blanks hb]
      exact List.dropWhile_cons_of_neg (by cases sign <;> decide)
    have hproduct := sumRest_product hplain hP hdepth hq hr 0 sign
    rw [start, hskip]
    dsimp only
    rw [if_pos (by cases sign <;> rfl), Tree.eval, Option.bind_map]
    refine hproduct.trans (Option.bind_congr fun u _ => ?_)
    rw [UInt64.toNat_zero, Nat.cast_zero, zero_add]
    rfl
  | .next t sign q, s, r, hdepth, hs, hr => by
    obtain ⟨front, blanks, w, ht, hb, hq, rfl⟩ := hs
    have hskip : skipSpaces (blanks ++ marks.sign sign :: (w ++ r)) = signByte sign :: (w ++ r) := by
      rw [skipSpaces_blanks hb]
      exact List.dropWhile_cons_of_neg (by cases sign <;> decide)
    have hends : Ends (blanks ++ marks.sign sign :: (w ++ r)) := fun b hb => by
      rw [hskip] at hb
      rw [← Option.some.inj hb]
      cases sign <;> rfl
    have hne : (w ++ r).isEmpty = false := by
      obtain ⟨b, rest, hw, -⟩ := prints_begins hq
      cases w with
      | nil => cases hw
      | cons => rfl
    rw [show front ++ blanks ++ marks.sign sign :: w ++ r
      = front ++ (blanks ++ marks.sign sign :: (w ++ r)) by simp,
      start_sum (Nat.le_trans (Nat.le_max_left _ _) hdepth) ht hends, Tree.eval, Option.bind_assoc]
    refine Option.bind_congr fun v _ => ?_
    rw [sumNext, hskip]
    dsimp only
    rw [if_pos (by cases sign <;> rfl), hne, if_neg Bool.false_ne_true,
      sumRest_product hplain hP (Nat.le_trans (Nat.le_max_right _ _) hdepth) hq hr v sign,
      Option.bind_map]
    rfl

end read

theorem trim_line {w blanks : Bytes} (hw : ∃ b ∈ w.getLast?, isBlank b = false)
    (hb : ∀ b ∈ blanks, isBlank b = true) : trim (w ++ blanks) = skipSpaces w := by
  obtain ⟨b, hlast, hblank⟩ := hw
  have hne : skipSpaces w ≠ [] := fun hnil => by
    rw [skipSpaces, List.dropWhile_eq_nil_iff] at hnil
    rw [hnil b (List.mem_of_mem_getLast? hlast)] at hblank
    cases hblank
  obtain ⟨front, hfront⟩ := skipSpaces_suffix w
  have htrimmed : CtFile.Trimmed (skipSpaces w) := by
    refine ⟨fun c hc => ?_, fun c hc => ?_⟩
    · have hhead := List.head?_dropWhile_not isBlank w
      rw [show w.dropWhile isBlank = skipSpaces w from rfl, Option.mem_def.mp hc] at hhead
      exact hhead
    · rw [← hfront, List.getLast?_append, Option.mem_def.mp hc] at hlast
      rw [Option.some.inj hlast, hblank]
  have hskip : (w ++ blanks).dropWhile isBlank = (skipSpaces w ++ blanks).dropWhile isBlank := by
    change skipSpaces (w ++ blanks) = skipSpaces (skipSpaces w ++ blanks)
    rw [skipSpaces_append hne, skipSpaces_append (by rwa [skipSpaces_skipSpaces]),
      skipSpaces_skipSpaces]
  rw [trim, hskip]
  exact trim_of_trimmed htrimmed hne hb

theorem parseImpl_tree {e : ExpressionParser} (hplain : PlainNames e) {n : ℕ} :
    ∀ (t : Expr .sum) (line : Bytes), t.depth < n → t.PrintsLine marks Operand.text line →
      parseImpl e n line = t.eval (wrapped e) := by
  induction n with
  | zero => exact fun t line h => absurd h (Nat.not_lt_zero _)
  | succ n ih =>
    rintro t line hdepth ⟨w, blanks, ht, hb, rfl⟩
    have htrim := trim_line (prints_last ht) hb
    have hstart := start_sum hplain ih (Nat.le_of_lt_succ hdepth) ht (r := []) nofun
    rw [List.append_nil] at hstart
    rw [parseImpl_eq e n (by rw [htrim, skipSpaces_skipSpaces]), htrim, start,
      skipSpaces_skipSpaces]
    refine hstart.trans ?_
    cases t.eval (wrapped e) <;> rfl

end text

/-! ### Exact values -/

section exact

variable (e : ExpressionParser)

def addressWidth : ℕ := if e.proc.any (fun p => p.pointerWidth == 4 && !p.is64bit) then 32 else 64

def addressOf (v : ℤ) : UInt64 := UInt64.ofNat (v % 2 ^ addressWidth e).toNat

/-- The values as whole numbers; an address is cut where a pointer is read there. -/
def exact : Reading Operand ℤ where
  leaf o := (o.value e).map fun v => v.toNat
  load v := (dereference e (addressOf e v)).map fun v => v.toNat
  times v w := v * w
  first sign v := signed sign v
  next sign v w := v + signed sign w

variable {e}

theorem combineWidth_eq (hwidth : mixedWidth e = false) (left right : UInt64) :
    combineWidth e left right = addressWidth e := by
  rw [combineWidth, addressWidth, hwidth]
  simp

theorem wrap_eq_addressOf (hwidth : mixedWidth e = false) (left right : UInt64) (value : ℤ) :
    wrap e left right value = addressOf e value := by
  rw [wrap, combineWidth_eq hwidth, addressOf]

/-- Equal modulo the width of the addresses, and for a sum an address. -/
def SameValue (e : ExpressionParser) : Kind → UInt64 → ℤ → Prop
  | .sum, v, w => v = addressOf e w
  | _, v, w => (v.toNat : ℤ) % 2 ^ addressWidth e = w % 2 ^ addressWidth e

theorem addressOf_toNat (w : ℤ) : ((addressOf e w).toNat : ℤ) = w % 2 ^ addressWidth e := by
  have hwidth : addressWidth e = 32 ∨ addressWidth e = 64 := by
    rw [addressWidth]
    split
    · exact Or.inl rfl
    · exact Or.inr rfl
  rw [addressOf, UInt64.toNat_ofNat']
  rcases hwidth with h | h <;> rw [h] <;> omega

theorem addressOf_congr {v w : ℤ} (h : v % 2 ^ addressWidth e = w % 2 ^ addressWidth e) :
    addressOf e v = addressOf e w := by
  rw [addressOf, addressOf, h]

theorem signed_emod {m v w : ℤ} (h : v % m = w % m) (sign : Sign) :
    signed sign v % m = signed sign w % m := by
  cases sign with
  | plus => exact h
  | minus => exact Int.ModEq.neg h

/-- Cutting every step is cutting the end. -/
theorem agrees_exact (hwidth : mixedWidth e = false) :
    Tree.Agrees (SameValue e) (wrapped e) (exact e) where
  leaf o := by
    change Option.Rel _ (o.value e) ((o.value e).map _)
    cases o.value e with
    | none => exact .none
    | some v => exact .some rfl
  load := by
    rintro v w rfl
    change Option.Rel _ (dereference e _) ((dereference e _).map _)
    cases dereference e (addressOf e w) with
    | none => exact .none
    | some v => exact .some rfl
  one h := h
  times := by
    intro v v' w w' hv hw
    change ((wrap e v w _).toNat : ℤ) % _ = _
    rw [wrap_eq_addressOf hwidth, addressOf_toNat, Int.emod_emod_of_dvd _ (dvd_refl _)]
    exact Int.ModEq.mul hv hw
  first sign := by
    intro v v' hv
    change wrap e 0 v _ = _
    rw [wrap_eq_addressOf hwidth]
    exact addressOf_congr (signed_emod hv sign)
  next sign := by
    rintro v v' w w' rfl hw
    change wrap e _ w _ = _
    rw [wrap_eq_addressOf hwidth]
    refine addressOf_congr (Int.ModEq.add ?_ (signed_emod hw sign))
    rw [addressOf_toNat]
    exact Int.mod_modEq _ _

theorem eval_exact (hwidth : mixedWidth e = false) (t : Expr .sum) :
    t.eval (wrapped e) = (t.eval (exact e)).map (addressOf e) := by
  have hrel := Tree.eval_rel (agrees_exact hwidth) t
  cases hw : t.eval (wrapped e) <;> cases hv : t.eval (exact e) <;> rw [hw, hv] at hrel
  · rfl
  · cases hrel
  · cases hrel
  · cases hrel with
    | some h => rw [Option.map_some, show _ = _ from h]

end exact

/-! ### The grammar -/

/-- The text of a tree evaluates to the value of the tree, in a target of one width to the exact
value modulo that width, and to nothing if and only if an operand or a pointer is missing. -/
theorem parse_expression {e : ExpressionParser} (hplain : PlainNames e) {t : Expr .sum}
    {line : Bytes} (hdepth : t.depth ≤ kMaxDepth) (hline : t.PrintsLine marks Operand.text line) :
    parse e line = t.eval (wrapped e) ∧
      (mixedWidth e = false → parse e line = (t.eval (exact e)).map (addressOf e)) ∧
      (parse e line = none ↔ ¬ t.Resolves (wrapped e)) := by
  have hparse : parse e line = t.eval (wrapped e) :=
    parseImpl_tree hplain t line (Nat.lt_succ_of_le hdepth) hline
  refine ⟨hparse, fun hwidth => hparse.trans (eval_exact hwidth t), ?_⟩
  rw [hparse, ← Tree.eval_isSome_iff, Option.not_isSome_iff_eq_none]

/-- Digits that are checked where they are written. -/
def bareNumber (text : Bytes) (nonempty : text.isEmpty = false)
    (valid : text.all isXDigit = true) (fits : readDigits 16 text ≤ uint64Max) : Expr .product :=
  .one (.leaf (.bare ⟨text, nonempty, valid, fits⟩))

theorem blanks_space : marks.Blanks [0x20] := fun b hb => by
  rw [List.mem_singleton.mp hb]
  rfl

/-- `[ 10] +4*2` -/
theorem parse_load_product :
    parse ⟨some linked, fun _ => 0⟩
      [0x5b, 0x20, 0x31, 0x30, 0x5d, 0x20, 0x2b, 0x34, 0x2a, 0x32] = some 0x200c := by
  have hplain : PlainNames ⟨some linked, fun _ => 0⟩ :=
    ⟨fun _ h => absurd rfl h, fun m hm => absurd hm List.not_mem_nil⟩
  let ten : Expr .product := bareNumber [0x31, 0x30] rfl rfl (by decide)
  let two : Operand := .bare ⟨[0x32], rfl, rfl, by decide⟩
  let t : Expr .sum := .next (.first none (.one (.load (.first none ten)))) .plus
    (.times (bareNumber [0x34] rfl rfl (by decide)) (.leaf two))
  have hline : t.PrintsLine marks Operand.text
      [0x5b, 0x20, 0x31, 0x30, 0x5d, 0x20, 0x2b, 0x34, 0x2a, 0x32] :=
    ⟨_, [], ⟨[0x5b, 0x20, 0x31, 0x30, 0x5d], [0x20], [0x34, 0x2a, 0x32],
      ⟨[], _, nofun, ⟨[0x20, 0x31, 0x30], [], ⟨[0x20], _, blanks_space, rfl, rfl⟩, nofun, rfl⟩, rfl⟩,
      blanks_space, ⟨[0x34], [], [], _, ⟨[], _, nofun, rfl, rfl⟩, nofun, nofun, rfl, rfl⟩, rfl⟩,
      nofun, rfl⟩
  exact (@parse_expression _ hplain t _ (by decide) hline).1.trans (by decide +kernel)

/-- A process with pointers of both widths, and one with a module `0xg`. -/
def mixedProcess : Process := { slotProcess [] with pointerWidth := 4 }
def oddModule : Process := { slotProcess [] with modules := [([0x30, 0x78, 0x67], 0x1000)] }

theorem plainNames_empty (p : Process) (h : p.modules = []) : PlainNames ⟨some p, fun _ => 0⟩ := by
  refine ⟨fun _ h => absurd rfl h, fun m hm => ?_⟩
  rw [show modules ⟨some p, fun _ => 0⟩ = p.modules from rfl, h] at hm
  cases hm

/-- The letter `a` is a symbol before it is 10; of two values below `2^32` a process with both
widths computes modulo `2^32`; and what begins with `0x` is no name. -/
theorem parse_not_exact :
    (PlainNames ⟨none, oneSymbol [0x61] 0x5000⟩ ∧
      parse ⟨none, oneSymbol [0x61] 0x5000⟩ [0x61] ≠ some 10) ∧
    (PlainNames ⟨some mixedProcess, fun _ => 0⟩ ∧
      parse ⟨some mixedProcess, fun _ => 0⟩
        [0x46, 0x46, 0x46, 0x46, 0x46, 0x46, 0x46, 0x46, 0x2b, 0x31] ≠ some (0xffffffff + 1)) ∧
    (PlainNames ⟨some oddModule, fun _ => 0⟩ ∧
      parse ⟨some oddModule, fun _ => 0⟩ [0x30, 0x78, 0x67]
        ≠ moduleBase oddModule.modules [0x30, 0x78, 0x67]) := by
  refine ⟨⟨⟨fun name h => ?_, fun m hm => absurd hm List.not_mem_nil⟩, by decide +kernel⟩,
    ⟨plainNames_empty _ rfl, by decide +kernel⟩, ⟨⟨fun _ h => absurd rfl h, fun m hm => ?_⟩,
    by decide +kernel⟩⟩
  · simp only [oneSymbol] at h
    split at h
    · next hname =>
      rw [hname]
      rfl
    · exact absurd rfl h
  · rw [List.mem_singleton.mp hm]
    rfl

end CheatEngine.Expression
