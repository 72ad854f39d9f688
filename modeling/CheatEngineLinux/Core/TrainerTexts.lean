import CheatEngineLinux.Core.TrainerSource

/-!
# The texts of a table in a trainer

* `SameButTexts`: tables that differ in the texts of their authors only.
* `TextsDenoted`: each text is one string literal, that denotes it.

* **PROVED `denotes_escaped`**: the literal of `cString` denotes its text.
* **PROVED `placing_source`**: the generator writes literals between tokens, and ends comments with
  their line.
* **PROVED `texts_are_literals`**: the programs of such tables have the same tokens, but for the
  contents of the literals.
-/

namespace CheatEngine.Trainer

open CtFile (CheatEntry CheatTable lit digitsText intText hexText)
open JsonGrammar (Bytes)
open CLexer

/-! ### Literals -/

theorem octal_table : ∀ n < 256,
    isOctal (0x30 + UInt8.ofNat n / 64) = true ∧ isOctal (0x30 + UInt8.ofNat n / 8 % 8) = true ∧
      isOctal (0x30 + UInt8.ofNat n % 8) = true ∧
      8 * (8 * (8 * 0 + ((0x30 + UInt8.ofNat n / 64).toNat - 0x30)) +
        ((0x30 + UInt8.ofNat n / 8 % 8).toNat - 0x30)) +
          ((0x30 + UInt8.ofNat n % 8).toNat - 0x30) = n := by
  decide +kernel

theorem escape_octal (c : UInt8) (rest : Bytes) :
    escape ((0x30 + c / 64) :: (0x30 + c / 8 % 8) :: (0x30 + c % 8) :: rest) =
      some (c.toNat, rest) := by
  have h := octal_table c.toNat c.toNat_lt
  rw [UInt8.ofNat_toNat] at h
  obtain ⟨h₁, h₂, h₃, hvalue⟩ := h
  rw [escape, h₁]
  simp only [if_true, List.take_succ_cons, List.take_zero, List.takeWhile_cons, h₁, h₂, h₃,
    List.takeWhile_nil, List.foldl_cons, List.foldl_nil, hvalue, List.length_cons, List.length_nil]
  rfl

theorem denotesLoop_escape {fuel v : ℕ} {s rest : Bytes} (h : escape s = some (v, rest))
    (hv : v < 256) :
    denotesLoop (fuel + 1) (0x5c :: s) = (denotesLoop fuel rest).map (UInt8.ofNat v :: ·) := by
  rw [denotesLoop, if_pos (by decide), h, Option.bind_some, if_pos hv]

/-- One character, with what follows it. -/
theorem denotesLoop_escapeByte (c : UInt8) (fuel : ℕ) (rest : Bytes) :
    denotesLoop (fuel + 1) (escapeByte c ++ rest) = (denotesLoop fuel rest).map (c :: ·) := by
  rw [escapeByte]
  split
  · rename_i h
    rw [beq_iff_eq.1 h]
    exact denotesLoop_escape rfl (by decide)
  split
  · rename_i h
    rw [beq_iff_eq.1 h]
    exact denotesLoop_escape rfl (by decide)
  split
  · rename_i h
    rw [beq_iff_eq.1 h]
    exact denotesLoop_escape rfl (by decide)
  split
  · rename_i h
    rw [beq_iff_eq.1 h]
    exact denotesLoop_escape rfl (by decide)
  split
  · rename_i h
    rw [beq_iff_eq.1 h]
    exact denotesLoop_escape rfl (by decide)
  split
  · have h := @denotesLoop_escape fuel _ _ _ (escape_octal c rest) c.toNat_lt
    rwa [UInt8.ofNat_toNat] at h
  · rename_i hslash _ _ _ _ _
    rw [List.singleton_append, denotesLoop, if_neg hslash]

theorem escapeByte_length_pos (c : UInt8) : 0 < (escapeByte c).length := by
  unfold escapeByte
  split_ifs <;> exact Nat.succ_pos _

theorem denotes_escaped (text : Bytes) : denotes (escaped text) = some text := by
  have hfuel : ∀ fuel, (escaped text).length ≤ fuel →
      denotesLoop fuel (escaped text) = some text := by
    induction text with
    | nil =>
      rintro (_ | fuel) - <;> rfl
    | cons c rest ih =>
      intro fuel hle
      have hpos := escapeByte_length_pos c
      rw [escaped, List.flatMap_cons, List.length_append, ← escaped] at hle
      obtain ⟨fuel, rfl⟩ : ∃ k, fuel = k + 1 := ⟨fuel - 1, by omega⟩
      rw [escaped, List.flatMap_cons, ← escaped, denotesLoop_escapeByte, ih fuel (by omega)]
      rfl
  exact hfuel _ (Nat.le_refl _)

theorem quotable_escapeByte (c : UInt8) {rest : Bytes} (h : Quotable rest) :
    Quotable (escapeByte c ++ rest) := by
  rw [escapeByte]
  split
  · exact .escaped (by decide) h
  split
  · exact .escaped (by decide) h
  split
  · exact .escaped (by decide) h
  split
  · exact .escaped (by decide) h
  split
  · exact .escaped (by decide) h
  split
  · have hoctal : ∀ d : UInt8, isOctal d = true → d ≠ 0x22 ∧ d ≠ 0x5c ∧ d ≠ 0x0a := by
      intro d hd
      refine ⟨?_, ?_, ?_⟩ <;> rintro rfl <;> cases hd
    have htable := octal_table c.toNat c.toNat_lt
    rw [UInt8.ofNat_toNat] at htable
    obtain ⟨h₁, h₂, h₃, -⟩ := htable
    have h₃' := hoctal _ h₃
    have h₂' := hoctal _ h₂
    exact .escaped (hoctal _ h₁).2.2
      (.plain h₂'.1 h₂'.2.1 h₂'.2.2 (.plain h₃'.1 h₃'.2.1 h₃'.2.2 h))
  · rename_i hslash hquote hline _ _ _
    exact .plain (fun hc => hquote (beq_iff_eq.2 hc)) (fun hc => hslash (beq_iff_eq.2 hc))
      (fun hc => hline (beq_iff_eq.2 hc)) h

theorem quotable_escaped (text : Bytes) : Quotable (escaped text) := by
  induction text with
  | nil => exact .nil
  | cons c rest ih =>
    rw [escaped, List.flatMap_cons]
    exact quotable_escapeByte c ih

/-! ### Comments -/

theorem not_mem_lineCommentText (text : Bytes) :
    0x0a ∉ lineCommentText text ∧ 0x5c ∉ lineCommentText text := by
  have hchar : ∀ c : UInt8, c ∈ lineCommentText text → c ≠ 0x0a ∧ c ≠ 0x5c := by
    intro c hc
    obtain ⟨d, hd, rfl⟩ := List.mem_map.1 hc
    obtain ⟨b, -, rfl⟩ := List.mem_map.1 hd
    by_cases hline : (b == 0x0d || b == 0x0a) = true
    · rw [if_pos hline]
      decide
    · rw [if_neg hline]
      split
      · decide
      · rename_i hslash
        exact ⟨fun h => hline (by rw [h]; rfl), fun h => hslash (beq_iff_eq.2 h)⟩
  exact ⟨fun h => (hchar _ h).1 rfl, fun h => (hchar _ h).2 rfl⟩

/-! ### Plain code -/

/-- Code without quotes, comments and backslashes. -/
def Plain (s : Bytes) : Prop := ∀ c ∈ s, isPlain c = true

theorem plain_append {s t : Bytes} (hs : Plain s) (ht : Plain t) : Plain (s ++ t) :=
  fun c hc => (List.mem_append.1 hc).elim (hs c) (ht c)

theorem lit_ofList {s : String} {cs : List Char} (hs : s = String.ofList cs) :
    lit s = asBytes cs := by
  rw [hs, lit, String.toList_ofList, asBytes]

theorem plain_lit {s : String} {cs : List Char} (hs : s = String.ofList cs)
    (h : (asBytes cs).all isPlain = true) : Plain (lit s) := by
  rw [lit_ofList hs]
  exact List.all_eq_true.1 h

theorem plain_digits (base n : ℕ) (hbase : base = 10 ∨ base = 16) : Plain (digitsText base n) := by
  have hdigit : ∀ d < 16, isPlain (CtFile.digitByte d) = true := by decide +kernel
  rw [digitsText]
  split
  · intro c hc
    rw [List.mem_singleton.1 hc]
    decide
  · intro c hc
    obtain ⟨d, hd, rfl⟩ := List.mem_map.1 hc
    have hlt := Nat.digits_lt_base (by omega) (List.mem_reverse.1 hd)
    exact hdigit d (by omega)

theorem plain_number (n : ℕ) : Plain (number n) := plain_digits 10 n (.inl rfl)

theorem plain_intText (v : ℤ) : Plain (intText v) := by
  rw [intText]
  split
  · intro c hc
    rcases List.mem_cons.1 hc with rfl | hc
    · decide
    · exact plain_digits 10 _ (.inl rfl) c hc
  · exact plain_digits 10 _ (.inl rfl)

theorem plain_addressText (address : UInt64) : Plain (addressText address) :=
  plain_append (plain_lit rfl (by decide))
    (plain_append (plain_lit rfl (by decide)) (plain_digits 16 _ (.inr rfl)))

theorem plain_ctype (t : CType) : Plain t.text := by
  cases t <;> exact plain_lit rfl (by decide)

/-- What `std::to_chars` prints for a number that is finite: digits, a point, an exponent. -/
def isFloatChar (c : Char) : Bool := c.isDigit || c == '.' || c == 'e' || c == '+' || c == '-'

structure PrintsNumbers (conv : ValueIo.Converters) : Prop where
  float : ∀ bits : UInt32, (bits >>> 23) &&& 0xff ≠ 0xff → ∀ c ∈ conv.floatText bits,
    isFloatChar c = true
  double : ∀ bits : UInt64, (bits >>> 52) &&& 0x7ff ≠ 0x7ff → ∀ c ∈ conv.doubleText bits,
    isFloatChar c = true

theorem plain_floatChars {t : List Char} (h : ∀ c ∈ t, isFloatChar c = true) :
    Plain (asBytes t) := by
  intro b hb
  obtain ⟨c, hc, rfl⟩ := List.mem_map.1 hb
  have hchar := h c hc
  simp only [isFloatChar, Bool.or_eq_true, beq_iff_eq] at hchar
  rcases hchar with (((hdigit | rfl) | rfl) | rfl) | rfl
  · rw [Char.isDigit, Bool.and_eq_true, decide_eq_true_eq, decide_eq_true_eq, ge_iff_le,
      UInt32.le_iff_toNat_le, UInt32.le_iff_toNat_le] at hdigit
    have hlow : 48 ≤ c.toNat := hdigit.1
    have hhigh : c.toNat ≤ 57 := hdigit.2
    generalize c.toNat = n at hlow hhigh ⊢
    interval_cases n <;> decide
  all_goals decide

section Bodies

variable {conv : ValueIo.Converters} {e : CheatEntry}

theorem plain_floatLiteral (hconv : PrintsNumbers conv) {value : Bytes} {l : Literal}
    (h : floatLiteral conv value = some l) : Plain l.text := by
  rw [floatLiteral] at h
  split at h
  · cases h
  cases hbits : conv.float (normalized value) with
  | none =>
    rw [hbits] at h
    cases h
  | some bits =>
    rw [hbits, Option.bind_eq_bind, Option.bind_some] at h
    split at h
    · cases h
    rename_i hfinite
    have htext := plain_floatChars (hconv.float bits hfinite)
    rw [← Option.some.inj h]
    refine plain_append ?_ (plain_lit rfl (by decide))
    split
    · exact htext
    · exact plain_append htext (plain_lit rfl (by decide))

theorem plain_doubleLiteral (hconv : PrintsNumbers conv) {value : Bytes} {l : Literal}
    (h : doubleLiteral conv value = some l) : Plain l.text := by
  rw [doubleLiteral] at h
  split at h
  · cases h
  cases hbits : conv.double (normalized value) with
  | none =>
    rw [hbits] at h
    cases h
  | some bits =>
    rw [hbits, Option.bind_eq_bind, Option.bind_some] at h
    split at h
    · cases h
    rename_i hfinite
    rw [← Option.some.inj h]
    exact plain_floatChars (hconv.double bits hfinite)

theorem plain_unsigned (n : ℕ) : Plain (Literal.unsigned n).text :=
  plain_append (plain_digits 10 n (.inl rfl)) (plain_lit rfl (by decide))

theorem plain_longLong (v : ℤ) : Plain (Literal.longLong v).text := by
  rw [Literal.text]
  split
  · exact plain_lit rfl (by decide)
  · exact plain_append (plain_intText v) (plain_lit rfl (by decide))

theorem plain_freezeScalar (hconv : PrintsNumbers conv) {scalar : CType × Literal × ℕ}
    (h : freezeScalar conv e = some scalar) : Plain scalar.2.1.text := by
  -- an integer is read first, and may be out of range
  have hint : ∀ {value : Bytes} {f : ℤ → Option (CType × Literal × ℕ)},
      (fullySigned value).bind f = some scalar → ∃ v, f v = some scalar := by
    intro value f hf
    obtain ⟨v, -, hv⟩ := Option.bind_eq_some_iff.1 hf
    exact ⟨v, hv⟩
  unfold freezeScalar at h
  split at h
  · obtain ⟨v, hv⟩ := hint h
    split at hv
    · rw [← Option.some.inj hv]
      exact plain_unsigned _
    · cases hv
  · obtain ⟨v, hv⟩ := hint h
    split at hv
    · rw [← Option.some.inj hv]
      exact plain_intText _
    · cases hv
  · obtain ⟨v, hv⟩ := hint h
    split at hv
    · rw [← Option.some.inj hv]
      exact plain_intText _
    · cases hv
  · obtain ⟨v, hv⟩ := hint h
    rw [← Option.some.inj hv]
    exact plain_longLong _
  · obtain ⟨v, hv⟩ := hint h
    split at hv
    · split at hv
      · rw [← Option.some.inj hv]
        exact plain_unsigned _
      · cases hv
    · rw [← Option.some.inj hv]
      exact plain_longLong _
  · obtain ⟨l, hl, rfl⟩ := Option.map_eq_some_iff.1 h
    exact plain_floatLiteral hconv hl
  · obtain ⟨l, hl, rfl⟩ := Option.map_eq_some_iff.1 h
    exact plain_doubleLiteral hconv hl
  · cases h

theorem plain_text {b : FreezeBody} (h : Plain b.literal.text) : Plain b.text := by
  have hstart : Plain (b.ctype.text ++ lit " v = " ++ b.literal.text ++ lit ";") :=
    plain_append (plain_append (plain_append (plain_ctype _) (plain_lit rfl (by decide))) h)
      (plain_lit rfl (by decide))
  unfold FreezeBody.text
  refine plain_append hstart ?_
  have hcompare : ∀ floor : Bool, Plain (if floor then lit "<" else lit ">") := by
    rintro (_ | _)
    · exact plain_lit rfl (by decide)
    · exact plain_lit rfl (by decide)
  cases b.store
  all_goals
    repeat' with_reducible refine plain_append ?_ ?_
    all_goals first
      | with_reducible exact plain_digits 10 _ (.inl rfl)
      | with_reducible exact plain_addressText _
      | with_reducible exact plain_ctype _
      | with_reducible exact hcompare _
      | exact plain_lit rfl (by decide)

theorem plain_body (hconv : PrintsNumbers conv) {body : Bytes}
    (h : freezeWriteBody conv e = some body) : Plain body := by
  obtain ⟨b, hb, rfl⟩ := Option.map_eq_some_iff.1 h
  refine plain_text ?_
  obtain ⟨scalar, hscalar, hb⟩ := Option.bind_eq_some_iff.1 hb
  have hplain := plain_freezeScalar hconv hscalar
  obtain ⟨ctype, literal, width⟩ := scalar
  dsimp only at hb
  split at hb
  · cases hb
  · rw [← Option.some.inj hb]
    exact hplain

end Bodies

/-! ### Lines of code -/

section Lines

variable {s : Bytes} {line : String} {lines : List String} {cs : List Char}

theorem whole_lit (hs : line = String.ofList cs) (h : isWhole (asBytes cs) = true) :
    Whole (lit line) := by
  rw [lit_ofList hs]
  exact whole_of_isWhole h

theorem codeLines_cons : codeLines (line :: lines) = (lit line ++ [0x0a]) ++ codeLines lines := by
  rw [codeLines, List.flatMap_cons, codeLines]

theorem whole_nil : Whole (codeLines []) := ⟨rfl, rfl⟩

theorem whole_cons (hs : line = String.ofList cs) (h : isWhole (asBytes cs ++ [0x0a]) = true)
    (hlines : Whole (codeLines lines)) : Whole (codeLines (line :: lines)) := by
  rw [codeLines_cons, lit_ofList hs]
  exact whole_append (whole_of_isWhole h) hlines

theorem plain_nil : Plain (codeLines []) := fun _ h => nomatch h

theorem plain_cons (hs : line = String.ofList cs) (h : (asBytes cs).all isPlain = true)
    (hlines : Plain (codeLines lines)) : Plain (codeLines (line :: lines)) := by
  rw [codeLines_cons]
  refine plain_append (plain_append (plain_lit hs h) fun c hc => ?_) hlines
  rw [List.mem_singleton.1 hc]
  rfl

theorem codeLines_concat : ∃ front, codeLines (line :: lines) = front ++ [0x0a] := by
  induction lines generalizing line with
  | nil => exact ⟨lit line, by rw [codeLines_cons]; exact List.append_nil _⟩
  | cons next lines ih =>
    obtain ⟨front, h⟩ := @ih next
    exact ⟨(lit line ++ [0x0a]) ++ front, by rw [codeLines_cons, h, List.append_assoc _ front]⟩

theorem whole_plain_lines (hs : Plain s) (hlines : Plain (codeLines (line :: lines))) :
    Whole (s ++ codeLines (line :: lines)) := by
  obtain ⟨front, h⟩ := @codeLines_concat line lines
  have hplain := plain_append hs hlines
  rw [h, ← List.append_assoc] at hplain ⊢
  exact whole_plain (fun c hc => hplain c (List.mem_append_left _ hc)) rfl

end Lines

theorem whole_fixedLines :
    (Whole headerLines ∧ Whole scriptsEndLines ∧ Whole helperLines ∧ Whole uiLines) ∧
    (Whole uiEndLines ∧ Whole freezeEndLines ∧ Whole usageLines) ∧
    Whole mainLines ∧ Whole activeLines ∧ Whole exitLines := by
  unfold headerLines scriptsEndLines helperLines uiLines uiEndLines freezeEndLines usageLines
    mainLines activeLines exitLines
  refine ⟨⟨?_, ?_, ?_, ?_⟩, ⟨?_, ?_, ?_⟩, ?_, ?_, ?_⟩
  -- lines, with the start of a line between them in three places
  all_goals repeat' with_reducible refine whole_append ?_ ?_
  all_goals repeat' with_reducible refine whole_cons rfl (by decide +kernel) ?_
  all_goals first | with_reducible exact whole_nil | exact whole_lit rfl (by decide +kernel)

/-! ### Where the texts stand -/

def Write.piece : Write → Piece
  | .code s => .code s
  | .text s => .literal (escaped s)
  | .comment s => .comment (lineCommentText s)

/-- Writes that begin and end between tokens, with their texts in place. -/
def Fits (writes : List Write) : Prop := Placing (writes.map Write.piece)

section Fits

variable {writes writes' : List Write} {s : Bytes}

theorem fits_nil : Fits [] := placing_nil

theorem fits_append (h : Fits writes) (h' : Fits writes') : Fits (writes ++ writes') := by
  rw [Fits, List.map_append]
  exact placing_append h h'

theorem fits_code (hs : Whole s) (h : Fits writes) : Fits (.code s :: writes) := placing_code hs h

theorem fits_text (h : Fits writes) : Fits (.text s :: writes) :=
  placing_literal (quotable_escaped s) h

theorem fits_comment {t : Bytes} (hs : clean s = true) (hkind : runKind .code s = .line)
    (h : Fits writes) : Fits (.code s :: .comment t :: .code (codeLines [""]) :: writes) :=
  placing_comment hs hkind (not_mem_lineCommentText t).1 (not_mem_lineCommentText t).2
    (placing_code ⟨rfl, rfl⟩ h)

theorem fits_perCheat {f : ℕ → ℕ → CheatEntry → List Write} (hf : ∀ i keyIdx e, Fits (f i keyIdx e))
    (i keyIdx : ℕ) (entries : List CheatEntry) : Fits (perCheat f i keyIdx entries) := by
  induction entries generalizing i keyIdx with
  | nil => exact fits_nil
  | cons e entries ih =>
    rw [perCheat]
    split
    · exact fits_append (hf i keyIdx e) (ih _ _)
    · exact ih _ _

theorem fits_flatMap {f : CheatEntry → List Write} (hf : ∀ e, Fits (f e))
    (entries : List CheatEntry) : Fits (entries.flatMap f) := by
  induction entries with
  | nil => exact fits_nil
  | cons e entries ih =>
    rw [List.flatMap_cons]
    exact fits_append (hf e) ih

end Fits

theorem fits_scriptRow (e : CheatEntry) : Fits (scriptRow e) := by
  rw [scriptRow]
  split
  · have hcomma : Whole (lit ", ") := whole_lit rfl (by decide)
    exact fits_code (whole_lit rfl (by decide)) <| fits_text <| fits_code hcomma <| fits_text <|
      fits_code hcomma <| fits_text <| fits_code (whole_cons rfl (by decide) whole_nil) fits_nil
  · exact fits_nil

theorem fits_toggleCheat (i keyIdx : ℕ) (e : CheatEntry) : Fits (toggleCheat i keyIdx e) := by
  refine fits_code ?_ <| fits_code ?_ <| fits_code ?_ fits_nil
  · exact whole_plain_lines (plain_append (plain_lit rfl (by decide)) (plain_number i))
      (plain_cons rfl (by decide) plain_nil)
  · exact whole_plain_lines (plain_append (plain_lit rfl (by decide)) (plain_number i))
      (plain_cons rfl (by decide) plain_nil)
  · refine whole_plain_lines ?_ ?_
    · exact plain_append (plain_append (plain_append (plain_lit rfl (by decide)) (plain_number i))
        (plain_lit rfl (by decide))) (plain_number i)
    · exact plain_cons rfl (by decide) <| plain_cons rfl (by decide) <|
        plain_cons rfl (by decide) plain_nil

theorem fits_cheatLine (i keyIdx : ℕ) (e : CheatEntry) : Fits (cheatLine i keyIdx e) := by
  have hswitch : Whole (lit "cheat_" ++ number i ++ lit "_enabled ? ") := by
    have hplain : Plain (lit "cheat_" ++ number i ++ lit "_enabled ?") :=
      plain_append (plain_append (plain_lit rfl (by decide)) (plain_number i))
        (plain_lit rfl (by decide))
    have hlast : lit "_enabled ? " = lit "_enabled ?" ++ [0x20] := by decide
    rw [hlast, ← List.append_assoc]
    exact whole_plain hplain rfl
  refine fits_code ?_ <| fits_text <| fits_code (whole_lit rfl (by decide)) <| fits_text <|
    fits_code (whole_cons rfl (by decide) whole_nil) fits_nil
  exact whole_append (whole_append (whole_lit rfl (by decide)) hswitch) (whole_lit rfl (by decide))

theorem fits_freezeCheat {conv : ValueIo.Converters} (hconv : PrintsNumbers conv) (i keyIdx : ℕ)
    (e : CheatEntry) : Fits (freezeCheat conv i keyIdx e) := by
  rw [freezeCheat]
  split
  · exact fits_nil
  split
  · exact fits_nil
  · rename_i body hbody
    refine fits_code ?_ <| fits_code ?_ <|
      fits_code (whole_cons rfl (by decide) whole_nil) fits_nil
    · exact whole_plain_lines (plain_append (plain_lit rfl (by decide)) (plain_number i))
        (plain_cons rfl (by decide) plain_nil)
    · exact whole_plain_lines (plain_append (plain_lit rfl (by decide)) (plain_body hconv hbody))
        (plain_cons rfl (by decide) plain_nil)

theorem fits_cheatKey (i keyIdx : ℕ) (e : CheatEntry) : Fits (cheatKey i keyIdx e) := by
  refine fits_code (whole_lit rfl (by decide)) <| fits_text <| fits_code ?_ fits_nil
  refine whole_plain_lines ?_ (plain_cons rfl (by decide) plain_nil)
  exact plain_append (plain_append (plain_append (plain_lit rfl (by decide)) (plain_intText _))
    (plain_lit rfl (by decide))) (plain_number i)

theorem fits_start (table : CheatTable) : Fits
    [.code (lit "// Auto-generated trainer for: "), .comment table.gameName, .code (codeLines [""]),
      .code (lit "// Author: "), .comment table.author, .code (codeLines [""]),
      .code headerLines,
      .code (lit "static const char* embedded_table_lua = "), .text table.luaScript,
      .code (codeLines [";"]),
      .code (lit "struct embedded_script_record \x7b " ++ codeLines
        ["const char* description; const char* lua; const char* autoasm; \x7d;",
         "static const struct embedded_script_record embedded_scripts[] = \x7b"])] := by
  have hline : ∀ {s : String} {cs : List Char}, s = String.ofList cs →
      clean (asBytes cs) && runKind .code (asBytes cs) == .line →
      clean (lit s) = true ∧ runKind .code (lit s) = .line := by
    intro s cs hs h
    rw [Bool.and_eq_true, beq_iff_eq] at h
    rwa [lit_ofList hs]
  obtain ⟨hclean, hkind⟩ := @hline "// Auto-generated trainer for: " _ rfl (by decide)
  obtain ⟨hclean', hkind'⟩ := @hline "// Author: " _ rfl (by decide)
  refine fits_comment hclean hkind <| fits_comment hclean' hkind' <|
    fits_code whole_fixedLines.1.1 <| fits_code (whole_lit rfl (by decide)) <| fits_text <|
    fits_code (whole_cons rfl (by decide) whole_nil) <| fits_code ?_ fits_nil
  refine whole_append (whole_lit rfl (by decide)) ?_
  exact whole_cons rfl (by decide) (whole_cons rfl (by decide) whole_nil)

/-- Every text of a program stands where a literal or the end of a comment can stand. -/
theorem fits_sourceWrites {conv : ValueIo.Converters} (hconv : PrintsNumbers conv)
    (table : CheatTable) : Fits (sourceWrites conv table) := by
  have hclose : Whole (codeLines [");"]) := whole_cons rfl (by decide) whole_nil
  obtain ⟨⟨-, hscripts, hhelper, hui⟩, ⟨huiEnd, hfreeze, husage⟩, hmain, hactive, hexit⟩ :=
    whole_fixedLines
  unfold sourceWrites
  repeat' with_reducible refine fits_append ?_ ?_
  · exact fits_start table
  · exact fits_flatMap fits_scriptRow _
  · exact fits_code hscripts (fits_code hhelper fits_nil)
  · exact fits_perCheat fits_toggleCheat _ _ _
  · refine fits_code ?_ <| fits_code (whole_lit rfl (by decide)) <| fits_text <|
      fits_code hclose <| fits_code hui fits_nil
    exact whole_cons rfl (by decide) (whole_cons rfl (by decide) whole_nil)
  · exact fits_perCheat fits_cheatLine _ _ _
  · exact fits_code huiEnd fits_nil
  · exact fits_perCheat (fits_freezeCheat hconv) _ _ _
  · exact fits_code hfreeze <| fits_code (whole_lit rfl (by decide)) <| fits_text <|
      fits_code hclose <| fits_code husage <| fits_code (whole_lit rfl (by decide)) <|
      fits_text <| fits_code hclose <| fits_code hmain fits_nil
  · exact fits_perCheat fits_cheatKey _ _ _
  · exact fits_code hactive fits_nil
  · exact fits_perCheat (fits_freezeCheat hconv) _ _ _
  · exact fits_code hexit fits_nil

/-! ### Tables with other texts -/

/-- A record without the texts of its author. -/
def bare (e : CheatEntry) : CheatEntry :=
  { e with
    description := []
    hotkeyKeys := []
    increaseHotkeyKeys := []
    decreaseHotkeyKeys := []
    setValueHotkeyKeys := []
    luaScript := []
    autoAsmScript := [] }

/-- Tables that differ in their game names, authors, descriptions, hotkeys and scripts only; the
same records have scripts. -/
structure SameButTexts (table table' : CheatTable) : Prop where
  entries : List.Forall₂ (fun e e' => bare e = bare e' ∧ hasScripts e = hasScripts e')
    table.entries table'.entries
  rest : { table with gameName := [], author := [], luaScript := [], entries := [] } =
    { table' with gameName := [], author := [], luaScript := [], entries := [] }

def TextsDenoted (conv : ValueIo.Converters) (table : CheatTable) : Prop :=
  ∃ segments : List (List Token),
    CLexer.tokens (generateSource conv table) = segments.flatten ∧
      List.Forall₂ (fun write segment => ∀ text, write = .text text →
        ∃ raw, segment = [.string [] raw] ∧ denotes raw = some text)
        (sourceWrites conv table) segments

section Texts

variable {conv : ValueIo.Converters} {table table' : CheatTable}

theorem generateSource_eq : generateSource conv table =
    render ((sourceWrites conv table).map Write.piece) := by
  rw [generateSource, render, List.flatMap_map]
  refine congrArg (List.flatMap · _) (funext fun w => ?_)
  cases w <;> rfl

/-- The writes without their texts. -/
def shapes (writes : List Write) : List Piece := (writes.map Write.piece).map Piece.shape

theorem shapes_append (writes writes' : List Write) :
    shapes (writes ++ writes') = shapes writes ++ shapes writes' := by
  rw [shapes, List.map_append, List.map_append, shapes, shapes]

theorem shapes_perCheat {f : ℕ → ℕ → CheatEntry → List Write} {entries entries' : List CheatEntry}
    (hf : ∀ i keyIdx e e', bare e = bare e' → shapes (f i keyIdx e) = shapes (f i keyIdx e'))
    (h : List.Forall₂ (fun e e' => bare e = bare e' ∧ hasScripts e = hasScripts e') entries
      entries') (i keyIdx : ℕ) :
    shapes (perCheat f i keyIdx entries) = shapes (perCheat f i keyIdx entries') := by
  induction h generalizing i keyIdx with
  | nil => rfl
  | @cons e e' _ _ he _ ih =>
    have hwritable : trainerWritable (bare e) = trainerWritable (bare e') :=
      congrArg trainerWritable he.1
    change trainerWritable e = trainerWritable e' at hwritable
    rw [perCheat, perCheat, hwritable]
    split
    · rw [shapes_append, shapes_append, hf i keyIdx e e' he.1, ih]
    · exact ih _ _

theorem shapes_flatMap {f : CheatEntry → List Write} {entries entries' : List CheatEntry}
    (hf : ∀ e e', hasScripts e = hasScripts e' → shapes (f e) = shapes (f e'))
    (h : List.Forall₂ (fun e e' => bare e = bare e' ∧ hasScripts e = hasScripts e') entries
      entries') : shapes (entries.flatMap f) = shapes (entries'.flatMap f) := by
  induction h with
  | nil => rfl
  | @cons e e' _ _ he _ ih =>
    rw [List.flatMap_cons, List.flatMap_cons, shapes_append, shapes_append, hf e e' he.2, ih]

theorem shapes_scriptRow {e e' : CheatEntry} (h : hasScripts e = hasScripts e') :
    shapes (scriptRow e) = shapes (scriptRow e') := by
  rw [scriptRow, scriptRow, h]
  split <;> rfl

theorem shapes_freezeCheat (i keyIdx : ℕ) {e e' : CheatEntry} (h : bare e = bare e') :
    shapes (freezeCheat conv i keyIdx e) = shapes (freezeCheat conv i keyIdx e') := by
  have hsame := congrArg (freezeCheat conv i keyIdx) h
  exact congrArg shapes hsame

/-- The programs of such tables are made alike. -/
theorem shapes_sourceWrites (h : SameButTexts table table') :
    shapes (sourceWrites conv table) = shapes (sourceWrites conv table') := by
  have htoggle := @shapes_perCheat toggleCheat _ _ (fun _ _ _ _ _ => rfl) h.entries 0 0
  have hline := @shapes_perCheat cheatLine _ _ (fun _ _ _ _ _ => rfl) h.entries 0 0
  have hkey := @shapes_perCheat cheatKey _ _ (fun _ _ _ _ _ => rfl) h.entries 0 0
  have hfreeze := @shapes_perCheat (freezeCheat conv) _ _
    (fun i keyIdx _ _ he => shapes_freezeCheat i keyIdx he) h.entries 0 0
  have hscripts := shapes_flatMap (fun _ _ he => shapes_scriptRow he) h.entries
  unfold sourceWrites
  simp only [shapes_append, htoggle, hline, hkey, hfreeze, hscripts]
  rfl

theorem pieceTokens_denoted (m : Mode) (writes : List Write) :
    List.Forall₂ (fun write segment => ∀ text, write = .text text →
      ∃ raw, segment = [.string [] raw] ∧ denotes raw = some text)
      writes (pieceTokens m (writes.map Write.piece)) := by
  induction writes generalizing m with
  | nil => exact .nil
  | cons w writes ih =>
    cases w with
    | code s => exact .cons (fun _ h => nomatch h) (ih _)
    | text s =>
      refine .cons (fun text h => ⟨escaped s, rfl, ?_⟩) (ih _)
      cases h
      exact denotes_escaped s
    | comment s => exact .cons (fun _ h => nomatch h) (ih _)

theorem textsDenoted (hconv : PrintsNumbers conv) (table : CheatTable) :
    TextsDenoted conv table := by
  have hfits := fits_sourceWrites hconv table
  refine ⟨_, ?_, pieceTokens_denoted .code (sourceWrites conv table)⟩
  rw [generateSource_eq, tokens_pieces hfits.placed, hfits.ends]
  exact List.append_nil _

/-- Texts of a table make no code: with other texts a program has the same tokens but for the
contents of its literals, and each literal of a text denotes it. -/
theorem texts_are_literals (hconv : PrintsNumbers conv) (h : SameButTexts table table') :
    (CLexer.tokens (generateSource conv table)).map Token.shape =
        (CLexer.tokens (generateSource conv table')).map Token.shape ∧
      TextsDenoted conv table ∧ TextsDenoted conv table' := by
  refine ⟨?_, textsDenoted hconv table, textsDenoted hconv table'⟩
  rw [generateSource_eq, generateSource_eq]
  exact tokens_shape (fits_sourceWrites hconv table).placed (fits_sourceWrites hconv table').placed
    (shapes_sourceWrites h)

end Texts

def quietTable : CheatTable :=
  { gameName := lit "game"
    author := lit "author"
    entries := [{ description := lit "Ammo", address := 0x1000, value := lit "99",
                  hotkeyKeys := lit "F", luaScript := lit "print(1)" }] }

/-- The same table with texts that end literals, lines and comments. -/
def hostileTable : CheatTable :=
  { gameName := lit "\"); system(\"x\n"
    author := lit "a\\\nint b;"
    luaScript := lit "\\"
    entries := [{ description := lit "*/\"\\1", address := 0x1000, value := lit "99",
                  hotkeyKeys := lit "\", 0) || (\"", luaScript := lit "\\\"" }] }

theorem hostileTable_texts :
    (CLexer.tokens (generateSource ValueIo.integerConverters quietTable)).map Token.shape =
        (CLexer.tokens (generateSource ValueIo.integerConverters hostileTable)).map Token.shape ∧
      TextsDenoted ValueIo.integerConverters quietTable ∧
      TextsDenoted ValueIo.integerConverters hostileTable :=
  texts_are_literals ⟨fun _ _ _ hc => (nomatch hc), fun _ _ _ hc => (nomatch hc)⟩
    ⟨.cons ⟨rfl, by decide⟩ .nil, rfl⟩

end CheatEngine.Trainer
