import Mathlib.Algebra.Group.Nat.Defs
import CheatEngineLinux.Core.Json
import CheatEngineLinux.Library.Utf8

/-!
# The tokens of the JSON parser

White space, strings and numbers: what each of the parser's loops consumes is what the grammar
allows there, and what the grammar allows is consumed.

* `parseString_sound`, `parseString_complete` — **PROVED**: a string is read exactly when the
  grammar has it, as the bytes it stands for;
* `parseNumber_sound`, `parseNumber_complete` — **PROVED**: a number is read exactly when the
  grammar has it and what follows does not go on with it.
-/

namespace CheatEngine.Json

open JsonGrammar

/-! ### White space -/

theorem skipWs_split (s : Bytes) : ∃ w, Ws w ∧ s = w ++ skipWs s :=
  ⟨s.takeWhile isWs, List.all_eq_true.mp List.all_takeWhile, List.takeWhile_append_dropWhile.symm⟩

/-- The bytes that end a value: nothing, a space, a separator or a closing bracket. -/
def Follow (s : Bytes) : Prop :=
  ∀ b ∈ s.head?, isWs b = true ∨ b = 0x2c ∨ b = 0x5d ∨ b = 0x7d

/-- What does not start with a space. -/
def Solid (s : Bytes) : Prop := ∀ b ∈ s.head?, isWs b = false

theorem Solid.cons {b : UInt8} (hb : isWs b = false) (s : Bytes) : Solid (b :: s) := by
  intro c hc
  cases hc
  exact hb

theorem Solid.value {D : Meaning Value} {d : ℕ} {t : Bytes} {v : Value} (h : JsonValue D d t v)
    (rest : Bytes) : Solid (t ++ rest) := by
  obtain ⟨b, t', rfl, hb⟩ := h.first
  exact Solid.cons (firstBytes_not_ws hb) _

theorem skipWs_append {w s : Bytes} (hw : Ws w) (hs : Solid s) : skipWs (w ++ s) = s := by
  induction w with
  | nil =>
    cases s with
    | nil => rfl
    | cons b s => simp [skipWs, hs b rfl]
  | cons b w ih =>
    have hb : isWs b = true := hw b (by simp)
    have hrest : Ws w := fun c hc => hw c (by simp [hc])
    simpa [skipWs, hb] using ih hrest

theorem consume_sound {b : UInt8} {s rest : Bytes} (h : consume b s = some rest) :
    ∃ w, Ws w ∧ s = w ++ b :: rest := by
  obtain ⟨w, hw, hs⟩ := skipWs_split s
  unfold consume at h
  split at h
  · cases h
  · next c tail hskip =>
    split at h
    · next hc =>
      rw [beq_iff_eq] at hc
      cases h
      exact ⟨w, hw, by rw [hs, hskip, hc]⟩
    · cases h

theorem consume_complete {b : UInt8} {w : Bytes} (hw : Ws w) (hb : isWs b = false) (rest : Bytes) :
    consume b (w ++ b :: rest) = some rest := by
  unfold consume
  rw [skipWs_append hw (Solid.cons hb rest)]
  simp

/-! ### Strings -/

theorem hexValue_lt {b : UInt8} {n : ℕ} (h : hexValue b = some n) : n < 16 := by
  unfold hexValue at h
  split at h
  · next hb =>
    simp only [Bool.and_eq_true, decide_eq_true_eq, UInt8.le_iff_toNat_le] at hb
    cases h
    simp at hb
    omega
  · split at h
    · next hb =>
      simp only [Bool.and_eq_true, decide_eq_true_eq, UInt8.le_iff_toNat_le] at hb
      cases h
      simp at hb
      omega
    · split at h
      · next hb =>
        simp only [Bool.and_eq_true, decide_eq_true_eq, UInt8.le_iff_toNat_le] at hb
        cases h
        simp at hb
        omega
      · cases h

theorem shift_or (n : ℕ) {x : ℕ} (hx : x < 16) : n <<< 4 ||| x = n * 16 + x := by
  rw [← Nat.shiftLeft_add_eq_or_of_lt (show x < 2 ^ 4 by omega), Nat.shiftLeft_eq]

theorem unit_complete {hex : Bytes} {n : ℕ} (h : Hex4 hex n) (s : Bytes) :
    unit (hex ++ s) = some (n, s) := by
  cases h with
  | mk ha hb hc hd =>
    simp only [unit, List.cons_append, List.nil_append, ha, hb, hc, hd, Option.bind_eq_bind,
      Option.bind_some]
    rw [shift_or _ (hexValue_lt hb), shift_or _ (hexValue_lt hc), shift_or _ (hexValue_lt hd)]

theorem unit_sound {s rest : Bytes} {n : ℕ} (h : unit s = some (n, rest)) :
    ∃ hex, Hex4 hex n ∧ s = hex ++ rest := by
  match s, h with
  | a :: b :: c :: d :: tail, h =>
    simp only [unit, Option.bind_eq_bind, Option.bind_eq_some_iff, Option.some.injEq,
      Prod.mk.injEq] at h
    obtain ⟨w, ha, x, hb, y, hc, z, hd, hn, rfl⟩ := h
    rw [shift_or _ (hexValue_lt hb), shift_or _ (hexValue_lt hc), shift_or _ (hexValue_lt hd)] at hn
    subst hn
    exact ⟨[a, b, c, d], Hex4.mk ha hb hc hd, rfl⟩

theorem tail_byte (n : ℕ) : UInt8.ofNat (0x80 ||| (n &&& 63)) = UInt8.ofNat (n % 64 + 0x80) := by
  rw [show (63 : ℕ) = 2 ^ 6 - 1 by decide, Nat.and_two_pow_sub_one_eq_mod, Nat.or_comm,
    show (0x80 : ℕ) = 2 ^ 6 * 2 by decide, Nat.or_comm,
    ← Nat.two_pow_add_eq_or_of_lt (Nat.mod_lt n (by decide : 0 < 2 ^ 6)), Nat.add_comm]

theorem lead_byte (k m : ℕ) {n : ℕ} (hn : n < 2 ^ k) :
    UInt8.ofNat (2 ^ k * m ||| n) = UInt8.ofNat (n + 2 ^ k * m) := by
  rw [← Nat.two_pow_add_eq_or_of_lt hn, Nat.add_comm]

theorem encodeUtf8_eq (c : Char) : encodeUtf8 c.toNat = String.utf8EncodeChar c := by
  have hmax := Utf8.toNat_lt c
  unfold encodeUtf8 String.utf8EncodeChar
  simp only [show c.val.toNat = c.toNat from rfl, tail_byte, Nat.shiftRight_eq_div_pow]
  obtain ⟨n, hn⟩ : ∃ n, n = c.toNat := ⟨_, rfl⟩
  rw [← hn] at hmax ⊢
  split
  · rfl
  · split
    · rw [show (0xc0 : ℕ) = 2 ^ 5 * 6 by decide, lead_byte 5 6 (by omega),
        show n / 64 % 32 = n / 2 ^ 6 by omega]
    · split
      · rw [show (0xe0 : ℕ) = 2 ^ 4 * 14 by decide, lead_byte 4 14 (by omega),
          show n / 4096 % 16 = n / 2 ^ 12 by omega, show n / 64 = n / 2 ^ 6 by omega]
      · rw [show (0xf0 : ℕ) = 2 ^ 3 * 30 by decide, lead_byte 3 30 (by omega),
          show n / 262144 % 8 = n / 2 ^ 18 by omega, show n / 4096 = n / 2 ^ 12 by omega,
          show n / 64 = n / 2 ^ 6 by omega]

theorem Hex4.lt {hex : Bytes} {n : ℕ} (h : Hex4 hex n) : n < 0x10000 := by
  cases h with
  | mk ha hb hc hd =>
    have := hexValue_lt ha
    have := hexValue_lt hb
    have := hexValue_lt hc
    have := hexValue_lt hd
    omega

theorem parseUnicode_sound {s rest bytes : Bytes} (h : parseUnicode s = some (bytes, rest)) :
    ∃ t, JsonChar (0x5c :: 0x75 :: t) bytes ∧ s = t ++ rest := by
  simp only [parseUnicode, Option.bind_eq_bind, Option.bind_eq_some_iff, Prod.exists] at h
  obtain ⟨code, s1, hunit, h⟩ := h
  obtain ⟨hex, hhex, rfl⟩ := unit_sound hunit
  have hlt := Hex4.lt hhex
  split at h
  · next hhigh =>
    split at h
    · next s2 =>
      simp only [Option.bind_eq_some_iff, Prod.exists] at h
      obtain ⟨low, s3, hunit', h⟩ := h
      obtain ⟨hex', hhex', rfl⟩ := unit_sound hunit'
      split at h
      · cases h
      · next hlow =>
        simp only [Option.some.injEq, Prod.mk.injEq] at h
        obtain ⟨hbytes, rfl⟩ := h
        obtain ⟨c, hc⟩ := Utf8.exists_char
          (n := 0x10000 + (code - 0xd800) * 0x400 + (low - 0xdc00)) (by omega)
        refine ⟨hex ++ 0x5c :: 0x75 :: hex', ?_, by simp⟩
        rw [← hbytes, Nat.shiftLeft_eq, ← hc, encodeUtf8_eq]
        exact JsonChar.pair hex hex' code low c hhex hhex' hhigh.1 hhigh.2 (by omega) (by omega) hc
    · cases h
  · next hhigh =>
    split at h
    · cases h
    · next hlow =>
      simp only [Option.some.injEq, Prod.mk.injEq] at h
      obtain ⟨hbytes, rfl⟩ := h
      obtain ⟨c, hc⟩ := Utf8.exists_char (n := code) (by omega)
      refine ⟨hex, ?_, rfl⟩
      rw [← hbytes, ← hc, encodeUtf8_eq]
      exact JsonChar.unit hex c (hc ▸ hhex)

theorem parseUnicode_unit {hex : Bytes} {c : Char} (h : Hex4 hex c.toNat) (s : Bytes) :
    parseUnicode (hex ++ s) = some (String.utf8EncodeChar c, s) := by
  have hvalid := Utf8.toNat_scalar c
  simp only [parseUnicode, unit_complete h, Option.bind_eq_bind, Option.bind_some]
  rw [if_neg (by omega), if_neg (by omega), encodeUtf8_eq]

theorem parseUnicode_pair {hex hex' : Bytes} {high low : ℕ} {c : Char} (h : Hex4 hex high)
    (h' : Hex4 hex' low) (h1 : 0xd800 ≤ high) (h2 : high ≤ 0xdbff) (h3 : 0xdc00 ≤ low)
    (h4 : low ≤ 0xdfff) (hc : c.toNat = 0x10000 + (high - 0xd800) * 0x400 + (low - 0xdc00))
    (s : Bytes) :
    parseUnicode (hex ++ 0x5c :: 0x75 :: hex' ++ s) = some (String.utf8EncodeChar c, s) := by
  rw [List.append_assoc]
  simp only [parseUnicode, unit_complete h, Option.bind_eq_bind, Option.bind_some, List.cons_append]
  rw [if_pos ⟨h1, h2⟩]
  simp only [unit_complete h', Option.bind_some]
  rw [if_neg (by omega), Nat.shiftLeft_eq, ← encodeUtf8_eq, hc]

theorem parseEscape_sound {s rest bytes : Bytes} (h : parseEscape s = some (bytes, rest)) :
    ∃ t, JsonChar (0x5c :: t) bytes ∧ s = t ++ rest := by
  have hescape : ∀ (e b : UInt8), (e, b) ∈ escapes → ∀ tail : Bytes,
      some ([b], tail) = some (bytes, rest) →
      ∃ t, JsonChar (0x5c :: t) bytes ∧ e :: tail = t ++ rest := by
    intro e b hmem tail heq
    simp only [Option.some.injEq, Prod.mk.injEq] at heq
    obtain ⟨rfl, rfl⟩ := heq
    exact ⟨[e], JsonChar.escape e b hmem, rfl⟩
  cases s with
  | nil => cases h
  | cons esc s =>
    simp only [parseEscape] at h
    -- one case for each label of the switch
    split_ifs at h with h1 h2 h3 h4 h5 h6 h7 h8 h9
    all_goals simp only [beq_iff_eq] at *
    · subst h1
      exact hescape _ _ (by decide) s h
    · subst h2
      exact hescape _ _ (by decide) s h
    · subst h3
      exact hescape _ _ (by decide) s h
    · subst h4
      exact hescape _ _ (by decide) s h
    · subst h5
      exact hescape _ _ (by decide) s h
    · subst h6
      exact hescape _ _ (by decide) s h
    · subst h7
      exact hescape _ _ (by decide) s h
    · subst h8
      exact hescape _ _ (by decide) s h
    · obtain ⟨t, hchar, rfl⟩ := parseUnicode_sound h
      exact ⟨0x75 :: t, hchar, by rw [h9]; rfl⟩

theorem parseEscape_complete {e b : UInt8} (h : (e, b) ∈ escapes) (s : Bytes) :
    parseEscape (e :: s) = some ([b], s) := by
  simp only [escapes, List.mem_cons, Prod.mk.injEq, List.not_mem_nil, or_false] at h
  rcases h with ⟨rfl, rfl⟩ | ⟨rfl, rfl⟩ | ⟨rfl, rfl⟩ | ⟨rfl, rfl⟩ | ⟨rfl, rfl⟩ | ⟨rfl, rfl⟩ |
    ⟨rfl, rfl⟩ | ⟨rfl, rfl⟩ <;> rfl

/-- What the loop reads is a run of characters up to the closing quote. -/
theorem parseChars_sound {fuel : ℕ} {value s chars rest : Bytes}
    (h : parseChars fuel value s = some (chars, rest)) :
    ∃ parts : List (Bytes × Bytes), (∀ p ∈ parts, JsonChar p.1 p.2) ∧
      s = parts.flatMap Prod.fst ++ 0x22 :: rest ∧ chars = value ++ parts.flatMap Prod.snd := by
  induction fuel generalizing value s with
  | zero => simp [parseChars] at h
  | succ fuel ih =>
    cases s with
    | nil => simp [parseChars] at h
    | cons c s =>
      simp only [parseChars] at h
      split at h
      · next hquote =>
        rw [beq_iff_eq] at hquote
        cases h
        exact ⟨[], by simp, by simp [hquote], by simp⟩
      · next hquote =>
        split at h
        · next hback =>
          split at h
          · cases h
          · next hctl =>
            obtain ⟨parts, hparts, rfl, rfl⟩ := ih h
            refine ⟨([c], [c]) :: parts, ?_, by simp, by simp⟩
            rw [List.forall_mem_cons]
            refine ⟨JsonChar.raw c ?_ (by simpa using hquote) (by simpa using hback), hparts⟩
            exact UInt8.not_lt.mp hctl
        · next hback =>
          simp only [Option.bind_eq_bind, Option.bind_eq_some_iff, Prod.exists] at h
          obtain ⟨bytes, s1, hesc, h⟩ := h
          obtain ⟨t, hchar, rfl⟩ := parseEscape_sound hesc
          obtain ⟨parts, hparts, rfl, rfl⟩ := ih h
          have hc : c = 0x5c := by simpa using hback
          refine ⟨(0x5c :: t, bytes) :: parts, ?_, by simp [hc], by simp⟩
          rw [List.forall_mem_cons]
          exact ⟨hchar, hparts⟩

/-- One character of the grammar is one turn of the loop. -/
theorem parseChars_char {text bytes : Bytes} (h : JsonChar text bytes) (fuel : ℕ)
    (value s : Bytes) :
    parseChars (fuel + 1) value (text ++ s) = parseChars fuel (value ++ bytes) s := by
  cases h with
  | raw b h1 h2 h3 =>
    simp only [List.cons_append, List.nil_append, parseChars]
    rw [if_neg (by simpa using h2), if_pos (by simpa using h3), if_neg (UInt8.not_lt.mpr h1)]
  | escape e b hmem =>
    simp [parseChars, parseEscape_complete hmem]
  | unit hex c hhex =>
    simp [parseChars, parseEscape, parseUnicode_unit hhex]
  | pair hex hex' high low c hhex hhex' h1 h2 h3 h4 hc =>
    have hpair := parseUnicode_pair hhex hhex' h1 h2 h3 h4 hc s
    simp only [List.append_assoc, List.cons_append] at hpair
    simp [parseChars, parseEscape, hpair]

theorem parseChars_complete {parts : List (Bytes × Bytes)} (h : ∀ p ∈ parts, JsonChar p.1 p.2)
    (fuel : ℕ) (hfuel : parts.length < fuel) (value rest : Bytes) :
    parseChars fuel value (parts.flatMap Prod.fst ++ 0x22 :: rest)
      = some (value ++ parts.flatMap Prod.snd, rest) := by
  induction parts generalizing fuel value with
  | nil =>
    obtain ⟨fuel, rfl⟩ := Nat.exists_eq_add_of_lt hfuel
    simp [parseChars]
  | cons p parts ih =>
    obtain ⟨hp, hparts⟩ := List.forall_mem_cons.mp h
    obtain ⟨fuel, rfl⟩ : ∃ m, fuel = m + 1 := ⟨fuel - 1, by omega⟩
    rw [List.flatMap_cons, List.append_assoc, parseChars_char hp,
      ih hparts fuel (by simpa using hfuel)]
    simp

theorem JsonChar.length_pos {text bytes : Bytes} (h : JsonChar text bytes) : 0 < text.length := by
  cases h <;> simp

theorem parts_length_le {parts : List (Bytes × Bytes)} (h : ∀ p ∈ parts, JsonChar p.1 p.2) :
    parts.length ≤ (parts.flatMap Prod.fst).length := by
  induction parts with
  | nil => simp
  | cons p parts ih =>
    obtain ⟨hp, hparts⟩ := List.forall_mem_cons.mp h
    have := ih hparts
    have := JsonChar.length_pos hp
    simp only [List.flatMap_cons, List.length_append, List.length_cons]
    omega

theorem parseString_sound {s chars rest : Bytes} (h : parseString s = some (chars, rest)) :
    ∃ t, JsonString t chars ∧ s = t ++ rest := by
  unfold parseString at h
  split at h
  · cases h
  · next c tail =>
    split at h
    · next hc =>
      rw [beq_iff_eq] at hc
      obtain ⟨parts, hparts, rfl, rfl⟩ := parseChars_sound h
      exact ⟨0x22 :: (parts.flatMap Prod.fst ++ [0x22]), ⟨parts, hparts, rfl, by simp⟩, by simp [hc]⟩
    · cases h

theorem parseString_complete {t chars : Bytes} (h : JsonString t chars) (rest : Bytes) :
    parseString (t ++ rest) = some (chars, rest) := by
  obtain ⟨parts, hparts, rfl, rfl⟩ := h
  have hlen := parts_length_le hparts
  simp only [parseString, List.cons_append, List.append_assoc, List.nil_append, beq_self_eq_true,
    if_true]
  rw [parseChars_complete hparts _ (by simp only [List.length_append, List.length_cons]; omega)]
  simp

/-! ### Numbers -/

theorem digit_eq_true {s : Bytes} (h : digit s = true) :
    ∃ d tail, s = d :: tail ∧ isDigit d = true := by
  cases s with
  | nil => simp [digit] at h
  | cons d tail => exact ⟨d, tail, rfl, by simpa [digit] using h⟩

theorem head_eq {s : Bytes} {b : UInt8} (h : (s.head? == some b) = true) : s = b :: s.tail := by
  cases s with
  | nil => simp at h
  | cons c tail => simpa using h

theorem digits_split {s : Bytes} (h : digit s = true) : ∃ ds, Digits ds ∧ s = ds ++ skipDigits s := by
  obtain ⟨d, tail, rfl, hd⟩ := digit_eq_true h
  refine ⟨d :: tail.takeWhile isDigit, ⟨by simp, ?_⟩, ?_⟩
  · rw [List.forall_mem_cons]
    exact ⟨hd, List.all_eq_true.mp List.all_takeWhile⟩
  · simp [skipDigits, hd, List.takeWhile_append_dropWhile]

theorem skipMinus_split (s : Bytes) : ∃ m, (m = [] ∨ m = [0x2d]) ∧ s = m ++ skipMinus s := by
  unfold skipMinus
  split
  · next h => exact ⟨[0x2d], Or.inr rfl, head_eq h⟩
  · exact ⟨[], Or.inl rfl, rfl⟩

theorem skipInt_sound {s rest : Bytes} (h : skipInt s = some rest) :
    ∃ int, IntPart int ∧ s = int ++ rest := by
  unfold skipInt at h
  split at h
  · next hdigit =>
    split at h
    · next hzero =>
      split at h
      · cases h
      · cases h
        exact ⟨[0x30], IntPart.zero, head_eq hzero⟩
    · next hzero =>
      cases h
      obtain ⟨d, tail, rfl, hd⟩ := digit_eq_true hdigit
      refine ⟨d :: tail.takeWhile isDigit, IntPart.digits d _ hd (by simpa using hzero)
        (List.all_eq_true.mp List.all_takeWhile), ?_⟩
      simp [skipDigits, hd, List.takeWhile_append_dropWhile]
  · cases h

theorem skipFrac_sound {s rest : Bytes} (h : skipFrac s = some rest) :
    ∃ frac, Frac frac ∧ s = frac ++ rest := by
  unfold skipFrac at h
  split at h
  · next hpoint =>
    split at h
    · next hdigit =>
      cases h
      obtain ⟨ds, hds, htail⟩ := digits_split hdigit
      refine ⟨0x2e :: ds, Or.inr ⟨ds, hds, rfl⟩, ?_⟩
      rw [List.cons_append, ← htail]
      exact head_eq hpoint
    · cases h
  · cases h
    exact ⟨[], Or.inl rfl, rfl⟩

theorem skipSign_split (s : Bytes) :
    ∃ sign, (sign = [] ∨ sign = [0x2b] ∨ sign = [0x2d]) ∧ s = sign ++ skipSign s := by
  unfold skipSign
  split
  · next h =>
    rcases Bool.or_eq_true_iff.mp h with h | h
    · exact ⟨[0x2b], by simp, head_eq h⟩
    · exact ⟨[0x2d], by simp, head_eq h⟩
  · exact ⟨[], Or.inl rfl, rfl⟩

theorem skipExp_sound {s rest : Bytes} (h : skipExp s = some rest) :
    ∃ exp, Exp exp ∧ s = exp ++ rest := by
  unfold skipExp at h
  split at h
  · next he =>
    split at h
    · next hdigit =>
      cases h
      obtain ⟨e, he, hs⟩ : ∃ e, (e = 0x65 ∨ e = 0x45) ∧ s = e :: s.tail := by
        rcases Bool.or_eq_true_iff.mp he with h | h
        · exact ⟨0x65, Or.inl rfl, head_eq h⟩
        · exact ⟨0x45, Or.inr rfl, head_eq h⟩
      obtain ⟨sign, hsign, htail⟩ := skipSign_split s.tail
      obtain ⟨ds, hds, hrun⟩ := digits_split hdigit
      refine ⟨e :: (sign ++ ds), Or.inr ⟨e, sign, ds, he, hsign, hds, rfl⟩, ?_⟩
      rw [List.cons_append, List.append_assoc, ← hrun, ← htail]
      exact hs
    · cases h
  · cases h
    exact ⟨[], Or.inl rfl, rfl⟩

theorem parseNumber_sound {s t rest : Bytes} (h : parseNumber s = some (t, rest)) :
    Number t ∧ s = t ++ rest := by
  simp only [parseNumber, Option.bind_eq_bind, Option.bind_eq_some_iff, Option.some.injEq,
    Prod.mk.injEq] at h
  obtain ⟨r1, h1, r2, h2, r3, h3, ht, rfl⟩ := h
  obtain ⟨minus, hminus, hs⟩ := skipMinus_split s
  obtain ⟨int, hint, hs1⟩ := skipInt_sound h1
  obtain ⟨frac, hfrac, rfl⟩ := skipFrac_sound h2
  obtain ⟨exp, hexp, rfl⟩ := skipExp_sound h3
  have hsplit : s = (minus ++ (int ++ (frac ++ exp))) ++ r3 := by
    rw [hs, hs1]
    simp
  have htake : t = minus ++ (int ++ (frac ++ exp)) := by
    rw [← ht, hsplit, List.length_append, Nat.add_sub_cancel, List.take_left']
    rfl
  exact ⟨⟨minus, int, frac, exp, hminus, hint, hfrac, hexp, htake⟩, by rw [htake]; exact hsplit⟩

def NumberEnd (s : Bytes) : Prop :=
  ∀ b ∈ s.head?, isDigit b = false ∧ b ≠ 0x2e ∧ b ≠ 0x65 ∧ b ≠ 0x45

theorem Follow.numberEnd {s : Bytes} (h : Follow s) : NumberEnd s := by
  intro b hb
  rcases h b hb with hws | rfl | rfl | rfl
  · simp only [isWs, Bool.or_eq_true, beq_iff_eq] at hws
    rcases hws with ((rfl | rfl) | rfl) | rfl <;> decide
  all_goals decide

theorem digit_eq_false {s : Bytes} (h : ∀ b ∈ s.head?, isDigit b = false) : digit s = false := by
  cases s with
  | nil => rfl
  | cons b s => simpa [digit] using h b rfl

theorem head_ne {s : Bytes} {x : UInt8} (h : ∀ b ∈ s.head?, b ≠ x) :
    ¬ (s.head? == some x) = true := by
  intro heq
  rw [beq_iff_eq] at heq
  exact h x heq rfl

theorem skipDigits_append {ds s : Bytes} (hds : ∀ b ∈ ds, isDigit b = true)
    (hs : digit s = false) : skipDigits (ds ++ s) = s := by
  unfold skipDigits
  rw [List.dropWhile_append_of_pos hds]
  cases s with
  | nil => rfl
  | cons b s =>
    have hb : isDigit b = false := by simpa [digit] using hs
    simp [hb]

theorem Digits.digit {ds : Bytes} (h : Digits ds) (s : Bytes) : digit (ds ++ s) = true := by
  obtain ⟨hne, hds⟩ := h
  cases ds with
  | nil => exact absurd rfl hne
  | cons d ds => simpa [Json.digit] using hds d (by simp)

theorem skipExp_complete {exp s : Bytes} (hexp : Exp exp) (hs : NumberEnd s) :
    skipExp (exp ++ s) = some s := by
  unfold skipExp
  rcases hexp with rfl | ⟨e, sign, ds, he, hsign, hds, rfl⟩
  · rw [List.nil_append, if_neg]
    rw [Bool.or_eq_true_iff, not_or]
    exact ⟨head_ne fun b hb => (hs b hb).2.2.1, head_ne fun b hb => (hs b hb).2.2.2⟩
  · have hhead : (((e :: (sign ++ ds)) ++ s).head? == some 0x65
        || ((e :: (sign ++ ds)) ++ s).head? == some 0x45) = true := by
      rcases he with rfl | rfl <;> simp
    have hsign' : skipSign (sign ++ (ds ++ s)) = ds ++ s := by
      obtain ⟨hne, hall⟩ := hds
      rcases hsign with rfl | rfl | rfl
      · -- a digit is no sign
        cases ds with
        | nil => exact absurd rfl hne
        | cons d ds =>
          have hd := hall d (by simp)
          have h1 : d ≠ 0x2b := fun h => by rw [h] at hd; exact absurd hd (by decide)
          have h2 : d ≠ 0x2d := fun h => by rw [h] at hd; exact absurd hd (by decide)
          simp [skipSign, h1, h2]
      · simp [skipSign]
      · simp [skipSign]
    rw [if_pos hhead, List.cons_append, List.tail_cons, List.append_assoc, hsign',
      if_pos (Digits.digit hds s), skipDigits_append hds.2 (digit_eq_false fun b hb => (hs b hb).1)]

theorem Exp.head {exp s : Bytes} (hexp : Exp exp) (hs : NumberEnd s) :
    ∀ b ∈ (exp ++ s).head?, isDigit b = false ∧ b ≠ 0x2e := by
  rcases hexp with rfl | ⟨e, sign, ds, he, -, -, rfl⟩
  · exact fun b hb => ⟨(hs b hb).1, (hs b hb).2.1⟩
  · intro b hb
    cases hb
    rcases he with rfl | rfl <;> decide

theorem skipFrac_complete {frac s : Bytes} (hfrac : Frac frac)
    (hs : ∀ b ∈ s.head?, isDigit b = false ∧ b ≠ 0x2e) : skipFrac (frac ++ s) = some s := by
  unfold skipFrac
  rcases hfrac with rfl | ⟨ds, hds, rfl⟩
  · rw [List.nil_append, if_neg (head_ne fun b hb => (hs b hb).2)]
  · rw [if_pos (by simp), List.cons_append, List.tail_cons, if_pos (Digits.digit hds s),
      skipDigits_append hds.2 (digit_eq_false fun b hb => (hs b hb).1)]

theorem Frac.head {frac s : Bytes} (hfrac : Frac frac) (hs : ∀ b ∈ s.head?, isDigit b = false) :
    ∀ b ∈ (frac ++ s).head?, isDigit b = false := by
  rcases hfrac with rfl | ⟨ds, -, rfl⟩
  · exact hs
  · intro b hb
    cases hb
    decide

theorem skipInt_complete {int s : Bytes} (hint : IntPart int)
    (hs : ∀ b ∈ s.head?, isDigit b = false) : skipInt (int ++ s) = some s := by
  have hend := digit_eq_false hs
  cases hint with
  | zero => simp [skipInt, hend, show digit (0x30 :: s) = true from rfl]
  | digits d ds hd hd0 hds =>
    have hrun : skipDigits (d :: ds ++ s) = s :=
      skipDigits_append (by rw [List.forall_mem_cons]; exact ⟨hd, hds⟩) hend
    have hdigit : digit (d :: ds ++ s) = true := by simpa [digit] using hd
    unfold skipInt
    rw [if_pos hdigit, if_neg (by simpa using hd0), hrun]

theorem skipMinus_complete {minus int : Bytes} (hminus : minus = [] ∨ minus = [0x2d])
    (hint : IntPart int) (s : Bytes) : skipMinus (minus ++ (int ++ s)) = int ++ s := by
  rcases hminus with rfl | rfl
  · cases hint with
    | zero => simp [skipMinus]
    | digits d ds hd _ _ =>
      have h : d ≠ 0x2d := fun h => by rw [h] at hd; exact absurd hd (by decide)
      simp [skipMinus, h]
  · simp [skipMinus]

theorem parseNumber_complete {t : Bytes} (h : Number t) {rest : Bytes} (hrest : NumberEnd rest) :
    parseNumber (t ++ rest) = some (t, rest) := by
  obtain ⟨minus, int, frac, exp, hminus, hint, hfrac, hexp, rfl⟩ := h
  have hassoc : (minus ++ (int ++ (frac ++ exp))) ++ rest
      = minus ++ (int ++ (frac ++ (exp ++ rest))) := by simp
  have hhead := Exp.head hexp hrest
  have hhead' := Frac.head hfrac fun b hb => (hhead b hb).1
  unfold parseNumber
  simp only [hassoc, skipMinus_complete hminus hint, skipInt_complete hint hhead',
    skipFrac_complete hfrac hhead, skipExp_complete hexp hrest, Option.bind_eq_bind,
    Option.bind_some]
  rw [← hassoc, List.length_append, Nat.add_sub_cancel, List.take_left']
  rfl

end CheatEngine.Json
