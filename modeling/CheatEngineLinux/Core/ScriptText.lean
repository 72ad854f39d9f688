import CheatEngineLinux.Library.Numerals
import CheatEngineLinux.Library.Slices

/-!
# Script texts

The text helpers of `src/core/autoasm.cpp`.  A text is the list of its characters; the character
tests are those of the C locale.

* `trim`, `toUpper`, `startsWith`, `stripOptionalQuotes`: the helpers.
* **PROVED `trim_append_blanks`**: blanks at the end do not matter to `trim`.
-/

namespace CheatEngine.AutoAssembler

/-- `std::string`. -/
abbrev Text := List Char

/-- The characters that `trim` takes off. -/
def isBlank (c : Char) : Bool :=
  c == ' ' || c == '\t' || c == '\r' || c == '\n'

/-- `std::isspace`. -/
def isSpace (c : Char) : Bool :=
  isBlank c || c == '\x0b' || c == '\x0c'

def isQuote (c : Char) : Bool :=
  c == '\x22' || c == '\x27'

/-- A character of an identifier, also `std::isalnum(c) || c == '_'`. -/
def isIdentChar (c : Char) : Bool :=
  ('A' ≤ c && c ≤ 'Z') || ('a' ≤ c && c ≤ 'z') || ('0' ≤ c && c ≤ '9') || c == '_'

def trim (s : Text) : Text := Slices.trim isBlank s

def toUpper (s : Text) : Text := s.map Char.toUpper

def toLower (s : Text) : Text := s.map Char.toLower

def startsWith (s front : Text) : Bool := front.isPrefixOf s

/-- `front() == '"' && back() == '"'`, or the same with apostrophes. -/
def isQuoted (s : Text) : Bool :=
  match s with
  | [] => false
  | c :: rest => isQuote c && rest.getLast? == some c

def stripOptionalQuotes (s : Text) : Text :=
  if isQuoted (trim s) then (trim s).tail.dropLast else trim s

theorem isIdentChar_of_digitValue {c : Char} {d : ℕ} (h : Numerals.digitValue c = some d) :
    isIdentChar c = true := by
  unfold Numerals.digitValue at h
  unfold isIdentChar
  split at h
  · rename_i hc
    simp [hc]
  · split at h
    · rename_i hc
      have : c ≤ 'z' := Char.le_trans hc.2 (by decide)
      simp [hc.1, this]
    · split at h
      · rename_i hc
        have : c ≤ 'Z' := Char.le_trans hc.2 (by decide)
        simp [hc.1, this]
      · cases h

/-! ### Blanks at the ends -/

theorem isQuote_not_blank {c : Char} (h : isQuote c = true) : isBlank c = false := by
  simp only [isQuote, Bool.or_eq_true, beq_iff_eq] at h
  rcases h with rfl | rfl <;> rfl

theorem dropWhile_append_blanks {s blanks : Text} (h : ∀ c ∈ blanks, isBlank c = true) :
    (s ++ blanks).reverse.dropWhile isBlank = s.reverse.dropWhile isBlank := by
  rw [List.reverse_append,
    List.dropWhile_append_of_pos fun c hc => h c (List.mem_reverse.mp hc)]

theorem trim_append_blanks {s blanks : Text} (h : ∀ c ∈ blanks, isBlank c = true) :
    trim (s ++ blanks) = trim s := by
  unfold trim Slices.trim
  by_cases hall : ∀ c ∈ s, isBlank c = true
  · have hboth : ∀ c ∈ s ++ blanks, isBlank c = true :=
      fun c hc => (List.mem_append.mp hc).elim (hall c) (h c)
    rw [List.dropWhile_eq_nil_iff.mpr hall, List.dropWhile_eq_nil_iff.mpr hboth]
  · rw [List.dropWhile_append, if_neg (by simpa using hall), dropWhile_append_blanks h]

theorem trim_cons {c : Char} (hc : isBlank c = false) (s : Text) :
    ∃ blanks, (∀ b ∈ blanks, isBlank b = true) ∧ c :: s = trim (c :: s) ++ blanks := by
  obtain ⟨before, after, hbefore, hafter, heq⟩ := Slices.trim_split isBlank (c :: s)
  refine ⟨after, hafter, ?_⟩
  cases before with
  | nil => exact heq
  | cons b before =>
    have := hbefore b List.mem_cons_self
    rw [← (List.cons.inj heq).1, hc] at this
    cases this

end CheatEngine.AutoAssembler
