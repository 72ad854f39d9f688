import CheatEngineLinux.Core.ScriptText
import Mathlib.Algebra.BigOperators.Group.List.Basic
import Mathlib.Algebra.GroupWithZero.Nat

/-!
# Anonymous labels

`AutoAssembler::resolveAnonymousLabels` (`src/core/autoasm.cpp`): `@@:` declares a label without a
name, `@F` and `@B` refer to the next and to the previous one.  Comments in braces are gone when it
is called.

* `resolveAnonymousLabels`: the pass, with what it logs.
* `marks`: the references of a line, and whether they stand in a comment or a quoted string.
* `BindsNearest`: every reference that does not, and no other, is bound to the nearest label.
* **PROVED `anonymous_labels_iff`**: when the pass does this.
-/

namespace CheatEngine.AutoAssembler.AnonymousLabels

open Numerals

/-! ### The code -/

def anonName (n : ℕ) : Text := "__anon_".toList ++ Nat.toDigits 10 n

def splitLines (code : Text) : List Text := code.splitOn '\n'

def joinLines (lines : List Text) : Text := ['\n'].intercalate lines

def declares (line : Text) : Bool :=
  startsWith (line.dropWhile fun c => c == ' ' || c == '\t') "@@:".toList

def nameLabel (n : ℕ) (line : Text) : Text :=
  line.takeWhile (fun c => c == ' ' || c == '\t') ++
    (anonName n ++ ':' :: (line.dropWhile fun c => c == ' ' || c == '\t').drop 3)

def numberLines : ℕ → List Text → List (Text × Option ℕ)
  | _, [] => []
  | anonCount, line :: rest =>
    if declares line then
      (nameLabel anonCount line, some anonCount) :: numberLines (anonCount + 1) rest
    else (line, none) :: numberLines anonCount rest

def isF (c : Char) : Bool := c == 'F' || c == 'f'

def isB (c : Char) : Bool := c == 'B' || c == 'b'

/-- A reference, by its two characters and those around it: `left` says that the one before
belongs to an identifier. -/
def isRef (left : Bool) (c next : Char) (rest : Text) : Bool :=
  c == '@' && (isF next || isB next) && !left && !rest.head?.any isIdentChar

/-- The label that a reference on the line is to. -/
def targetOf (anonAt : List (Option ℕ)) (lineIdx : ℕ) (forward : Bool) : Option ℕ :=
  if forward then (anonAt.drop (lineIdx + 1)).findSome? id
  else (anonAt.take lineIdx).reverse.findSome? id

def noMatch (forward : Bool) : Text :=
  "anonymous label reference @".toList ++
    ((if forward then 'F' else 'B') :: " has no matching @@:".toList)

def replaceRefs (target : Bool → Option ℕ) : Bool → Text → Except Text Text
  | _, [] => .ok []
  | _, [c] => .ok [c]
  | left, c :: next :: rest =>
    if isRef left c next rest then
      match target (isF next) with
      | none => .error (noMatch (isF next))
      | some n => do
        let out ← replaceRefs target ((anonName n).getLast?.any isIdentChar) rest
        return anonName n ++ out
    else do
      let out ← replaceRefs target (isIdentChar c) (next :: rest)
      return c :: out

def replaceLines (anonAt : List (Option ℕ)) : ℕ → List Text → Except Text (List Text)
  | _, [] => .ok []
  | lineIdx, line :: rest => do
    let line ← replaceRefs (targetOf anonAt lineIdx) false line
    let rest ← replaceLines anonAt (lineIdx + 1) rest
    return line :: rest

def preamble (anonCount : ℕ) : Text :=
  (List.range anonCount).flatMap fun i => "label(".toList ++ (anonName i ++ ")\n".toList)

def countLabels (code : Text) : ℕ := ((splitLines code).filter declares).length

/-- The new text and the lines of the log. -/
def resolveAnonymousLabels (code : Text) : Except Text (Text × List Text) := do
  let numbered := numberLines 0 (splitLines code)
  let lines ← replaceLines (numbered.map Prod.snd) 0 (numbered.map Prod.fst)
  if countLabels code = 0 then return (code, [])
  else return (preamble (countLabels code) ++ joinLines lines,
    ["anonymous labels: resolved ".toList ++
      (Nat.toDigits 10 (countLabels code) ++ " @@: declaration(s)".toList)])

/-! ### Comments and quoted strings -/

/-- Where a character of a line stands. -/
inductive Place
  | code
  | quoted (quote : Char)
  | comment
  deriving Repr, DecidableEq

/-- A line that begins with `/` or `;` is a comment. -/
def Place.initial (line : Text) : Place :=
  if (trim line).head? = some '/' ∨ (trim line).head? = some ';' then .comment else .code

/-- The place of the next character; `//` outside quotes begins a comment. -/
def Place.step (place : Place) (c : Char) (next : Option Char) : Place :=
  match place with
  | .comment => .comment
  | .quoted quote => if c = quote then .code else .quoted quote
  | .code =>
    if isQuote c then .quoted c
    else if c = '/' ∧ next = some '/' then .comment
    else .code

/-- What a line consists of. -/
inductive Mark
  | char (c : Char)
  /-- A reference with its letter; `live` where it is in no comment and in no quoted string. -/
  | ref (letter : Char) (live : Bool)
  deriving Repr, DecidableEq

def marks (place : Place) : Bool → Text → List Mark
  | _, [] => []
  | _, [c] => [.char c]
  | left, c :: next :: rest =>
    if isRef left c next rest then
      .ref next (place == .code) :: marks place true rest
    else .char c :: marks (place.step c (some next)) (isIdentChar c) (next :: rest)

def lineMarks (line : Text) : List Mark := marks (.initial line) false line

/-! ### Nearest labels -/

/-- The label of number `n` is the nearest one after the line, or before it. -/
def Refers (anonAt : List (Option ℕ)) (i : ℕ) (forward : Bool) (n : ℕ) : Prop :=
  ∃ j, anonAt[j]? = some (some n) ∧
    if forward then i < j ∧ ∀ k m, i < k → k < j → anonAt[k]? ≠ some (some m)
    else j < i ∧ ∀ k m, j < k → k < i → anonAt[k]? ≠ some (some m)

/-- A reference of the line, in a comment or a quoted string or not. -/
def HasRef (lines : List Text) (i : ℕ) (forward live : Bool) : Prop :=
  ∃ line letter, lines[i]? = some line ∧ Mark.ref letter live ∈ lineMarks line ∧
    isF letter = forward

def namedText (target : Bool → Option ℕ) : Mark → Text
  | .char c => [c]
  | .ref letter _ => (target (isF letter)).elim [] anonName

/-- The text of a mark with the references replaced that are in no comment or quoted string. -/
def boundText (label : Bool → ℕ) : Mark → Text
  | .char c => [c]
  | .ref letter true => anonName (label (isF letter))
  | .ref letter false => ['@', letter]

/-- The lines, with each mark of the `i`-th line written as `text i` says. -/
def render (text : ℕ → Mark → Text) : ℕ → List Text → List Text
  | _, [] => []
  | i, line :: rest => (lineMarks line).flatMap (text i) :: render text (i + 1) rest

/-- The name stands in the text, with no character of an identifier around it. -/
def Occurs (name text : Text) : Prop :=
  ∃ before after, text = before ++ (name ++ after) ∧ before.getLast?.any isIdentChar = false ∧
    after.head?.any isIdentChar = false

def namedLines (script : Text) : List Text := (numberLines 0 (splitLines script)).map Prod.fst

def labelsAt (script : Text) : List (Option ℕ) :=
  (numberLines 0 (splitLines script)).map Prod.snd

/-- **Anonymous labels bind to the nearest.**  Either a reference has no label and is reported, or
each is replaced by the name of the nearest label, comments and quoted strings are as they were,
and the names are distinct and occur nowhere in the script. -/
def BindsNearest (script : Text) : Except Text (Text × List Text) → Prop
  | .error _ => ∃ i forward, HasRef (namedLines script) i forward true ∧
      ∀ n, ¬Refers (labelsAt script) i forward n
  | .ok (text, _) =>
    (∃ label : ℕ → Bool → ℕ,
      (∀ i forward, HasRef (namedLines script) i forward true →
        Refers (labelsAt script) i forward (label i forward)) ∧
      text = preamble (countLabels script) ++
        joinLines (render (fun i => boundText (label i)) 0 (namedLines script))) ∧
    (∀ m n, anonName m = anonName n → m = n) ∧
    ∀ n < countLabels script, ¬Occurs (anonName n) script

/-! ### Names -/

theorem anonName_last (n : ℕ) : (anonName n).getLast?.any isIdentChar = true := by
  have hne : Nat.toDigits 10 n ≠ [] := Nat.toDigits_ne_nil
  obtain ⟨d, hd, -⟩ := @isDigits_toDigits 10 (by decide) (by decide) n _ (List.getLast_mem hne)
  unfold anonName
  rw [List.getLast?_append, List.getLast?_eq_some_getLast hne, Option.some_or,
    Option.any_some, isIdentChar_of_digitValue hd]

theorem anonName_injective {m n : ℕ} (h : anonName m = anonName n) : m = n := by
  have hdigits := List.append_cancel_left h
  rw [← @value_toDigits 10 (by decide) (by decide) m, hdigits,
    value_toDigits (by decide) (by decide)]

theorem anonName_length (n : ℕ) : 2 < (anonName n).length := by
  have hfront : "__anon_".toList.length = 7 := by decide
  unfold anonName
  rw [List.length_append, hfront]
  omega

/-! ### One line -/

variable {target : Bool → Option ℕ} {place : Place} {left : Bool} {line : Text}

theorem replaceRefs_ok
    (h : ∀ letter live, Mark.ref letter live ∈ marks place left line →
      target (isF letter) ≠ none) :
    replaceRefs target left line = .ok ((marks place left line).flatMap (namedText target)) := by
  fun_induction marks place left line with
  | case1 => rfl
  | case2 => rfl
  | case3 place left c next rest href ih =>
    rw [replaceRefs, if_pos href]
    obtain ⟨n, hn⟩ := Option.ne_none_iff_exists'.mp (h next _ (List.mem_cons_self ..))
    rw [hn]
    dsimp only
    rw [anonName_last, ih fun letter live hmem => h letter live (List.mem_cons_of_mem _ hmem),
      List.flatMap_cons, namedText, hn]
    rfl
  | case4 place left c next rest href ih =>
    rw [replaceRefs, if_neg href,
      ih fun letter live hmem => h letter live (List.mem_cons_of_mem _ hmem)]
    rfl

theorem replaceRefs_error {letter : Char} {live : Bool}
    (h : Mark.ref letter live ∈ marks place left line) (hnone : target (isF letter) = none) :
    ∃ e, replaceRefs target left line = .error e := by
  fun_induction marks place left line with
  | case1 => cases h
  | case2 => cases h with | tail _ h => cases h
  | case3 place left c next rest href ih =>
    rw [replaceRefs, if_pos href]
    cases htarget : target (isF next) with
    | none => exact ⟨_, rfl⟩
    | some n =>
      cases h with
      | head => rw [htarget] at hnone; cases hnone
      | tail _ h =>
        obtain ⟨e, he⟩ := ih h
        refine ⟨e, ?_⟩
        dsimp only
        rw [anonName_last, he]
        rfl
  | case4 place left c next rest href ih =>
    rw [replaceRefs, if_neg href]
    cases h with
    | tail _ h =>
      obtain ⟨e, he⟩ := ih h
      exact ⟨e, by rw [he]; rfl⟩

/-! ### All lines -/

variable {anonAt : List (Option ℕ)} {lines : List Text} {i : ℕ}

theorem replaceLines_ok (h : ∀ k line letter live, lines[k]? = some line →
    Mark.ref letter live ∈ lineMarks line → targetOf anonAt (i + k) (isF letter) ≠ none) :
    replaceLines anonAt i lines = .ok (render (fun i => namedText (targetOf anonAt i)) i lines) := by
  induction lines generalizing i with
  | nil => rfl
  | cons line lines ih =>
    have hline := @replaceRefs_ok (targetOf anonAt i) (.initial line) false line
      fun letter live hmem => h 0 line letter live rfl hmem
    have hrest := @ih (i + 1) fun k l letter live hl hmem => by
      rw [Nat.add_assoc, Nat.add_comm 1]
      exact h (k + 1) l letter live hl hmem
    rw [replaceLines, hline, hrest]
    rfl

theorem replaceLines_error {k : ℕ} {letter : Char} {live : Bool} (hline : lines[k]? = some line)
    (href : Mark.ref letter live ∈ lineMarks line)
    (hnone : targetOf anonAt (i + k) (isF letter) = none) :
    ∃ e, replaceLines anonAt i lines = .error e := by
  induction lines generalizing i k with
  | nil => cases hline
  | cons first lines ih =>
    rw [replaceLines]
    cases k with
    | zero =>
      cases hline
      obtain ⟨e, he⟩ := replaceRefs_error href hnone
      exact ⟨e, by rw [Nat.add_zero] at he; rw [he]; rfl⟩
    | succ k =>
      obtain ⟨e, he⟩ := @ih (i + 1) k hline (by rw [Nat.add_assoc, Nat.add_comm 1]; exact hnone)
      cases replaceRefs (targetOf anonAt i) false first with
      | error e' => exact ⟨e', rfl⟩
      | ok out => exact ⟨e, by rw [he]; rfl⟩

theorem findSome_eq_some_iff (l : List (Option ℕ)) (n : ℕ) : l.findSome? id = some n ↔
    ∃ j : ℕ, l[j]? = some (some n) ∧ ∀ k m, k < j → l[k]? ≠ some (some m) := by
  induction l with
  | nil => exact ⟨fun h => (by cases h), fun ⟨_, h, _⟩ => (by cases h)⟩
  | cons a l ih =>
    cases a with
    | some x =>
      rw [List.findSome?_cons_of_isSome (by rfl)]
      constructor
      · intro h
        exact ⟨0, congrArg some h, fun k m hk => absurd hk (Nat.not_lt_zero _)⟩
      · rintro ⟨j, hj, hfirst⟩
        cases j with
        | zero => exact Option.some.inj hj
        | succ j => exact absurd rfl (hfirst 0 x (Nat.succ_pos _))
    | none =>
      rw [List.findSome?_cons_of_isNone (by rfl), ih]
      constructor
      · rintro ⟨j, hj, hfirst⟩
        refine ⟨j + 1, hj, fun k m hk => ?_⟩
        cases k with
        | zero => exact fun h => by cases h
        | succ k => exact hfirst k m (Nat.lt_of_succ_lt_succ hk)
      · rintro ⟨j, hj, hfirst⟩
        cases j with
        | zero => cases hj
        | succ j => exact ⟨j, hj, fun k m hk => hfirst (k + 1) m (Nat.succ_lt_succ hk)⟩

theorem findSome_reverse_eq_some_iff (l : List (Option ℕ)) (n : ℕ) :
    l.reverse.findSome? id = some n ↔
      ∃ j : ℕ, l[j]? = some (some n) ∧ ∀ k m, j < k → l[k]? ≠ some (some m) := by
  rw [findSome_eq_some_iff]
  have hget : ∀ k < l.length, l.reverse[k]? = l[l.length - 1 - k]? :=
    fun k hk => List.getElem?_reverse hk
  constructor
  · rintro ⟨j, hj, hfirst⟩
    have hlt : j < l.length := by
      obtain ⟨h, -⟩ := List.getElem?_eq_some_iff.mp hj
      rwa [List.length_reverse] at h
    rw [hget j hlt] at hj
    refine ⟨l.length - 1 - j, hj, fun k m hk hkm => ?_⟩
    obtain ⟨hklt, -⟩ := List.getElem?_eq_some_iff.mp hkm
    refine hfirst (l.length - 1 - k) m (by omega) ?_
    rw [hget _ (by omega), ← hkm]
    congr 1
    omega
  · rintro ⟨j, hj, hlast⟩
    obtain ⟨hlt, -⟩ := List.getElem?_eq_some_iff.mp hj
    refine ⟨l.length - 1 - j, ?_, fun k m hk hkm => ?_⟩
    · rw [hget _ (by omega), ← hj]
      congr 1
      omega
    · rw [hget _ (by omega)] at hkm
      exact hlast _ m (by omega) hkm

theorem targetOf_eq_some_iff (anonAt : List (Option ℕ)) (i : ℕ) (forward : Bool) (n : ℕ) :
    targetOf anonAt i forward = some n ↔ Refers anonAt i forward n := by
  unfold targetOf Refers
  cases forward with
  | true =>
    rw [if_pos rfl, findSome_eq_some_iff]
    constructor
    · rintro ⟨j, hj, hfirst⟩
      rw [List.getElem?_drop] at hj
      refine ⟨i + 1 + j, hj, by omega, fun k m hik hkj => ?_⟩
      have h := hfirst (k - (i + 1)) m (by omega)
      rwa [List.getElem?_drop, Nat.add_sub_cancel' (by omega)] at h
    · rintro ⟨j, hj, hij, hfirst⟩
      refine ⟨j - (i + 1), ?_, fun k m hk => ?_⟩
      · rwa [List.getElem?_drop, Nat.add_sub_cancel' (by omega)]
      · rw [List.getElem?_drop]
        exact hfirst _ m (by omega) (by omega)
  | false =>
    simp only [Bool.false_eq_true, if_false]
    rw [findSome_reverse_eq_some_iff]
    constructor
    · rintro ⟨j, hj, hlast⟩
      obtain ⟨hlt, -⟩ := List.getElem?_eq_some_iff.mp hj
      rw [List.length_take] at hlt
      have hji : j < i := by omega
      rw [List.getElem?_take_of_lt hji] at hj
      refine ⟨j, hj, hji, fun k m hjk hki => ?_⟩
      rw [← List.getElem?_take_of_lt hki]
      exact hlast k m hjk
    · rintro ⟨j, hj, hji, hlast⟩
      refine ⟨j, ?_, fun k m hjk hkm => ?_⟩
      · rwa [List.getElem?_take_of_lt hji]
      · obtain ⟨hlt, -⟩ := List.getElem?_eq_some_iff.mp hkm
        rw [List.length_take] at hlt
        have hki : k < i := by omega
        rw [List.getElem?_take_of_lt hki] at hkm
        exact hlast k m hjk hki hkm

/-! ### Texts with other references replaced -/

variable {label : Bool → ℕ} {ms : List Mark}

theorem flatMap_length (h : ∀ letter live, Mark.ref letter live ∈ ms → target (isF letter) ≠ none)
    (hlive : ∀ letter, Mark.ref letter true ∈ ms →
      target (isF letter) = some (label (isF letter))) :
    (ms.flatMap (boundText label)).length ≤ (ms.flatMap (namedText target)).length ∧
      ∀ letter, Mark.ref letter false ∈ ms →
        (ms.flatMap (boundText label)).length < (ms.flatMap (namedText target)).length := by
  induction ms with
  | nil => exact ⟨Nat.le_refl _, fun letter hmem => (by cases hmem)⟩
  | cons m ms ih =>
    obtain ⟨hle, hlt⟩ := ih (fun letter live hmem => h letter live (List.mem_cons_of_mem _ hmem))
      fun letter hmem => hlive letter (List.mem_cons_of_mem _ hmem)
    rw [List.flatMap_cons, List.flatMap_cons, List.length_append, List.length_append]
    cases m with
    | char c =>
      refine ⟨Nat.add_le_add_left hle 1, fun letter hmem => ?_⟩
      cases hmem with
      | tail _ hmem => exact Nat.add_lt_add_left (hlt letter hmem) 1
    | ref letter live =>
      cases live with
      | true =>
        have heq : boundText label (.ref letter true) = namedText target (.ref letter true) := by
          rw [namedText, hlive letter (List.mem_cons_self ..)]
          rfl
        rw [heq]
        refine ⟨Nat.add_le_add_left hle _, fun letter hmem => ?_⟩
        cases hmem with
        | tail _ hmem => exact Nat.add_lt_add_left (hlt letter hmem) _
      | false =>
        obtain ⟨n, hn⟩ := Option.ne_none_iff_exists'.mp (h letter false (List.mem_cons_self ..))
        have hlonger : 2 < (namedText target (.ref letter false)).length := by
          rw [namedText, hn]
          exact anonName_length n
        have htwo : (boundText label (.ref letter false)).length = 2 := rfl
        exact ⟨by omega, fun _ _ => by omega⟩

theorem flatMap_eq (hnone : ∀ letter, Mark.ref letter false ∉ ms)
    (hlive : ∀ letter, Mark.ref letter true ∈ ms →
      target (isF letter) = some (label (isF letter))) :
    ms.flatMap (boundText label) = ms.flatMap (namedText target) := by
  induction ms with
  | nil => rfl
  | cons m ms ih =>
    rw [List.flatMap_cons, List.flatMap_cons,
      ih (fun letter hmem => hnone letter (List.mem_cons_of_mem _ hmem))
        fun letter hmem => hlive letter (List.mem_cons_of_mem _ hmem)]
    congr 1
    cases m with
    | char c => rfl
    | ref letter live =>
      cases live with
      | true =>
        rw [namedText, hlive letter (List.mem_cons_self ..)]
        rfl
      | false => exact absurd (List.mem_cons_self ..) (hnone letter)

theorem flatMap_marks (h : ∀ letter live, Mark.ref letter live ∉ marks place left line) :
    (marks place left line).flatMap (namedText target) = line := by
  fun_induction marks place left line with
  | case1 => rfl
  | case2 => rfl
  | case3 place left c next rest href ih => exact absurd (List.mem_cons_self ..) (h _ _)
  | case4 place left c next rest href ih =>
    rw [List.flatMap_cons, ih fun letter live hmem => h letter live (List.mem_cons_of_mem _ hmem)]
    rfl

/-! ### Scripts -/

theorem joinLines_length (outs : List Text) :
    (joinLines outs).length = (outs.map fun out => out.length + 1).sum - 1 := by
  unfold joinLines
  induction outs with
  | nil => rfl
  | cons out outs ih =>
    cases outs with
    | nil => simp
    | cons next outs =>
      rw [List.intercalate_cons_cons, List.length_append, List.length_append, ih]
      simp only [List.length_cons, List.length_nil, List.map_cons, List.sum_cons]
      omega

/-- The lines with the references replaced that are in no comment or quoted string are shorter,
where another one is. -/
theorem render_sum {label : ℕ → Bool → ℕ}
    (h : ∀ (k : ℕ) line letter live, lines[k]? = some line → Mark.ref letter live ∈ lineMarks line →
      targetOf anonAt (i + k) (isF letter) ≠ none)
    (hlive : ∀ (k : ℕ) line letter, lines[k]? = some line → Mark.ref letter true ∈ lineMarks line →
      targetOf anonAt (i + k) (isF letter) = some (label (i + k) (isF letter))) :
    ((render (fun i => boundText (label i)) i lines).map fun out => out.length + 1).sum ≤
        ((render (fun i => namedText (targetOf anonAt i)) i lines).map
          fun out => out.length + 1).sum ∧
      ∀ (k : ℕ) line letter, lines[k]? = some line → Mark.ref letter false ∈ lineMarks line →
        ((render (fun i => boundText (label i)) i lines).map fun out => out.length + 1).sum <
          ((render (fun i => namedText (targetOf anonAt i)) i lines).map
            fun out => out.length + 1).sum := by
  induction lines generalizing i with
  | nil => exact ⟨Nat.le_refl _, fun k line letter hline => (by cases hline)⟩
  | cons first lines ih =>
    obtain ⟨hle, hlt⟩ := @ih (i + 1)
      (fun k l letter live hl hmem => by
        rw [Nat.add_assoc, Nat.add_comm 1]
        exact h (k + 1) l letter live hl hmem)
      fun k l letter hl hmem => by
        rw [Nat.add_assoc, Nat.add_comm 1]
        exact hlive (k + 1) l letter hl hmem
    obtain ⟨hfirst, hshorter⟩ := @flatMap_length (targetOf anonAt i) (label i) (lineMarks first)
      (fun letter live hmem => h 0 first letter live rfl hmem)
      fun letter hmem => hlive 0 first letter rfl hmem
    simp only [render, List.map_cons, List.sum_cons]
    refine ⟨by omega, fun k line letter hline hmem => ?_⟩
    cases k with
    | zero =>
      cases hline
      have := hshorter letter hmem
      omega
    | succ k =>
      have := hlt k line letter hline hmem
      omega

theorem render_eq {label : ℕ → Bool → ℕ}
    (hnone : ∀ (k : ℕ) line letter, lines[k]? = some line → Mark.ref letter false ∉ lineMarks line)
    (hlive : ∀ (k : ℕ) line letter, lines[k]? = some line → Mark.ref letter true ∈ lineMarks line →
      targetOf anonAt (i + k) (isF letter) = some (label (i + k) (isF letter))) :
    render (fun i => boundText (label i)) i lines =
      render (fun i => namedText (targetOf anonAt i)) i lines := by
  induction lines generalizing i with
  | nil => rfl
  | cons first lines ih =>
    rw [render, render, @flatMap_eq (targetOf anonAt i) (label i) (lineMarks first)
      (fun letter => hnone 0 first letter rfl) fun letter hmem => hlive 0 first letter rfl hmem,
      @ih (i + 1) (fun k l letter hl => hnone (k + 1) l letter hl) fun k l letter hl hmem => by
        rw [Nat.add_assoc, Nat.add_comm 1]
        exact hlive (k + 1) l letter hl hmem]

theorem render_self (h : ∀ (k : ℕ) line letter live, lines[k]? = some line →
    Mark.ref letter live ∉ lineMarks line) :
    render (fun i => namedText (targetOf anonAt i)) i lines = lines := by
  induction lines generalizing i with
  | nil => rfl
  | cons first lines ih =>
    rw [render, lineMarks, flatMap_marks fun letter live => h 0 first letter live rfl,
      ih fun k l letter live hl => h (k + 1) l letter live hl]

theorem numberLines_none (n : ℕ) (h : (lines.filter declares).length = 0) :
    numberLines n lines = lines.map fun line => (line, none) := by
  have hnone := List.filter_eq_nil_iff.mp (List.length_eq_zero_iff.mp h)
  clear h
  induction lines with
  | nil => rfl
  | cons line lines ih =>
    rw [numberLines, if_neg (hnone line (List.mem_cons_self ..)),
      ih fun l hl => hnone l (List.mem_cons_of_mem _ hl)]
    rfl

theorem resolveAnonymousLabels_eq (script : Text) : resolveAnonymousLabels script =
    (replaceLines (labelsAt script) 0 (namedLines script)).map fun lines =>
      if countLabels script = 0 then (script, [])
      else (preamble (countLabels script) ++ joinLines lines,
        ["anonymous labels: resolved ".toList ++
          (Nat.toDigits 10 (countLabels script) ++ " @@: declaration(s)".toList)]) := by
  have hbind : resolveAnonymousLabels script =
      (replaceLines (labelsAt script) 0 (namedLines script) >>= _) := rfl
  rw [hbind]
  cases replaceLines (labelsAt script) 0 (namedLines script) with
  | error e => rfl
  | ok lines =>
    dsimp only [bind, Except.bind, Except.map]
    split <;> rfl

theorem resolve_ok {script : Text}
    (h : ∀ i forward live, HasRef (namedLines script) i forward live →
      targetOf (labelsAt script) i forward ≠ none) :
    ∃ log, resolveAnonymousLabels script = .ok (preamble (countLabels script) ++
      joinLines (render (fun i => namedText (targetOf (labelsAt script) i)) 0
        (namedLines script)), log) := by
  have hlines := @replaceLines_ok (labelsAt script) (namedLines script) 0
    fun k line letter live hline hmem => by
      rw [Nat.zero_add]
      exact h k _ live ⟨line, letter, hline, hmem, rfl⟩
  rw [resolveAnonymousLabels_eq, hlines, Except.map]
  by_cases hcount : countLabels script = 0
  · have hnumbered := numberLines_none 0 hcount
    have hnamed : namedLines script = splitLines script := by
      rw [namedLines, hnumbered, List.map_map]
      exact List.map_id _
    have hlabels : labelsAt script = (splitLines script).map fun _ => none := by
      rw [labelsAt, hnumbered, List.map_map]
      rfl
    have hself : render (fun i => namedText (targetOf (labelsAt script) i)) 0 (namedLines script) =
        namedLines script := by
      refine render_self fun k line letter live hline hmem => ?_
      obtain ⟨n, hn⟩ := Option.ne_none_iff_exists'.mp
        (h k _ live ⟨line, letter, hline, hmem, rfl⟩)
      obtain ⟨j, hj, -⟩ := (targetOf_eq_some_iff _ _ _ _).mp hn
      rw [hlabels, List.getElem?_map] at hj
      cases hget : (splitLines script)[j]? <;> rw [hget] at hj <;> cases hj
    refine ⟨[], ?_⟩
    rw [hself, hnamed, if_pos hcount, hcount, splitLines, joinLines, List.intercalate_splitOn]
    rfl
  · rw [if_neg hcount]
    exact ⟨_, rfl⟩

theorem resolve_error {script : Text} {i : ℕ} {forward live : Bool}
    (href : HasRef (namedLines script) i forward live)
    (hnone : targetOf (labelsAt script) i forward = none) :
    ∃ e, resolveAnonymousLabels script = .error e := by
  obtain ⟨line, letter, hline, hmem, rfl⟩ := href
  obtain ⟨e, he⟩ := @replaceLines_error line (labelsAt script) (namedLines script) 0 i letter live
    hline hmem (by rw [Nat.zero_add]; exact hnone)
  refine ⟨e, ?_⟩
  rw [resolveAnonymousLabels_eq, he]
  rfl

theorem targetOf_eq_none_iff (anonAt : List (Option ℕ)) (i : ℕ) (forward : Bool) :
    targetOf anonAt i forward = none ↔ ∀ n, ¬Refers anonAt i forward n := by
  constructor
  · intro h n hn
    rw [(targetOf_eq_some_iff _ _ _ _).mpr hn] at h
    cases h
  · intro h
    by_contra hsome
    obtain ⟨n, hn⟩ := Option.ne_none_iff_exists'.mp hsome
    exact h n ((targetOf_eq_some_iff _ _ _ _).mp hn)

/-- **Anonymous labels bind to the nearest** if and only if no comment and no quoted string
contains a reference and no generated name is used in the script, or a reference has no label
anyway. -/
theorem anonymous_labels_iff (script : Text) :
    BindsNearest script (resolveAnonymousLabels script) ↔
      (∃ i forward, HasRef (namedLines script) i forward true ∧
        ∀ n, ¬Refers (labelsAt script) i forward n) ∨
      (∀ i forward, ¬HasRef (namedLines script) i forward false) ∧
        ∀ n < countLabels script, ¬Occurs (anonName n) script := by
  by_cases hall : ∀ i forward live, HasRef (namedLines script) i forward live →
      targetOf (labelsAt script) i forward ≠ none
  · obtain ⟨log, hok⟩ := resolve_ok hall
    rw [hok]
    have hmatched : ¬∃ i forward, HasRef (namedLines script) i forward true ∧
        ∀ n, ¬Refers (labelsAt script) i forward n := fun ⟨i, forward, href, hnone⟩ =>
      hall i forward true href ((targetOf_eq_none_iff _ _ _).mpr hnone)
    rw [or_iff_right hmatched]
    constructor
    · rintro ⟨⟨label, hlabel, htext⟩, -, hfresh⟩
      refine ⟨fun i forward href => ?_, hfresh⟩
      obtain ⟨line, letter, hline, hmem, -⟩ := href
      have hsum := (@render_sum (labelsAt script) (namedLines script) 0 label
        (fun k l c live hl hc => by
          rw [Nat.zero_add]
          exact hall k _ live ⟨l, c, hl, hc, rfl⟩)
        fun k l c hl hc => by
          rw [Nat.zero_add]
          exact (targetOf_eq_some_iff _ _ _ _).mpr (hlabel k _ ⟨l, c, hl, hc, rfl⟩)).2 i line letter
            hline hmem
      have hlength := congrArg List.length (List.append_cancel_left htext)
      rw [joinLines_length, joinLines_length] at hlength
      have hpos : 0 < ((render (fun i => boundText (label i)) 0 (namedLines script)).map
          fun out => out.length + 1).sum := by
        cases hnamed : namedLines script with
        | nil => rw [hnamed] at hline; cases hline
        | cons first rest =>
          rw [render, List.map_cons, List.sum_cons]
          omega
      omega
    · rintro ⟨hdead, hfresh⟩
      have hlabel : ∀ i forward, ∃ n, HasRef (namedLines script) i forward true →
          Refers (labelsAt script) i forward n := fun i forward => by
        by_cases href : HasRef (namedLines script) i forward true
        · obtain ⟨n, hn⟩ := Option.ne_none_iff_exists'.mp (hall i forward true href)
          exact ⟨n, fun _ => (targetOf_eq_some_iff _ _ _ _).mp hn⟩
        · exact ⟨0, fun h => absurd h href⟩
      choose label hlabel using hlabel
      refine ⟨⟨label, hlabel, ?_⟩, fun _ _ => anonName_injective, hfresh⟩
      rw [@render_eq (labelsAt script) (namedLines script) 0 label
        (fun k l c hl hc => hdead k _ ⟨l, c, hl, hc, rfl⟩) fun k l c hl hc => by
          rw [Nat.zero_add]
          exact (targetOf_eq_some_iff _ _ _ _).mpr (hlabel k _ ⟨l, c, hl, hc, rfl⟩)]
  · push Not at hall
    obtain ⟨i, forward, live, href, hnone⟩ := hall
    obtain ⟨e, he⟩ := resolve_error href hnone
    rw [he]
    constructor
    · exact fun h => .inl h
    · rintro (h | ⟨hdead, -⟩)
      · exact h
      · cases live with
        | true => exact ⟨i, forward, href, (targetOf_eq_none_iff _ _ _).mp hnone⟩
        | false => exact absurd href (hdead i forward)

def quotedReference : Text := "@@:\ndb '@B'".toList

/-- The quoted string is replaced. -/
theorem quoted_reference_replaced :
    ¬BindsNearest quotedReference (resolveAnonymousLabels quotedReference) := by
  have hok : resolveAnonymousLabels quotedReference =
      .ok ("label(__anon_0)\n__anon_0:\ndb '__anon_0'".toList,
        ["anonymous labels: resolved 1 @@: declaration(s)".toList]) := by decide
  rw [hok]
  rintro ⟨⟨label, -, htext⟩, -⟩
  have hbound : preamble (countLabels quotedReference) ++
      joinLines (render (fun i => boundText (label i)) 0 (namedLines quotedReference)) =
        "label(__anon_0)\n__anon_0:\ndb '@B'".toList := rfl
  rw [hbound] at htext
  exact absurd htext (by decide)

end CheatEngine.AutoAssembler.AnonymousLabels
