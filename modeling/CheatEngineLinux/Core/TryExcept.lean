import CheatEngineLinux.Core.Symbols
import CheatEngineLinux.Scanner.GroupedParse

/-!
# Guarded blocks

`selectTryExceptBranches` and `tryBranchCanExecute` (`src/core/autoasm.cpp`): of every
`{$try}` block one branch is kept, the first where its `assert` lines hold in the target.

* `selectTryExceptBranches`: the lines that are kept, and what is logged for each block.
* `Script`, `reference`: nested blocks, and the choice by the text that the inner blocks leave.
* **PROVED `selectTryExceptBranches_flatten`**: what the code chooses for nested blocks.
* **PROVED `try_except_compositional_iff`**: when these are the choices of the reference.
-/

namespace CheatEngine.AutoAssembler.TryExcept

/-- What a read of the target copies; nothing where it fails. -/
abbrev Reader := UInt64 → ℕ → Option (List UInt8)

/-! ### The code -/

/-- Looks a name of bytes up, at most `depth` times. -/
def namedBytes (defines : List Define) : ℕ → Text → Text
  | 0, bytesStr => bytesStr
  | depth + 1, bytesStr =>
    match defines.find? fun d => d.name == bytesStr with
    | none => bytesStr
    | some named => namedBytes defines depth (trim named.value)

def withoutQuotes (bytesStr : Text) : Text :=
  let bytesStr := if bytesStr.head? = some '\x22' then bytesStr.tail else bytesStr
  if bytesStr.getLast? = some '\x22' then bytesStr.dropLast else bytesStr

def firstDifference (bytes masks current : List UInt8) : Option ℕ :=
  (List.range bytes.length).find? fun i =>
    current.getD i 0 &&& masks.getD i 0xff != bytes.getD i 0 &&& masks.getD i 0xff

def marker : Text := "__ASSERT__:".toList

/-- One line of a branch: only an `assert` can fail. -/
def checkLine (symbols : Symbols) (read : Reader) (rawLine : Text) : Except Text Unit :=
  let line := trim rawLine
  if !startsWith line marker then .ok ()
  else
    let args := line.drop 11
    if !args.contains ',' then .error "ASSERT requires address and bytes".toList
    else
      let addrExpr := trim (args.takeWhile (· != ','))
      let addr := symbols.resolveAddress addrExpr
      if addr = 0 then .error ("Invalid ASSERT target: ".toList ++ addrExpr)
      else
        let bytesStr := withoutQuotes
          (namedBytes symbols.defines 8 (trim (args.dropWhile (· != ',')).tail))
        let (valid, bytes, masks) := Grouped.parseAOB (bytesStr.map fun c => UInt8.ofNat c.toNat)
        if !valid || bytes.isEmpty then .error ("ASSERT has no valid bytes: ".toList ++ bytesStr)
        else match read addr bytes.length with
        | none => .error ("ASSERT read failed at ".toList ++ addrExpr)
        | some current =>
          if current.length < bytes.length then
            .error ("ASSERT read failed at ".toList ++ addrExpr)
          else match firstDifference bytes masks current with
          | none => .ok ()
          | some i => .error ("ASSERT failed at ".toList ++ addrExpr ++ '+' :: Nat.toDigits 10 i)

def tryBranchCanExecute (symbols : Symbols) (proc : Option Reader) (branchLines : List Text) :
    Except Text Unit :=
  match proc with
  | none => .ok ()
  | some read => branchLines.forM (checkLine symbols read)

def tryBegin : Text := "__TRY_BEGIN__".toList
def tryExcept : Text := "__TRY_EXCEPT__".toList
def tryEnd : Text := "__TRY_END__".toList

/-- The places of the last `{$except}` and of the `{$endtry}` of a block. -/
def findBranches (depth : ℕ) (exceptIndex : Option ℕ) (j : ℕ) :
    List Text → Option ℕ × Option ℕ
  | [] => (exceptIndex, none)
  | line :: rest =>
    let mark := trim line
    if mark = tryBegin then findBranches (depth + 1) exceptIndex (j + 1) rest
    else if mark = tryEnd then
      if depth - 1 = 0 then (exceptIndex, some j)
      else findBranches (depth - 1) exceptIndex (j + 1) rest
    else if mark = tryExcept ∧ depth = 1 then findBranches depth (some j) (j + 1) rest
    else findBranches depth exceptIndex (j + 1) rest

/-- What is logged for a block. -/
inductive Choice
  | guarded
  | handler (reason : Text)
  deriving Repr, DecidableEq

def Choice.text : Choice → Text
  | .guarded => "TRY: selected guarded block".toList
  | .handler reason =>
    "TRY: selected \x7b$except\x7d block (".toList ++ reason ++ ")".toList

def Choice.isGuarded : Choice → Bool
  | .guarded => true
  | .handler _ => false

section

variable (canExecute : List Text → Except Text Unit)

def selectLines : ℕ → List Text → Except Text (List Text × List Choice)
  | _, [] => .ok ([], [])
  | 0, _ :: _ => .ok ([], [])
  | size + 1, raw :: rest =>
    let line := trim raw
    if line ≠ tryBegin then
      if line = tryExcept ∨ line = tryEnd then
        .error "Unexpected \x7b$except\x7d/\x7b$endtry\x7d without \x7b$try\x7d".toList
      else do
        let (selected, log) ← selectLines size rest
        return (raw :: selected, log)
    else match findBranches 1 none 0 rest with
    | (_, none) => .error "Missing \x7b$endtry\x7d for \x7b$try\x7d block".toList
    | (none, some _) => .error "Missing \x7b$except\x7d for \x7b$try\x7d block".toList
    | (some exceptIndex, some endIndex) =>
      let tryLines := rest.take exceptIndex
      let exceptLines := (rest.take endIndex).drop (exceptIndex + 1)
      match canExecute tryLines with
      | .ok _ => do
        let (branch, log) ← selectLines size tryLines
        let (selected, log') ← selectLines size (rest.drop (endIndex + 1))
        return (branch ++ selected, log ++ .guarded :: log')
      | .error reason => do
        let (branch, log) ← selectLines size exceptLines
        let (selected, log') ← selectLines size (rest.drop (endIndex + 1))
        return (branch ++ selected, log ++ .handler reason :: log')

end

def selectTryExceptBranches (symbols : Symbols) (proc : Option Reader) (asmLines : List Text) :
    Except Text (List Text × List Choice) :=
  selectLines (tryBranchCanExecute symbols proc) asmLines.length asmLines

/-! ### Nested blocks -/

inductive Script
  | nil
  | line (text : Text) (rest : Script)
  | block (guarded handler rest : Script)
  deriving Repr, DecidableEq

def flatten : Script → List Text
  | .nil => []
  | .line text rest => text :: flatten rest
  | .block guarded handler rest =>
    tryBegin :: (flatten guarded ++ tryExcept :: (flatten handler ++ tryEnd :: flatten rest))

/-- No line of the script is itself a mark of a block. -/
def Plain : Script → Prop
  | .nil => True
  | .line text rest =>
    trim text ≠ tryBegin ∧ trim text ≠ tryExcept ∧ trim text ≠ tryEnd ∧ Plain rest
  | .block guarded handler rest => Plain guarded ∧ Plain handler ∧ Plain rest

section

variable (runs : List Text → Prop) [DecidablePred runs]

/-- The reference: an inner block contributes its first branch where that can execute and the
other where it cannot, and a branch can execute if what its inner blocks leave can.  Also the
choice that is made for each block that is reached. -/
def reference : Script → List Text × List Bool
  | .nil => ([], [])
  | .line text rest => (text :: (reference rest).1, (reference rest).2)
  | .block guarded handler rest =>
    if runs (reference guarded).1 then
      ((reference guarded).1 ++ (reference rest).1,
        (reference guarded).2 ++ true :: (reference rest).2)
    else
      ((reference handler).1 ++ (reference rest).1,
        (reference handler).2 ++ false :: (reference rest).2)

/-- In every block that is reached, either the whole text of the first branch can execute, with
both branches of its inner blocks, or what they leave cannot. -/
def Foreseen : Script → Prop
  | .nil => True
  | .line _ rest => Foreseen rest
  | .block guarded handler rest =>
    (runs (flatten guarded) ∨ ¬runs (reference runs guarded).1 ∧ Foreseen handler) ∧
      Foreseen rest

/-- The choices of the code: by the whole text of the first branch. -/
def chosen : Script → List Text × List Bool
  | .nil => ([], [])
  | .line text rest => (text :: (chosen rest).1, (chosen rest).2)
  | .block guarded handler rest =>
    if runs (flatten guarded) then
      ((chosen guarded).1 ++ (chosen rest).1, (chosen guarded).2 ++ true :: (chosen rest).2)
    else
      ((chosen handler).1 ++ (chosen rest).1, (chosen handler).2 ++ false :: (chosen rest).2)

end

/-! ### What the code chooses -/

theorem trim_tryBegin : trim tryBegin = tryBegin := by decide

theorem trim_tryEnd : trim tryEnd = tryEnd := by decide

theorem trim_tryExcept : trim tryExcept = tryExcept := by decide

theorem findBranches_flatten {s : Script} (hplain : Plain s) {depth : ℕ} (hdepth : 0 < depth)
    (exceptIndex : Option ℕ) (j : ℕ) (after : List Text) :
    findBranches depth exceptIndex j (flatten s ++ after) =
      findBranches depth exceptIndex (j + (flatten s).length) after := by
  induction s generalizing depth exceptIndex j after with
  | nil => rfl
  | line text rest ih =>
    obtain ⟨hbegin, hexcept, hend, hrest⟩ := hplain
    rw [flatten, List.cons_append, findBranches]
    simp only [hbegin, hexcept, hend, if_false, false_and]
    rw [ih hrest hdepth, List.length_cons, Nat.add_right_comm, Nat.add_assoc]
  | block guarded handler rest ihguarded ihhandler ihrest =>
    obtain ⟨hguarded, hhandler, hrest⟩ := hplain
    rw [flatten, List.cons_append, findBranches, if_pos trim_tryBegin, List.append_assoc,
      ihguarded hguarded (Nat.succ_pos _), List.cons_append, findBranches,
      if_neg (by decide), if_neg (by decide), if_neg (fun h => by omega), List.append_assoc,
      ihhandler hhandler (Nat.succ_pos _), List.cons_append, findBranches, if_neg (by decide),
      if_pos trim_tryEnd, Nat.succ_sub_one, if_neg (by omega), ihrest hrest hdepth]
    congr 1
    simp only [List.length_cons, List.length_append]
    omega

theorem findBranches_block {guarded handler : Script} (hguarded : Plain guarded)
    (hhandler : Plain handler) (after : List Text) :
    findBranches 1 none 0
        (flatten guarded ++ tryExcept :: (flatten handler ++ tryEnd :: after)) =
      (some (flatten guarded).length,
        some ((flatten guarded).length + 1 + (flatten handler).length)) := by
  rw [findBranches_flatten hguarded Nat.one_pos, findBranches, if_neg (by decide),
    if_neg (by decide), if_pos ⟨trim_tryExcept, rfl⟩, findBranches_flatten hhandler Nat.one_pos,
    findBranches, if_neg (by decide), if_pos trim_tryEnd, if_pos rfl, Nat.zero_add]

section

variable {canExecute : List Text → Except Text Unit} {runs : List Text → Prop}
  [DecidablePred runs] {s : Script}

theorem selectLines_flatten (hruns : ∀ lines, runs lines ↔ canExecute lines = .ok ())
    (hplain : Plain s) {size : ℕ} (hsize : (flatten s).length ≤ size) :
    ∃ log, selectLines canExecute size (flatten s) = .ok ((chosen runs s).1, log) ∧
      log.map Choice.isGuarded = (chosen runs s).2 := by
  induction s generalizing size with
  | nil => exact ⟨[], by cases size <;> rfl, rfl⟩
  | line text rest ih =>
    obtain ⟨hbegin, hexcept, hend, hrest⟩ := hplain
    obtain ⟨size, rfl⟩ : ∃ n, size = n + 1 :=
      ⟨size - 1, by rw [flatten, List.length_cons] at hsize; omega⟩
    obtain ⟨log, hselect, hlog⟩ := ih hrest (Nat.le_of_succ_le_succ hsize)
    refine ⟨log, ?_, hlog⟩
    rw [flatten, selectLines]
    dsimp only
    rw [if_pos hbegin, if_neg (by simp [hexcept, hend]), hselect]
    rfl
  | block guarded handler rest ihguarded ihhandler ihrest =>
    obtain ⟨hguarded, hhandler, hrest⟩ := hplain
    have hlength : (flatten (.block guarded handler rest)).length =
        (flatten guarded).length + (flatten handler).length + (flatten rest).length + 3 := by
      simp only [flatten, List.length_cons, List.length_append]
      omega
    rw [hlength] at hsize
    obtain ⟨size, rfl⟩ : ∃ n, size = n + 1 := ⟨size - 1, by omega⟩
    obtain ⟨log', hselect', hlog'⟩ := @ihrest hrest size (by omega)
    have htry : (flatten guarded ++ tryExcept :: (flatten handler ++ tryEnd :: flatten rest)).take
        (flatten guarded).length = flatten guarded := List.take_left
    have hcut : (flatten guarded ++ tryExcept :: (flatten handler ++ tryEnd :: flatten rest)).take
        ((flatten guarded).length + 1 + (flatten handler).length) =
          flatten guarded ++ tryExcept :: flatten handler := by
      rw [Nat.add_assoc, List.take_length_add_append, Nat.add_comm 1, List.take_succ_cons,
        List.take_left]
    have hexcept : (flatten guarded ++ tryExcept :: flatten handler).drop
        ((flatten guarded).length + 1) = flatten handler := by
      rw [List.drop_length_add_append]
      rfl
    have hafter : (flatten guarded ++ tryExcept :: (flatten handler ++ tryEnd :: flatten rest)).drop
        ((flatten guarded).length + 1 + (flatten handler).length + 1) = flatten rest := by
      rw [Nat.add_assoc, Nat.add_assoc, List.drop_length_add_append, Nat.add_comm 1,
        List.drop_succ_cons, List.drop_length_add_append]
      rfl
    rw [flatten, selectLines]
    dsimp only
    rw [if_neg (fun h => h trim_tryBegin), findBranches_block hguarded hhandler]
    dsimp only
    rw [htry, hcut, hexcept, hafter, hselect']
    cases hcan : canExecute (flatten guarded) with
    | ok _ =>
      obtain ⟨log, hselect, hlog⟩ := @ihguarded hguarded size (by omega)
      refine ⟨log ++ .guarded :: log', ?_, ?_⟩
      · rw [hselect, chosen, if_pos ((hruns _).mpr hcan)]
        rfl
      · rw [List.map_append, List.map_cons, hlog, hlog', chosen, if_pos ((hruns _).mpr hcan)]
        rfl
    | error reason =>
      have hnot : ¬runs (flatten guarded) := fun h => by
        rw [(hruns _).mp h] at hcan
        cases hcan
      obtain ⟨log, hselect, hlog⟩ := @ihhandler hhandler size (by omega)
      refine ⟨log ++ .handler reason :: log', ?_, ?_⟩
      · rw [hselect, chosen, if_neg hnot]
        rfl
      · rw [List.map_append, List.map_cons, hlog, hlog', chosen, if_neg hnot]
        rfl

/-! ### The choices of the reference -/

theorem mem_reference {line : Text} (h : line ∈ (reference runs s).1) : line ∈ flatten s := by
  induction s with
  | nil => exact h
  | line text rest ih =>
    rw [reference, List.mem_cons] at h
    exact List.mem_cons.mpr (h.imp id ih)
  | block guarded handler rest ihguarded ihhandler ihrest =>
    rw [reference] at h
    rw [flatten, List.mem_cons, List.mem_append, List.mem_cons, List.mem_append, List.mem_cons]
    split at h <;> rcases List.mem_append.mp h with h | h
    · exact .inr (.inl (ihguarded h))
    · exact .inr (.inr (.inr (.inr (.inr (ihrest h)))))
    · exact .inr (.inr (.inr (.inl (ihhandler h))))
    · exact .inr (.inr (.inr (.inr (.inr (ihrest h)))))

theorem runs_reference
    (hmono : ∀ lines lines', (∀ l ∈ lines', l ∈ lines) → runs lines → runs lines')
    (h : runs (flatten s)) : runs (reference runs s).1 :=
  hmono _ _ (fun _ => mem_reference) h

theorem foreseen_of_runs
    (hmono : ∀ lines lines', (∀ l ∈ lines', l ∈ lines) → runs lines → runs lines')
    (h : runs (flatten s)) : Foreseen runs s := by
  induction s with
  | nil => trivial
  | line text rest ih => exact ih (hmono _ _ (fun l hl => List.mem_cons_of_mem _ hl) h)
  | block guarded handler rest ihguarded ihhandler ihrest =>
    exact ⟨.inl (hmono _ _ (fun l hl => by simp [flatten, hl]) h),
      ihrest (hmono _ _ (fun l hl => by simp [flatten, hl]) h)⟩

/-- Choices in the order from the last block can be told apart. -/
theorem chosen_reverse {X Y : List Bool} (h : (chosen runs s).2.reverse ++ X = (reference runs s).2.reverse ++ Y) :
    Foreseen runs s ∧ X = Y := by
  induction s generalizing X Y with
  | nil => exact ⟨trivial, h⟩
  | line text rest ih => exact ih h
  | block guarded handler rest ihguarded ihhandler ihrest =>
    rw [chosen, reference] at h
    -- The last choice of the block tells which branch the choices before it are from.
    by_cases hwhole : runs (flatten guarded) <;>
      by_cases hkept : runs (reference runs guarded).1 <;>
      simp only [hwhole, hkept, if_true, if_false, List.reverse_append, List.reverse_cons,
        List.append_assoc, List.cons_append, List.nil_append] at h <;>
      obtain ⟨hrest, h⟩ := ihrest h <;> rw [List.cons.injEq] at h
    · exact ⟨⟨.inl hwhole, hrest⟩, (ihguarded h.2).2⟩
    · cases h.1
    · cases h.1
    · obtain ⟨hhandler, hsame⟩ := ihhandler h.2
      exact ⟨⟨.inr ⟨hkept, hhandler⟩, hrest⟩, hsame⟩

theorem chosen_of_foreseen
    (hmono : ∀ lines lines', (∀ l ∈ lines', l ∈ lines) → runs lines → runs lines')
    (h : Foreseen runs s) : chosen runs s = reference runs s := by
  induction s with
  | nil => rfl
  | line text rest ih => rw [chosen, reference, ih h]
  | block guarded handler rest ihguarded ihhandler ihrest =>
    obtain ⟨hwhole | ⟨hkept, hhandler⟩, hrest⟩ := h
    · have hguarded := foreseen_of_runs hmono hwhole
      rw [chosen, reference, if_pos hwhole, if_pos (runs_reference hmono hwhole),
        ihguarded hguarded, ihrest hrest]
    · rw [chosen, reference, if_neg fun hwhole => hkept (runs_reference hmono hwhole), if_neg hkept,
        ihhandler hhandler, ihrest hrest]

theorem chosen_eq_reference_iff
    (hmono : ∀ lines lines', (∀ l ∈ lines', l ∈ lines) → runs lines → runs lines') :
    chosen runs s = reference runs s ↔ Foreseen runs s := by
  refine ⟨fun h => ?_, chosen_of_foreseen hmono⟩
  refine (@chosen_reverse runs _ s [] [] ?_).1
  rw [h]

end

/-! ### Blocks of a script -/

variable {symbols : Symbols} {proc : Option Reader} {s : Script}

theorem forM_ok_iff {check : Text → Except Text Unit} (lines : List Text) :
    lines.forM check = .ok () ↔ ∀ l ∈ lines, check l = .ok () := by
  induction lines with
  | nil => exact ⟨fun _ l hl => (by cases hl), fun _ => rfl⟩
  | cons line lines ih =>
    rw [List.forall_mem_cons, ← ih]
    change (check line >>= fun _ => lines.forM check) = .ok () ↔ _
    cases check line with
    | error e => exact ⟨fun h => (by cases h), fun h => (by cases h.1)⟩
    | ok u => exact ⟨fun h => ⟨rfl, h⟩, fun h => h.2⟩

/-- The branch can execute. -/
def Runs (symbols : Symbols) (proc : Option Reader) (lines : List Text) : Prop :=
  tryBranchCanExecute symbols proc lines = .ok ()

instance : DecidablePred (Runs symbols proc) := fun lines =>
  inferInstanceAs (Decidable (tryBranchCanExecute symbols proc lines = .ok ()))

theorem runs_mono (lines lines' : List Text) (hsub : ∀ l ∈ lines', l ∈ lines)
    (h : Runs symbols proc lines) : Runs symbols proc lines' := by
  unfold Runs tryBranchCanExecute at h ⊢
  cases proc with
  | none => rfl
  | some read =>
    rw [forM_ok_iff] at h ⊢
    exact fun l hl => h l (hsub l hl)

/-- **The choices of the code** are made by the whole text of the first branch. -/
theorem selectTryExceptBranches_flatten (hplain : Plain s) :
    ∃ log, selectTryExceptBranches symbols proc (flatten s) =
        .ok ((chosen (Runs symbols proc) s).1, log) ∧
      log.map Choice.isGuarded = (chosen (Runs symbols proc) s).2 :=
  @selectLines_flatten _ (Runs symbols proc) _ s (fun _ => Iff.rfl) hplain _ (Nat.le_refl _)

/-- **Nested blocks are compositional**, in the lines that are kept and in the branch that each
block contributes, if and only if every first branch that is reached can execute as a whole or
cannot with the lines that its inner blocks leave. -/
theorem try_except_compositional_iff (symbols : Symbols) (proc : Option Reader) (s : Script)
    (hplain : Plain s) :
    (∃ log, selectTryExceptBranches symbols proc (flatten s) =
        .ok ((reference (Runs symbols proc) s).1, log) ∧
      log.map Choice.isGuarded = (reference (Runs symbols proc) s).2) ↔
    Foreseen (Runs symbols proc) s := by
  obtain ⟨log, hselect, hlog⟩ := @selectTryExceptBranches_flatten symbols proc s hplain
  rw [hselect, ← chosen_eq_reference_iff runs_mono]
  constructor
  · rintro ⟨log', hsame, hlog'⟩
    rw [Except.ok.injEq, Prod.mk.injEq] at hsame
    refine Prod.ext hsame.1 ?_
    rw [← hlog, ← hlog', hsame.2]
  · intro hsame
    exact ⟨log, by rw [hsame], by rw [hlog, hsame]⟩

def noSymbols : Symbols := ⟨[], [], [], [], [], [], none⟩

/-- A target of `nop` instructions. -/
def readsNops : Reader := fun _ size => some (List.replicate size 0x90)

/-- The inner block falls back to its other branch. -/
def fallback : Script :=
  .block
    (.block (.line "__ASSERT__:1000,CC".toList .nil) (.line "nop".toList .nil)
      (.line "db 01".toList .nil))
    (.line "db 02".toList .nil) .nil

/-- A block whose `assert` holds, in the other branch of one whose `assert` fails. -/
def asserted : Script :=
  .block (.line "__ASSERT__:1000,CC".toList .nil)
    (.block (.line "__ASSERT__:1000,90 9?".toList .nil) (.line "db 01".toList .nil)
      (.line "db 02".toList .nil)) .nil

theorem asserted_selected :
    ∃ log, selectTryExceptBranches noSymbols (some readsNops) (flatten asserted) =
        .ok ((reference (Runs noSymbols (some readsNops)) asserted).1, log) ∧
      log.map Choice.isGuarded = (reference (Runs noSymbols (some readsNops)) asserted).2 :=
  (try_except_compositional_iff noSymbols (some readsNops) asserted
    ⟨⟨by decide, by decide, by decide, trivial⟩,
      ⟨⟨by decide, by decide, by decide, trivial⟩, ⟨by decide, by decide, by decide, trivial⟩,
        ⟨by decide, by decide, by decide, trivial⟩⟩, trivial⟩).mpr
    ⟨.inr ⟨by decide, .inl (by decide), trivial⟩, trivial⟩

/-- The `assert` that the inner block discards fails the outer one as well. -/
theorem fallback_discarded :
    ¬∃ log, selectTryExceptBranches noSymbols (some readsNops) (flatten fallback) =
      .ok ((reference (Runs noSymbols (some readsNops)) fallback).1, log) := by
  have hcode : (selectTryExceptBranches noSymbols (some readsNops) (flatten fallback)).map Prod.fst =
      .ok ["db 02".toList] := by decide
  have hreference : (reference (Runs noSymbols (some readsNops)) fallback).1 =
      ["nop".toList, "db 01".toList] := by decide
  rintro ⟨log, h⟩
  rw [h, hreference] at hcode
  have hlines : ["nop".toList, "db 01".toList] = ["db 02".toList] := Except.ok.inj hcode
  exact absurd hlines (by decide)

end CheatEngine.AutoAssembler.TryExcept
