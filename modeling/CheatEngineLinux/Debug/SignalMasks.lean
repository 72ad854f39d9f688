import Mathlib.Data.Int.Notation
import CheatEngineLinux.Library.Stops

/-!
# The signal masks of a debug session

A step of `src/debug/debug_session.cpp` may block the signals of its thread for one instruction.
The model follows the masks: what the threads have set, what is in force, and what waits to be
restored.

* `Kernel`: what the kernel, the target and the rest of the session answer, by the time of the call.
* `Session`: the masks, and `pendingMaskRestores_`.
* `applyMaskRestore`, `waitForStop`, `singleStepThread`, `handleExec`, `tracerCleanup`.

A thread whose signals a step blocks makes no system call, and it does not change its mask while a
restore is pending: such events do not happen to it.  It may start a program then.
-/

namespace CheatEngine.SignalMasks

open Stops

/-- A thread of the target; its number may go to another thread. -/
structure Task where
  tid : ℕ
  birth : ℕ
  deriving Repr, DecidableEq

/-- A mask that was read to be restored, and the thread that it was read from. -/
structure Entry where
  mask : UInt64
  task : Task
  deriving Repr, DecidableEq

/-- What happens to the threads outside a step. -/
inductive Happening
  /-- A stop that `noteStopped` sees. -/
  | noted (tid : ℕ)
  | retired (tid : ℕ)
  /-- A thread has started another program under this number; whether the program still belongs to
  the caller. -/
  | executed (tid former : ℕ) (owned : Bool)
  | appeared (tid : ℕ) (mask : UInt64)
  | changed (tid : ℕ) (mask : UInt64)
  deriving Repr, DecidableEq

inductive Stop
  | exec (former : ℕ) (owned : Bool)
  | interrupt
  | trace
  | other
  deriving Repr, DecidableEq

/-- A turn of the loop in `waitForStop`. -/
inductive WaitEvent
  | none
  | changed (tid : ℕ) (mask : UInt64)
  /-- The exec that `recoverRenamedExec` finds, and whether the new program was killed at once. -/
  | renamedExec (pid former : ℕ) (owned killed : Bool)
  | exited (tid : ℕ)
  /-- Whether `finishExitStop` succeeds. -/
  | exiting (tid : ℕ) (finished : Bool)
  | exec (tid former : ℕ) (owned : Bool)
  | appeared (tid : ℕ) (mask : UInt64)
  | sibling (tid : ℕ)
  | interrupt
  | trace
  | other
  /-- Whether the thread is gone. -/
  | failed (gone : Bool)
  deriving Repr, DecidableEq

/-- The answers, by the time of the call. -/
structure Kernel where
  attached : ℕ → Bool
  holdStepSignals : ℕ → Bool
  /-- `pendingSignals_` has no signal for the thread. -/
  noSignal : ℕ → Bool
  atSystemCall : ℕ → Bool
  exceptionBreakSignals : ℕ → List ℤ
  /-- `PTRACE_GETSIGMASK` and `PTRACE_SETSIGMASK`. -/
  getSigMask : ℕ → Bool
  setSigMask : ℕ → Bool
  /-- `errno==ESRCH`. -/
  noThread : ℕ → Bool
  singleStep : ℕ → Bool
  wait : ℕ → WaitEvent
  /-- `PTRACE_GETEVENTMSG`. -/
  eventMessage : ℕ → Bool
  /-- What `handleStop` and the like do. -/
  happenings : ℕ → List Happening

/-- A mask that a step read before it blocked the signals, and the mask of the thread then. -/
structure Saving where
  mask : UInt64
  own : UInt64
  deriving Repr, DecidableEq

structure Restoring where
  mask : UInt64
  own : UInt64
  savedFrom : Task
  appliedTo : Task
  deriving Repr, DecidableEq

/-- A thread that was let go, and whether its mask was restored. -/
structure Detaching where
  restored : Bool
  mask : UInt64
  own : UInt64
  deriving Repr, DecidableEq

/-- `mask` is in force, `own` is what the thread itself has set.  `savings`, `restorings` and
`detachings` note what happened, and `overtaken` whether an exec took a mask that was to be
restored: another thread got the number of the one it was read from and the stop was passed over, or
the new program was gone into with signals blocked. -/
structure Session where
  traced : List ℕ
  mask : ℕ → UInt64
  own : ℕ → UInt64
  task : ℕ → Task
  births : ℕ := 0
  pendingMaskRestores : ℕ → Option Entry := fun _ => none
  savings : List Saving := []
  restorings : List Restoring := []
  detachings : List Detaching := []
  overtaken : Bool := false
  now : ℕ := 0

/-- Why a call has not returned. -/
inductive Unreturned
  | running
  /-- `at` of a thread that is not traced. -/
  | thrown
  deriving Repr, DecidableEq

abbrev Run := Program Unreturned Session

/-- Takes the next answer. -/
def ask {α : Type} (answers : ℕ → α) : Run α := fun s =>
  (.ok (answers s.now), { s with now := s.now + 1 })

/-! ### Threads -/

/-- `retireThread` -/
def Session.retireThread (s : Session) (tid : ℕ) : Session :=
  if tid ∈ s.traced then
    { s with
      traced := s.traced.filter fun t => t ≠ tid
      pendingMaskRestores := Function.update s.pendingMaskRestores tid none }
  else s

/-- A program keeps the mask of the thread that starts it. -/
def Session.exec (s : Session) (tid former : ℕ) : Session :=
  { s with
    mask := Function.update s.mask tid (s.mask former)
    own := Function.update s.own tid (s.own former)
    task := Function.update s.task tid (s.task former) }


/-- A new thread. -/
def Session.appear (s : Session) (tid : ℕ) (mask : UInt64) : Session :=
  if tid ∈ s.traced then s
  else
    { s with
      traced := tid :: s.traced
      mask := Function.update s.mask tid mask
      own := Function.update s.own tid mask
      task := Function.update s.task tid ⟨tid, s.births + 1⟩
      births := s.births + 1 }

/-- The signals of the thread are not blocked by a step. -/
def Session.Unblocked (s : Session) (tid : ℕ) : Prop := s.mask tid = s.own tid

instance (s : Session) (tid : ℕ) : Decidable (s.Unblocked tid) :=
  inferInstanceAs (Decidable (s.mask tid = s.own tid))

/-- `handleExec`: a program of another user is let go. -/
def Session.handleExec (s : Session) (tid : ℕ) (owned : Bool) : Session :=
  { s with
    traced := if owned then [tid] else []
    pendingMaskRestores := fun _ => none
    overtaken := s.overtaken || !decide (s.Unblocked tid) }

/-- No step blocks the signals of the thread, or its restore is pending. -/
def Session.MayExec (s : Session) (tid : ℕ) : Prop :=
  s.Unblocked tid ∨ (s.pendingMaskRestores tid).isSome = true

instance (s : Session) (tid : ℕ) : Decidable (s.MayExec tid) := inferInstanceAs (Decidable (_ ∨ _))

/-- A thread sets its mask. -/
def Session.change (s : Session) (tid : ℕ) (mask : UInt64) : Session :=
  if s.Unblocked tid ∧ (s.pendingMaskRestores tid).isNone = true then
    { s with
      mask := Function.update s.mask tid mask
      own := Function.update s.own tid mask }
  else s

/-! ### Masks -/

/-- `PTRACE_SETSIGMASK`, which fails for a thread that is not traced any more. -/
def setSigMask (k : Kernel) (tid : ℕ) (mask : UInt64) : Run Bool := do
  let accepted ← ask k.setSigMask
  let s ← get
  if accepted = true ∧ tid ∈ s.traced then do
    set { s with mask := Function.update s.mask tid mask }
    pure true
  else pure false

/-- The mask that was read goes back. -/
def putBack (k : Kernel) (tid : ℕ) (entry : Entry) : Run Bool := do
  if ← setSigMask k tid entry.mask then do
    modify fun s => { s with
      restorings := s.restorings ++ [⟨entry.mask, s.own tid, entry.task, s.task tid⟩] }
    pure true
  else pure false

/-- `applyMaskRestore` -/
def applyMaskRestore (k : Kernel) (tid : ℕ) : Run Bool := do
  let s ← get
  match s.pendingMaskRestores tid with
  | none => pure true
  | some entry =>
    if ← putBack k tid entry then do
      modify fun s => { s with
        pendingMaskRestores := Function.update s.pendingMaskRestores tid none }
      pure true
    else do
      let noThread ← ask k.noThread
      modify fun s =>
        if noThread = true ∧ tid ∉ s.traced then
          { s with pendingMaskRestores := Function.update s.pendingMaskRestores tid none }
        else s
      pure false

/-- `noteStopped` for a stop that is not an exec. -/
def noteStopped (k : Kernel) (tid : ℕ) : Run Unit := discard (applyMaskRestore k tid)

def happen (k : Kernel) : Happening → Run Unit
  | .noted tid => noteStopped k tid
  | .retired tid => modify (·.retireThread tid)
  | .executed tid former owned => modify fun s =>
      if s.MayExec former then (s.exec tid former).handleExec tid owned else s
  | .appeared tid mask => modify (·.appear tid mask)
  | .changed tid mask => modify (·.change tid mask)

def happenAll (k : Kernel) : List Happening → Run Unit
  | [] => pure ()
  | h :: rest => do
    happen k h
    happenAll k rest

/-- `handleStop` and the like. -/
def handleStops (k : Kernel) : Run Unit := do
  let happenings ← ask k.happenings
  happenAll k happenings

/-- `waitForStop`: the stop of the thread, or none. -/
def waitForStop (k : Kernel) (tid : ℕ) : ℕ → Run (Option Stop)
  | 0 => throw .running
  | fuel + 1 => do
    let s ← get
    if tid ∉ s.traced then pure none
    else
      match ← ask k.wait with
      | .none => waitForStop k tid fuel
      | .changed t mask => do
        modify (·.change t mask)
        waitForStop k tid fuel
      | .renamedExec pid former owned killed =>
        if pid ∉ s.traced ∧ former ∈ s.traced ∧ s.MayExec former then do
          modify fun s => (s.exec pid former).handleExec pid owned
          if killed then modify (·.retireThread pid)
          pure none
        else waitForStop k tid fuel
      | .exited t => do
        modify (·.retireThread t)
        if t = tid then pure none else waitForStop k tid fuel
      | .exiting t finished => do
        noteStopped k t
        if finished then modify (·.retireThread t)
        if t = tid ∨ finished = false then pure none else waitForStop k tid fuel
      | .exec t former owned =>
        if s.MayExec former then do
          modify (·.exec t former)
          if t = tid then pure (some (.exec former owned))
          else do
            modify (·.handleExec t owned)
            pure none
        else waitForStop k tid fuel
      | .appeared t mask => do
        modify (·.appear t mask)
        waitForStop k tid fuel
      | .sibling t => do
        noteStopped k t
        waitForStop k tid fuel
      | .interrupt => do
        noteStopped k tid
        pure (some .interrupt)
      | .trace => do
        noteStopped k tid
        pure (some .trace)
      | .other => do
        noteStopped k tid
        pure (some .other)
      | .failed gone => do
        if gone then modify (·.retireThread tid)
        pure none

/-! ### Steps -/

/-- `uint64_t(1)<<(signal-1)` -/
def signalBit (signal : ℕ) : UInt64 := 1 <<< (UInt64.ofNat (signal - 1))

/-- The signals that stay open: faults, `SIGTRAP`, `SIGSYS`, `SIGKILL`, `SIGSTOP`, and those of
exception breakpoints. -/
def openSignals (exceptionBreakSignals : List ℤ) : UInt64 :=
  (exceptionBreakSignals.filter fun signal => 0 < signal ∧ signal ≤ 64).foldl
    (fun signals signal => signals ||| signalBit signal.toNat)
    ([11, 7, 4, 8, 5, 31, 9, 19].foldl (fun signals signal => signals ||| signalBit signal) 0)

/-- `pendingSignals_.at(tid)` -/
def requireTraced (tid : ℕ) : Run Unit := do
  let s ← get
  if tid ∈ s.traced then pure () else throw .thrown

/-- The start of `singleStepThread`: the mask that was read, where the signals are blocked. -/
def blockSignals (k : Kernel) (tid : ℕ) : Run (Option Entry) := do
  if ← ask k.holdStepSignals then
    if ← applyMaskRestore k tid then
      requireTraced tid
      if ← ask k.noSignal then
        if ← ask k.atSystemCall then pure none
        else if ← ask k.getSigMask then
          let exceptionBreakSignals ← ask k.exceptionBreakSignals
          let s ← get
          let entry : Entry := ⟨s.mask tid, s.task tid⟩
          let blocked := entry.mask ||| ~~~openSignals exceptionBreakSignals
          if blocked = entry.mask then pure none
          else if ← setSigMask k tid blocked then do
            modify fun s => { s with savings := s.savings ++ [⟨entry.mask, s.own tid⟩] }
            pure (some entry)
          else pure none
        else pure none
      else pure none
    else pure none
  else pure none

/-- `restoreMask` of `singleStepThread`. -/
def restoreMask (k : Kernel) (tid : ℕ) : Option Entry → Run Bool
  | none => pure true
  | some entry => do
    if ← putBack k tid entry then pure true
    else do
      modify fun s =>
        if tid ∈ s.traced then
          { s with
            pendingMaskRestores := Function.update s.pendingMaskRestores tid (some entry) }
        else s
      pure false

def passOver (tid : ℕ) (masked : Option Entry) : Stop → Run Unit
  | .exec former _ => modify fun s =>
      if former ≠ tid ∧ (masked.isSome = true ∨ (s.pendingMaskRestores tid).isSome = true ∨
          ¬s.Unblocked tid) then
        { s with overtaken := true }
      else s
  | _ => pure ()

/-- The loop of `singleStepThread`. -/
def stepLoop (k : Kernel) (tid : ℕ) (masked : Option Entry) : ℕ → Run Bool
  | 0 => throw .running
  | fuel + 1 => do
    requireTraced tid
    if ← ask k.singleStep then
      match ← waitForStop k tid fuel with
      | none => do
        let _ ← restoreMask k tid masked
        pure false
      | some stop =>
        if ← ask k.attached then
          match stop with
          | .exec former owned => do
            if ← ask k.eventMessage then
              if former = tid then
                let _ ← restoreMask k tid masked
            modify (·.handleExec tid owned)
            pure false
          | .interrupt => stepLoop k tid masked fuel
          | .trace => restoreMask k tid masked
          | .other => do
            let _ ← restoreMask k tid masked
            handleStops k
            pure false
        else do
          passOver tid masked stop
          let _ ← restoreMask k tid masked
          pure false
    else do
      let _ ← restoreMask k tid masked
      pure false

/-- `singleStepThread` -/
def singleStepThread (k : Kernel) (tid fuel : ℕ) : Run Bool := do
  let masked ← blockSignals k tid
  stepLoop k tid masked fuel

/-! ### Runs -/

/-- A wait of the other functions, which go into an exec unless the session ends. -/
def waitElsewhere (k : Kernel) (tid fuel : ℕ) : Run Unit := do
  match ← waitForStop k tid fuel with
  | some (.exec former owned) =>
    if ← ask k.attached then modify (·.handleExec tid owned)
    else passOver tid none (.exec former owned)
  | _ => pure ()

/-- The wait in the loop of `absorbStop`, which does not ask again whether the stop is an exec. -/
def absorbWait (k : Kernel) (tid fuel : ℕ) : Run Unit := do
  match ← waitForStop k tid fuel with
  | some (.exec former owned) => passOver tid none (.exec former owned)
  | _ => pure ()

/-- What the rest of the session does to the threads, one thing after the other. -/
inductive Turn
  | happens (happening : Happening)
  | waits (tid : ℕ)
  | absorbs (tid : ℕ)
  | steps (tid : ℕ)
  deriving Repr, DecidableEq

def turn (k : Kernel) (fuel : ℕ) : Turn → Run Unit
  | .happens happening => happen k happening
  | .waits tid => waitElsewhere k tid fuel
  | .absorbs tid => absorbWait k tid fuel
  | .steps tid => discard (singleStepThread k tid fuel)

def turns (k : Kernel) (fuel : ℕ) : List Turn → Run Unit
  | [] => pure ()
  | t :: rest => do
    turn k fuel t
    turns k fuel rest

def attached (threads : List ℕ) (masks : ℕ → UInt64) : Session where
  traced := threads
  mask := masks
  own := masks
  task tid := ⟨tid, 0⟩

end CheatEngine.SignalMasks
