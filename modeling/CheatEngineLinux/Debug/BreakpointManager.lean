import Mathlib.Data.List.Nodup
import Mathlib.Data.List.Perm.Basic
import Mathlib.Algebra.Group.Int.Defs
import CheatEngineLinux.Library.History

/-!
# The breakpoint manager

The model of `src/debug/breakpoint_manager.cpp`.  Every critical section is one step; `recordHit`
has two of them, with the condition evaluated in between and the callback called after the second.

* `Manager`: the members that `mutex_` protects.
* `System`, `step`: the manager and the calls of `recordHit` under way, in any order of steps.  The
  history notes what became of the calls.
* `life`, `hitsOf`, `sinceCleared`: what the history says of a breakpoint.

Conditions are a parameter.
-/

namespace CheatEngine.Breakpoints

/-! ### The data -/

/-- `std::numeric_limits<int>::max()` -/
def intMax : ℤ := 2 ^ 31 - 1

inductive BpMethod
  | hardware
  | software
  deriving Repr, DecidableEq

/-- `hitCount`. -/
abbrev HitCount := {n : ℤ // n ≤ intMax}

/-- `if (hitCount < max) ++hitCount;` -/
def HitCount.next (n : HitCount) : HitCount :=
  if h : n.1 < intMax then ⟨n.1 + 1, h⟩ else n

structure Breakpoint where
  id : ℤ := 0
  method : BpMethod := .hardware
  hwRegister : ℤ := -1
  enabled : Bool := true
  oneShot : Bool := false
  threadFilter : ℤ := 0
  condition : String := ""
  hitCount : HitCount := ⟨0, by decide⟩
  deriving DecidableEq

structure BreakpointHit (C : Type) where
  address : ℕ
  rip : ℕ
  tid : ℤ
  context : C
  deriving DecidableEq

variable {C : Type}

/-- Callbacks are told apart by numbers. -/
structure Manager (C : Type) where
  breakpoints : List Breakpoint := []
  hitLog : ℤ → List (BreakpointHit C) := fun _ => []
  nextId : ℤ := 1
  hitCallback : Option ℕ := none

/-! ### The critical sections -/

/-- Enabled, and in need of a register. -/
def Breakpoint.holds (b : Breakpoint) : Bool := b.enabled && b.method = .hardware

/-- `findFreeHwRegisterUnlocked` -/
def findFreeHwRegister (breakpoints : List Breakpoint) : ℤ :=
  let used (i : ℕ) : Bool := breakpoints.any fun b => b.holds && b.hwRegister = i
  match (List.range 4).find? fun i => !used i with
  | some i => i
  | none => -1

/-- The first `if` of `add`: the breakpoint with its register, or none. -/
def assignRegister (breakpoints : List Breakpoint) (b : Breakpoint) : Option Breakpoint :=
  if b.method = .hardware then
    let b := if b.hwRegister < 0 then { b with hwRegister := findFreeHwRegister breakpoints } else b
    if b.enabled ∧ (b.hwRegister < 0 ∨ b.hwRegister > 3) then none
    else if b.hwRegister > 3 then none
    else if breakpoints.any fun other => b.enabled && other.holds
        && other.hwRegister = b.hwRegister then none
    else some b
  else some b

/-- `add`: the breakpoint as it is kept, or none where the source returns -1. -/
def Manager.add (m : Manager C) (bp : Breakpoint) : Manager C × Option Breakpoint :=
  match assignRegister m.breakpoints bp with
  | none => (m, none)
  | some b =>
    if m.nextId = intMax then (m, none)
    else
      let b := { b with id := m.nextId }
      ({ m with breakpoints := m.breakpoints ++ [b], nextId := m.nextId + 1 }, some b)

/-- `hitLog_.erase(id)`, or `hitLog_[id] = log`. -/
def Manager.setLog (m : Manager C) (id : ℤ) (log : List (BreakpointHit C)) : Manager C :=
  { m with hitLog := fun i => if i = id then log else m.hitLog i }

def Manager.remove (m : Manager C) (id : ℤ) : Manager C :=
  { m with breakpoints := m.breakpoints.filter fun b => b.id ≠ id }.setLog id []

def updateFirst (id : ℤ) (f : Breakpoint → Breakpoint) : List Breakpoint → List Breakpoint
  | [] => []
  | b :: rest => if b.id = id then f b :: rest else b :: updateFirst id f rest

/-- The body of the loop in `setEnabled`, with the free register. -/
def Breakpoint.setEnabled (free : ℤ) (enabled : Bool) (b : Breakpoint) : Breakpoint :=
  if enabled && !b.enabled && b.method = .hardware then
    if free < 0 then { b with hwRegister := free }
    else { b with hwRegister := free, enabled := enabled }
  else { b with enabled := enabled }

def Manager.setEnabled (m : Manager C) (id : ℤ) (enabled : Bool) : Manager C :=
  let free := findFreeHwRegister m.breakpoints
  { m with breakpoints := updateFirst id (·.setEnabled free enabled) m.breakpoints }

/-- A breakpoint that is switched on without a free register stays off. -/
def Manager.isEnabled (m : Manager C) (id : ℤ) : Bool :=
  (m.breakpoints.find? fun b => b.id = id).any Breakpoint.enabled

def Manager.clearHits (m : Manager C) (id : ℤ) : Manager C := m.setLog id []

def Manager.setHitCallback (m : Manager C) (callback : Option ℕ) : Manager C :=
  { m with hitCallback := callback }

/-- `find_if` -/
def Manager.find (m : Manager C) (id : ℤ) : Option Breakpoint :=
  m.breakpoints.find? fun b => b.id = id

/-- Enabled, and not of another thread. -/
def Breakpoint.wants (b : Breakpoint) (hit : BreakpointHit C) : Bool :=
  b.enabled && (b.threadFilter = 0 || b.threadFilter = hit.tid)

/-- The log with a hit more: past ten thousand the first five thousand go. -/
def pushHit (log : List (BreakpointHit C)) (hit : BreakpointHit C) : List (BreakpointHit C) :=
  let log := log ++ [hit]
  if log.length > 10000 then log.drop 5000 else log

/-- The second critical section of `recordHit`: the manager, the breakpoint for the callback, and
the callback. -/
def Manager.accept (m : Manager C) (id : ℤ) (hit : BreakpointHit C) :
    Option (Manager C × Breakpoint × Option ℕ) :=
  match m.find id with
  | none => none
  | some b =>
    if b.wants hit then
      let b := { b with hitCount := b.hitCount.next }
      let callbackBp := if b.oneShot then { b with enabled := false } else b
      let m := m.setLog id (pushHit (m.hitLog id) hit)
      let breakpoints := if b.oneShot then m.breakpoints.eraseP fun b => b.id = id
        else updateFirst id (fun _ => b) m.breakpoints
      some ({ m with breakpoints }, callbackBp, m.hitCallback)
    else none

/-! ### Runs -/

/-- A call of `recordHit` under way: between the first section and the condition, between the
condition and the second section, and before the callback. -/
inductive Call (C : Type)
  | snapshot (bp : Breakpoint) (id : ℤ) (hit : BreakpointHit C)
  | matched (id : ℤ) (hit : BreakpointHit C)
  | notify (callback : ℕ) (bp : Breakpoint) (id : ℤ) (hit : BreakpointHit C)

/-- What became of the calls; a switch with whether the breakpoint is enabled after it. -/
inductive Event (C : Type)
  | added (bp : Breakpoint)
  | removed (id : ℤ)
  | switched (id : ℤ) (enabled : Bool)
  | cleared (id : ℤ)
  | accepted (id : ℤ) (hit : BreakpointHit C)
  | notified (id : ℤ) (bp : Breakpoint) (hit : BreakpointHit C)

/-- A critical section, or a step of the call at a place of `calls`. -/
inductive Action (C : Type)
  | add (bp : Breakpoint)
  | remove (id : ℤ)
  | setEnabled (id : ℤ) (enabled : Bool)
  | clearHits (id : ℤ)
  | setHitCallback (callback : Option ℕ)
  | recordHit (id : ℤ) (hit : BreakpointHit C)
  | proceed (k : ℕ)

structure System (C : Type) where
  manager : Manager C := {}
  calls : List (Call C) := []
  history : List (Event C) := []

/-- The next step of a call: the condition on the snapshot, the second section, the callback. -/
def proceed (conditionMatches : Breakpoint → BreakpointHit C → Bool) (s : System C) (k : ℕ) :
    Call C → System C
  | .snapshot bp id hit =>
    if bp.wants hit && conditionMatches bp hit then
      { s with calls := s.calls.set k (.matched id hit) }
    else { s with calls := s.calls.eraseIdx k }
  | .matched id hit =>
    match s.manager.accept id hit with
    | none => { s with calls := s.calls.eraseIdx k }
    | some (manager, bp, callback) =>
      { manager
        calls := match callback with
          | none => s.calls.eraseIdx k
          | some callback => s.calls.set k (.notify callback bp id hit)
        history := s.history ++ [.accepted id hit] }
  | .notify _ bp id hit =>
    { s with calls := s.calls.eraseIdx k, history := s.history ++ [.notified id bp hit] }

def step (conditionMatches : Breakpoint → BreakpointHit C → Bool) (s : System C) :
    Action C → System C
  | .add bp =>
    match s.manager.add bp with
    | (_, none) => s
    | (manager, some b) => { s with manager, history := s.history ++ [.added b] }
  | .remove id =>
    { s with manager := s.manager.remove id, history := s.history ++ [.removed id] }
  | .setEnabled id enabled =>
    let manager := s.manager.setEnabled id enabled
    { s with manager, history := s.history ++ [.switched id (manager.isEnabled id)] }
  | .clearHits id =>
    { s with manager := s.manager.clearHits id, history := s.history ++ [.cleared id] }
  | .setHitCallback callback => { s with manager := s.manager.setHitCallback callback }
  | .recordHit id hit =>
    match s.manager.find id with
    | none => s
    | some bp => { s with calls := s.calls ++ [.snapshot bp id hit] }
  | .proceed k =>
    match s.calls[k]? with
    | none => s
    | some call => proceed conditionMatches s k call

/-! ### What a history says -/

/-- The stages of an id: nothing was added under it yet, and so on. -/
inductive Life
  | unborn
  | live
  | paused
  | gone
  deriving Repr, DecidableEq

def Life.ofEnabled (enabled : Bool) : Life := if enabled then .live else .paused

/-- What an event makes of the stage of an id.  Neither an unborn breakpoint nor one that is gone
can be enabled. -/
def Life.next (id : ℤ) (life : Life) : Event C → Life
  | .added bp => if bp.id = id then .ofEnabled bp.enabled else life
  | .removed i => if i = id then .gone else life
  | .switched i enabled =>
    if i = id ∧ (life = .live ∨ life = .paused) then .ofEnabled enabled else life
  | _ => life

def life (id : ℤ) (history : List (Event C)) : Life := history.foldl (Life.next id) .unborn

def Event.hitOf (id : ℤ) : Event C → Option (BreakpointHit C)
  | .accepted i hit => if i = id then some hit else none
  | _ => none

def hitsOf (id : ℤ) (history : List (Event C)) : List (BreakpointHit C) :=
  history.filterMap (Event.hitOf id)

/-- The hits that were accepted since the last `clearHits` or `remove`. -/
def sinceCleared (id : ℤ) (history : List (Event C)) : List (BreakpointHit C) :=
  history.foldl (fun hits event =>
    match event with
    | .removed i => if i = id then [] else hits
    | .cleared i => if i = id then [] else hits
    | .accepted i hit => if i = id then hits ++ [hit] else hits
    | _ => hits) []

/-- The callbacks for a breakpoint. -/
def notifications (id : ℤ) (history : List (Event C)) : ℕ :=
  history.countP fun event =>
    match event with
    | .notified i _ _ => i = id
    | _ => false

/-- The ids that `add` gave out. -/
def addedIds (history : List (Event C)) : List ℤ :=
  history.filterMap fun event =>
    match event with
    | .added bp => some bp.id
    | _ => none

end CheatEngine.Breakpoints
