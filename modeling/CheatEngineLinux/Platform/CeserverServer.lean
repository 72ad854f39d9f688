import Mathlib.Data.List.Nodup
import Mathlib.Data.List.Perm.Basic
import Mathlib.Data.Fin.Basic
import Mathlib.Algebra.Group.Int.Defs
import CheatEngineLinux.Library.History

/-!
# The debug session of a ceserver connection

`CeserverServer::serveClient` of `platform/linux/ceserver_server.cpp`: the handles of a
connection, the debug session and the stops it hands to the client.  The commands that only read
this state are one command here.  What the operating system and `DebugSession` answer is an input
of each command, and so are the events that the tracer reports while a session is made or torn
down; at every other moment the tracer reports between two commands.  A connection that ends early
has run a prefix of its commands.

* `serveClient_contract` — **PROVED**: over every interleaving of commands and events, a continue
  resumes only the stop that was delivered last, and handles are never reused.
-/

namespace CheatEngine.Ceserver

open History

/-! ### Events -/

inductive DebugEventType
  | breakpointHit | exceptionBreakpointHit | singleStep | processExited | processExecuted
  | signalReceived | threadExiting
  deriving DecidableEq, Repr

/-- What the callback reads of a `DebugEvent`. -/
structure DebugEvent where
  type : DebugEventType
  tid : ℤ
  address : UInt64

structure DebugEventRec where
  debugevent : ℤ
  tid : ℤ
  address : UInt64
  deriving DecidableEq, Repr

/-- What the event callback queues: stops, and nothing for an exit. -/
def eventRec (e : DebugEvent) : Option DebugEventRec :=
  if e.type = .threadExiting ∨ e.type = .processExited then none
  else some ⟨if e.type = .breakpointHit ∨ e.type = .exceptionBreakpointHit then 5 else 1, e.tid,
    e.address⟩

/-! ### The state of a connection -/

/-- What the connection did.  Sessions are numbered in the order they were made. -/
inductive Action
  /-- A `DebugSession` is made for a handle. -/
  | start (session : ℕ) (handle : ℤ)
  /-- `STARTDEBUG` calls `continueExecution`. -/
  | resume (session : ℕ)
  /-- The session is destroyed and the queue cleared. -/
  | stop (session : ℕ)
  /-- The tracer queues a stop. -/
  | push (session : ℕ) (rec : DebugEventRec)
  /-- `WAITFORDEBUGEVENT` hands a stop to the client. -/
  | deliver (session : ℕ) (rec : DebugEventRec)
  /-- A `CONTINUEFROMDEBUGEVENT`, the session whose `continueExecution` it called, and its
  answer. -/
  | continue (handle tid : ℤ) (called : Option ℕ) (reply : ℤ)
  /-- A handle is given out. -/
  | issue (handle : ℤ)
  /-- A handle is closed. -/
  | close (handle : ℤ)
  deriving DecidableEq, Repr

structure Entry where
  pid : ℤ := 0
  base : UInt64 := 0
  size : UInt64 := 0
  name : List UInt8
  deriving DecidableEq, Repr

structure Snapshot where
  modules : Bool := false
  entries : List Entry := []
  next : ℕ := 0
  deriving DecidableEq, Repr

/-- The variables of `serveClient` and of its `ClientState`.  `dbg` is the number of the session;
`made` and `log` are read by no command. -/
structure Server where
  /-- The process behind each handle, by its number. -/
  processes : List (ℤ × ℤ) := []
  snapshots : List (ℤ × Snapshot) := []
  nextHandle : ℤ := 1
  debugHandle : ℤ := 0
  deliveredStop : Option ℤ := none
  breakpointIds : Fin 4 → ℤ := fun _ => 0
  hardwareBreakpoints : Fin 4 → Bool := fun _ => false
  dbg : Option ℕ := none
  dbgQueue : List DebugEventRec := []
  made : ℕ := 0
  log : List Action := []

/-- The history goes on with an action. -/
def Server.note (s : Server) (a : Action) : Server := { s with log := s.log ++ [a] }

def kMaxHandle : ℤ := 0xffffff

/-- The event callback, on the tracer thread of the session. -/
def onEvent (s : Server) (e : DebugEvent) : Server :=
  match s.dbg, eventRec e with
  | some k, some r => { s.note (.push k r) with dbgQueue := s.dbgQueue ++ [r] }
  | _, _ => s

/-- `stopDebug`; `late` is what the tracer reports until the destructor has joined it. -/
def stopDebug (late : List DebugEvent) (s : Server) : Server :=
  let s := late.foldl onEvent s
  let s := match s.dbg with
    | some k => s.note (.stop k)
    | none => s
  { s with dbg := none, debugHandle := 0, breakpointIds := fun _ => 0, deliveredStop := none,
           dbgQueue := [] }

/-- `takeHandle`; 0 is no handle. -/
def takeHandle (s : Server) : ℤ × Server :=
  if s.nextHandle > kMaxHandle ∨ s.processes.length + s.snapshots.length ≥ 256 then (0, s)
  else (s.nextHandle,
    { s.note (.issue s.nextHandle) with nextHandle := s.nextHandle + 1 })

/-! ### Commands -/

inductive Command
  | openProcess (pid : ℤ)
  | closeHandle (handle : ℤ)
  | createToolhelp32Snapshot (flags pid : UInt32)
  | createToolhelp32SnapshotEx (flags pid : UInt32)
  /-- `PROCESS32FIRST`, `PROCESS32NEXT`, `MODULE32FIRST` and `MODULE32NEXT`. -/
  | entry32 (modules first : Bool) (handle : ℤ)
  | startDebug (handle : ℤ)
  | stopDebug (handle : ℤ)
  | setBreakpoint (handle tid debugReg : ℤ) (address : UInt64) (bpType bpSize : ℤ)
  | removeBreakpoint (handle tid debugReg wasWatchpoint : ℤ)
  | waitForDebugEvent (handle timeoutMs : ℤ)
  | continueFromDebugEvent (handle tid sig : ℤ)
  /-- A command that changes nothing here. -/
  | other

/-- What the rest of the world answers while a command runs. -/
structure World where
  /-- `targetDescription().live` -/
  live : Bool
  /-- `DebugSession::attach` -/
  attached : Bool
  /-- The id that a new breakpoint gets. -/
  breakpointId : ℤ
  /-- Whether a breakpoint could be removed. -/
  removed : Bool
  /-- The processes or modules a snapshot lists. -/
  entries : List Entry
  /-- What the tracer of the old session reports until it is gone. -/
  late : List DebugEvent
  /-- What the tracer of the new session reports during `attach`. -/
  early : List DebugEvent
  /-- What it reports until it is gone, when the attach failed. -/
  failed : List DebugEvent

def TH32CS_SNAPPROCESS : UInt32 := 0x2

def TH32CS_SNAPTHREAD : UInt32 := 0x4

def TH32CS_SNAPMODULE : UInt32 := 0x8

/-- `snapshot` -/
def snapshot (flags : UInt32) (w : World) (s : Server) : Server :=
  if flags &&& TH32CS_SNAPPROCESS ≠ 0 ∨ flags &&& TH32CS_SNAPMODULE ≠ 0 then
    let taken : Snapshot :=
      { modules := decide (flags &&& TH32CS_SNAPPROCESS = 0), entries := w.entries }
    let (handle, s) := takeHandle s
    if handle = 0 then s else { s with snapshots := s.snapshots ++ [(handle, taken)] }
  else s

/-- The snapshot after its `next` entry was read. -/
def Snapshot.advance (taken : Snapshot) (modules first : Bool) : Snapshot :=
  if taken.modules = modules then
    let next := if first then 0 else taken.next
    { taken with next := if next < taken.entries.length then next + 1 else next }
  else taken

/-- `removeSlot`, as what is left in the slots. -/
def removeSlot (slot : Fin 4) (w : World) (s : Server) : Server :=
  if s.breakpointIds slot ≠ 0 ∧ w.removed = true then
    { s with breakpointIds := fun i => if i = slot then 0 else s.breakpointIds i }
  else s

def slotOf (debugReg : ℤ) : Option (Fin 4) :=
  if h : 0 ≤ debugReg ∧ debugReg < 4 then some ⟨debugReg.toNat, by omega⟩ else none

def command (c : Command) (w : World) (s : Server) : Server :=
  match c with
  | .openProcess pid =>
    if pid > 0 ∧ w.live = true then
      let (handle, s) := takeHandle s
      if handle = 0 then s else { s with processes := s.processes ++ [(handle, pid)] }
    else s
  | .closeHandle handle =>
    let s := if handle = s.debugHandle then stopDebug w.late s else s
    if s.processes.any (·.1 == handle) then
      { s.note (.close handle) with processes := s.processes.filter (·.1 != handle) }
    else if s.snapshots.any (·.1 == handle) then
      { s.note (.close handle) with snapshots := s.snapshots.filter (·.1 != handle) }
    else s
  | .createToolhelp32Snapshot flags _ => snapshot flags w s
  | .createToolhelp32SnapshotEx flags _ =>
    if flags &&& TH32CS_SNAPTHREAD ≠ 0 ∨ flags &&& TH32CS_SNAPMODULE ≠ 0 then s
    else snapshot flags w s
  | .entry32 modules first handle =>
    { s with snapshots := s.snapshots.map fun p =>
        if p.1 = handle then (p.1, p.2.advance modules first) else p }
  | .startDebug handle =>
    let s := stopDebug w.late s
    if s.processes.any (·.1 == handle) && w.live then
      let s := { s.note (.start s.made handle) with
        debugHandle := handle, dbg := some s.made, made := s.made + 1 }
      let s := w.early.foldl onEvent s
      if w.attached then
        match s.dbg with
        | some k => s.note (.resume k)
        | none => s
      else stopDebug w.failed s
    else s
  | .stopDebug handle =>
    if s.dbg.isSome ∧ handle = s.debugHandle then stopDebug w.late s else s
  | .setBreakpoint handle _ debugReg _ bpType _ =>
    match slotOf debugReg with
    | some slot =>
      if s.dbg.isSome ∧ handle = s.debugHandle then
        if s.breakpointIds slot ≠ 0 ∧ w.removed = false then s
        else
          let s := removeSlot slot w s
          { s with
            breakpointIds := fun i => if i = slot then (if w.breakpointId > 0 then w.breakpointId else 0)
              else s.breakpointIds i
            hardwareBreakpoints := fun i => if i = slot then decide (bpType ≠ 0)
              else s.hardwareBreakpoints i }
      else s
    | none => s
  | .removeBreakpoint handle _ debugReg _ =>
    match slotOf debugReg with
    | some slot =>
      if s.dbg.isSome ∧ handle = s.debugHandle then removeSlot slot w s else s
    | none => s
  | .waitForDebugEvent handle _ =>
    match s.dbg, s.dbgQueue with
    | some k, rec :: queue =>
      if handle = s.debugHandle then
        { s.note (.deliver k rec) with dbgQueue := queue, deliveredStop := some rec.tid }
      else s
    | _, _ => s
  | .continueFromDebugEvent handle tid _ =>
    match s.dbg with
    | some k =>
      if handle = s.debugHandle ∧ s.deliveredStop = some tid then
        { s.note (.continue handle tid (some k) 1) with deliveredStop := none }
      else s.note (.continue handle tid none 0)
    | none => s.note (.continue handle tid none 0)
  | .other => s

/-- A step of the connection: its tracer reports an event, or it serves a command. -/
inductive Input
  | event (e : DebugEvent)
  | command (c : Command) (w : World)

def step (s : Server) : Input → Server
  | .event e => onEvent s e
  | .command c w => command c w s

/-- The connection after some steps. -/
def serveClient (inputs : List Input) : Server := inputs.foldl step {}

/-! ### What a history says -/

def debuggedAfter (now : Option (ℕ × ℤ)) : Action → Option (ℕ × ℤ)
  | .start k handle => some (k, handle)
  | .stop _ => none
  | _ => now

/-- The session and the handle being debugged. -/
def debugged (log : List Action) : Option (ℕ × ℤ) := log.foldl debuggedAfter none

def unansweredAfter (now : Option DebugEventRec) : Action → Option DebugEventRec
  | .deliver _ r => some r
  | .continue _ _ (some _) _ => none
  | .start _ _ => none
  | .stop _ => none
  | _ => now

/-- The stop that was delivered last in the session at hand and not yet continued. -/
def unanswered (log : List Action) : Option DebugEventRec := log.foldl unansweredAfter none

def pushedBy (k : ℕ) : Action → Option DebugEventRec
  | .push k' r => if k' = k then some r else none
  | _ => none

/-- The stops a session queued. -/
def pushed (k : ℕ) (log : List Action) : List DebugEventRec := log.filterMap (pushedBy k)

def deliveredBy (k : ℕ) : Action → Option DebugEventRec
  | .deliver k' r => if k' = k then some r else none
  | _ => none

/-- The stops of a session the client was given. -/
def delivered (k : ℕ) (log : List Action) : List DebugEventRec := log.filterMap (deliveredBy k)

def continuedBy (k : ℕ) : Action → Option ℤ
  | .continue _ tid called _ => if called = some k then some tid else none
  | _ => none

/-- The threads of the continues that resumed a session. -/
def continues (k : ℕ) (log : List Action) : List ℤ := log.filterMap (continuedBy k)

def issuedBy : Action → Option ℤ
  | .issue handle => some handle
  | _ => none

/-- The handles given out, in order. -/
def issued (log : List Action) : List ℤ := log.filterMap issuedBy

def openAfter (now : List ℤ) : Action → List ℤ
  | .issue handle => now ++ [handle]
  | .close handle => now.filter (· != handle)
  | _ => now

def openHandles (log : List Action) : List ℤ := log.foldl openAfter []

def Action.session : Action → Option ℕ
  | .start k _ => some k
  | .resume k => some k
  | .stop k => some k
  | .push k _ => some k
  | .deliver k _ => some k
  | .continue _ _ called _ => called
  | .issue _ => none
  | .close _ => none

/-- The stop that a continue with this handle and thread may resume. -/
def Resumable (pre : List Action) (handle tid : ℤ) (k : ℕ) : Prop :=
  debugged pre = some (k, handle) ∧ ∃ r, unanswered pre = some r ∧ r.tid = tid

/-- What may have come before an action. -/
def Allowed (pre : List Action) : Action → Prop
  -- the sessions do not overlap, and a number is used once
  | .start k _ => debugged pre = none ∧ ∀ a ∈ pre, a.session ≠ some k
  -- one call for each session, while the session is the one at hand
  | .resume k => (∃ handle, debugged pre = some (k, handle)) ∧ .resume k ∉ pre
  | .stop k => ∃ handle, debugged pre = some (k, handle)
  | .push k _ => ∃ handle, debugged pre = some (k, handle)
  -- the next stop in the order of the queue, of the session at hand
  | .deliver k r => (∃ handle, debugged pre = some (k, handle)) ∧
      delivered k pre ++ [r] <+: pushed k pre
  -- the call if the stop may be resumed, else the answer 0 and no call
  | .continue handle tid called reply =>
      (∃ k, Resumable pre handle tid k ∧ called = some k ∧ reply = 1) ∨
        ((∀ k, ¬ Resumable pre handle tid k) ∧ called = none ∧ reply = 0)
  | .issue handle => handle ∉ issued pre ∧ 1 ≤ handle ∧ handle ≤ 2 ^ 24 - 1 ∧
      (openHandles pre).length < 256
  | .close handle => handle ∈ openHandles pre

section snoc

variable (log : List Action) (a : Action) (k : ℕ)

@[simp] theorem debugged_snoc : debugged (log ++ [a]) = debuggedAfter (debugged log) a := by
  simp [debugged]

@[simp] theorem unanswered_snoc : unanswered (log ++ [a]) = unansweredAfter (unanswered log) a := by
  simp [unanswered]

@[simp] theorem pushed_snoc : pushed k (log ++ [a]) = pushed k log ++ (pushedBy k a).toList := by
  cases h : pushedBy k a <;> simp [pushed, h]

@[simp] theorem delivered_snoc :
    delivered k (log ++ [a]) = delivered k log ++ (deliveredBy k a).toList := by
  cases h : deliveredBy k a <;> simp [delivered, h]

@[simp] theorem continues_snoc :
    continues k (log ++ [a]) = continues k log ++ (continuedBy k a).toList := by
  cases h : continuedBy k a <;> simp [continues, h]

@[simp] theorem issued_snoc : issued (log ++ [a]) = issued log ++ (issuedBy a).toList := by
  cases h : issuedBy a <;> simp [issued, h]

@[simp] theorem openHandles_snoc : openHandles (log ++ [a]) = openAfter (openHandles log) a := by
  simp [openHandles]

end snoc

/-! ### The state agrees with the history -/

/-- The variables of the debug session say what the history says. -/
structure Sessions (s : Server) : Prop where
  session : debugged s.log = s.dbg.map fun k => (k, s.debugHandle)
  stop : (unanswered s.log).map DebugEventRec.tid = s.deliveredStop
  queue : ∀ k, s.dbg = some k → pushed k s.log = delivered k s.log ++ s.dbgQueue
  order : ∀ k, delivered k s.log <+: pushed k s.log
  count : ∀ k, (continues k s.log).length ≤ (delivered k s.log).length
  waiting : ∀ k, s.dbg = some k → s.deliveredStop ≠ none →
    (continues k s.log).length < (delivered k s.log).length
  idle : s.dbg = none → s.deliveredStop = none
  numbers : ∀ a ∈ s.log, ∀ k, a.session = some k → k < s.made
  number : ∀ k, s.dbg = some k → k < s.made

/-- The two tables hold the handles that are open, and the counter is past all of them. -/
structure Handles (s : Server) : Prop where
  nextHandle : 1 ≤ s.nextHandle
  handles : ∀ handle ∈ issued s.log, 1 ≤ handle ∧ handle < s.nextHandle ∧ handle ≤ 2 ^ 24 - 1
  distinct : (issued s.log).Nodup
  opened : (openHandles s.log).Perm (s.processes.map Prod.fst ++ s.snapshots.map Prod.fst)
  openIssued : ∀ handle ∈ openHandles s.log, handle ∈ issued s.log
  openDistinct : (openHandles s.log).Nodup
  openFew : (openHandles s.log).length ≤ 256

/-- The state agrees with the history, and the history keeps to the contract. -/
structure Coherent (s : Server) : Prop extends Sessions s, Handles s where
  allowed : Always Allowed s.log

theorem coherent_start : Coherent {} where
  session := rfl
  stop := rfl
  queue := by simp
  order := by simp [delivered, pushed]
  count := by simp [continues, delivered]
  waiting := by simp
  idle := by simp
  numbers := by simp
  number := by simp
  nextHandle := by simp
  handles := by simp [issued]
  distinct := by simp [issued]
  opened := by simp [openHandles]
  openIssued := by simp [openHandles]
  openDistinct := by simp [openHandles]
  openFew := by simp [openHandles]
  allowed := Always.nil _

variable {s s' : Server}

theorem Handles.note (h : Handles s) {a : Action} (hissue : issuedBy a = none)
    (hopen : ∀ now, openAfter now a = now) : Handles (s.note a) where
  nextHandle := h.nextHandle
  handles := by simpa [Server.note, hissue] using h.handles
  distinct := by simpa [Server.note, hissue] using h.distinct
  opened := by simpa [Server.note, hopen] using h.opened
  openIssued := by simpa [Server.note, hopen, hissue] using h.openIssued
  openDistinct := by simpa [Server.note, hopen] using h.openDistinct
  openFew := by simpa [Server.note, hopen] using h.openFew

theorem Sessions.note (h : Sessions s) {a : Action}
    (ha : ∃ handle, a = .issue handle ∨ a = .close handle) : Sessions (s.note a) := by
  obtain ⟨handle, rfl | rfl⟩ := ha
  all_goals exact
    { session := by simpa [Server.note, debuggedAfter] using h.session
      stop := by simpa [Server.note, unansweredAfter] using h.stop
      queue := by simpa [Server.note, pushedBy, deliveredBy] using h.queue
      order := by simpa [Server.note, pushedBy, deliveredBy] using h.order
      count := by simpa [Server.note, continuedBy, deliveredBy] using h.count
      waiting := by simpa [Server.note, continuedBy, deliveredBy] using h.waiting
      idle := h.idle
      numbers := by
        intro b hb k hk
        rcases List.mem_append.mp hb with hb | hb
        · exact h.numbers b hb k hk
        · rw [List.mem_singleton.mp hb] at hk
          cases hk
      number := h.number }

theorem Sessions.numbers_note (h : Sessions s) {k : ℕ} (hk : s.dbg = some k) {a : Action}
    (ha : ∀ k', a.session = some k' → k' = k) :
    ∀ b ∈ s.log ++ [a], ∀ k', b.session = some k' → k' < s.made := by
  intro b hb k' hk'
  rcases List.mem_append.mp hb with hb | hb
  · exact h.numbers b hb k' hk'
  · rw [List.mem_singleton.mp hb] at hk'
    rw [ha k' hk']
    exact h.number k hk

theorem Sessions.debugged_eq (h : Sessions s) {k : ℕ} (hk : s.dbg = some k) :
    debugged s.log = some (k, s.debugHandle) := by
  rw [h.session, hk]
  rfl

theorem Sessions.resumable_iff (h : Sessions s) {handle tid : ℤ} {k : ℕ} :
    Resumable s.log handle tid k ↔
      s.dbg = some k ∧ s.debugHandle = handle ∧ s.deliveredStop = some tid := by
  rw [Resumable, h.session, ← h.stop]
  simp [Option.map_eq_some_iff, and_assoc]

/-! ### What each operation keeps -/

theorem coherent_onEvent (h : Coherent s) (e : DebugEvent) : Coherent (onEvent s e) := by
  unfold onEvent
  split
  · next k r hk hr =>
    exact
      { h.toHandles.note (a := .push k r) rfl fun _ => rfl with
        session := by simp [Server.note, debuggedAfter, h.session]
        stop := by simp [Server.note, unansweredAfter, h.stop]
        queue := by
          intro k' hk'
          have hsame : k = k' := Option.some.inj (hk.symm.trans hk')
          simp [Server.note, pushedBy, deliveredBy, h.queue k' hk', hsame]
        order := by
          intro k'
          simp only [Server.note, pushed_snoc, delivered_snoc, deliveredBy, Option.toList_none,
            List.append_nil]
          exact (h.order k').trans (List.prefix_append _ _)
        count := by simpa [Server.note, continuedBy, deliveredBy] using h.count
        waiting := by simpa [Server.note, continuedBy, deliveredBy] using h.waiting
        idle := h.idle
        numbers := h.numbers_note hk fun k' hk' => (Option.some.inj hk').symm
        number := h.number
        allowed := always_snoc.mpr ⟨h.allowed, s.debugHandle, h.debugged_eq hk⟩ }
  · exact h

theorem coherent_events (h : Coherent s) (events : List DebugEvent) :
    Coherent (events.foldl onEvent s) :=
  foldl_invariant (I := Coherent) (fun _ e h => coherent_onEvent h e) events h

/-- The end of a session. -/
theorem coherent_stopDebug (h : Coherent s) (late : List DebugEvent) :
    Coherent (stopDebug late s) := by
  have hlate := coherent_events h late
  unfold stopDebug
  generalize late.foldl onEvent s = s at hlate ⊢
  dsimp only
  cases hk : s.dbg with
  | none =>
    have hsession := hlate.session
    have hstop := hlate.stop
    rw [hlate.idle hk] at hstop
    rw [hk] at hsession
    exact { hlate with
      session := hsession
      stop := hstop
      queue := by simp
      waiting := by simp
      idle := by simp
      number := by simp }
  | some k =>
    exact
      { hlate.toHandles.note (a := .stop k) rfl fun _ => rfl with
        session := by simp [Server.note, debuggedAfter]
        stop := by simp [Server.note, unansweredAfter]
        queue := by simp
        order := by simpa [Server.note, pushedBy, deliveredBy] using hlate.order
        count := by simpa [Server.note, continuedBy, deliveredBy] using hlate.count
        waiting := by simp
        idle := by simp
        numbers := hlate.numbers_note hk fun k' hk' => (Option.some.inj hk').symm
        number := by simp
        allowed := always_snoc.mpr ⟨hlate.allowed, s.debugHandle, hlate.debugged_eq hk⟩ }

theorem coherent_issue (h : Coherent s) (hmax : s.nextHandle ≤ kMaxHandle)
    (hfew : s.processes.length + s.snapshots.length < 256) (processes : List (ℤ × ℤ))
    (snapshots : List (ℤ × Snapshot))
    (htables : (processes.map Prod.fst ++ snapshots.map Prod.fst).Perm
      (s.nextHandle :: (s.processes.map Prod.fst ++ s.snapshots.map Prod.fst))) :
    Coherent { s.note (.issue s.nextHandle) with
      nextHandle := s.nextHandle + 1, processes := processes, snapshots := snapshots } := by
  have hlength : (openHandles s.log).length < 256 := by
    rw [h.opened.length_eq, List.length_append, List.length_map, List.length_map]
    exact hfew
  have hnew : s.nextHandle ∉ issued s.log := fun hmem => by
    have := (h.handles _ hmem).2.1
    omega
  have hbound : s.nextHandle ≤ 2 ^ 24 - 1 := Int.le_trans hmax (by decide)
  exact
    { h.toSessions.note (a := .issue s.nextHandle) ⟨_, Or.inl rfl⟩ with
      nextHandle := by have := h.nextHandle; simp only; omega
      handles := by
        intro handle hmem
        simp only [Server.note, issued_snoc, issuedBy, Option.toList_some, List.mem_append,
          List.mem_singleton] at hmem
        rcases hmem with hmem | rfl
        · have := h.handles handle hmem
          simp only
          omega
        · exact ⟨h.nextHandle, by simp only; omega, hbound⟩
      distinct := by
        simp only [Server.note, issued_snoc, issuedBy, Option.toList_some]
        exact List.nodup_append.mpr ⟨h.distinct, by simp, by
          rintro a ha b hb rfl
          exact hnew (List.mem_singleton.mp hb ▸ ha)⟩
      opened := by
        simp only [Server.note, openHandles_snoc, openAfter]
        refine (List.perm_append_singleton _ _).trans ?_
        exact (h.opened.cons _).trans htables.symm
      openIssued := by
        intro handle hmem
        simp only [Server.note, openHandles_snoc, openAfter, issued_snoc, issuedBy,
          Option.toList_some, List.mem_append, List.mem_singleton] at hmem ⊢
        exact hmem.imp (h.openIssued handle) id
      openDistinct := by
        simp only [Server.note, openHandles_snoc, openAfter]
        exact List.nodup_append.mpr ⟨h.openDistinct, by simp, by
          rintro a ha b hb rfl
          exact hnew (List.mem_singleton.mp hb ▸ h.openIssued a ha)⟩
      openFew := by
        simp only [Server.note, openHandles_snoc, openAfter, List.length_append,
          List.length_singleton]
        omega
      allowed := always_snoc.mpr ⟨h.allowed, hnew, h.nextHandle, hbound, hlength⟩ }

/-- `takeHandle` gives out the next handle, or nothing changes. -/
theorem takeHandle_cases (s : Server) : takeHandle s = (0, s) ∨
    (s.nextHandle ≤ kMaxHandle ∧ s.processes.length + s.snapshots.length < 256 ∧
      takeHandle s = (s.nextHandle,
        { s.note (.issue s.nextHandle) with nextHandle := s.nextHandle + 1 })) := by
  unfold takeHandle
  split
  · exact Or.inl rfl
  · next hfree =>
    refine Or.inr ⟨by omega, by omega, rfl⟩

theorem coherent_close (h : Coherent s) {handle : ℤ} (processes : List (ℤ × ℤ))
    (snapshots : List (ℤ × Snapshot)) (hmem : handle ∈ openHandles s.log)
    (htables : processes.map Prod.fst ++ snapshots.map Prod.fst
      = (s.processes.map Prod.fst ++ s.snapshots.map Prod.fst).filter (· != handle)) :
    Coherent { s.note (.close handle) with processes := processes, snapshots := snapshots } := by
  have hsub : (openHandles (s.log ++ [.close handle])).Sublist (openHandles s.log) := by
    rw [openHandles_snoc]
    exact List.filter_sublist
  exact
    { h.toSessions.note (a := .close handle) ⟨_, Or.inr rfl⟩ with
      nextHandle := h.nextHandle
      handles := by simpa [Server.note, issuedBy] using h.handles
      distinct := by simpa [Server.note, issuedBy] using h.distinct
      opened := by
        simp only [Server.note, openHandles_snoc, openAfter, htables]
        exact h.opened.filter _
      openIssued := by
        intro b hb
        simp only [Server.note, issued_snoc, issuedBy, Option.toList_none, List.append_nil]
        exact h.openIssued b (hsub.subset hb)
      openDistinct := h.openDistinct.sublist hsub
      openFew := Nat.le_trans hsub.length_le h.openFew
      allowed := always_snoc.mpr ⟨h.allowed, hmem⟩ }

theorem coherent_make (h : Coherent s) (hidle : s.dbg = none) (handle : ℤ)
    (hqueue : s.dbgQueue = []) :
    Coherent { s.note (.start s.made handle) with
      debugHandle := handle, dbg := some s.made, made := s.made + 1 } := by
  have hfresh : ∀ a ∈ s.log, a.session ≠ some s.made := fun a ha hk =>
    absurd (h.numbers a ha _ hk) (Nat.lt_irrefl _)
  have hnone := h.session
  rw [hidle] at hnone
  have hpush : pushed s.made s.log = [] := by
    refine List.filterMap_eq_nil_iff.mpr fun a ha => ?_
    have := hfresh a ha
    cases a <;> simp_all [pushedBy, Action.session]
  have hdeliver : delivered s.made s.log = [] := by
    refine List.filterMap_eq_nil_iff.mpr fun a ha => ?_
    have := hfresh a ha
    cases a <;> simp_all [deliveredBy, Action.session]
  exact
    { h.toHandles.note (a := .start s.made handle) rfl fun _ => rfl with
      session := by simp [Server.note, debuggedAfter]
      stop := by simp [Server.note, unansweredAfter, h.idle hidle]
      queue := by
        intro k hk
        cases hk
        simp [Server.note, pushedBy, deliveredBy, hpush, hdeliver, hqueue]
      order := by simpa [Server.note, pushedBy, deliveredBy] using h.order
      count := by simpa [Server.note, continuedBy, deliveredBy] using h.count
      waiting := fun _ _ hstop => absurd (h.idle hidle) hstop
      idle := by simp
      numbers := by
        intro b hb k hk
        rcases List.mem_append.mp hb with hb | hb
        · exact Nat.lt_succ_of_lt (h.numbers b hb k hk)
        · rw [List.mem_singleton.mp hb] at hk
          cases hk
          exact Nat.lt_succ_self _
      number := by
        intro k hk
        cases hk
        exact Nat.lt_succ_self _
      allowed := always_snoc.mpr ⟨h.allowed, hnone, hfresh⟩ }

/-- The call inside of `STARTDEBUG`. -/
theorem coherent_resume (h : Coherent s) {k : ℕ} (hk : s.dbg = some k)
    (hfirst : .resume k ∉ s.log) : Coherent (s.note (.resume k)) where
  toHandles := h.toHandles.note rfl fun _ => rfl
  session := by simpa [Server.note, debuggedAfter] using h.session
  stop := by simpa [Server.note, unansweredAfter] using h.stop
  queue := by simpa [Server.note, pushedBy, deliveredBy] using h.queue
  order := by simpa [Server.note, pushedBy, deliveredBy] using h.order
  count := by simpa [Server.note, continuedBy, deliveredBy] using h.count
  waiting := by simpa [Server.note, continuedBy, deliveredBy] using h.waiting
  idle := h.idle
  numbers := h.numbers_note hk fun k' hk' => (Option.some.inj hk').symm
  number := h.number
  allowed := always_snoc.mpr ⟨h.allowed, ⟨s.debugHandle, h.debugged_eq hk⟩, hfirst⟩

theorem coherent_deliver (h : Coherent s) {k : ℕ} (hk : s.dbg = some k) {r : DebugEventRec}
    {queue : List DebugEventRec} (hqueue : s.dbgQueue = r :: queue) :
    Coherent { s.note (.deliver k r) with dbgQueue := queue, deliveredStop := some r.tid } := by
  have hnext : pushed k s.log = delivered k s.log ++ [r] ++ queue := by
    rw [h.queue k hk, hqueue, List.append_assoc]
    rfl
  exact
    { h.toHandles.note (a := .deliver k r) rfl fun _ => rfl with
      session := by simp [Server.note, debuggedAfter, h.session]
      stop := by simp [Server.note, unansweredAfter]
      queue := by
        intro k' hk'
        have hsame : k = k' := Option.some.inj (hk.symm.trans hk')
        subst hsame
        simpa [Server.note, pushedBy, deliveredBy] using hnext
      order := by
        intro k'
        simp only [Server.note, pushed_snoc, pushedBy, Option.toList_none, List.append_nil,
          delivered_snoc, deliveredBy]
        split
        · next hsame =>
          subst hsame
          rw [hnext]
          exact List.prefix_append _ _
        · simpa using h.order k'
      count := by
        intro k'
        have := h.count k'
        simp only [Server.note, continues_snoc, continuedBy, Option.toList_none, List.append_nil,
          delivered_snoc, List.length_append]
        omega
      waiting := by
        intro k' hk' _
        have hsame : k = k' := Option.some.inj (hk.symm.trans hk')
        subst hsame
        have := h.count k
        simp [Server.note, continuedBy, deliveredBy]
        omega
      idle := fun hnone => absurd (hk.symm.trans hnone) (by simp)
      numbers := h.numbers_note hk fun k' hk' => (Option.some.inj hk').symm
      number := h.number
      allowed := always_snoc.mpr ⟨h.allowed, ⟨s.debugHandle, h.debugged_eq hk⟩,
        ⟨queue, hnext.symm⟩⟩ }

theorem coherent_continue (h : Coherent s) {k : ℕ} (hk : s.dbg = some k) {tid : ℤ}
    (hstop : s.deliveredStop = some tid) :
    Coherent { s.note (.continue s.debugHandle tid (some k) 1) with deliveredStop := none } := by
  have hresumable : Resumable s.log s.debugHandle tid k := h.resumable_iff.mpr ⟨hk, rfl, hstop⟩
  exact
    { h.toHandles.note (a := .continue s.debugHandle tid (some k) 1) rfl fun _ => rfl with
      session := by simp [Server.note, debuggedAfter, h.session]
      stop := by simp [Server.note, unansweredAfter]
      queue := by simpa [Server.note, pushedBy, deliveredBy] using h.queue
      order := by simpa [Server.note, pushedBy, deliveredBy] using h.order
      count := by
        intro k'
        simp only [Server.note, continues_snoc, continuedBy, delivered_snoc, deliveredBy,
          Option.toList_none, List.append_nil, List.length_append, Option.some.injEq]
        split
        · next hsame =>
          subst hsame
          exact h.waiting k hk (by simp [hstop])
        · exact h.count k'
      waiting := by simp
      idle := by simp
      numbers := h.numbers_note hk fun k' hk' => (Option.some.inj hk').symm
      number := h.number
      allowed := always_snoc.mpr ⟨h.allowed, Or.inl ⟨k, hresumable, rfl, rfl⟩⟩ }

theorem coherent_refuse (h : Coherent s) {handle tid : ℤ}
    (hno : ¬ (s.dbg.isSome ∧ handle = s.debugHandle ∧ s.deliveredStop = some tid)) :
    Coherent (s.note (.continue handle tid none 0)) where
  toHandles := h.toHandles.note rfl fun _ => rfl
  session := by simpa [Server.note, debuggedAfter] using h.session
  stop := by simpa [Server.note, unansweredAfter] using h.stop
  queue := by simpa [Server.note, pushedBy, deliveredBy] using h.queue
  order := by simpa [Server.note, pushedBy, deliveredBy] using h.order
  count := by simpa [Server.note, continuedBy, deliveredBy] using h.count
  waiting := by simpa [Server.note, continuedBy, deliveredBy] using h.waiting
  idle := h.idle
  numbers := by
    intro b hb k hk
    rcases List.mem_append.mp hb with hb | hb
    · exact h.numbers b hb k hk
    · rw [List.mem_singleton.mp hb] at hk
      cases hk
  number := h.number
  allowed := by
    refine always_snoc.mpr ⟨h.allowed, Or.inr ⟨fun k hres => hno ?_, rfl, rfl⟩⟩
    obtain ⟨hk, hhandle, hstop⟩ := h.resumable_iff.mp hres
    exact ⟨by simp [hk], hhandle.symm, hstop⟩

/-! ### Commands and runs -/

theorem stopDebug_idle (late : List DebugEvent) (s : Server) :
    (stopDebug late s).dbg = none ∧ (stopDebug late s).dbgQueue = [] := ⟨rfl, rfl⟩

theorem onEvent_frame (s : Server) (e : DebugEvent) : (onEvent s e).dbg = s.dbg ∧
    ∀ k, .resume k ∈ (onEvent s e).log → .resume k ∈ s.log := by
  unfold onEvent
  split
  · refine ⟨rfl, fun k hmem => ?_⟩
    simpa [Server.note] using hmem
  · exact ⟨rfl, fun _ h => h⟩

theorem events_frame (events : List DebugEvent) (s : Server) :
    (events.foldl onEvent s).dbg = s.dbg ∧
      ∀ k, .resume k ∈ (events.foldl onEvent s).log → .resume k ∈ s.log := by
  refine foldl_invariant (I := fun t : Server => t.dbg = s.dbg ∧
    ∀ k, Action.resume k ∈ t.log → Action.resume k ∈ s.log) (fun t e ht => ?_) events
    ⟨rfl, fun _ h => h⟩
  obtain ⟨hdbg, hlog⟩ := onEvent_frame t e
  exact ⟨hdbg.trans ht.1, fun k hmem => ht.2 k (hlog k hmem)⟩

/-- `STARTDEBUG` after the old session is gone. -/
theorem coherent_startDebug (h : Coherent s) (handle : ℤ) (w : World) :
    Coherent (command (.startDebug handle) w s) := by
  have hstopped := coherent_stopDebug h w.late
  obtain ⟨hidle, hqueue⟩ := stopDebug_idle w.late s
  unfold command
  dsimp only
  generalize stopDebug w.late s = s at hstopped hidle hqueue ⊢
  split
  · have hmade := coherent_make hstopped hidle handle hqueue
    have hearly := coherent_events hmade w.early
    obtain ⟨hdbg, hlog⟩ := events_frame w.early { s.note (.start s.made handle) with
      debugHandle := handle, dbg := some s.made, made := s.made + 1 }
    generalize w.early.foldl onEvent _ = t at hearly hdbg hlog ⊢
    split
    · rw [hdbg]
      refine coherent_resume hearly hdbg fun hmem => ?_
      have hold := hlog _ hmem
      simp only [Server.note, List.mem_append, List.mem_singleton, reduceCtorEq, or_false] at hold
      exact absurd (hstopped.numbers _ hold _ rfl) (Nat.lt_irrefl _)
    · exact coherent_stopDebug hearly w.failed
  · exact hstopped

theorem coherent_openProcess (h : Coherent s) (pid : ℤ) (w : World) :
    Coherent (command (.openProcess pid) w s) := by
  unfold command
  dsimp only
  split
  · rcases takeHandle_cases s with htake | ⟨hmax, hfew, htake⟩
    · rw [htake]
      exact h
    · rw [htake]
      have hpos := h.nextHandle
      rw [if_neg (by simp only; omega)]
      refine coherent_issue h hmax hfew (s.processes ++ [(s.nextHandle, pid)]) s.snapshots ?_
      simp only [List.map_append, List.map_cons, List.map_nil, List.append_assoc,
        List.singleton_append]
      exact List.perm_middle
  · exact h

theorem coherent_snapshot (h : Coherent s) (flags : UInt32) (w : World) :
    Coherent (snapshot flags w s) := by
  unfold snapshot
  split
  · rcases takeHandle_cases s with htake | ⟨hmax, hfew, htake⟩
    · rw [htake]
      exact h
    · rw [htake]
      have hpos := h.nextHandle
      dsimp only
      rw [if_neg (by omega)]
      refine coherent_issue h hmax hfew s.processes (s.snapshots ++ [(s.nextHandle, _)]) ?_
      rw [List.map_append, List.map_singleton, ← List.append_assoc]
      exact List.perm_append_singleton _ _
  · exact h

theorem coherent_closeHandle (h : Coherent s) (handle : ℤ) (w : World) :
    Coherent (command (.closeHandle handle) w s) := by
  have hstopped : Coherent (if handle = s.debugHandle then stopDebug w.late s else s) := by
    split
    · exact coherent_stopDebug h w.late
    · exact h
  unfold command
  dsimp only
  generalize (if handle = s.debugHandle then stopDebug w.late s else s) = s at hstopped ⊢
  have hdistinct := hstopped.opened.nodup_iff.mp hstopped.openDistinct
  rw [List.nodup_append] at hdistinct
  have hkeys : ∀ {β : Type} (l : List (ℤ × β)),
      (l.filter (·.1 != handle)).map Prod.fst = (l.map Prod.fst).filter (· != handle) := by
    intro β l
    rw [List.filter_map]
    rfl
  split
  · next hmem =>
    obtain ⟨p, hp, heq⟩ := List.any_eq_true.mp hmem
    have hkey : handle ∈ s.processes.map Prod.fst :=
      List.mem_map.mpr ⟨p, hp, by simpa using heq⟩
    refine coherent_close hstopped _ _
      (hstopped.opened.mem_iff.mpr (List.mem_append_left _ hkey)) ?_
    rw [List.filter_append, hkeys]
    congr 1
    refine (List.filter_eq_self.mpr fun b hb => ?_).symm
    simpa using fun heq => hdistinct.2.2 handle hkey b hb heq.symm
  · next hno =>
    split
    · next hmem =>
      obtain ⟨p, hp, heq⟩ := List.any_eq_true.mp hmem
      have hkey : handle ∈ s.snapshots.map Prod.fst :=
        List.mem_map.mpr ⟨p, hp, by simpa using heq⟩
      refine coherent_close hstopped _ _
        (hstopped.opened.mem_iff.mpr (List.mem_append_right _ hkey)) ?_
      rw [List.filter_append, hkeys]
      congr 1
      refine (List.filter_eq_self.mpr fun b hb => ?_).symm
      simpa using fun heq => hdistinct.2.2 b hb handle hkey heq
    · exact hstopped

theorem coherent_command (h : Coherent s) (c : Command) (w : World) : Coherent (command c w s) := by
  cases c with
  | openProcess pid => exact coherent_openProcess h pid w
  | closeHandle handle => exact coherent_closeHandle h handle w
  | createToolhelp32Snapshot flags pid => exact coherent_snapshot h flags w
  | createToolhelp32SnapshotEx flags pid =>
    rw [command]
    split
    · exact h
    · exact coherent_snapshot h flags w
  | entry32 modules first handle =>
    have hkeys : (s.snapshots.map fun p =>
        if p.1 = handle then (p.1, p.2.advance modules first) else p).map Prod.fst
          = s.snapshots.map Prod.fst := by
      rw [List.map_map]
      refine List.map_congr_left fun p _ => ?_
      simp only [Function.comp_apply]
      split <;> rfl
    refine { h with opened := ?_ }
    rw [command]
    simp only [hkeys]
    exact h.opened
  | startDebug handle => exact coherent_startDebug h handle w
  | stopDebug handle =>
    rw [command]
    split
    · exact coherent_stopDebug h w.late
    · exact h
  | setBreakpoint handle tid debugReg address bpType bpSize =>
    rw [command]
    unfold removeSlot
    split
    · split
      · split
        · exact h
        · split <;> exact { h with }
      · exact h
    · exact h
  | removeBreakpoint handle tid debugReg wasWatchpoint =>
    rw [command]
    unfold removeSlot
    split
    · split
      · split
        · exact { h with }
        · exact h
      · exact h
    · exact h
  | waitForDebugEvent handle timeoutMs =>
    rw [command]
    split
    · next k r queue hk hqueue =>
      split
      · exact coherent_deliver h hk hqueue
      · exact h
    · exact h
  | continueFromDebugEvent handle tid sig =>
    rw [command]
    split
    · next k hk =>
      split
      · next hyes =>
        rw [hyes.1]
        exact coherent_continue h hk hyes.2
      · next hno => exact coherent_refuse h fun hyes => hno hyes.2
    · next hnone => exact coherent_refuse h fun hyes => by simp [hnone] at hyes
  | other => exact h

theorem coherent_step (h : Coherent s) (i : Input) : Coherent (step s i) := by
  cases i with
  | event e => exact coherent_onEvent h e
  | command c w => exact coherent_command h c w

theorem coherent_serveClient (inputs : List Input) : Coherent (serveClient inputs) :=
  foldl_invariant (I := Coherent) (fun _ i h => coherent_step h i) inputs coherent_start

/-- Over every interleaving of the client's commands, whatever handles and threads they name, and
of the stops the tracer reports. -/
theorem serveClient_contract (inputs : List Input) :
    Always Allowed (serveClient inputs).log ∧
    (∀ k, delivered k (serveClient inputs).log <+: pushed k (serveClient inputs).log) ∧
    (∀ k, (continues k (serveClient inputs).log).length
      ≤ (delivered k (serveClient inputs).log).length) ∧
    (issued (serveClient inputs).log).Nodup ∧
    (∀ handle ∈ issued (serveClient inputs).log, 1 ≤ handle ∧ handle ≤ 2 ^ 24 - 1) ∧
    ((serveClient inputs).processes.map Prod.fst
      ++ (serveClient inputs).snapshots.map Prod.fst).Perm (openHandles (serveClient inputs).log) ∧
    (openHandles (serveClient inputs).log).length ≤ 256 := by
  have h := coherent_serveClient inputs
  exact ⟨h.allowed, h.order, h.count, h.distinct,
    fun handle hmem => ⟨(h.handles handle hmem).1, (h.handles handle hmem).2.2⟩,
    h.opened.symm, h.openFew⟩

end CheatEngine.Ceserver
