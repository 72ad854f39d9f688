import CheatEngineLinux.Core.Expression
import CheatEngineLinux.Core.XmlText
import Mathlib.Data.List.Infix

/-!
# The process watcher

`ProcessWatcher::watchLoop` (`src/platform/linux/process_watcher.cpp`) lists `/proc` again and
again and reports the processes of a name.

* `poll`: one listing, and what is known after it.
* `Tracked`: a pid known since the start or a report, and seen by every complete listing since.
* **PROVED `watch_reports`**: a listing reports a pid exactly if it shows it under the name and the
  pid is not tracked; so there is one report for each life of a process.
-/

namespace CheatEngine.ProcessWatcher

open JsonGrammar (Bytes)
open CtFile (fromCharsInt)

/-- An entry of `/proc`: the first line of its `comm`, if it has one, and its `cmdline` up to the
first zero byte, which is empty where there is none. -/
structure Entry where
  name : Bytes
  comm : Option Bytes
  cmdline : Bytes

/-- A listing: the entries it came to, and whether it ended without an error. -/
structure Listing where
  entries : List Entry
  complete : Bool

def Entry.pid (e : Entry) : Option ℤ :=
  match fromCharsInt e.name with
  | some (pid, []) => some pid
  | _ => none

def lower (s : Bytes) : Bytes := s.map Expression.toLower

/-- What follows the last slash or backslash. -/
def program (cmdline : Bytes) : Bytes :=
  (cmdline.reverse.takeWhile fun b => b != 0x2f && b != 0x5c).reverse

def Entry.reportedName (target : Bytes) (e : Entry) : Option Bytes :=
  e.comm.filter fun comm => !comm.isEmpty && (decide (target <:+: lower comm)
    || (!(program e.cmdline).isEmpty && decide (target <:+: lower (program e.cmdline))))

structure Watch where
  known : List ℤ
  observed : List ℤ
  reported : List (ℤ × Bytes)

def visit (target : Bytes) (s : Watch) (e : Entry) : Watch :=
  match e.pid with
  | none => s
  | some pid =>
    let s := { s with observed := pid :: s.observed }
    if pid ∈ s.known then s
    else match e.reportedName target with
      | none => s
      | some comm =>
        { s with known := pid :: s.known, reported := s.reported ++ [(pid, comm)] }

def poll (target : Bytes) (known : List ℤ) (l : Listing) : List ℤ × List (ℤ × Bytes) :=
  let s := l.entries.foldl (visit target) ⟨known, [], []⟩
  (if l.complete then s.known.filter (· ∈ s.observed) else s.known, s.reported)

/-- What is known before each of the listings that follow the one of `start`. -/
def knownBefore (processName : Bytes) (start : Listing) (listings : ℕ → Listing) : ℕ → List ℤ
  | 0 => start.entries.filterMap Entry.pid
  | i + 1 =>
    (poll (lower processName) (knownBefore processName start listings i) (listings i)).1

def reports (processName : Bytes) (start : Listing) (listings : ℕ → Listing) (i : ℕ) :
    List (ℤ × Bytes) :=
  (poll (lower processName) (knownBefore processName start listings i) (listings i)).2

def Listing.Shows (l : Listing) (pid : ℤ) : Prop := pid ∈ l.entries.filterMap Entry.pid

/-- What the watch holds when it has come through the entries `es`. -/
structure Visited (target : Bytes) (known : List ℤ) (es : List Entry) (s : Watch) : Prop where
  observed : ∀ pid, pid ∈ s.observed ↔ ∃ e ∈ es, e.pid = some pid
  known_iff : ∀ pid, pid ∈ s.known ↔ pid ∈ known ∨ pid ∈ s.reported.map Prod.fst
  reported_iff : ∀ pid, pid ∈ s.reported.map Prod.fst ↔
    pid ∉ known ∧ ∃ e ∈ es, e.pid = some pid ∧ e.reportedName target ≠ none
  names : ∀ r ∈ s.reported, ∃ e ∈ es, e.pid = some r.1 ∧ e.reportedName target = some r.2
  once : (s.reported.map Prod.fst).Nodup

variable {target : Bytes} {known : List ℤ}

theorem Visited.step {es : List Entry} {s : Watch} (h : Visited target known es s) (e : Entry) :
    Visited target known (es ++ [e]) (visit target s e) := by
  obtain ⟨hobserved, hknown, hreported, hnames, honce⟩ := h
  unfold visit
  cases hpid : e.pid with
  | none => constructor <;> grind
  | some pid =>
    dsimp only
    split_ifs with hk
    · constructor <;> grind
    · cases hname : e.reportedName target with
      | none => constructor <;> grind
      | some comm => constructor <;> grind

theorem visits (target : Bytes) (known : List ℤ) (es : List Entry) :
    Visited target known es (es.foldl (visit target) ⟨known, [], []⟩) := by
  induction es using List.reverseRecOn with
  | nil => constructor <;> simp
  | append_singleton es e ih =>
    rw [List.foldl_concat]
    exact ih.step e

/-! ### Runs -/

variable (processName : Bytes) (start : Listing) (listings : ℕ → Listing)

/-- A listing shows the pid under the name that is watched. -/
def Wanted (i : ℕ) (pid : ℤ) : Prop :=
  ∃ e ∈ (listings i).entries, e.pid = some pid ∧ e.reportedName (lower processName) ≠ none

def Reported (i : ℕ) (pid : ℤ) : Prop :=
  pid ∈ (reports processName start listings i).map Prod.fst

/-- Known since the start or since a report, and missed by no complete listing from then on. -/
def Tracked (i : ℕ) (pid : ℤ) : Prop :=
  ∃ since ≤ i, (since = 0 ∧ start.Shows pid ∨ ∃ j, since = j + 1 ∧
      Reported processName start listings j pid) ∧
    ∀ k, since ≤ k → k < i → (listings k).complete = true → (listings k).Shows pid

variable {processName start listings} in
theorem Reported.shows {i : ℕ} {pid : ℤ} (h : Reported processName start listings i pid) :
    (listings i).Shows pid := by
  obtain ⟨-, e, he, hpid, -⟩ := ((visits _ _ _).reported_iff pid).mp h
  exact List.mem_filterMap.mpr ⟨e, he, hpid⟩

theorem mem_knownBefore_succ (i : ℕ) (pid : ℤ) :
    pid ∈ knownBefore processName start listings (i + 1) ↔
      (pid ∈ knownBefore processName start listings i ∨ Reported processName start listings i pid) ∧
        ((listings i).complete = true → (listings i).Shows pid) := by
  have hv := visits (lower processName) (knownBefore processName start listings i)
    (listings i).entries
  have hshows : (listings i).Shows pid ↔ ∃ e ∈ (listings i).entries, e.pid = some pid :=
    List.mem_filterMap
  rw [knownBefore, poll, Reported, reports, poll, hshows, ← hv.observed, ← hv.known_iff]
  split <;> simp_all

theorem tracked_iff (i : ℕ) (pid : ℤ) :
    Tracked processName start listings i pid ↔
      pid ∈ knownBefore processName start listings i := by
  induction i with
  | zero => simp [Tracked, knownBefore, Listing.Shows]
  | succ i ih =>
    rw [mem_knownBefore_succ, ← ih]
    constructor
    · intro ⟨since, hle, horigin, hkept⟩
      obtain hle | rfl := Nat.le_succ_iff.mp hle
      · exact ⟨Or.inl ⟨since, hle, horigin, fun k h hk => hkept k h (Nat.lt_succ_of_lt hk)⟩,
          hkept i hle i.lt_succ_self⟩
      · -- the origin is a report of the last listing
        obtain ⟨j, hj, hrep⟩ := horigin.resolve_left fun h => Nat.succ_ne_zero i h.1
        obtain rfl := Nat.succ.inj hj
        exact ⟨Or.inr hrep, fun _ => hrep.shows⟩
    · rintro ⟨⟨since, hle, horigin, hkept⟩ | hrep, hshows⟩
      · refine ⟨since, Nat.le_succ_of_le hle, horigin, fun k h hk => ?_⟩
        obtain hk | rfl := Nat.lt_succ_iff_lt_or_eq.mp hk
        · exact hkept k h hk
        · exact hshows
      · exact ⟨i + 1, Nat.le_refl _, Or.inr ⟨i, rfl, hrep⟩, fun k h hk => absurd hk h.not_gt⟩

/-- A listing reports a pid exactly where it shows it under the name and the pid is not tracked,
once, and under a name of its own. -/
theorem watch_reports (i : ℕ) :
    (∀ pid, Reported processName start listings i pid ↔
      Wanted processName listings i pid ∧ ¬ Tracked processName start listings i pid) ∧
    ((reports processName start listings i).map Prod.fst).Nodup ∧
    ∀ r ∈ reports processName start listings i, ∃ e ∈ (listings i).entries,
      e.pid = some r.1 ∧ e.reportedName (lower processName) = some r.2 := by
  have hv := visits (lower processName) (knownBefore processName start listings i)
    (listings i).entries
  refine ⟨fun pid => ?_, hv.once, hv.names⟩
  rw [tracked_iff, and_comm]
  exact hv.reported_iff pid

end CheatEngine.ProcessWatcher
