import Mathlib.Data.List.Basic

/-!
# What a step leaves alone, whatever comes of it

Rules for stateful code that may stop early: a relation `R` between the state before and the
state after is shown for each step once, and holds of a whole run because it is reflexive and
transitive. An invariant `I` is the relation `fun s s' => I s → I s'`.

* `Moves R m`: the relation for a computation in `StateM`.
* `Within R f`: the relation for a stage that goes on or stops, in both cases with a state.
* `Proceeds R f`: the relation for a stage that goes on.

* `Along P f xs s`: a condition that every step of a loop meets where the loop comes to it.

* **PROVED `Moves.bind`, `Within.bind`, `Within.foldlM`**: sequences and loops.
* **PROVED `Along.invariant`**: an invariant of the steps that meet the condition.
-/

namespace Stages

variable {σ α β : Type}

/-- A reflexive and transitive relation between states. -/
structure Frame (R : σ → σ → Prop) : Prop where
  refl : ∀ s, R s s
  trans : ∀ {a b c}, R a b → R b c → R a c

section moves

variable {R : σ → σ → Prop}

theorem bind_apply (m : StateM σ α) (f : α → StateM σ β) (s : σ) :
    (m >>= f) s = f (m s).1 (m s).2 := rfl

theorem pure_apply (x : α) (s : σ) : (pure x : StateM σ α) s = (x, s) := rfl

/-- Whatever the computation finds, its state moves within `R`. -/
def Moves (R : σ → σ → Prop) (m : StateM σ α) : Prop :=
  ∀ s, R s (m s).2

theorem Moves.pure (hR : Frame R) (x : α) : Moves R (pure x : StateM σ α) :=
  fun s => hR.refl s

theorem Moves.bind (hR : Frame R) {m : StateM σ α} {f : α → StateM σ β} (hm : Moves R m)
    (hf : ∀ x, Moves R (f x)) : Moves R (m >>= f) :=
  fun s => hR.trans (hm s) (hf (m s).1 (m s).2)

theorem Moves.ite {p : Prop} [Decidable p] {m n : StateM σ α} (hm : Moves R m) (hn : Moves R n) :
    Moves R (if p then m else n) := by
  split
  · exact hm
  · exact hn

end moves

section stages

variable {R : σ → σ → Prop}

/-- The state a stage ends in, whether it goes on or stops. -/
def outcome : Except σ σ → σ
  | .ok s => s
  | .error s => s

/-- However the stage ends, its state moves within `R`. -/
def Within (R : σ → σ → Prop) (f : σ → Except σ σ) : Prop :=
  ∀ s, R s (outcome (f s))

theorem Within.ok (hR : Frame R) : Within R .ok :=
  fun s => hR.refl s

theorem Within.bind (hR : Frame R) {f g : σ → Except σ σ} (hf : Within R f) (hg : Within R g) :
    Within R fun s => f s >>= g := by
  intro s
  have hs := hf s
  change R s (outcome (f s >>= g))
  cases hfs : f s with
  | error s' =>
    rw [hfs] at hs
    exact hs
  | ok s' =>
    rw [hfs] at hs
    exact hR.trans hs (hg s')

theorem Within.foldlM (hR : Frame R) {f : α → σ → Except σ σ} (xs : List α)
    (hf : ∀ x ∈ xs, Within R (f x)) : Within R fun s => xs.foldlM (fun s x => f x s) s := by
  induction xs with
  | nil => exact Within.ok hR
  | cons x xs ih =>
    intro s
    beta_reduce
    rw [List.foldlM_cons]
    exact Within.bind hR (hf x List.mem_cons_self)
      (ih fun y hy => hf y (List.mem_cons_of_mem _ hy)) s

/-- Where the stage goes on, its state has moved within `R`. -/
def Proceeds (R : σ → σ → Prop) (f : σ → Except σ σ) : Prop :=
  ∀ s s', f s = .ok s' → R s s'

theorem Proceeds.bind (hR : Frame R) {f g : σ → Except σ σ} (hf : Proceeds R f)
    (hg : Proceeds R g) : Proceeds R fun s => f s >>= g := by
  intro s s' h
  cases hfs : f s with
  | error s₁ =>
    simp only [hfs] at h
    cases h
  | ok s₁ =>
    simp only [hfs] at h
    exact hR.trans (hf s s₁ hfs) (hg s₁ s' h)

theorem Proceeds.foldlM (hR : Frame R) {f : α → σ → Except σ σ} (xs : List α)
    (hf : ∀ x, Proceeds R (f x)) : Proceeds R fun s => xs.foldlM (fun s x => f x s) s := by
  induction xs with
  | nil =>
    intro s s' h
    cases h
    exact hR.refl s
  | cons x xs ih =>
    intro s s' h
    beta_reduce at h
    rw [List.foldlM_cons] at h
    exact Proceeds.bind hR (hf x) ih s s' h

/-- A loop that stops, stops at one of its steps. -/
theorem foldlM_eq_error {f : σ → α → Except σ σ} {xs : List α} {s s' : σ}
    (h : xs.foldlM f s = .error s') :
    ∃ pre x post s₁, xs = pre ++ x :: post ∧ pre.foldlM f s = .ok s₁ ∧ f s₁ x = .error s' := by
  induction xs generalizing s with
  | nil => cases h
  | cons x xs ih =>
    rw [List.foldlM_cons] at h
    cases hx : f s x with
    | error s₁ =>
      rw [hx] at h
      cases h
      exact ⟨[], x, xs, s, rfl, rfl, hx⟩
    | ok s₁ =>
      rw [hx] at h
      obtain ⟨pre, y, post, s₂, rfl, hpre, hy⟩ := ih h
      refine ⟨x :: pre, y, post, s₂, rfl, ?_, hy⟩
      rw [List.foldlM_cons, hx]
      exact hpre

/-- The condition holds before every step that the loop comes to. -/
def Along (P : α → σ → Prop) (f : α → σ → Except σ σ) : List α → σ → Prop
  | [], _ => True
  | x :: xs, s => P x s ∧ ∀ s', f x s = .ok s' → Along P f xs s'

theorem Along.invariant {P : α → σ → Prop} {f : α → σ → Except σ σ} {I : σ → Prop}
    {xs : List α} {s : σ} (h : Along P f xs s)
    (hstep : ∀ x ∈ xs, ∀ s, I s → P x s → I (outcome (f x s))) (hs : I s) :
    I (outcome (xs.foldlM (fun s x => f x s) s)) := by
  induction xs generalizing s with
  | nil => exact hs
  | cons x xs ih =>
    obtain ⟨hx, hrest⟩ := h
    have hnext := hstep x List.mem_cons_self s hs hx
    rw [List.foldlM_cons]
    cases hfs : f x s with
    | error s' =>
      rw [hfs] at hnext
      exact hnext
    | ok s' =>
      rw [hfs] at hnext
      exact ih (hrest s' hfs) (fun y hy => hstep y (List.mem_cons_of_mem _ hy)) hnext

end stages

end Stages
