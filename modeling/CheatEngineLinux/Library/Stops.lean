import Mathlib.Data.List.Basic

/-!
# Stateful programs that may stop early

A program goes on with a value or stops with a reason, in both cases in a state.

* `Ends m s A E`: from `s` the program `m` goes on with a value and a state in `A`, or stops with a
  reason and a state in `E`.
* `pieces`: a range cut into pieces, the last one shorter.

* **PROVED `Ends.bind`, `Ends.attempt`, `Ends.mono`**: the rules of pre- and postconditions.
* **PROVED `Ends.forM`**: a loop over pieces, with an invariant at each border.
* **PROVED `tiles_pieces`**: the pieces follow one another and make up the range.
-/

namespace Stops

/-- A program over states `σ` that may stop for a reason in `ε`. -/
abbrev Program (ε σ : Type) := ExceptT ε (StateM σ)

variable {ε σ α β : Type} {s : σ} {A A' : α → σ → Prop} {E E' : ε → σ → Prop}

/-- How the program ends from a state. -/
def finish (m : Program ε σ α) (s : σ) : Except ε α × σ :=
  m s

/-- The program goes on within `A`, or it stops within `E`. -/
def Ends (m : Program ε σ α) (s : σ) (A : α → σ → Prop) (E : ε → σ → Prop) : Prop :=
  match finish m s with
  | (.ok x, s') => A x s'
  | (.error e, s') => E e s'

/-- Run a program and go on with how it ended. -/
def attempt (m : Program ε σ α) : Program ε σ (Except ε α) := fun s =>
  (.ok (finish m s).1, (finish m s).2)

/-- A computation that does not stop. -/
def call (m : StateM σ α) : Program ε σ α := fun s => (.ok (m s).1, (m s).2)

/-! ### Rules -/

theorem finish_bind (m : Program ε σ α) (f : α → Program ε σ β) (s : σ) :
    finish (m >>= f) s = match finish m s with
      | (.ok x, s') => finish (f x) s'
      | (.error e, s') => (.error e, s') := by
  change (ExceptT.bind m f) s = _
  unfold finish
  change (match (m s).1 with
    | .ok x => f x
    | .error e => pure (Except.error e) : StateM σ (Except ε β)) (m s).2 = _
  rcases hm : m s with ⟨_ | _, s'⟩ <;> rfl

theorem Ends.pure {x : α} (h : A x s) : Ends (pure x : Program ε σ α) s A E := h

theorem Ends.stop {e : ε} (h : E e s) : Ends (throw e : Program ε σ α) s A E := h

theorem Ends.get {A : σ → σ → Prop} (h : A s s) : Ends (get : Program ε σ σ) s A E := h

theorem Ends.modify {f : σ → σ} {A : Unit → σ → Prop} (h : A () (f s)) :
    Ends (modify f : Program ε σ Unit) s A E := h

theorem Ends.set {s' : σ} {A : Unit → σ → Prop} (h : A () s') :
    Ends (set s' : Program ε σ Unit) s A E := h

theorem Ends.call {m : StateM σ α} (h : A (m s).1 (m s).2) :
    Ends (call m : Program ε σ α) s A E := h

theorem Ends.bind {m : Program ε σ α} {f : α → Program ε σ β} {B : β → σ → Prop}
    (h : Ends m s (fun x s' => Ends (f x) s' B E) E) : Ends (m >>= f) s B E := by
  unfold Ends at h ⊢
  rw [finish_bind]
  rcases hm : finish m s with ⟨_ | _, s'⟩ <;> rw [hm] at h <;> exact h

theorem Ends.mono {m : Program ε σ α} (h : Ends m s A E) (hA : ∀ x s', A x s' → A' x s')
    (hE : ∀ e s', E e s' → E' e s') : Ends m s A' E' := by
  unfold Ends at h ⊢
  rcases hm : finish m s with ⟨_ | _, s'⟩ <;> rw [hm] at h
  · exact hE _ _ h
  · exact hA _ _ h

/-- A result that is not used. -/
theorem Ends.discard {m : Program ε σ α} {A : σ → Prop} (h : Ends m s (fun _ s' => A s') E) :
    Ends (Functor.discard m) s (fun _ s' => A s') E := by
  unfold Ends at h ⊢
  have hdiscard : finish (Functor.discard m : Program ε σ PUnit) s = match finish m s with
      | (.ok _, s') => (.ok PUnit.unit, s')
      | (.error e, s') => (.error e, s') := by
    unfold finish
    change (match (m s).1 with
      | .ok _ => Pure.pure (Except.ok PUnit.unit)
      | .error e => Pure.pure (Except.error e) : StateM σ (Except ε PUnit)) (m s).2 = _
    rcases m s with ⟨_ | _, s'⟩ <;> rfl
  rw [hdiscard]
  rcases hm : finish m s with ⟨_ | _, s'⟩ <;> rw [hm] at h <;> exact h

theorem Ends.trivial (m : Program ε σ α) (s : σ) : Ends m s (fun _ _ => True) fun _ _ => True := by
  unfold Ends
  split <;> exact True.intro

theorem Ends.and {m : Program ε σ α} (h : Ends m s A E) (h' : Ends m s A' E') :
    Ends m s (fun x s' => A x s' ∧ A' x s') fun e s' => E e s' ∧ E' e s' := by
  unfold Ends at h h' ⊢
  rcases hm : finish m s with ⟨_ | _, s'⟩ <;> rw [hm] at h h' <;> exact ⟨h, h'⟩

theorem Ends.ite {p : Prop} [Decidable p] {m n : Program ε σ α} (hm : p → Ends m s A E)
    (hn : ¬p → Ends n s A E) : Ends (if p then m else n) s A E := by
  split
  · exact hm ‹_›
  · exact hn ‹_›

theorem Ends.attempt {m : Program ε σ α} {A : Except ε α → σ → Prop}
    (h : Ends m s (fun x s' => A (.ok x) s') fun e s' => A (.error e) s') :
    Ends (attempt m) s A E := by
  unfold Ends at h ⊢
  change A (finish m s).1 (finish m s).2
  rcases hm : finish m s with ⟨_ | _, s'⟩ <;> rw [hm] at h <;> exact h

theorem Ends.state {m : Program ε σ α} {P : σ → Prop}
    (h : Ends m s (fun _ s' => P s') fun _ s' => P s') : P (finish m s).2 := by
  unfold Ends at h
  rcases hm : finish m s with ⟨_ | _, s'⟩ <;> rw [hm] at h <;> exact h

theorem Ends.of_ok {m : Program ε σ α} (h : Ends m s A E) {x : α} {s' : σ}
    (hm : finish m s = (.ok x, s')) : A x s' := by
  unfold Ends at h
  rw [hm] at h
  exact h

/-- The pieces, given as offset and size, follow one another from `first` to `last`. -/
inductive Tiles : ℕ → ℕ → List (ℕ × ℕ) → Prop
  | nil (n : ℕ) : Tiles n n []
  | cons {offset count last : ℕ} {rest : List (ℕ × ℕ)} (hcount : 0 < count)
      (h : Tiles (offset + count) last rest) : Tiles offset last ((offset, count) :: rest)

theorem Tiles.le {first last : ℕ} {tiles : List (ℕ × ℕ)} (h : Tiles first last tiles) :
    first ≤ last := by
  induction h with
  | nil => exact Nat.le_refl _
  | cons hcount _ ih => omega

/-- `for (offset = …; offset < size; offset += count)` with `count = min(chunk, size - offset)`, in
at most so many turns. -/
def piecesFrom (chunk size : ℕ) : ℕ → ℕ → List (ℕ × ℕ)
  | 0, _ => []
  | turns + 1, offset =>
    if offset < size then
      (offset, min chunk (size - offset)) ::
        piecesFrom chunk size turns (offset + min chunk (size - offset))
    else []

/-- A piece has at least a byte, so that `size` turns are enough. -/
def pieces (chunk size : ℕ) : List (ℕ × ℕ) :=
  piecesFrom chunk size size 0

theorem tiles_piecesFrom {chunk size : ℕ} (hchunk : 0 < chunk) (turns offset : ℕ)
    (hle : offset ≤ size) (hturns : size - offset ≤ turns) :
    Tiles offset size (piecesFrom chunk size turns offset) := by
  induction turns generalizing offset with
  | zero =>
    obtain rfl : offset = size := by omega
    exact .nil _
  | succ turns ih =>
    rw [piecesFrom]
    split
    · exact .cons (by omega) (ih _ (by omega) (by omega))
    · obtain rfl : offset = size := by omega
      exact .nil _

theorem tiles_pieces {chunk : ℕ} (hchunk : 0 < chunk) (size : ℕ) :
    Tiles 0 size (pieces chunk size) :=
  tiles_piecesFrom hchunk size 0 (Nat.zero_le _) (by omega)

/-- A loop over pieces: `I` holds at every border that the loop comes to. -/
theorem Ends.forM {I : ℕ → σ → Prop} {body : ℕ × ℕ → Program ε σ Unit} {first last : ℕ}
    {tiles : List (ℕ × ℕ)} (htiles : Tiles first last tiles)
    (hbody : ∀ offset count s, 0 < count → offset + count ≤ last → I offset s →
      Ends (body (offset, count)) s (fun _ s' => I (offset + count) s') E)
    (hs : I first s) : Ends (tiles.forM body) s (fun _ s' => I last s') E := by
  induction htiles generalizing s with
  | nil => exact Ends.pure hs
  | @cons offset count _ rest hcount h ih =>
    change Ends (body (offset, count) >>= fun _ => rest.forM body) s _ _
    refine Ends.bind ((hbody _ _ s hcount h.le hs).mono (fun _ s' hs' => ?_) fun _ _ h => h)
    exact ih (fun offset count s h₁ h₂ => hbody offset count s h₁ h₂) hs'

end Stops
