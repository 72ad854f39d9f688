import Mathlib.Data.List.Infix

/-!
# Histories

A machine that notes its actions in a history, the newest one last.  A contract says of each
action what may have come before it.

* `Always P log`: every action of the history stands where `P` allows it.
* `always_snoc`: the contract one action at a time.
* `foldl_invariant`: what every input preserves holds after every sequence of inputs.
-/

namespace History

variable {σ ι α : Type*}

/-- Every action stands after a history that `P` allows for it. -/
def Always (P : List α → α → Prop) (log : List α) : Prop :=
  ∀ pre a post, log = pre ++ a :: post → P pre a

theorem Always.nil (P : List α → α → Prop) : Always P [] := by
  intro pre a post h
  simp at h

theorem always_snoc {P : List α → α → Prop} {log : List α} {a : α} :
    Always P (log ++ [a]) ↔ Always P log ∧ P log a := by
  refine ⟨fun h => ⟨?_, h log a [] rfl⟩, ?_⟩
  · rintro pre b post rfl
    exact h pre b (post ++ [a]) (List.append_assoc pre (b :: post) [a])
  · rintro ⟨hlog, ha⟩ pre b post heq
    -- the action is the new one, or stands in the old history
    rcases List.append_eq_append_iff.mp heq with ⟨as, rfl, hsplit⟩ | ⟨bs, rfl, hsplit⟩
    · rcases List.append_eq_singleton_iff.mp hsplit.symm with ⟨rfl, hb⟩ | ⟨-, hb⟩
      · cases hb
        rwa [List.append_nil]
      · cases hb
    · cases bs with
      | nil =>
        cases hsplit
        rwa [List.append_nil] at ha
      | cons c bs =>
        cases hsplit
        exact hlog pre b bs rfl

theorem foldl_invariant {I : σ → Prop} {step : σ → ι → σ} (hstep : ∀ s i, I s → I (step s i))
    (inputs : List ι) {s : σ} (hs : I s) : I (inputs.foldl step s) := by
  induction inputs generalizing s with
  | nil => exact hs
  | cons i inputs ih => exact ih (hstep s i hs)

end History
