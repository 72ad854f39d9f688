import Mathlib.Tactic

/-!
# Rings and the streams in them

A ring holds the last part of a stream whose positions run on for ever, a position standing at its
remainder.  A stream is made of frames, each of which tells its length in its header.

* `window`: a part of the stream that is not longer than the ring.
* **PROVED `copy_eq_window`**: copying up to the end of the ring and on from its start.
* `Framing`, `Leading`: frames, and the frames that a stream begins with, as many as there are.
* **PROVED `frames_leading`**: taking off a frame while there is one finds these.
-/

namespace RingBuffer

variable {α : Type}

/-! ### Parts of the stream -/

/-- The part of the stream from `position` on. -/
def window (ring : List α) (position count : ℕ) : List α := (ring.rotate position).take count

section window

variable {ring : List α} {position count : ℕ}

@[simp] theorem window_length (h : count ≤ ring.length) :
    (window ring position count).length = count := by
  rw [window, List.length_take, List.length_rotate, Nat.min_eq_left h]

theorem window_take {k : ℕ} (hk : k ≤ count) :
    (window ring position count).take k = window ring position k := by
  rw [window, List.take_take, Nat.min_eq_left hk, window]

theorem window_drop {k : ℕ} (hk : k ≤ count) (h : count ≤ ring.length) :
    (window ring position count).drop k = window ring (position + k) (count - k) := by
  have hlength : k ≤ (ring.rotate position).length := by
    rw [List.length_rotate]
    omega
  have hrest : count - k ≤ ((ring.rotate position).drop k).length := by
    rw [List.length_drop, List.length_rotate]
    omega
  rw [window, window, List.drop_take, ← List.rotate_rotate,
    List.rotate_eq_drop_append_take hlength, List.take_append_of_le_length hrest]

/-- A part of a part. -/
theorem window_sub {k n : ℕ} (hk : k + n ≤ count) (h : count ≤ ring.length) :
    ((window ring position count).drop k).take n = window ring (position + k) n := by
  rw [window_drop (by omega) h, window_take (by omega)]

theorem window_mod {m : ℕ} (hm : ring.length ∣ m) :
    window ring (position % m) count = window ring position count := by
  rw [window, window, ← List.rotate_mod, Nat.mod_mod_of_dvd _ hm, List.rotate_mod]

theorem copy_eq_window (h : count ≤ ring.length) :
    (ring.drop (position % ring.length)).take
        (min count (ring.length - position % ring.length)) ++
      ring.take (count - min count (ring.length - position % ring.length)) =
        window ring position count := by
  have hlt : count = 0 ∨ position % ring.length < ring.length := by
    rcases Nat.eq_zero_or_pos ring.length with hzero | hpos
    · exact .inl (by omega)
    · exact .inr (Nat.mod_lt _ hpos)
  rw [window, List.rotate_eq_drop_append_take_mod, List.take_append, List.length_drop]
  congr 1
  · rcases Nat.le_total count (ring.length - position % ring.length) with hle | hle
    · rw [Nat.min_eq_left hle]
    · rw [Nat.min_eq_right hle, List.take_of_length_le (by rw [List.length_drop]),
        List.take_of_length_le (by rw [List.length_drop]; exact hle)]
  · rw [List.take_take]
    congr 1
    omega

end window

/-! ### Frames -/

/-- The header of a frame, and the length that a header tells. -/
structure Framing (α : Type) where
  header : ℕ
  size : List α → ℕ
  header_pos : 0 < header

namespace Framing

variable (f : Framing α)

/-- A whole frame: as long as its header says, and that is not less than the header. -/
structure IsFrame (r : List α) : Prop where
  header : f.header ≤ r.length
  size : f.size (r.take f.header) = r.length

/-- The frames at the front of a stream, as many as there are. -/
structure Leading (s : List α) (records : List (List α)) : Prop where
  splits : ∃ rest, s = records.flatten ++ rest
  isFrame : ∀ r ∈ records, f.IsFrame r
  longest : ∀ others rest, s = others.flatten ++ rest → (∀ r ∈ others, f.IsFrame r) →
    others <+: records

/-- Whether a frame begins here. -/
def Begins (s : List α) : Prop :=
  f.header ≤ s.length ∧ f.header ≤ f.size (s.take f.header) ∧ f.size (s.take f.header) ≤ s.length

instance (s : List α) : Decidable (f.Begins s) :=
  inferInstanceAs (Decidable (_ ∧ _ ∧ _))

def frames (s : List α) : List (List α) :=
  if _h : f.Begins s then
    s.take (f.size (s.take f.header)) :: frames (s.drop (f.size (s.take f.header)))
  else []
termination_by s.length
decreasing_by
  have hpos := f.header_pos
  obtain ⟨-, hmin, hmax⟩ : f.Begins s := ‹_›
  rw [List.length_drop]
  omega

variable {f}

theorem isFrame_take {s : List α} (h : f.Begins s) :
    f.IsFrame (s.take (f.size (s.take f.header))) := by
  obtain ⟨-, hmin, hmax⟩ := h
  constructor
  · rw [List.length_take]
    omega
  · rw [List.take_take, Nat.min_eq_left hmin, List.length_take, Nat.min_eq_left hmax]

theorem IsFrame.begins {r : List α} (h : f.IsFrame r) (rest : List α) :
    f.Begins (r ++ rest) ∧ f.size ((r ++ rest).take f.header) = r.length := by
  have hsize : f.size ((r ++ rest).take f.header) = r.length := by
    rw [List.take_append_of_le_length h.header, h.size]
  have hheader := h.header
  refine ⟨⟨?_, ?_, ?_⟩, hsize⟩
  · rw [List.length_append]
    omega
  · rw [hsize]
    exact hheader
  · rw [hsize, List.length_append]
    omega

/-- **The frames that are taken off** are all that the stream begins with. -/
theorem frames_leading (s : List α) : f.Leading s (f.frames s) := by
  induction hn : s.length using Nat.strong_induction_on generalizing s with
  | _ n ih =>
    subst hn
    rw [frames]
    split
    · rename_i hbegins
      obtain ⟨hheader, hmin, hmax⟩ := id hbegins
      have hpos := f.header_pos
      have hlt : (s.drop (f.size (s.take f.header))).length < s.length := by
        rw [List.length_drop]
        omega
      obtain ⟨⟨rest, hrest⟩, hframes, hlongest⟩ := ih _ hlt _ rfl
      refine ⟨⟨rest, ?_⟩, ?_, ?_⟩
      · rw [List.flatten_cons, List.append_assoc, ← hrest, List.take_append_drop]
      · exact List.forall_mem_cons.mpr ⟨isFrame_take hbegins, hframes⟩
      · intro others rest' hsplit hothers
        cases others with
        | nil => exact List.nil_prefix
        | cons r others =>
          rw [List.flatten_cons, List.append_assoc] at hsplit
          obtain ⟨-, hsize⟩ := (hothers r List.mem_cons_self).begins (others.flatten ++ rest')
          rw [← hsplit] at hsize
          have htake : s.take (f.size (s.take f.header)) = r := by
            rw [hsize, hsplit, List.take_left]
          have hdrop : s.drop (f.size (s.take f.header)) = others.flatten ++ rest' := by
            rw [hsize, hsplit, List.drop_left]
          rw [htake]
          exact List.prefix_cons_inj r |>.mpr
            (hlongest others rest' hdrop fun r hr => hothers r (List.mem_cons_of_mem _ hr))
    · rename_i hbegins
      refine ⟨⟨s, rfl⟩, by simp, fun others rest' hsplit hothers => ?_⟩
      cases others with
      | nil => exact List.nil_prefix
      | cons r others =>
        rw [List.flatten_cons, List.append_assoc] at hsplit
        rw [hsplit] at hbegins
        exact absurd ((hothers r List.mem_cons_self).begins _).1 hbegins

theorem frames_of_begins {s : List α} (h : f.Begins s) : f.frames s =
    s.take (f.size (s.take f.header)) :: f.frames (s.drop (f.size (s.take f.header))) := by
  rw [frames, dif_pos h]

theorem frames_of_not_begins {s : List α} (h : ¬f.Begins s) : f.frames s = [] := by
  rw [frames, dif_neg h]

end Framing

end RingBuffer
