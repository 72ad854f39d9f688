import Mathlib.Data.List.Infix

/-!
# Texts cut at a pattern

Searching a text for the first occurrence of a pattern, with the text before it and after it as
the result, and when a search passes over a part of a text unseen.

* `cut_eq_none_iff` — **PROVED**: nothing is found exactly in texts that lack the pattern.
* `cut_append` — **PROVED**: a part that lacks the pattern is passed over, where no occurrence can
  reach across its end.
* `lacks_append` — **PROVED**: two such parts together lack the pattern.
* `Tagged.lacks` — **PROVED**: a text whose tags are all among some lacks the others.
-/

namespace Markup

variable {α : Type*} {pat a b s t : List α}

/-! ### Seams -/

/-- A text without the pattern. -/
def Lacks (pat s : List α) : Prop := ¬ pat <:+: s

/-- No occurrence of the pattern reaches from one text into the next: the first ends with
something else, or the second begins with something else. -/
def Seam (pat a b : List α) : Prop :=
  (∀ c ∈ a.getLast?, c ∉ pat) ∨ ∀ c ∈ b.head?, c ∉ pat.tail

instance [DecidableEq α] (pat s : List α) : Decidable (Lacks pat s) :=
  inferInstanceAs (Decidable (¬ pat <:+: s))

theorem Lacks.part (h : Lacks pat s) (ht : t <:+: s) : Lacks pat t := fun hpat => h (hpat.trans ht)

/-- A pattern is not in a text that does not have all its letters. -/
theorem lacks_of_not_mem {x : α} (hx : x ∈ pat) (hs : x ∉ s) : Lacks pat s :=
  fun h => hs (h.subset hx)

/-- An occurrence at the front of `a ++ b` is one of `a` where none reaches across. -/
theorem prefix_of_seam (hseam : Seam pat a b) (hne : a ≠ []) (h : pat <+: a ++ b) : pat <+: a := by
  rcases List.prefix_or_prefix_of_prefix h (List.prefix_append a b) with hpre | hpre
  · exact hpre
  · obtain ⟨rest, rfl⟩ := hpre
    cases rest with
    | nil =>
      rw [List.append_nil]
    | cons x rest =>
      exfalso
      rcases hseam with hlast | hhead
      · have hmem := hlast _ (List.getLast?_eq_some_getLast hne)
        exact hmem (List.mem_append_left _ (List.getLast_mem hne))
      · obtain ⟨after, hafter⟩ := (List.prefix_append_right_inj a).mp h
        obtain ⟨y, a', rfl⟩ := List.exists_cons_of_ne_nil hne
        refine hhead x ?_ (by simp)
        rw [← hafter]
        rfl

theorem Seam.tail {x : α} (h : Seam pat (x :: a) b) : Seam pat a b := by
  rcases h with hlast | hhead
  · left
    intro c hc
    cases a with
    | nil => cases hc
    | cons y a => exact hlast c (by rw [List.getLast?_cons_cons]; exact hc)
  · exact Or.inr hhead

theorem lacks_append (ha : Lacks pat a) (hb : Lacks pat b) (hseam : Seam pat a b) :
    Lacks pat (a ++ b) := by
  induction a with
  | nil => exact hb
  | cons c a ih =>
    intro h
    rcases List.infix_cons_iff.mp h with hpre | hin
    · exact ha (prefix_of_seam hseam (List.cons_ne_nil c a) hpre).isInfix
    · exact ih (ha.part (List.suffix_cons c a).isInfix) hseam.tail hin

/-! ### The search -/

section search

variable [DecidableEq α]

/-- The text before the first occurrence of a pattern and the text after it. -/
def cut (pat : List α) : List α → Option (List α × List α)
  | [] => if pat.isEmpty then some ([], []) else none
  | c :: s =>
    if pat.isPrefixOf (c :: s) then some ([], (c :: s).drop pat.length)
    else (cut pat s).map fun r => (c :: r.1, r.2)

theorem cut_eq_some (h : cut pat s = some (a, b)) : s = a ++ pat ++ b := by
  induction s generalizing a with
  | nil =>
    unfold cut at h
    split at h
    · next hpat =>
      cases h
      simp [List.isEmpty_iff.mp hpat]
    · cases h
  | cons c s ih =>
    unfold cut at h
    split at h
    · next hpat =>
      cases h
      obtain ⟨rest, hrest⟩ := List.isPrefixOf_iff_prefix.mp hpat
      rw [← hrest]
      simp
    · obtain ⟨r, hr, heq⟩ := Option.map_eq_some_iff.mp h
      cases heq
      rw [ih hr]
      simp

theorem cut_eq_none_iff : cut pat s = none ↔ Lacks pat s := by
  induction s with
  | nil =>
    unfold cut Lacks
    cases pat with
    | nil => simp
    | cons x pat => simp
  | cons c s ih =>
    unfold Lacks at *
    unfold cut
    rw [List.infix_cons_iff, not_or, ← ih]
    by_cases hpat : pat <+: c :: s
    · rw [if_pos (List.isPrefixOf_iff_prefix.mpr hpat)]
      simp [hpat]
    · rw [if_neg (fun h => hpat (List.isPrefixOf_iff_prefix.mp h))]
      simp [hpat]

theorem Lacks.cut (h : Lacks pat s) : Markup.cut pat s = none := cut_eq_none_iff.mpr h

theorem cut_self (hpat : pat ≠ []) (s : List α) : cut pat (pat ++ s) = some ([], s) := by
  obtain ⟨x, rest, rfl⟩ := List.exists_cons_of_ne_nil hpat
  have hpre : (x :: rest).isPrefixOf (x :: (rest ++ s)) = true :=
    List.isPrefixOf_iff_prefix.mpr ⟨s, rfl⟩
  rw [List.cons_append]
  unfold cut
  rw [if_pos hpre]
  simp

theorem cut_append (ha : Lacks pat a) (hseam : Seam pat a b) :
    cut pat (a ++ b) = (cut pat b).map fun r => (a ++ r.1, r.2) := by
  induction a with
  | nil => simp
  | cons c a ih =>
    have hpat : ¬ pat <+: c :: (a ++ b) := fun hpre =>
      ha (prefix_of_seam hseam (List.cons_ne_nil c a) hpre).isInfix
    rw [List.cons_append, cut, if_neg fun h => hpat (List.isPrefixOf_iff_prefix.mp h),
      ih (ha.part (List.suffix_cons c a).isInfix) hseam.tail, Option.map_map]
    rfl

theorem cut_pattern (hpat : pat ≠ []) (ha : Lacks pat a) (hseam : Seam pat a pat) (b : List α) :
    cut pat (a ++ (pat ++ b)) = some (a, b) := by
  have hseam' : Seam pat a (pat ++ b) := by
    rcases hseam with h | h
    · exact Or.inl h
    · obtain ⟨x, rest, rfl⟩ := List.exists_cons_of_ne_nil hpat
      exact Or.inr fun c hc => h c hc
  rw [cut_append ha hseam', cut_self hpat]
  simp

/-- An occurrence that is found in the first part is found first. -/
theorem cut_append_left (hpat : pat ≠ []) (h : cut pat s = some (a, b)) (t : List α) :
    cut pat (s ++ t) = some (a, b ++ t) := by
  induction s generalizing a with
  | nil =>
    unfold cut at h
    rw [if_neg (by simpa using hpat)] at h
    cases h
  | cons c s ih =>
    unfold cut at h
    split at h
    · next hpre =>
      cases h
      obtain ⟨rest, hrest⟩ := List.isPrefixOf_iff_prefix.mp hpre
      rw [← hrest, List.append_assoc, cut_self hpat]
      simp
    · next hpre =>
      obtain ⟨r, hr, heq⟩ := Option.map_eq_some_iff.mp h
      cases heq
      have hlength : pat.length ≤ (c :: s).length := by
        rw [cut_eq_some hr]
        simp
        omega
      have hnot : ¬ pat <+: c :: (s ++ t) := fun h => hpre <| List.isPrefixOf_iff_prefix.mpr <|
        List.prefix_of_prefix_length_le h (List.prefix_append (c :: s) t) hlength
      rw [List.cons_append, cut, if_neg fun h => hnot (List.isPrefixOf_iff_prefix.mp h), ih hr]
      rfl

end search

/-! ### Texts with tags -/

section tags

variable {lt gt : α} {P Q : List α → Prop} {p x y : List α}

theorem cut_cons [DecidableEq α] (hp : ¬ p <+: s) :
    cut (lt :: p) (lt :: s) = (cut (lt :: p) s).map fun r => (lt :: r.1, r.2) := by
  rw [cut, if_neg]
  rw [List.isPrefixOf_iff_prefix, List.prefix_cons_inj]
  exact hp

/-- A pattern that begins with a mark is searched for behind a text without marks. -/
theorem cut_plain_append [DecidableEq α] (hx : lt ∉ x) :
    cut (lt :: p) (x ++ s) = (cut (lt :: p) s).map fun r => (x ++ r.1, r.2) := by
  induction x with
  | nil => simp
  | cons c x ih =>
    obtain ⟨hc, hx⟩ := not_or.mp (fun h => hx (List.mem_cons.mpr h))
    have hnot : ¬ (lt :: p).isPrefixOf (c :: (x ++ s)) := fun h => by
      rw [List.isPrefixOf_iff_prefix, List.cons_prefix_cons] at h
      exact hc h.1
    rw [List.cons_append, cut, if_neg hnot, ih hx, Option.map_map]
    rfl

/-- A pattern that begins with a mark does not begin in a text without marks. -/
theorem lacks_plain_append (hx : lt ∉ x) (hs : Lacks (lt :: p) s) : Lacks (lt :: p) (x ++ s) := by
  induction x with
  | nil => exact hs
  | cons c x ih =>
    intro h
    rcases List.infix_cons_iff.mp h with hpre | hin
    · obtain ⟨rest, hrest⟩ := hpre
      exact hx (by rw [← (List.cons.inj hrest).1]; exact List.mem_cons_self)
    · exact ih (fun hmem => hx (List.mem_cons_of_mem c hmem)) hin

theorem lacks_cons (hp : ¬ p <+: s) (hs : Lacks (lt :: p) s) : Lacks (lt :: p) (lt :: s) := by
  intro h
  rcases List.infix_cons_iff.mp h with hpre | hin
  · exact hp ((List.prefix_cons_inj lt).mp hpre)
  · exact hs hin

theorem eq_of_prefix_mark (hx : gt ∉ x) (hy : gt ∉ y) (h : x ++ [gt] <+: y ++ gt :: s) : x = y := by
  induction x generalizing y with
  | nil =>
    cases y with
    | nil => rfl
    | cons c y =>
      obtain ⟨rest, hrest⟩ := h
      have hc : gt = c := (List.cons.inj hrest).1
      exact absurd (hc ▸ List.mem_cons_self) hy
  | cons c x ih =>
    cases y with
    | nil =>
      obtain ⟨rest, hrest⟩ := h
      have hc : c = gt := (List.cons.inj hrest).1
      exact absurd (hc ▸ List.mem_cons_self) hx
    | cons d y =>
      rw [List.cons_append, List.cons_append, List.cons_prefix_cons] at h
      obtain ⟨rfl, h⟩ := h
      rw [ih (fun hmem => hx (List.mem_cons_of_mem c hmem))
        (fun hmem => hy (List.mem_cons_of_mem c hmem)) h]

theorem prefix_of_prefix_mark (hx : gt ∉ x) (h : x <+: y ++ gt :: s) : x <+: y := by
  rcases List.prefix_or_prefix_of_prefix h (List.prefix_append y (gt :: s)) with hpre | hpre
  · exact hpre
  · obtain ⟨rest, rfl⟩ := hpre
    cases rest with
    | nil => rw [List.append_nil]
    | cons c rest =>
      obtain ⟨after, hafter⟩ := (List.prefix_append_right_inj y).mp h
      have hc : c = gt := (List.cons.inj hafter).1
      exact absurd (by simp [hc]) hx

variable (lt gt) in
/-- A text in which every mark begins a tag, and every tag is one of `P`. -/
inductive Tagged (P : List α → Prop) : List α → Prop
  | plain {x : List α} : lt ∉ x → Tagged P x
  | tag {x t s : List α} : lt ∉ x → P t → lt ∉ t → gt ∉ t → Tagged P s →
      Tagged P (x ++ lt :: (t ++ gt :: s))

theorem Tagged.mono (h : Tagged lt gt P s) (hPQ : ∀ t, P t → Q t) : Tagged lt gt Q s := by
  induction h with
  | plain hx => exact .plain hx
  | tag hx ht hlt hgt _ ih => exact .tag hx (hPQ _ ht) hlt hgt ih

theorem Tagged.plain_append (hx : lt ∉ x) (h : Tagged lt gt P s) : Tagged lt gt P (x ++ s) := by
  cases h with
  | plain hs => exact .plain fun hmem => (List.mem_append.mp hmem).elim hx hs
  | @tag y t s hy ht hlt hgt hs =>
    rw [← List.append_assoc]
    exact .tag (fun hmem => (List.mem_append.mp hmem).elim hx hy) ht hlt hgt hs

theorem Tagged.append (ha : Tagged lt gt P a) (hb : Tagged lt gt P b) : Tagged lt gt P (a ++ b) := by
  induction ha with
  | plain hx => exact hb.plain_append hx
  | tag hx ht hlt hgt _ ih =>
    rw [List.append_assoc, List.cons_append, List.append_assoc, List.cons_append]
    exact .tag hx ht hlt hgt ih

theorem Tagged.flatMap {β : Type*} {f : β → List α} {l : List β}
    (h : ∀ i ∈ l, Tagged lt gt P (f i)) : Tagged lt gt P (l.flatMap f) := by
  induction l with
  | nil => exact .plain (by simp)
  | cons i l ih =>
    obtain ⟨hi, hl⟩ := List.forall_mem_cons.mp h
    rw [List.flatMap_cons]
    exact hi.append (ih hl)

theorem lacks_plain (hx : lt ∉ x) : Lacks (lt :: p) x := lacks_of_not_mem List.mem_cons_self hx

theorem lacks_tag {t : List α} (hne : lt ≠ gt) (hlt : lt ∉ t) (hp : ¬ p <+: t ++ gt :: s)
    (hs : Lacks (lt :: p) s) : Lacks (lt :: p) (lt :: (t ++ gt :: s)) := by
  have hsplit : t ++ gt :: s = (t ++ [gt]) ++ s := by simp
  refine lacks_cons hp ?_
  rw [hsplit]
  exact lacks_plain_append (by simp [hlt, hne]) hs

/-- A tag that is none of those is not found. -/
theorem Tagged.lacks {n : List α} (h : Tagged lt gt P s) (hne : lt ≠ gt) (hn : ¬ P n) (hgt : gt ∉ n) :
    Lacks (lt :: (n ++ [gt])) s := by
  induction h with
  | plain hx => exact lacks_plain hx
  | @tag x t s hx ht hlt hgt' _ ih =>
    refine lacks_plain_append hx (lacks_tag hne hlt (fun hpre => hn ?_) ih)
    exact eq_of_prefix_mark hgt hgt' hpre ▸ ht

theorem Tagged.lacks_word {n : List α} (h : Tagged lt gt P s) (hne : lt ≠ gt)
    (hn : ∀ t, P t → ¬ n <+: t) (hgt : gt ∉ n) : Lacks (lt :: n) s := by
  induction h with
  | plain hx => exact lacks_plain hx
  | @tag x t s hx ht hlt hgt' _ ih =>
    exact lacks_plain_append hx (lacks_tag hne hlt
      (fun hpre => hn t ht (prefix_of_prefix_mark hgt hpre)) ih)

end tags

end Markup
