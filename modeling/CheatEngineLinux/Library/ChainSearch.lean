import Mathlib.Tactic

/-!
# Chains of links, level by level

A search space given by numbered links: `out a` lists the links that leave the node `a` and
`slot i` is the node link `i` leads to.  A chain is a sequence of links, each leaving the
node its predecessor leads to, whose intermediate nodes are new.  Nothing here knows what
the nodes are:

* `chainsOn n seen is` — the depth-first enumeration of the chains of `n + 1` links that
  begin with a link of `is`;
* `mem_chainsOn` — **PROVED**: it lists exactly the chains of that length;
* `chainsOn_sorted` — **PROVED**: in strictly increasing lexicographic order of their link
  numbers, so without repetition;
* `level` / `chainsOn_eq_level` — **PROVED**: the same list is the breadth-first level,
  built from the level before it by appending one link to every chain that may go on;
* `level_eq_nil_of_le` — a level without a chain that may go on is the last one;
* `chainsOn_renumber`, `steps_renumber` — **PROVED**: under other numbers for the same links the
  same chains are enumerated, in as many steps.
-/

namespace ChainSearch

variable {ν : Type*} [DecidableEq ν] (out : ν → List ℕ) (slot : ℕ → ν)

/-- Depth-first enumeration of the chains of `n + 1` links that start with a link of `is`;
`seen` are the nodes already on the way. -/
def chainsOn : ℕ → List ν → List ℕ → List (List ℕ)
  | 0, _, is => is.map fun i => [i]
  | n + 1, seen, is => is.flatMap fun i =>
    if slot i ∈ seen then []
    else (chainsOn n (slot i :: seen) (out (slot i))).map (i :: ·)

/-- Each link leaves the node its predecessor leads to. -/
def Linked (c : List ℕ) : Prop := c.IsChain fun i j => j ∈ out (slot i)

def innerNodes (c : List ℕ) : List ν := c.dropLast.map slot

/-- Whether a chain may go on: its last node is new. -/
def mayGoOn (seen : List ν) (c : List ℕ) : Bool :=
  match c.getLast? with
  | none => false
  | some i => decide (slot i ∉ innerNodes slot c) && decide (slot i ∉ seen)

@[simp] theorem chainsOn_nil (n : ℕ) (seen : List ν) : chainsOn out slot n seen [] = [] := by
  cases n <;> rfl

theorem chainsOn_cons (n : ℕ) (seen : List ν) (i : ℕ) (is : List ℕ) :
    chainsOn out slot n seen (i :: is) =
      chainsOn out slot n seen [i] ++ chainsOn out slot n seen is := by
  cases n with
  | zero => rfl
  | succ n => simp [chainsOn, List.flatMap_cons]

theorem chainsOn_succ_single (n : ℕ) (seen : List ν) (i : ℕ) :
    chainsOn out slot (n + 1) seen [i] =
      if slot i ∈ seen then []
      else (chainsOn out slot n (slot i :: seen) (out (slot i))).map (i :: ·) := by
  simp [chainsOn]

variable {out slot}

theorem ne_nil_of_mem_chainsOn {n : ℕ} {seen : List ν} {is c : List ℕ}
    (h : c ∈ chainsOn out slot n seen is) : c ≠ [] := by
  cases n with
  | zero =>
    obtain ⟨i, _, rfl⟩ := List.mem_map.mp h
    exact List.cons_ne_nil i []
  | succ n =>
    obtain ⟨i, _, hc⟩ := List.mem_flatMap.mp h
    split at hc
    · exact absurd hc List.not_mem_nil
    · obtain ⟨r, _, rfl⟩ := List.mem_map.mp hc
      exact List.cons_ne_nil i r

omit [DecidableEq ν] in
theorem innerNodes_cons (i : ℕ) {c : List ℕ} (hc : c ≠ []) :
    innerNodes slot (i :: c) = slot i :: innerNodes slot c := by
  rw [innerNodes, List.dropLast_cons_of_ne_nil hc, List.map_cons, innerNodes]

/-- The enumeration lists exactly the chains of `n + 1` links that begin in `is`. -/
theorem mem_chainsOn : ∀ (n : ℕ) (seen : List ν) (is c : List ℕ),
    c ∈ chainsOn out slot n seen is ↔
      (∃ i ∈ is, c.head? = some i) ∧ c.length = n + 1 ∧ Linked out slot c ∧
        (innerNodes slot c).Nodup ∧ ∀ x ∈ innerNodes slot c, x ∉ seen
  | 0, seen, is, c => by
    simp only [chainsOn, List.mem_map]
    constructor
    · rintro ⟨i, hi, rfl⟩
      simp [hi, Linked, innerNodes]
    · rintro ⟨⟨i, hi, hh⟩, hlen, -⟩
      obtain ⟨j, rfl⟩ := List.length_eq_one_iff.mp hlen
      simp only [List.head?_cons, Option.some.injEq] at hh
      exact ⟨i, hi, by rw [hh]⟩
  | n + 1, seen, is, c => by
    have ih := mem_chainsOn n
    simp only [chainsOn, List.mem_flatMap]
    constructor
    · rintro ⟨i, hi, hc⟩
      split at hc
      · exact absurd hc List.not_mem_nil
      rename_i hseen
      obtain ⟨r, hr, rfl⟩ := List.mem_map.mp hc
      have hne := ne_nil_of_mem_chainsOn hr
      obtain ⟨⟨j, hj, hjr⟩, hlen, hlink, hnd, hfresh⟩ := (ih _ _ _).mp hr
      refine ⟨⟨i, hi, rfl⟩, by simp [hlen], ?_, ?_, ?_⟩
      · obtain ⟨b, l, rfl⟩ := List.exists_cons_of_ne_nil hne
        have hbj : b = j := by simpa using hjr
        subst hbj
        exact List.isChain_cons_cons.mpr ⟨hj, hlink⟩
      · rw [innerNodes_cons i hne, List.nodup_cons]
        exact ⟨fun hm => hfresh _ hm List.mem_cons_self, hnd⟩
      · intro x hx
        rw [innerNodes_cons i hne] at hx
        rcases List.mem_cons.mp hx with rfl | hx
        · exact hseen
        · exact fun hs => hfresh x hx (List.mem_cons_of_mem _ hs)
    · rintro ⟨⟨i, hi, hh⟩, hlen, hlink, hnd, hfresh⟩
      match c, hh, hlen with
      | i' :: r, hh, hlen =>
        have hii : i' = i := by simpa using hh
        subst hii
        have hne : r ≠ [] := by
          intro h
          simp [h] at hlen
        rw [innerNodes_cons _ hne] at hnd hfresh
        refine ⟨i', hi, ?_⟩
        rw [if_neg (hfresh _ List.mem_cons_self)]
        refine List.mem_map.mpr ⟨r, (ih _ _ _).mpr ⟨?_, by simpa using hlen, ?_, ?_, ?_⟩, rfl⟩
        · obtain ⟨b, l, rfl⟩ := List.exists_cons_of_ne_nil hne
          exact ⟨b, (List.isChain_cons_cons.mp hlink).1, rfl⟩
        · exact hlink.tail
        · exact (List.nodup_cons.mp hnd).2
        · intro x hx hmem
          rcases List.mem_cons.mp hmem with rfl | hmem
          · exact (List.nodup_cons.mp hnd).1 hx
          · exact hfresh x (List.mem_cons_of_mem _ hx) hmem

/-- When every node lists its links in increasing order, the enumeration is strictly
increasing in the lexicographic order, whatever the nodes are. -/
theorem chainsOn_sorted (hout : ∀ a, (out a).Pairwise (· < ·)) :
    ∀ (n : ℕ) (seen : List ν) (is : List ℕ), is.Pairwise (· < ·) →
      (chainsOn out slot n seen is).Pairwise (List.Lex (· < ·))
  | 0, _, is, his => by
    rw [chainsOn, List.pairwise_map]
    exact his.imp fun h => List.Lex.rel h
  | n + 1, seen, is, his => by
    rw [chainsOn, List.pairwise_flatMap]
    refine ⟨fun i _ => ?_, his.imp fun {i j} hij x hx y hy => ?_⟩
    · split
      · exact List.Pairwise.nil
      · rw [List.pairwise_map]
        exact (chainsOn_sorted hout n _ _ (hout _)).imp fun h => List.Lex.cons h
    · -- chains with different first links are ordered by them
      have hx' : ∃ l, x = i :: l := by
        split at hx
        · exact absurd hx List.not_mem_nil
        · obtain ⟨l, _, rfl⟩ := List.mem_map.mp hx
          exact ⟨l, rfl⟩
      have hy' : ∃ l, y = j :: l := by
        split at hy
        · exact absurd hy List.not_mem_nil
        · obtain ⟨l, _, rfl⟩ := List.mem_map.mp hy
          exact ⟨l, rfl⟩
      obtain ⟨l, rfl⟩ := hx'
      obtain ⟨l', rfl⟩ := hy'
      exact List.Lex.rel hij

/-! ### Levels of the breadth-first search -/

variable (out slot)

/-- The chains one link longer: every chain that may go on, extended by every link that
leaves its last node. -/
def grow (seen : List ν) (cs : List (List ℕ)) : List (List ℕ) :=
  cs.flatMap fun c =>
    if mayGoOn slot seen c then
      match c.getLast? with
      | none => []
      | some i => (out (slot i)).map fun j => c ++ [j]
    else []

/-- The breadth-first levels from the links `is`. -/
def level (seen : List ν) (is : List ℕ) : ℕ → List (List ℕ)
  | 0 => is.map fun i => [i]
  | n + 1 => grow out slot seen (level seen is n)

variable {out slot}

theorem mayGoOn_cons (seen : List ν) (i : ℕ) {c : List ℕ} (hc : c ≠ []) :
    mayGoOn slot seen (i :: c) = mayGoOn slot (slot i :: seen) c := by
  obtain ⟨k, hk⟩ : ∃ k, c.getLast? = some k := ⟨_, List.getLast?_eq_some_getLast hc⟩
  have hk' : (i :: c).getLast? = some k := by
    obtain ⟨b, l, rfl⟩ := List.exists_cons_of_ne_nil hc
    rw [List.getLast?_cons_cons, hk]
  simp only [mayGoOn, hk, hk', innerNodes_cons i hc, List.mem_cons, not_or]
  by_cases h1 : slot k = slot i <;> by_cases h2 : slot k ∈ innerNodes slot c <;>
    by_cases h3 : slot k ∈ seen <;> simp [h1, h2, h3]

theorem grow_map_cons (seen : List ν) (i : ℕ) (cs : List (List ℕ)) (hcs : ∀ c ∈ cs, c ≠ []) :
    grow out slot seen (cs.map (i :: ·)) = (grow out slot (slot i :: seen) cs).map (i :: ·) := by
  rw [grow, grow, List.flatMap_map, List.map_flatMap]
  apply List.flatMap_congr
  intro c hc
  have hne := hcs c hc
  obtain ⟨k, hk⟩ : ∃ k, c.getLast? = some k := ⟨_, List.getLast?_eq_some_getLast hne⟩
  have hk' : (i :: c).getLast? = some k := by
    obtain ⟨b, l, rfl⟩ := List.exists_cons_of_ne_nil hne
    rw [List.getLast?_cons_cons, hk]
  rw [mayGoOn_cons seen i hne]
  split
  · simp only [hk, hk', List.map_map]
    rfl
  · rfl

theorem grow_flatMap {β : Type*} (seen : List ν) (l : List β) (f : β → List (List ℕ)) :
    grow out slot seen (l.flatMap f) = l.flatMap fun b => grow out slot seen (f b) := by
  rw [grow, List.flatMap_assoc]
  rfl

/-- One more link: the depth-first enumeration of the next length is the growth of the
current one. -/
theorem chainsOn_succ (n : ℕ) : ∀ (seen : List ν) (is : List ℕ),
    chainsOn out slot (n + 1) seen is = grow out slot seen (chainsOn out slot n seen is) := by
  induction n with
  | zero =>
    intro seen is
    rw [grow]
    simp only [chainsOn, List.flatMap_map, mayGoOn, innerNodes]
    apply List.flatMap_congr
    intro i _
    by_cases h : slot i ∈ seen <;> simp [h]
  | succ n ih =>
    intro seen is
    rw [chainsOn, chainsOn, grow_flatMap]
    apply List.flatMap_congr
    intro i _
    by_cases h : slot i ∈ seen
    · simp [h, grow]
    · rw [if_neg h, if_neg h, ih,
        grow_map_cons seen i _ fun c hc => ne_nil_of_mem_chainsOn hc]

theorem chainsOn_eq_level (seen : List ν) (is : List ℕ) (n : ℕ) :
    chainsOn out slot n seen is = level out slot seen is n := by
  induction n with
  | zero => rfl
  | succ n ih => rw [chainsOn_succ, ih, level]

theorem level_succ_eq_nil {seen : List ν} {is : List ℕ} {n : ℕ}
    (h : (level out slot seen is n).any (mayGoOn slot seen) = false) :
    level out slot seen is (n + 1) = [] := by
  rw [level, grow, List.flatMap_eq_nil_iff]
  intro c hc
  rw [List.any_eq_false] at h
  rw [if_neg (h c hc)]

theorem level_eq_nil_of_le {seen : List ν} {is : List ℕ} {n : ℕ}
    (h : (level out slot seen is n).any (mayGoOn slot seen) = false) :
    ∀ m, n < m → level out slot seen is m = [] := by
  intro m hm
  induction m, hm using Nat.le_induction with
  | base => exact level_succ_eq_nil h
  | succ m _ ih => rw [level, ih, grow, List.flatMap_nil]

/-! ### Steps of the search -/

variable (out slot)

/-- The links the depth-first enumeration of the chains of `n + 1` links looks at. -/
def steps : ℕ → List ν → List ℕ → ℕ
  | 0, _, is => is.length
  | n + 1, seen, is =>
    (is.map fun i => 1 + if slot i ∈ seen then 0 else steps n (slot i :: seen) (out (slot i))).sum

variable {out slot}

theorem steps_nil (n : ℕ) (seen : List ν) : steps out slot n seen [] = 0 := by
  cases n <;> rfl

theorem steps_zero_cons (seen : List ν) (i : ℕ) (is : List ℕ) :
    steps out slot 0 seen (i :: is) = 1 + steps out slot 0 seen is := by
  rw [steps, steps, List.length_cons, Nat.add_comm]

theorem steps_succ_cons (n : ℕ) (seen : List ν) (i : ℕ) (is : List ℕ) :
    steps out slot (n + 1) seen (i :: is) =
      1 + (if slot i ∈ seen then 0 else steps out slot n (slot i :: seen) (out (slot i)))
        + steps out slot (n + 1) seen is := by
  rw [steps, List.map_cons, List.sum_cons, ← steps]

/-! ### Other numbers for the links -/

theorem exists_renumbering {α : Type*} {l l' : List α} (h : l.Perm l') (d : α) :
    ∃ σ : ℕ → ℕ, (∀ i, l'.getD (σ i) d = l.getD i d) ∧
      ((List.range l.length).map σ).Perm (List.range l'.length) := by
  induction h with
  | nil => exact ⟨id, fun _ => rfl, by simp⟩
  | @cons a l l' h ih =>
    obtain ⟨σ, hget, hperm⟩ := ih
    refine ⟨fun i => i.casesOn 0 fun i => σ i + 1, fun i => ?_, ?_⟩
    · cases i with
      | zero => rfl
      | succ i => exact hget i
    · rw [List.length_cons, List.length_cons, List.range_succ_eq_map, List.range_succ_eq_map,
        List.map_cons, List.map_map]
      refine List.Perm.cons 0 ?_
      have hsucc := hperm.map Nat.succ
      rwa [List.map_map] at hsucc
  | swap a b l =>
    refine ⟨fun i => if i = 0 then 1 else if i = 1 then 0 else i, fun i => ?_, ?_⟩
    · match i with
      | 0 => rfl
      | 1 => rfl
      | i + 2 => rfl
    · rw [List.length_cons, List.length_cons, List.length_cons, List.length_cons,
        List.range_succ_eq_map, List.range_succ_eq_map]
      simp only [List.map_cons, List.map_map]
      exact List.Perm.trans (List.Perm.swap 0 1 _) (List.Perm.of_eq (by
        congr 2))
  | trans _ _ ih ih' =>
    obtain ⟨σ, hget, hperm⟩ := ih
    obtain ⟨τ, hget', hperm'⟩ := ih'
    refine ⟨τ ∘ σ, fun i => (hget' (σ i)).trans (hget i), ?_⟩
    rw [← List.map_map]
    exact (hperm.map τ).trans hperm'

section Renumber

variable {out' : ν → List ℕ} {slot' : ℕ → ν} {σ : ℕ → ℕ}

/-- The same links under other numbers. -/
structure Renumbers (out : ν → List ℕ) (slot : ℕ → ν) (out' : ν → List ℕ) (slot' : ℕ → ν)
    (σ : ℕ → ℕ) : Prop where
  slot : ∀ i, slot' (σ i) = slot i
  out : ∀ a, (out' a).Perm ((out a).map σ)

theorem chainsOn_renumber (h : Renumbers out slot out' slot' σ) (n : ℕ) :
    ∀ (seen : List ν) {is is' : List ℕ}, is'.Perm (is.map σ) →
      (chainsOn out' slot' n seen is').Perm ((chainsOn out slot n seen is).map (List.map σ)) := by
  induction n with
  | zero =>
    intro seen is is' his
    have hsingle := his.map fun i => [i]
    rw [List.map_map] at hsingle
    rw [chainsOn, chainsOn, List.map_map]
    exact hsingle
  | succ n ih =>
    intro seen is is' his
    rw [chainsOn, chainsOn, List.map_flatMap]
    refine (his.flatMap_right _).trans ?_
    rw [List.flatMap_map]
    refine List.Perm.flatMap_left _ fun i _ => ?_
    rw [h.slot i]
    split
    · exact List.Perm.nil
    · have hrest := (ih (slot i :: seen) (h.out (slot i))).map (σ i :: ·)
      rw [List.map_map] at hrest ⊢
      exact hrest

theorem steps_renumber (h : Renumbers out slot out' slot' σ) (n : ℕ) :
    ∀ (seen : List ν) {is is' : List ℕ}, is'.Perm (is.map σ) →
      steps out' slot' n seen is' = steps out slot n seen is := by
  induction n with
  | zero =>
    intro seen is is' his
    rw [steps, steps, his.length_eq, List.length_map]
  | succ n ih =>
    intro seen is is' his
    rw [steps, steps, (his.map _).sum_eq, List.map_map]
    refine congrArg List.sum (List.map_congr_left fun i _ => ?_)
    rw [Function.comp_apply, h.slot i, ih (slot i :: seen) (h.out (slot i))]

theorem mayGoOn_renumber (h : Renumbers out slot out' slot' σ) (seen : List ν) (c : List ℕ) :
    mayGoOn slot' seen (c.map σ) = mayGoOn slot seen c := by
  have hinner : innerNodes slot' (c.map σ) = innerNodes slot c := by
    rw [innerNodes, innerNodes, ← List.map_dropLast, List.map_map]
    exact List.map_congr_left fun i _ => h.slot i
  rw [mayGoOn, mayGoOn, List.getLast?_map]
  cases c.getLast? with
  | none => rfl
  | some i =>
    dsimp only [Option.map_some]
    rw [hinner, h.slot i]

end Renumber

end ChainSearch
