import CheatEngineLinux.Core.XmlReadBack

/-!
# The hierarchy of a written table

`writeEntry` writes the records of a table as a forest of indices, whatever their ids and parents
are.

* `plan_perm`, `plan_depth` — **PROVED**: every record is in the forest once, and no list is deeper
  than the loader takes.
* `plan_linked` — **PROVED**: with ids and chains as they should be, each record is under its parent.
-/

namespace CheatEngine.CtFile

open JsonGrammar (Bytes)
open Markup (cut Lacks Seam Tagged)

/-! ### Forests side by side -/

namespace Forest

variable {α : Type}

def append : Forest α → Forest α → Forest α
  | .nil, g => g
  | .leaf a next, g => .leaf a (next.append g)
  | .node a kids next, g => .node a kids (next.append g)

@[simp] theorem toList_append (f g : Forest α) : (f.append g).toList = f.toList ++ g.toList := by
  induction f with
  | nil => rfl
  | leaf a next ih => simp [append, toList, ih]
  | node a kids next _ ih => simp [append, toList, ih]

@[simp] theorem render_append (own : α → Bytes) (f g : Forest α) :
    (f.append g).render own = f.render own ++ g.render own := by
  induction f with
  | nil => rfl
  | leaf a next ih => simp [append, render, ih]
  | node a kids next _ ih => simp [append, render, ih]

theorem depth_append_le {f g : Forest α} {n : ℕ} (hf : f.depth ≤ n) (hg : g.depth ≤ n) :
    (f.append g).depth ≤ n := by
  induction f with
  | nil => exact hg
  | leaf a next ih => exact ih hf
  | node a kids next _ ih =>
    have h := max_le_iff.mp hf
    exact max_le h.1 (ih h.2)

/-- Every record is under the one its parent link names; `p` is the one the list is in. -/
def Linked (parent : α → Option α) : Option α → Forest α → Prop
  | _, .nil => True
  | p, .leaf a next => parent a = p ∧ Linked parent p next
  | p, .node a kids next => parent a = p ∧ Linked parent (some a) kids ∧ Linked parent p next

theorem Linked.append {parent : α → Option α} {p : Option α} {f g : Forest α} (hf : Linked parent p f)
    (hg : Linked parent p g) : Linked parent p (f.append g) := by
  induction f with
  | nil => exact hg
  | leaf a next ih => exact ⟨hf.1, ih hf.2⟩
  | node a kids next _ ih => exact ⟨hf.1, hf.2.1, ih hf.2.2⟩

end Forest

/-! ### The forest that is written -/

/-- The loop of `writeEach`, with forests for texts. -/
def growEach (grow : ℕ → List ℕ → Forest ℕ × List ℕ) : List ℕ → List ℕ → Forest ℕ × List ℕ
  | [], done => (.nil, done)
  | i :: rest, done =>
    let first := grow i done
    let others := growEach grow rest first.2
    (first.1.append others.1, others.2)

/-- The records that `writeEntry` writes. -/
def grow (entries : List CheatEntry) : ℕ → ℕ → List ℕ → Forest ℕ × List ℕ
  | levels, i, done =>
    if done.contains i then (.nil, done)
    else
      match levels with
      | 0 => (.leaf i .nil, i :: done)
      | levels + 1 =>
        if (children entries i).isEmpty then (.leaf i .nil, i :: done)
        else
          let kids := growEach (grow entries levels) (children entries i) (i :: done)
          (.node i kids.1 .nil, kids.2)

def rootIndices (entries : List CheatEntry) : List ℕ :=
  (List.range entries.length).filter fun i => (parentIndex entries i).isNone

/-- What is written under the roots, and what is done then. -/
def rootPass (entries : List CheatEntry) : Forest ℕ × List ℕ :=
  growEach (grow entries (kMaxEntryDepth - 1)) (rootIndices entries) []

/-- All that is written. -/
def plan (entries : List CheatEntry) : Forest ℕ :=
  (rootPass entries).1.append
    (growEach (grow entries (kMaxEntryDepth - 1)) (List.range entries.length) (rootPass entries).2).1

section text

variable (entries : List CheatEntry)

def fieldsAt (i : ℕ) : Bytes := writeEntryFields (entries.getD i {})

theorem writeEach_eq {write : ℕ → List ℕ → Bytes × List ℕ} {g : ℕ → List ℕ → Forest ℕ × List ℕ}
    (h : ∀ i done, write i done = ((g i done).1.render (fieldsAt entries), (g i done).2))
    (l done : List ℕ) :
    writeEach write l done
      = ((growEach g l done).1.render (fieldsAt entries), (growEach g l done).2) := by
  induction l generalizing done with
  | nil => rfl
  | cons i l ih =>
    rw [writeEach, growEach, h]
    dsimp only
    rw [ih]
    simp

theorem writeEntry_eq (levels i : ℕ) (done : List ℕ) :
    writeEntry entries levels i done
      = ((grow entries levels i done).1.render (fieldsAt entries), (grow entries levels i done).2) := by
  induction levels generalizing i done with
  | zero =>
    unfold writeEntry grow
    split
    · rfl
    · simp [Forest.render, block, fieldsAt]
  | succ levels ih =>
    unfold writeEntry grow
    split
    · rfl
    · dsimp only
      split
      · simp [Forest.render, block, fieldsAt]
      · rw [writeEach_eq entries ih]
        simp [Forest.render, block, fieldsAt]

theorem writeEntries_eq : writeEntries entries = (plan entries).render (fieldsAt entries) := by
  have hwrite := fun i done => writeEntry_eq entries (kMaxEntryDepth - 1) i done
  unfold writeEntries
  dsimp only
  rw [writeEach_eq entries hwrite, writeEach_eq entries hwrite]
  exact (Forest.render_append _ _ _).symm

end text

/-! ### Every record once -/

/-- What is done after some records were written: what was done before, and the new ones. -/
structure Grown (n : ℕ) (done : List ℕ) (r : Forest ℕ × List ℕ) : Prop where
  perm : r.2.Perm (r.1.toList ++ done)
  nodup : done.Nodup → r.2.Nodup
  bound : ∀ i ∈ r.1.toList, i < n

theorem Grown.nil (n : ℕ) (done : List ℕ) : Grown n done (.nil, done) := ⟨List.Perm.refl _, id, by simp [Forest.toList]⟩

theorem Grown.mem {n : ℕ} {done : List ℕ} {r : Forest ℕ × List ℕ} (h : Grown n done r) {i : ℕ} :
    i ∈ r.2 ↔ i ∈ r.1.toList ∨ i ∈ done := by
  rw [h.perm.mem_iff, List.mem_append]

theorem grown_growEach {n : ℕ} {g : ℕ → List ℕ → Forest ℕ × List ℕ} {l : List ℕ}
    (h : ∀ i ∈ l, ∀ done, Grown n done (g i done) ∧ i ∈ (g i done).2) (done : List ℕ) :
    Grown n done (growEach g l done) ∧ ∀ i ∈ l, i ∈ (growEach g l done).2 := by
  induction l generalizing done with
  | nil => exact ⟨Grown.nil n done, by simp⟩
  | cons i l ih =>
    obtain ⟨hi, his⟩ := List.forall_mem_cons.mp h
    obtain ⟨hfirst, hmem⟩ := hi done
    obtain ⟨hothers, hmems⟩ := ih his (g i done).2
    rw [growEach]
    refine ⟨⟨?_, fun hdone => hothers.nodup (hfirst.nodup hdone), ?_⟩, ?_⟩
    · dsimp only
      rw [Forest.toList_append]
      calc (growEach g l (g i done).2).2
        _ |>.Perm ((growEach g l (g i done).2).1.toList ++ (g i done).2) := hothers.perm
        _ |>.Perm ((growEach g l (g i done).2).1.toList ++ ((g i done).1.toList ++ done)) :=
          hfirst.perm.append_left _
        _ |>.Perm (((g i done).1.toList ++ (growEach g l (g i done).2).1.toList) ++ done) := by
          rw [← List.append_assoc]
          exact List.perm_append_comm.append_right done
    · intro j hj
      rw [Forest.toList_append, List.mem_append] at hj
      exact hj.elim (hfirst.bound j) (hothers.bound j)
    · exact List.forall_mem_cons.mpr ⟨hothers.mem.mpr (Or.inr hmem), hmems⟩

section plan

variable {entries : List CheatEntry}

theorem children_lt {i c : ℕ} (h : c ∈ children entries i) : c < entries.length ∧ parentIndex entries c = some i := by
  unfold children at h
  simpa using h

theorem grown_leaf {n i : ℕ} (hi : i < n) {done : List ℕ} (hnot : i ∉ done) :
    Grown n done (.leaf i .nil, i :: done) :=
  ⟨List.Perm.refl _, fun hdone => List.nodup_cons.mpr ⟨hnot, hdone⟩, by simp [Forest.toList, hi]⟩

theorem grown_grow (levels : ℕ) {i : ℕ} (hi : i < entries.length) (done : List ℕ) :
    Grown entries.length done (grow entries levels i done) ∧ i ∈ (grow entries levels i done).2 := by
  induction levels generalizing i done with
  | zero =>
    unfold grow
    split
    · next hdone => exact ⟨Grown.nil _ _, by simpa using hdone⟩
    · next hnot => exact ⟨grown_leaf hi (by simpa using hnot), List.mem_cons_self⟩
  | succ levels ih =>
    unfold grow
    split
    · next hdone => exact ⟨Grown.nil _ _, by simpa using hdone⟩
    · next hnot =>
      have hnot : i ∉ done := by simpa using hnot
      dsimp only
      split
      · exact ⟨grown_leaf hi hnot, List.mem_cons_self⟩
      · have hkids := (grown_growEach (l := children entries i)
          (fun c hc done => ih (children_lt hc).1 done) (i :: done)).1
        refine ⟨⟨?_, fun hdone => hkids.nodup (List.nodup_cons.mpr ⟨hnot, hdone⟩), ?_⟩,
          hkids.mem.mpr (Or.inr List.mem_cons_self)⟩
        · simp only [Forest.toList, List.append_nil, List.cons_append]
          exact hkids.perm.trans List.perm_middle
        · simp only [Forest.toList, List.append_nil, List.forall_mem_cons]
          exact ⟨hi, hkids.bound⟩

theorem rootIndices_lt {i : ℕ} (h : i ∈ rootIndices entries) :
    i < entries.length ∧ parentIndex entries i = none := by
  unfold rootIndices at h
  simpa using h

theorem grown_rootPass (entries : List CheatEntry) : Grown entries.length [] (rootPass entries) ∧
    ∀ i ∈ rootIndices entries, i ∈ (rootPass entries).2 :=
  grown_growEach (fun _ hi done => grown_grow _ (rootIndices_lt hi).1 done) []

/-- Every record is written once. -/
theorem plan_perm (entries : List CheatEntry) : (plan entries).toList.Perm (List.range entries.length) := by
  have hroots := (grown_rootPass entries).1
  obtain ⟨horphans, hall⟩ := grown_growEach (n := entries.length) (g := grow entries (kMaxEntryDepth - 1))
    (l := List.range entries.length) (fun i hi done => grown_grow _ (List.mem_range.mp hi) done)
    (rootPass entries).2
  have hperm : (plan entries).toList.Perm
      (growEach (grow entries (kMaxEntryDepth - 1)) (List.range entries.length) (rootPass entries).2).2 := by
    have hdone := hroots.perm
    rw [List.append_nil] at hdone
    unfold plan
    rw [Forest.toList_append]
    exact (List.perm_append_comm.trans (hdone.symm.append_left _)).trans horphans.perm.symm
  refine hperm.trans ((List.perm_ext_iff_of_nodup (horphans.nodup (hroots.nodup List.nodup_nil))
    List.nodup_range).mpr fun i => ⟨fun hi => ?_, hall i⟩)
  rcases horphans.mem.mp hi with hi | hi
  · exact List.mem_range.mpr (horphans.bound i hi)
  · rcases hroots.mem.mp hi with hi | hi
    · exact List.mem_range.mpr (hroots.bound i hi)
    · cases hi

/-! ### No deeper than the loader takes -/

theorem depth_growEach {g : ℕ → List ℕ → Forest ℕ × List ℕ} {n : ℕ} (hn : 1 ≤ n)
    (h : ∀ i done, (g i done).1.depth ≤ n) (l done : List ℕ) : (growEach g l done).1.depth ≤ n := by
  induction l generalizing done with
  | nil => exact hn
  | cons i l ih => exact Forest.depth_append_le (h i done) (ih _)

theorem depth_grow (levels i : ℕ) (done : List ℕ) : (grow entries levels i done).1.depth ≤ levels + 1 := by
  induction levels generalizing i done with
  | zero =>
    unfold grow
    split <;> exact Nat.le_refl _
  | succ levels ih =>
    unfold grow
    split
    · exact Nat.le_add_left _ _
    · dsimp only
      split
      · exact Nat.le_add_left _ _
      · have hkids := depth_growEach (Nat.le_add_left 1 levels) ih (children entries i) (i :: done)
        exact max_le (Nat.succ_le_succ hkids) (Nat.le_add_left _ _)

theorem plan_depth (entries : List CheatEntry) : (plan entries).depth ≤ kMaxEntryDepth := by
  have hgrow := fun i done => @depth_grow entries (kMaxEntryDepth - 1) i done
  exact Forest.depth_append_le (depth_growEach (by decide) hgrow _ _) (depth_growEach (by decide) hgrow _ _)

/-! ### Every record under its parent -/

theorem linked_growEach {g : ℕ → List ℕ → Forest ℕ × List ℕ} {p : Option ℕ} {l : List ℕ}
    (h : ∀ i ∈ l, ∀ done, (g i done).1.Linked (parentIndex entries) p) (done : List ℕ) :
    (growEach g l done).1.Linked (parentIndex entries) p := by
  induction l generalizing done with
  | nil => trivial
  | cons i l ih =>
    obtain ⟨hi, his⟩ := List.forall_mem_cons.mp h
    exact (hi done).append (ih his _)

theorem linked_grow (levels i : ℕ) (done : List ℕ) :
    (grow entries levels i done).1.Linked (parentIndex entries) (parentIndex entries i) := by
  induction levels generalizing i done with
  | zero =>
    unfold grow
    split
    · trivial
    · exact ⟨rfl, trivial⟩
  | succ levels ih =>
    unfold grow
    split
    · trivial
    · dsimp only
      split
      · exact ⟨rfl, trivial⟩
      · refine ⟨rfl, linked_growEach (fun c hc done => ?_) _, trivial⟩
        rw [← (children_lt hc).2]
        exact ih c done

def parentOf (entries : List CheatEntry) (i : ℕ) : Option ℕ :=
  match entries[i]? with
  | none => none
  | some e => if e.parentId = -1 then none else idToIndex entries e.parentId

/-- The length of the chain of a record's ancestors, counted up to a limit; a cycle reaches every
limit. -/
def chainLength (entries : List CheatEntry) : ℕ → ℕ → ℕ
  | 0, _ => 0
  | limit + 1, i =>
    match parentOf entries i with
    | none => 0
    | some parent => chainLength entries limit parent + 1

theorem parentIndex_eq (entries : List CheatEntry) (i : ℕ) :
    parentIndex entries i = (parentOf entries i).filter (· ≠ i) := by
  unfold parentIndex parentOf
  cases entries[i]? with
  | none => rfl
  | some e =>
    dsimp only
    split <;> rfl

theorem chainLength_succ {limit i : ℕ} (h : chainLength entries limit i < limit) :
    chainLength entries (limit + 1) i = chainLength entries limit i := by
  induction limit generalizing i with
  | zero => exact absurd h (Nat.not_lt_zero _)
  | succ limit ih =>
    rw [chainLength] at h ⊢
    rw [chainLength]
    cases hparent : parentOf entries i with
    | none => rfl
    | some parent =>
      rw [hparent] at h
      exact congrArg (· + 1) (ih (Nat.lt_of_succ_lt_succ h))

theorem chainLength_self {i : ℕ} (h : parentOf entries i = some i) (limit : ℕ) :
    chainLength entries limit i = limit := by
  induction limit with
  | zero => rfl
  | succ limit ih =>
    rw [chainLength, h]
    exact congrArg (· + 1) ih

section chains

variable (hchains : ∀ i < entries.length, chainLength entries kMaxEntryDepth i < kMaxEntryDepth)

include hchains

theorem parentIndex_eq_parentOf {i : ℕ} (hi : i < entries.length) : parentIndex entries i = parentOf entries i := by
  rw [parentIndex_eq]
  cases hparent : parentOf entries i with
  | none => rfl
  | some parent =>
    have hne : parent ≠ i := by
      rintro rfl
      exact Nat.lt_irrefl _ (chainLength_self hparent kMaxEntryDepth ▸ hchains parent hi)
    simp [Option.filter, hne]

theorem chainLength_child {i c : ℕ} (hc : c ∈ children entries i) :
    chainLength entries kMaxEntryDepth c = chainLength entries kMaxEntryDepth i + 1 := by
  obtain ⟨hlt, hparent⟩ := children_lt hc
  have hchain := hchains c hlt
  rw [parentIndex_eq_parentOf hchains hlt] at hparent
  have hstep : chainLength entries kMaxEntryDepth c = chainLength entries (kMaxEntryDepth - 1) i + 1 := by
    show chainLength entries (kMaxEntryDepth - 1 + 1) c = _
    rw [chainLength, hparent]
  have hparent : chainLength entries (kMaxEntryDepth - 1) i < kMaxEntryDepth - 1 := by omega
  rw [hstep, ← chainLength_succ hparent]
  rfl

omit hchains in
theorem covered_growEach {r : ℕ → ℕ} {k m n : ℕ} {g : ℕ → List ℕ → Forest ℕ × List ℕ} {l : List ℕ}
    (hgrown : ∀ i ∈ l, ∀ done, Grown n done (g i done) ∧ i ∈ (g i done).2)
    (h : ∀ i ∈ l, ∀ done, ∀ j ∈ (g i done).1.toList, r j < m + k →
      ∀ c ∈ children entries j, c ∈ (g i done).2) (done : List ℕ) :
    ∀ j ∈ (growEach g l done).1.toList, r j < m + k →
      ∀ c ∈ children entries j, c ∈ (growEach g l done).2 := by
  induction l generalizing done with
  | nil => simp [growEach, Forest.toList]
  | cons i l ih =>
    obtain ⟨hi, his⟩ := List.forall_mem_cons.mp h
    obtain ⟨-, hgrowns⟩ := List.forall_mem_cons.mp hgrown
    intro j hj hrank c hc
    rw [growEach] at hj ⊢
    rw [Forest.toList_append, List.mem_append] at hj
    rcases hj with hj | hj
    · have hothers := (grown_growEach hgrowns (g i done).2).1
      exact hothers.mem.mpr (Or.inr (hi done j hj hrank c hc))
    · exact ih hgrowns his _ j hj hrank c hc

theorem covered_grow (levels : ℕ) {i : ℕ} (hi : i < entries.length) (done : List ℕ) :
    ∀ j ∈ (grow entries levels i done).1.toList,
      chainLength entries kMaxEntryDepth j < chainLength entries kMaxEntryDepth i + levels →
      ∀ c ∈ children entries j, c ∈ (grow entries levels i done).2 := by
  induction levels generalizing i done with
  | zero =>
    unfold grow
    split
    · simp [Forest.toList]
    · intro j hj hrank
      rw [Forest.toList, Forest.toList, List.mem_singleton] at hj
      rw [hj] at hrank
      exact absurd hrank (Nat.lt_irrefl _)
  | succ levels ih =>
    unfold grow
    split
    · simp [Forest.toList]
    · dsimp only
      split
      · next hnone =>
        intro j hj _ c hc
        rw [Forest.toList, Forest.toList, List.mem_singleton] at hj
        rw [hj, List.isEmpty_iff.mp hnone] at hc
        cases hc
      · obtain ⟨-, hkids⟩ := grown_growEach (l := children entries i)
          (fun c hc done => grown_grow levels (children_lt hc).1 done) (i :: done)
        intro j hj hrank
        rw [Forest.toList, Forest.toList, List.append_nil] at hj
        rcases List.mem_cons.mp hj with rfl | hj
        · exact hkids
        · refine covered_growEach (r := chainLength entries kMaxEntryDepth) (k := levels)
            (m := chainLength entries kMaxEntryDepth i + 1)
            (fun c hc done => grown_grow levels (children_lt hc).1 done) (fun c hc done j hj hrank => ?_)
            (i :: done) j hj (by omega)
          exact ih (children_lt hc).1 done j hj (by rw [chainLength_child hchains hc]; omega)

theorem rootPass_all : ∀ i < entries.length, i ∈ (rootPass entries).2 := by
  obtain ⟨hgrown, hroots⟩ := grown_rootPass entries
  have hcovered := @covered_growEach entries (chainLength entries kMaxEntryDepth) (kMaxEntryDepth - 1) 0
    entries.length (grow entries (kMaxEntryDepth - 1)) (rootIndices entries)
    (fun i hi done => grown_grow _ (rootIndices_lt hi).1 done) (fun i hi done j hj hrank => by
      exact covered_grow hchains _ (rootIndices_lt hi).1 done j hj (by omega)) []
  suffices h : ∀ k, ∀ i < entries.length, chainLength entries kMaxEntryDepth i = k → i ∈ (rootPass entries).2 from
    fun i hi => h _ i hi rfl
  intro k
  induction k with
  | zero =>
    intro i hi hk
    refine hroots i ?_
    have hparent : parentOf entries i = none := by
      have hchain : chainLength entries (kMaxEntryDepth - 1 + 1) i = 0 := hk
      rw [chainLength] at hchain
      cases hparent : parentOf entries i with
      | none => rfl
      | some parent =>
        rw [hparent] at hchain
        exact absurd hchain (Nat.succ_ne_zero _)
    unfold rootIndices
    rw [List.mem_filter, List.mem_range, parentIndex_eq_parentOf hchains hi, hparent]
    exact ⟨hi, rfl⟩
  | succ k ih =>
    intro i hi hk
    have hchain : chainLength entries (kMaxEntryDepth - 1 + 1) i = k + 1 := hk
    rw [chainLength] at hchain
    cases hparent : parentOf entries i with
    | none =>
      rw [hparent] at hchain
      exact absurd hchain.symm (Nat.succ_ne_zero _)
    | some parent =>
      have hindex := parentIndex_eq_parentOf hchains hi
      rw [hparent] at hindex
      have hchild : i ∈ children entries parent := by
        unfold children
        rw [List.mem_filter, List.mem_range, hindex]
        exact ⟨hi, by simp⟩
      have hlt : parent < entries.length := by
        unfold parentOf at hparent
        split at hparent
        · cases hparent
        · split at hparent
          · cases hparent
          · exact (List.findIdx?_eq_some_iff_findIdx_eq.mp hparent).1
      have hrank : chainLength entries kMaxEntryDepth parent = k := by
        have hstep := chainLength_child hchains hchild
        omega
      have hmem := ih parent hlt hrank
      have hforest : parent ∈ (rootPass entries).1.toList := by
        rcases hgrown.mem.mp hmem with h | h
        · exact h
        · cases h
      have hlimit := hchains i hi
      exact hcovered parent hforest (by omega) i hchild

omit hchains in
theorem eq_nil_of_toList {f : Forest ℕ} (h : f.toList = []) : f = .nil := by
  cases f with
  | nil => rfl
  | leaf a next => cases h
  | node a kids next => cases h

theorem plan_linked : (plan entries).Linked (parentIndex entries) none := by
  have hroots : (rootPass entries).1.Linked (parentIndex entries) none := by
    refine linked_growEach (fun i hi done => ?_) []
    rw [← (rootIndices_lt hi).2]
    exact linked_grow _ i done
  obtain ⟨horphans, -⟩ := grown_growEach (n := entries.length) (g := grow entries (kMaxEntryDepth - 1))
    (l := List.range entries.length) (fun i hi done => grown_grow _ (List.mem_range.mp hi) done)
    (rootPass entries).2
  have hnodup := horphans.perm.nodup_iff.mp
    (horphans.nodup ((grown_rootPass entries).1.nodup List.nodup_nil))
  have hnil : (growEach (grow entries (kMaxEntryDepth - 1)) (List.range entries.length)
      (rootPass entries).2).1.toList = [] := by
    refine List.eq_nil_iff_forall_not_mem.mpr fun i hi => ?_
    exact (List.nodup_append.mp hnodup).2.2 i hi i (rootPass_all hchains i (horphans.bound i hi)) rfl
  unfold plan
  rw [eq_nil_of_toList hnil]
  exact hroots.append trivial

end chains

end plan

end CheatEngine.CtFile
