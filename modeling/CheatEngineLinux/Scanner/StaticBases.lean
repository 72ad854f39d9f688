import CheatEngineLinux.Scanner.PointerMap

/-!
# Static bases: the modules a pointer path can name

A path names its module, and every resolver takes the first module of that name.  So the scan
keeps the indices of the modules it may name and looks a slot up among them, by a walk when
some overlap and by binary search otherwise.

* `nameable` / `mem_nameable_iff` — the named, non-empty modules that no earlier non-empty
  module shares its name with;
* `findModule` / `findModule_eq` — **PROVED**: both lookups give the first nameable module
  that holds the address.
-/

namespace CheatEngine

def ModuleInfo.named (m : ModuleInfo) : Bool := !m.name.isEmpty && decide (m.size > 0)

/-- The indices of the modules a path can name, in list order: named, not empty, and the
first such module of that name (`seen` holds the names already taken). -/
def nameableFrom (seen : List String) : ℕ → List ModuleInfo → List ℕ
  | _, [] => []
  | i, m :: rest =>
    if m.named && !seen.contains m.name then
      i :: nameableFrom (m.name :: seen) (i + 1) rest
    else nameableFrom seen (i + 1) rest

def nameable (modules : List ModuleInfo) : List ℕ := nameableFrom [] 0 modules

def moduleAt (modules : List ModuleInfo) (i : ℕ) : ModuleInfo := modules.getD i default

/-- Whether `addr` lies in the module. -/
def ModuleInfo.holds (m : ModuleInfo) (addr : UInt64) : Bool :=
  decide (m.base ≤ addr) && decide (addr - m.base < m.size)

/-- `nameable` ordered by base.  Modules with equal bases overlap, so the order in which the
sort leaves them is never looked at. -/
def byBase (modules : List ModuleInfo) : List ℕ :=
  BinarySearch.sortBy (fun i => (moduleAt modules i).base.toNat) (nameable modules)

/-- Whether some module begins inside the one before it. -/
def overlapping (modules : List ModuleInfo) : Bool :=
  ((byBase modules).zip (byBase modules).tail).any fun p =>
    decide ((moduleAt modules p.2).base - (moduleAt modules p.1).base
      < (moduleAt modules p.1).size)

/-- The first nameable module that holds `addr`, as its index in the module list. -/
def findModule (modules : List ModuleInfo) (addr : UInt64) : Option ℕ :=
  if overlapping modules then
    (nameable modules).find? fun i => (moduleAt modules i).holds addr
  else
    let it := BinarySearch.upperBound (fun i => (moduleAt modules i).base.toNat)
      (byBase modules) addr.toNat
    if it = 0 then none
    else
      match (byBase modules)[it - 1]? with
      | some i =>
        if addr - (moduleAt modules i).base < (moduleAt modules i).size then some i else none
      | none => none

/-! ### What `nameable` lists -/

theorem moduleAt_cons_succ (m : ModuleInfo) (rest : List ModuleInfo) (i : ℕ) :
    moduleAt (m :: rest) (i + 1) = moduleAt rest i := rfl

theorem mem_nameableFrom (modules : List ModuleInfo) : ∀ (seen : List String) (k i : ℕ),
    i ∈ nameableFrom seen k modules ↔
      ∃ d < modules.length, i = k + d ∧ (moduleAt modules d).named = true ∧
        (moduleAt modules d).name ∉ seen ∧
        ∀ d' < d, (moduleAt modules d').named = true →
          (moduleAt modules d').name ≠ (moduleAt modules d).name := by
  induction modules with
  | nil => simp [nameableFrom]
  | cons m rest ih =>
    intro seen k i
    rw [nameableFrom]
    by_cases hm : m.named && !seen.contains m.name
    · rw [if_pos hm, List.mem_cons, ih]
      simp only [Bool.and_eq_true, Bool.not_eq_true', List.contains_eq_mem,
        decide_eq_false_iff_not] at hm
      constructor
      · rintro (rfl | ⟨d, hd, rfl, hn, hs, hu⟩)
        · exact ⟨0, by simp, rfl, hm.1, hm.2, fun d' h => absurd h (Nat.not_lt_zero d')⟩
        · refine ⟨d + 1, by simpa using hd, by omega, hn,
            fun h => hs (List.mem_cons_of_mem _ h), ?_⟩
          rintro (_ | d') hd' hnamed
          · exact fun h => hs (by rw [← moduleAt_cons_succ m rest d, ← h]; exact List.mem_cons_self)
          · exact hu d' (by omega) hnamed
      · rintro ⟨_ | d, hd, rfl, hn, hs, hu⟩
        · exact Or.inl rfl
        · refine Or.inr ⟨d, by simpa using hd, by omega, hn, ?_, ?_⟩
          · rw [List.mem_cons, not_or]
            exact ⟨fun h => hu 0 (by omega) hm.1 h.symm, hs⟩
          · intro d' hd' hnamed
            exact hu (d' + 1) (by omega) hnamed
    · rw [if_neg hm, ih]
      constructor
      · rintro ⟨d, hd, rfl, hn, hs, hu⟩
        refine ⟨d + 1, by simpa using hd, by omega, hn, hs, ?_⟩
        rintro (_ | d') hd' hnamed
        · intro h
          -- the head was not taken, so its name is already in `seen`
          have hmem : m.name ∈ seen := by
            have hnamed' : m.named = true := hnamed
            simpa [hnamed'] using hm
          exact hs (by rw [← moduleAt_cons_succ m rest d, ← h]; exact hmem)
        · exact hu d' (by omega) hnamed
      · rintro ⟨_ | d, hd, rfl, hn, hs, hu⟩
        · have hn' : m.named = true := hn
          have hs' : m.name ∉ seen := hs
          simp [hn', hs'] at hm
        · exact ⟨d, by simpa using hd, by omega, hn, hs,
            fun d' hd' hnamed => hu (d' + 1) (by omega) hnamed⟩

theorem mem_nameable_iff (modules : List ModuleInfo) (i : ℕ) :
    i ∈ nameable modules ↔ i < modules.length ∧ (moduleAt modules i).named = true ∧
      ∀ j < i, (moduleAt modules j).named = true →
        (moduleAt modules j).name ≠ (moduleAt modules i).name := by
  rw [nameable, mem_nameableFrom]
  constructor
  · rintro ⟨d, hd, rfl, hn, -, hu⟩
    rw [Nat.zero_add]
    exact ⟨hd, hn, hu⟩
  · rintro ⟨hi, hn, hu⟩
    exact ⟨i, hi, (Nat.zero_add i).symm, hn, List.not_mem_nil, hu⟩

theorem nameableFrom_sorted (modules : List ModuleInfo) : ∀ (seen : List String) (k : ℕ),
    (nameableFrom seen k modules).Pairwise (· < ·) ∧ ∀ i ∈ nameableFrom seen k modules, k ≤ i := by
  induction modules with
  | nil => exact fun _ _ => ⟨List.Pairwise.nil, fun _ h => absurd h List.not_mem_nil⟩
  | cons m rest ih =>
    intro seen k
    rw [nameableFrom]
    split
    · obtain ⟨hs, hle⟩ := ih (m.name :: seen) (k + 1)
      refine ⟨List.pairwise_cons.mpr ⟨fun i hi => hle i hi, hs⟩, fun i hi => ?_⟩
      rcases List.mem_cons.mp hi with rfl | hi
      · exact le_refl _
      · exact Nat.le_of_succ_le (hle i hi)
    · obtain ⟨hs, hle⟩ := ih seen (k + 1)
      exact ⟨hs, fun i hi => Nat.le_of_succ_le (hle i hi)⟩

theorem nameable_sorted (modules : List ModuleInfo) : (nameable modules).Pairwise (· < ·) :=
  (nameableFrom_sorted modules [] 0).1

theorem nameable_name_inj {modules : List ModuleInfo} {i j : ℕ} (hi : i ∈ nameable modules)
    (hj : j ∈ nameable modules) (h : (moduleAt modules i).name = (moduleAt modules j).name) :
    i = j := by
  obtain ⟨-, hni, hui⟩ := (mem_nameable_iff modules i).mp hi
  obtain ⟨-, hnj, huj⟩ := (mem_nameable_iff modules j).mp hj
  rcases Nat.lt_trichotomy i j with hlt | heq | hgt
  · exact absurd h (huj i hlt hni)
  · exact heq
  · exact absurd h.symm (hui j hgt hnj)

/-! ### The two lookups agree -/

theorem holds_iff (m : ModuleInfo) (addr : UInt64) :
    m.holds addr = true ↔
      m.base.toNat ≤ addr.toNat ∧ addr.toNat < m.base.toNat + m.size.toNat := by
  rw [ModuleInfo.holds, Bool.and_eq_true, decide_eq_true_eq, decide_eq_true_eq,
    UInt64.le_iff_toNat_le, UInt64.lt_iff_toNat_lt]
  constructor
  · rintro ⟨h1, h2⟩
    rw [UInt64.toNat_sub_of_le _ _ (UInt64.le_iff_toNat_le.mpr h1)] at h2
    omega
  · rintro ⟨h1, h2⟩
    rw [UInt64.toNat_sub_of_le _ _ (UInt64.le_iff_toNat_le.mpr h1)]
    omega

theorem byBase_sorted (modules : List ModuleInfo) :
    (byBase modules).Pairwise fun a b =>
      (moduleAt modules a).base.toNat ≤ (moduleAt modules b).base.toNat :=
  BinarySearch.sortBy_sorted _ _

theorem mem_byBase (modules : List ModuleInfo) (i : ℕ) :
    i ∈ byBase modules ↔ i ∈ nameable modules :=
  (BinarySearch.sortBy_perm _ _).mem_iff

theorem byBase_gap {modules : List ModuleInfo} (h : overlapping modules = false) {p q : ℕ}
    (hp : p < (byBase modules).length) (hq : q < (byBase modules).length) (hpq : p < q) :
    (moduleAt modules (byBase modules)[p]).base.toNat
        + (moduleAt modules (byBase modules)[p]).size.toNat
      ≤ (moduleAt modules (byBase modules)[q]).base.toNat := by
  have hs := byBase_sorted modules
  rw [overlapping, List.any_eq_false] at h
  have hp1 : p + 1 < (byBase modules).length := by omega
  have hmem : ((byBase modules)[p], (byBase modules)[p + 1])
      ∈ (byBase modules).zip (byBase modules).tail := by
    rw [List.mem_iff_getElem]
    exact ⟨p, by simp; omega, by simp⟩
  have hle := BinarySearch.key_mono hs (show p ≤ p + 1 by omega) hp hp1
  have hno := h _ hmem
  simp only [decide_eq_true_eq, UInt64.lt_iff_toNat_lt,
    UInt64.toNat_sub_of_le _ _ (UInt64.le_iff_toNat_le.mpr hle)] at hno
  have hnext := BinarySearch.key_mono hs (show p + 1 ≤ q by omega) hp1 hq
  omega

theorem eq_of_holds {modules : List ModuleInfo} (h : overlapping modules = false) {addr : UInt64}
    {i it : ℕ} (hi : i ∈ byBase modules) (hh : (moduleAt modules i).holds addr = true)
    (hit : it = BinarySearch.upperBound (fun i => (moduleAt modules i).base.toNat)
      (byBase modules) addr.toNat) :
    it ≠ 0 ∧ (byBase modules)[it - 1]? = some i := by
  have hs := byBase_sorted modules
  obtain ⟨hlo, hhi⟩ := (holds_iff _ _).mp hh
  obtain ⟨p, hp, rfl⟩ := List.getElem_of_mem hi
  have hpit : p < it := by
    rw [hit]
    exact (BinarySearch.lt_upperBound_iff hs _ p hp).mpr hlo
  have hlen : it ≤ (byBase modules).length := by
    rw [hit]
    exact BinarySearch.upperBound_le hs _
  have hlast : it - 1 < (byBase modules).length := by omega
  have hbase : (moduleAt modules (byBase modules)[it - 1]).base.toNat ≤ addr.toNat := by
    apply (BinarySearch.lt_upperBound_iff hs addr.toNat (it - 1) hlast).mp
    rw [← hit]
    omega
  have hpe : p = it - 1 := by
    by_contra hne
    have := byBase_gap h hp hlast (show p < it - 1 by omega)
    omega
  subst hpe
  exact ⟨by omega, List.getElem?_eq_getElem hlast⟩

theorem findModule_eq (modules : List ModuleInfo) (addr : UInt64) :
    findModule modules addr =
      (nameable modules).find? fun i => (moduleAt modules i).holds addr := by
  unfold findModule
  by_cases ho : overlapping modules = true
  · rw [if_pos ho]
  · have ho' : overlapping modules = false := by simpa using ho
    rw [if_neg ho]
    simp only
    set it := BinarySearch.upperBound (fun i => (moduleAt modules i).base.toNat)
      (byBase modules) addr.toNat with hit
    have hs := byBase_sorted modules
    cases hf : (nameable modules).find? fun i => (moduleAt modules i).holds addr with
    | some i =>
      have hh := List.find?_some hf
      have hi := (mem_byBase modules i).mpr (List.mem_of_find?_eq_some hf)
      obtain ⟨h0, hget⟩ := eq_of_holds ho' hi hh hit
      rw [if_neg h0, hget]
      have hlt := (Bool.and_eq_true _ _).mp hh
      simp only [decide_eq_true_eq] at hlt
      exact if_pos hlt.2
    | none =>
      rw [List.find?_eq_none] at hf
      by_cases h0 : it = 0
      · rw [if_pos h0]
      · rw [if_neg h0]
        have hlen : it ≤ (byBase modules).length := BinarySearch.upperBound_le hs _
        have hlast : it - 1 < (byBase modules).length := by omega
        rw [List.getElem?_eq_getElem hlast]
        have hbase : (moduleAt modules (byBase modules)[it - 1]).base.toNat ≤ addr.toNat := by
          apply (BinarySearch.lt_upperBound_iff hs addr.toNat (it - 1) hlast).mp
          omega
        have hno := hf _ ((mem_byBase modules _).mp (List.getElem_mem hlast))
        simp only [ModuleInfo.holds, Bool.and_eq_true, decide_eq_true_eq, not_and] at hno
        exact if_neg (hno (UInt64.le_iff_toNat_le.mpr hbase))

theorem findModule_some {modules : List ModuleInfo} {addr : UInt64} {i : ℕ}
    (h : findModule modules addr = some i) :
    i ∈ nameable modules ∧ (moduleAt modules i).holds addr = true := by
  rw [findModule_eq] at h
  have hh := List.find?_some h
  exact ⟨List.mem_of_find?_eq_some h, hh⟩

theorem findModule_isSome_iff (modules : List ModuleInfo) (addr : UInt64) :
    (findModule modules addr).isSome = true ↔
      ∃ i ∈ nameable modules, (moduleAt modules i).holds addr = true := by
  rw [findModule_eq, List.find?_isSome]

theorem findModule_eq_some_iff (modules : List ModuleInfo) (addr : UInt64) (i : ℕ) :
    findModule modules addr = some i ↔
      i ∈ nameable modules ∧ (moduleAt modules i).holds addr = true ∧
        ∀ k ∈ nameable modules, k < i → (moduleAt modules k).holds addr = false := by
  have hfirst : ∀ {j : ℕ}, findModule modules addr = some j →
      ∀ k ∈ nameable modules, k < j → (moduleAt modules k).holds addr = false := by
    intro j hj k hk hkj
    rw [findModule_eq, List.find?_eq_some_iff_append] at hj
    obtain ⟨-, as, bs, hsplit, has⟩ := hj
    have hs := nameable_sorted modules
    rw [hsplit, List.pairwise_append, List.pairwise_cons] at hs
    rw [hsplit, List.mem_append, List.mem_cons] at hk
    rcases hk with hk | rfl | hk
    · simpa using has k hk
    · exact absurd hkj (Nat.lt_irrefl _)
    · exact absurd hkj (Nat.lt_asymm (hs.2.1.1 k hk))
  constructor
  · intro h
    obtain ⟨hi, hh⟩ := findModule_some h
    exact ⟨hi, hh, hfirst h⟩
  · rintro ⟨hi, hh, hlt⟩
    obtain ⟨j, hj⟩ := Option.isSome_iff_exists.mp
      ((findModule_isSome_iff modules addr).mpr ⟨i, hi, hh⟩)
    obtain ⟨hjm, hjh⟩ := findModule_some hj
    rcases Nat.lt_trichotomy i j with h | rfl | h
    · rw [hfirst hj i hi h] at hh
      cases hh
    · exact hj
    · rw [hlt j hjm h] at hjh
      cases hjh


end CheatEngine
