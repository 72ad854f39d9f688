import CheatEngineLinux.Core.ScriptBlocks

/-!
# A failed run and the names all scripts share

The auto-assembler keeps symbols and allocations by name, for all scripts together.  A run that
fails takes back what it did to them.

* `Tracked`: the names of a run in progress are the names before it, with its own blocks over them.
* `SameTables`: names, owners, tracked blocks and their mappings are as they were.

* **PROVED `tracked_runAlloc`**: one allocation keeps `Tracked` where its name is free.
* **PROVED `failed_run_keeps_tables`**: a failed run whose rollback succeeds leaves all tables
  alone, unless a deferred `dealloc` failed after another one.
* **PROVED `failed_run_loses_block`**: an `alloc` of a name that another script uses does not.
-/

namespace CheatEngine.AutoAssembler

open ByteOverlay Stages

/-! ### The run's own names -/

def lastNamed (allocs : List AllocEntry) (name : String) : Option AllocEntry :=
  allocs.reverse.find? fun a => a.name == name

theorem lastNamed_append (allocs : List AllocEntry) (a : AllocEntry) (name : String) :
    lastNamed (allocs ++ [a]) name = if a.name = name then some a else lastNamed allocs name := by
  unfold lastNamed
  rw [List.reverse_append, List.reverse_singleton, List.singleton_append, List.find?_cons]
  by_cases h : a.name = name
  · simp [h]
  · rw [if_neg h, beq_false_of_ne h]

theorem lastNamed_eq_none {allocs : List AllocEntry} {name : String} :
    lastNamed allocs name = none ↔ ∀ a ∈ allocs, a.name ≠ name := by
  simp [lastNamed]

theorem lastNamed_mem {allocs : List AllocEntry} {name : String} {a : AllocEntry}
    (h : lastNamed allocs name = some a) : a ∈ allocs ∧ a.name = name := by
  unfold lastNamed at h
  exact ⟨List.mem_reverse.mp (List.mem_of_find?_eq_some h), by simpa using List.find?_some h⟩

structure Tracked (owner : ℕ) (before : World) (s : Run) : Prop
    extends OwnBlocks owner before s where
  globalSymbols : s.world.tables.globalSymbols = before.tables.globalSymbols
  symbolOwners : s.world.tables.symbolOwners = before.tables.symbolOwners
  symbols : s.info.symbols = []
  own : ∀ a ∈ s.info.allocs, a.owner = owner
  known : ∀ name, s.world.tables.knownAllocations.find name =
    (lastNamed s.info.allocs name).or (before.tables.knownAllocations.find name)
  previous : ∀ b ∈ s.newGlobalBlocks,
    b.previous = before.tables.knownAllocations.find b.name ∧
      b.wasGlobal = before.tables.globalAllocations.contains b.name
  blocks : ∀ b ∈ s.newGlobalBlocks, lastNamed s.info.allocs b.name ≠ none
  replaced : ∀ a ∈ s.info.allocs, before.tables.knownAllocations.find a.name ≠ none →
    ∃ b ∈ s.newGlobalBlocks, b.name = a.name
  globalAllocations : ∀ name, s.world.tables.globalAllocations.contains name =
    (before.tables.globalAllocations.contains name || s.newGlobalBlocks.any (·.name == name))

theorem Tracked.of_patched {owner : ℕ} {before : World} {s s' : Run} (h : Tracked owner before s)
    (hp : s.Patched s') : Tracked owner before s' where
  toOwnBlocks := h.toOwnBlocks.of_patched hp
  globalSymbols := by rw [hp.tables, h.globalSymbols]
  symbolOwners := by rw [hp.tables, h.symbolOwners]
  symbols := by rw [hp.record.symbols, h.symbols]
  own := by rw [hp.record.allocs]; exact h.own
  known := by rw [hp.record.allocs, hp.tables]; exact h.known
  previous := by rw [hp.newGlobalBlocks]; exact h.previous
  blocks := by rw [hp.record.allocs, hp.newGlobalBlocks]; exact h.blocks
  replaced := by rw [hp.record.allocs, hp.newGlobalBlocks]; exact h.replaced
  globalAllocations := by rw [hp.tables, hp.newGlobalBlocks]; exact h.globalAllocations

/-! ### One allocation -/

theorem tracked_allocated {owner : ℕ} {before : World} {s : Run} (h : Tracked owner before s)
    {a : Alloc} {address : ℕ} (hfits : s.world.target.fits address a.size = true)
    (hplain : a.global = false → before.tables.knownAllocations.find a.name = none)
    (hglobal : a.global = true → lastNamed s.info.allocs a.name = none) :
    Tracked owner before ((s.mapNew address a.size).allocated owner a address) := by
  obtain ⟨entry, hentry⟩ : ∃ entry : AllocEntry, entry = ⟨a.name, address,
      mappedSize (s.mapNew address a.size).world.target s.info.image a.size, s.world.next, owner,
      s.info.image⟩ := ⟨_, rfl⟩
  have hname : entry.name = a.name := by rw [hentry]
  have hallocs : ((s.mapNew address a.size).allocated owner a address).info.allocs =
      s.info.allocs ++ [entry] := by rw [hentry]; rfl
  have htables : ((s.mapNew address a.size).allocated owner a address).world.tables =
      s.world.tables.track a.global entry := by rw [hentry]; rfl
  have hnoBlock : a.global = true → s.newGlobalBlocks.any (·.name == a.name) = false := by
    intro hg
    rw [List.any_eq_false]
    intro b hb hbname
    exact h.blocks b hb ((beq_iff_eq.mp hbname) ▸ hglobal hg)
  refine ⟨ownBlocks_allocated h.toOwnBlocks hfits, h.globalSymbols, h.symbolOwners, h.symbols, ?_,
    ?_, ?_, ?_, ?_, ?_⟩
  · rw [hallocs]
    intro b hb
    rcases List.mem_append.mp hb with hb | hb
    · exact h.own b hb
    · rw [List.mem_singleton.mp hb, hentry]
  · intro name
    rw [htables, hallocs, lastNamed_append]
    change (s.world.tables.knownAllocations.insert entry.name entry).find name = _
    rw [Table.find_insert, h.known]
    by_cases heq : entry.name = name
    · rw [if_pos heq.symm, if_pos heq]
      rfl
    · rw [if_neg (Ne.symm heq), if_neg heq]
  · intro b hb
    change b ∈ (if a.global then s.newGlobalBlocks ++ _ else s.newGlobalBlocks) at hb
    split at hb
    · rename_i hg
      rcases List.mem_append.mp hb with hb | hb
      · exact h.previous b hb
      · rw [List.mem_singleton.mp hb]
        change s.world.tables.knownAllocations.find a.name = _ ∧
          s.world.tables.globalAllocations.contains a.name = _
        rw [h.known, hglobal hg, h.globalAllocations, hnoBlock hg, Bool.or_false]
        exact ⟨rfl, rfl⟩
    · exact h.previous b hb
  · rw [hallocs]
    intro b hb
    rw [lastNamed_append]
    change b ∈ (if a.global then s.newGlobalBlocks ++ _ else s.newGlobalBlocks) at hb
    have hold : b ∈ s.newGlobalBlocks →
        (if entry.name = b.name then some entry else lastNamed s.info.allocs b.name) ≠ none := by
      intro hb
      split
      · exact Option.some_ne_none _
      · exact h.blocks b hb
    split at hb
    · rcases List.mem_append.mp hb with hb | hb
      · exact hold hb
      · rw [List.mem_singleton.mp hb, if_pos hname]
        exact Option.some_ne_none _
    · exact hold hb
  · rw [hallocs]
    intro b hb hbefore
    change ∃ c ∈ (if a.global then s.newGlobalBlocks ++ _ else s.newGlobalBlocks), _
    rcases List.mem_append.mp hb with hb | hb
    · obtain ⟨c, hc, hcname⟩ := h.replaced b hb hbefore
      refine ⟨c, ?_, hcname⟩
      split
      · exact List.mem_append_left _ hc
      · exact hc
    · rw [List.mem_singleton.mp hb, hname] at hbefore ⊢
      cases hg : a.global with
      | false => exact absurd (hplain hg) hbefore
      | true => exact ⟨_, List.mem_append_right _ (List.mem_singleton.mpr rfl), rfl⟩
  · intro name
    rw [htables, contains_track, h.globalAllocations, hname]
    change _ = (_ || (if a.global then s.newGlobalBlocks ++ _ else s.newGlobalBlocks).any _)
    cases hg : a.global with
    | false => simp
    | true => simp [Bool.or_assoc]

theorem tracked_runAlloc {owner : ℕ} {before : World} {s : Run} (h : Tracked owner before s)
    {a : Alloc} (hplain : a.global = false → before.tables.knownAllocations.find a.name = none)
    (hglobal : a.global = true → lastNamed s.info.allocs a.name = none) :
    Tracked owner before (outcome (runAlloc owner a s)) ∧
      ∀ e ∈ (outcome (runAlloc owner a s)).info.allocs, e ∈ s.info.allocs ∨ e.name = a.name := by
  rcases runAlloc_cases owner a s with ⟨address, hrun⟩ | ⟨s', hrun, hp⟩ | ⟨address, hfits, hrun⟩
  · rw [hrun]
    exact ⟨{ h with }, fun e he => Or.inl he⟩
  · rw [hrun]
    refine ⟨h.of_patched hp, fun e he => Or.inl ?_⟩
    rw [← hp.record.allocs]
    exact he
  · rw [hrun]
    refine ⟨tracked_allocated h hfits hplain hglobal, fun e he => ?_⟩
    rcases List.mem_append.mp he with he | he
    · exact Or.inl he
    · rw [List.mem_singleton.mp he]
      exact Or.inr rfl

/-! ### All allocations -/

/-- The names a script may allocate: an `alloc` no name that is tracked, a `globalalloc` no name
that the script allocated before it. -/
structure Script.NamesFree (script : Script) (tables : Tables) : Prop where
  plain : ∀ a ∈ script.allocs, a.global = false → tables.knownAllocations.find a.name = none
  global : script.allocs.Pairwise fun a b => b.global = true → b.name ≠ a.name

theorem tracked_allocs {owner : ℕ} {before : World} {allocs : List Alloc} {s : Run}
    (h : Tracked owner before s)
    (hplain : ∀ a ∈ allocs, a.global = false →
      before.tables.knownAllocations.find a.name = none)
    (hglobal : allocs.Pairwise fun a b => b.global = true → b.name ≠ a.name)
    (hseen : ∀ e ∈ s.info.allocs, ∀ b ∈ allocs, b.global = true → b.name ≠ e.name) :
    Tracked owner before (outcome (allocs.foldlM (fun s a => runAlloc owner a s) s)) := by
  induction allocs generalizing s with
  | nil => exact h
  | cons a allocs ih =>
    have hnone : a.global = true → lastNamed s.info.allocs a.name = none := by
      intro hg
      rw [lastNamed_eq_none]
      exact fun e he => (hseen e he a List.mem_cons_self hg).symm
    obtain ⟨hstep, hnames⟩ :=
      tracked_runAlloc h (hplain a List.mem_cons_self) hnone
    rw [List.foldlM_cons]
    rw [List.pairwise_cons] at hglobal
    cases hrun : runAlloc owner a s with
    | error s' =>
      rw [hrun] at hstep
      exact hstep
    | ok s' =>
      rw [hrun] at hstep hnames
      refine ih hstep (fun b hb => hplain b (List.mem_cons_of_mem _ hb)) hglobal.2 ?_
      intro e he b hb hg
      rcases hnames e he with he | he
      · exact hseen e he b (List.mem_cons_of_mem _ hb) hg
      · rw [he]
        exact hglobal.1 b hb hg

/-! ### Where a run stops -/

def runLines (owner : ℕ) (script : Script) (s : Run) : Except Run Run := do
  let s ← script.allocs.foldlM (fun s a => runAlloc owner a s) s
  script.lines.foldlM (fun s line => runLine line s) s

/-- No deferred `dealloc` fails once an earlier one named a tracked block. -/
def DeallocsClear (owner : ℕ) (script : Script) (start : Run) : Prop :=
  ∀ s pre name post s₁ s₂, runLines owner script start = .ok s →
    s.deferredDeallocs = pre ++ name :: post →
    pre.foldlM (fun s name => runDealloc name s) s = .ok s₁ → runDealloc name s₁ = .error s₂ →
    ∀ other ∈ pre, s.world.tables.knownAllocations.find other = none

theorem foldlM_runDealloc_untracked {names : List String} {s : Run}
    (h : ∀ name ∈ names, s.world.tables.knownAllocations.find name = none) :
    names.foldlM (fun s name => runDealloc name s) s = .ok s := by
  induction names with
  | nil => rfl
  | cons name names ih =>
    have hname := h name List.mem_cons_self
    rw [List.foldlM_cons]
    rcases runDealloc_cases name s with ⟨-, hrun⟩ | ⟨⟨entry, hentry⟩, -⟩
    · rw [hrun]
      exact ih fun other hother => h other (List.mem_cons_of_mem _ hother)
    · rw [hname] at hentry
      cases hentry

theorem tracked_runLines {owner : ℕ} {before : World} {script : Script} {start : Run}
    (h : Tracked owner before start) (hnames : script.NamesFree before.tables)
    (hnone : start.info.allocs = []) :
    Tracked owner before (outcome (runLines owner script start)) := by
  have hallocs := tracked_allocs h hnames.plain hnames.global (by rw [hnone]; simp)
  unfold runLines
  cases hrun : script.allocs.foldlM (fun s a => runAlloc owner a s) start with
  | error s =>
    rw [hrun] at hallocs
    exact hallocs
  | ok s =>
    rw [hrun] at hallocs
    exact Tracked.of_patched hallocs (patched_lines script.lines s)

theorem tracked_stop {owner : ℕ} {before : World} {script : Script} {start s : Run}
    (h : Tracked owner before start) (hnames : script.NamesFree before.tables)
    (hnone : start.info.allocs = []) (hdeallocs : DeallocsClear owner script start)
    (hstop : runStages owner script start = .error s) : Tracked owner before s := by
  unfold runStages at hstop
  split at hstop
  · cases hstop
    exact h.of_patched (start.patched_fail _)
  · have hlines := tracked_runLines h hnames hnone
    have hstages : (runLines owner script start >>= fun s =>
        s.deferredDeallocs.foldlM (fun s name => runDealloc name s) s) = .error s := by
      rw [← hstop, runLines, bind_assoc]
    cases hrun : runLines owner script start with
    | error s' =>
      rw [hrun] at hstages hlines
      cases hstages
      exact hlines
    | ok s' =>
      rw [hrun] at hstages hlines
      obtain ⟨pre, name, post, s₁, hsplit, hpre, hfail⟩ := foldlM_eq_error hstages
      have huntracked := hdeallocs s' pre name post s₁ s hrun hsplit hpre hfail
      rw [foldlM_runDealloc_untracked huntracked] at hpre
      cases hpre
      rcases runDealloc_cases name s' with ⟨-, hok⟩ | ⟨-, hpatched⟩
      · rw [hok] at hfail
        cases hfail
      · exact Tracked.of_patched hlines (hpatched s hfail)

/-! ### Forgetting the run's blocks -/

theorem find_forget (tables : Tables) (a : AllocEntry) (name : String) :
    (tables.forget a).knownAllocations.find name = tables.knownAllocations.find name ∨
      (tables.forget a).knownAllocations.find name = none := by
  unfold Tables.forget
  split
  · exact Or.inl rfl
  · split
    · dsimp only
      rw [Table.find_erase]
      split
      · exact Or.inr rfl
      · exact Or.inl rfl
    · exact Or.inl rfl

theorem find_forget_of_ne {tables : Tables} {a : AllocEntry} {name : String} (h : a.name ≠ name) :
    (tables.forget a).knownAllocations.find name = tables.knownAllocations.find name := by
  unfold Tables.forget
  split
  · rfl
  · split
    · dsimp only
      rw [Table.find_erase, if_neg (Ne.symm h)]
    · rfl

theorem find_forget_self {tables : Tables} {a : AllocEntry}
    (h : tables.knownAllocations.find a.name = some a) :
    (tables.forget a).knownAllocations.find a.name = none := by
  unfold Tables.forget
  rw [h]
  simp only [and_self, if_true]
  rw [Table.find_erase, if_pos rfl]

theorem find_forgetAll_of_ne {allocs : List AllocEntry} {tables : Tables} {name : String}
    (h : ∀ a ∈ allocs, a.name ≠ name) :
    (allocs.foldl Tables.forget tables).knownAllocations.find name =
      tables.knownAllocations.find name := by
  induction allocs generalizing tables with
  | nil => rfl
  | cons a allocs ih =>
    rw [List.foldl_cons, ih fun b hb => h b (List.mem_cons_of_mem _ hb),
      find_forget_of_ne (h a List.mem_cons_self)]

theorem find_forgetAll_of_none {allocs : List AllocEntry} {tables : Tables} {name : String}
    (h : tables.knownAllocations.find name = none) :
    (allocs.foldl Tables.forget tables).knownAllocations.find name = none := by
  induction allocs generalizing tables with
  | nil => exact h
  | cons a allocs ih =>
    rw [List.foldl_cons]
    refine ih ?_
    rcases find_forget tables a name with heq | heq
    · rw [heq, h]
    · exact heq

theorem find_forgetAll_of_mem {allocs : List AllocEntry} {tables : Tables} {e : AllocEntry}
    (h : tables.knownAllocations.find e.name = some e) (he : e ∈ allocs) :
    (allocs.foldl Tables.forget tables).knownAllocations.find e.name = none := by
  induction allocs generalizing tables with
  | nil => cases he
  | cons a allocs ih =>
    rw [List.foldl_cons]
    rcases find_forget tables a e.name with heq | heq
    · rcases List.mem_cons.mp he with rfl | he
      · exact find_forgetAll_of_none (find_forget_self h)
      · exact ih (heq.trans h) he
    · exact find_forgetAll_of_none heq

theorem forgetAll_others (allocs : List AllocEntry) (tables : Tables) :
    (allocs.foldl Tables.forget tables).globalSymbols = tables.globalSymbols ∧
      (allocs.foldl Tables.forget tables).symbolOwners = tables.symbolOwners ∧
      (allocs.foldl Tables.forget tables).globalAllocations = tables.globalAllocations := by
  induction allocs generalizing tables with
  | nil => exact ⟨rfl, rfl, rfl⟩
  | cons a allocs ih =>
    have hstep : (tables.forget a).globalSymbols = tables.globalSymbols ∧
        (tables.forget a).symbolOwners = tables.symbolOwners ∧
        (tables.forget a).globalAllocations = tables.globalAllocations := by
      unfold Tables.forget
      split
      · exact ⟨rfl, rfl, rfl⟩
      · split
        · exact ⟨rfl, rfl, rfl⟩
        · exact ⟨rfl, rfl, rfl⟩
    obtain ⟨h₁, h₂, h₃⟩ := ih (tables.forget a)
    exact ⟨h₁.trans hstep.1, h₂.trans hstep.2.1, h₃.trans hstep.2.2⟩

/-! ### Taking the globalalloc names back -/

theorem find_restoreBlocks {blocks : List NewGlobalBlock} {known : String → Option AllocEntry}
    (hprevious : ∀ b ∈ blocks, b.previous = known b.name) (tables : Tables) (name : String) :
    (blocks.foldl (fun tables b => tables.restoreBlock [] b) tables).knownAllocations.find name =
      if blocks.any (·.name == name) then (tables.knownAllocations.find name).or (known name)
      else tables.knownAllocations.find name := by
  induction blocks generalizing tables with
  | nil => rfl
  | cons b blocks ih =>
    have hstep : (tables.restoreBlock [] b).knownAllocations.find name =
        if b.name = name then (tables.knownAllocations.find name).or (known name)
        else tables.knownAllocations.find name := by
      unfold Tables.restoreBlock
      simp only [List.any_nil, Bool.false_eq_true, if_false, hprevious b List.mem_cons_self]
      cases hk : known b.name with
      | none =>
        dsimp only
        split
        · rename_i hname
          rw [← hname, hk, Option.or_none]
        · rfl
      | some previous =>
        cases hf : tables.knownAllocations.find b.name with
        | none =>
          dsimp only
          rw [Table.find_insert]
          by_cases hname : b.name = name
          · rw [if_pos hname.symm, if_pos hname, ← hname, hf, hk]
            rfl
          · rw [if_neg (Ne.symm hname), if_neg hname]
        | some e =>
          dsimp only
          split
          · rename_i hname
            rw [← hname, hf]
            rfl
          · rfl
    rw [List.foldl_cons, ih (fun c hc => hprevious c (List.mem_cons_of_mem _ hc)), hstep,
      List.any_cons]
    by_cases hname : b.name = name
    · rw [if_pos hname, beq_iff_eq.mpr hname, Bool.true_or, if_pos rfl]
      cases tables.knownAllocations.find name with
      | some e => simp
      | none =>
        cases known name <;> simp
    · rw [if_neg hname, beq_false_of_ne hname, Bool.false_or]

theorem contains_restoreBlocks (blocks : List NewGlobalBlock) (tables : Tables) (name : String) :
    (blocks.foldl (fun tables b => tables.restoreBlock [] b) tables).globalAllocations.contains
        name =
      (tables.globalAllocations.contains name &&
        !blocks.any fun b => b.name == name && !b.wasGlobal) := by
  induction blocks generalizing tables with
  | nil => simp
  | cons b blocks ih =>
    have hstep : (tables.restoreBlock [] b).globalAllocations.contains name =
        (tables.globalAllocations.contains name && !(b.name == name && !b.wasGlobal)) := by
      unfold Tables.restoreBlock
      simp only [List.any_nil, Bool.false_eq_true, if_false]
      cases b.wasGlobal with
      | true => simp
      | false =>
        simp only [Bool.false_eq_true, if_false, Bool.not_false, Bool.and_true]
        rw [Bool.eq_iff_iff]
        simp only [List.contains_iff_mem, List.mem_filter, Bool.and_eq_true, bne_iff_ne,
          Bool.not_eq_true', beq_eq_false_iff_ne]
        exact and_congr_right fun _ => ⟨Ne.symm, Ne.symm⟩
    rw [List.foldl_cons, ih, hstep, List.any_cons, Bool.not_or, Bool.and_assoc]

theorem restoreBlocks_others (blocks : List NewGlobalBlock) (tables : Tables) :
    (blocks.foldl (fun tables b => tables.restoreBlock [] b) tables).globalSymbols =
        tables.globalSymbols ∧
      (blocks.foldl (fun tables b => tables.restoreBlock [] b) tables).symbolOwners =
        tables.symbolOwners := by
  induction blocks generalizing tables with
  | nil => exact ⟨rfl, rfl⟩
  | cons b blocks ih => exact ih (tables.restoreBlock [] b)

/-! ### A failed run -/

/-- Names, their owners, the tracked blocks and whether these are mapped are as they were. -/
structure SameTables (w w' : World) : Prop where
  globalSymbols : ∀ name,
    w'.tables.globalSymbols.find name = w.tables.globalSymbols.find name
  symbolOwners : ∀ name, w'.tables.symbolOwners.find name = w.tables.symbolOwners.find name
  knownAllocations : ∀ name,
    w'.tables.knownAllocations.find name = w.tables.knownAllocations.find name
  globalAllocations : ∀ name,
    w'.tables.globalAllocations.contains name = w.tables.globalAllocations.contains name
  mapped : ∀ name entry, w.tables.knownAllocations.find name = some entry →
    ∀ p, w.target.covers entry.address entry.size p = true →
      (w'.target.pages p).isSome = (w.target.pages p).isSome

theorem sameTables_rollback {owner : ℕ} {before : World} {s : Run} (h : Tracked owner before s)
    (hlive : ∀ image, before.target.image = some image → before.target.check image = .live)
    (hundone : (cleanup s.info s.world).1.success = true) :
    SameTables before (rollback s).2 := by
  obtain ⟨w₁, hsame, herror, hfinal⟩ := cleanup_success h.ownership h.opened
    (by rw [h.image, h.check]; exact hlive) hundone
  obtain ⟨htables, hbits, hpages⟩ := freeAllocs_spec h.flags
    (by rw [hsame.released]; exact h.unreleased) herror
  have hrollback : (rollback s).2.tables = s.newGlobalBlocks.foldl
      (fun tables b => tables.restoreBlock [] b) (cleanup s.info s.world).2.tables ∧
      (rollback s).2.target = (cleanup s.info s.world).2.target := by
    unfold rollback
    dsimp only
    rw [cleanup_result hundone]
    exact ⟨rfl, rfl⟩
  have hcleaned : (cleanup s.info s.world).2.tables =
      s.info.allocs.foldl Tables.forget s.world.tables := by
    rw [hfinal, World.complete, h.symbols, Tables.eraseSymbols, htables, hsame.tables]
  obtain ⟨hsymbols, howners⟩ := restoreBlocks_others s.newGlobalBlocks
    (s.info.allocs.foldl Tables.forget s.world.tables)
  obtain ⟨hsymbols', howners', hglobals⟩ := forgetAll_others s.info.allocs s.world.tables
  have hknown : ∀ name, (s.info.allocs.foldl Tables.forget s.world.tables).knownAllocations.find
      name = if (lastNamed s.info.allocs name).isSome then none
        else before.tables.knownAllocations.find name := by
    intro name
    cases hlast : lastNamed s.info.allocs name with
    | some e =>
      obtain ⟨hmem, rfl⟩ := lastNamed_mem hlast
      exact find_forgetAll_of_mem (by rw [h.known, hlast]; rfl) hmem
    | none =>
      rw [find_forgetAll_of_ne (lastNamed_eq_none.mp hlast), h.known, hlast]
      rfl
  refine ⟨?_, ?_, ?_, ?_, ?_⟩
  · intro name
    rw [hrollback.1, hcleaned, hsymbols, hsymbols', h.globalSymbols]
  · intro name
    rw [hrollback.1, hcleaned, howners, howners', h.symbolOwners]
  · intro name
    rw [hrollback.1, hcleaned, find_restoreBlocks (fun b hb => (h.previous b hb).1), hknown]
    cases hlast : lastNamed s.info.allocs name with
    | none =>
      simp only [Option.isSome_none, Bool.false_eq_true, if_false]
      split
      · cases before.tables.knownAllocations.find name <;> rfl
      · rfl
    | some e =>
      obtain ⟨hmem, rfl⟩ := lastNamed_mem hlast
      simp only [Option.isSome_some, if_true, Option.none_or]
      split
      · rfl
      · rename_i hblock
        by_contra hne
        obtain ⟨b, hb, hbname⟩ := h.replaced e hmem (Ne.symm hne)
        exact hblock (List.any_eq_true.mpr ⟨b, hb, beq_iff_eq.mpr hbname⟩)
  · intro name
    rw [hrollback.1, hcleaned, contains_restoreBlocks, hglobals, h.globalAllocations]
    have hwas : (s.newGlobalBlocks.any fun b => b.name == name && !b.wasGlobal) =
        (s.newGlobalBlocks.any (·.name == name) &&
          !before.tables.globalAllocations.contains name) := by
      rw [Bool.eq_iff_iff, Bool.and_eq_true, List.any_eq_true, List.any_eq_true]
      constructor
      · rintro ⟨b, hb, hboth⟩
        rw [Bool.and_eq_true, (h.previous b hb).2] at hboth
        exact ⟨⟨b, hb, hboth.1⟩, beq_iff_eq.mp hboth.1 ▸ hboth.2⟩
      · rintro ⟨⟨b, hb, hname⟩, hglobal⟩
        refine ⟨b, hb, ?_⟩
        rw [Bool.and_eq_true, (h.previous b hb).2, beq_iff_eq.mp hname]
        exact ⟨beq_self_eq_true _, hglobal⟩
    rw [hwas]
    cases before.tables.globalAllocations.contains name <;>
      cases s.newGlobalBlocks.any (·.name == name) <;> rfl
  · intro name entry hentry p hp
    rw [hrollback.2, hfinal]
    change ((freeAllocs s.info.allocs w₁).2.target.pages p).isSome = _
    rw [hpages p]
    have hblocks : inBlocks w₁.target s.info.allocs p =
        inBlocks before.target s.info.allocs p := by
      unfold inBlocks
      simp only [covers_congr (hsame.target.pageBits.trans h.pageBits)]
    rw [hblocks]
    split
    · rename_i hin
      rw [h.fresh p hin]
    · rename_i hin
      rw [hsame.target.mapped, h.mapped, Bool.eq_false_of_not_eq_true hin, Bool.or_false]

/-- Every tracked block is in an address space that still exists. -/
def World.TrackedLive (w : World) : Prop :=
  ∀ name entry, w.tables.knownAllocations.find name = some entry →
    ∀ image, entry.image = some image → w.target.check image = .live

theorem forgetRetired_of_live {w : World} (h : w.TrackedLive) (names : List String) :
    names.foldl (Tables.forgetRetired w.target) w.tables = w.tables := by
  have hstep : ∀ name, Tables.forgetRetired w.target w.tables name = w.tables := by
    intro name
    unfold Tables.forgetRetired
    cases hfind : w.tables.knownAllocations.find name with
    | none => rfl
    | some known =>
      dsimp only
      rw [if_pos]
      rw [Option.all_eq_true]
      intro image himage
      rw [h name known hfind image himage]
      rfl
  induction names with
  | nil => rfl
  | cons name names ih => rw [List.foldl_cons, hstep, ih]

theorem tracked_start {w : World} (h : w.TrackedLive) (script : Script) :
    Tracked w.next w (w.start script) := by
  have htables : (w.start script).world.tables = w.tables :=
    forgetRetired_of_live (w := (w.newOwnership.call pin).2) h _
  refine ⟨ownBlocks_start w script, by rw [htables], by rw [htables], rfl, ?_, ?_, ?_, ?_, ?_, ?_⟩
  · exact fun a ha => absurd ha List.not_mem_nil
  · intro name
    rw [htables]
    rfl
  · exact fun b hb => absurd hb List.not_mem_nil
  · exact fun b hb => absurd hb List.not_mem_nil
  · exact fun a ha => absurd ha List.not_mem_nil
  · intro name
    rw [htables]
    exact (Bool.or_false _).symm

theorem failed_run_keeps_tables {w : World} {script : Script} (hlive : w.TrackedLive)
    (hnames : script.NamesFree w.tables)
    (hdeallocs : DeallocsClear w.next script (w.start script)) (hnotice : script.notice = "")
    (hfails : (execute script w).1.success = false)
    (hundone : ∀ s, runStages w.next script (w.start script) = .error s →
      (cleanup s.info s.world).1.success = true) :
    SameTables w (execute script w).2 := by
  have hpin := @pin_ok w.target
  unfold execute at hfails ⊢
  rcases hcall : w.newOwnership.call pin with ⟨pinned, started⟩
  have hstarted : started = (w.newOwnership.call pin).2 := by rw [hcall]
  rw [hcall] at hfails
  cases pinned with
  | error r =>
    dsimp only
    rw [hstarted]
    exact ⟨fun _ => rfl, fun _ => rfl, fun _ => rfl, fun _ => rfl, fun _ _ _ _ _ => rfl⟩
  | ok x =>
    have hstart : started.begin w.next script = w.start script := by rw [hstarted]; rfl
    dsimp only at hfails ⊢
    rw [hstart] at hfails ⊢
    have hpinned : (pin w.target).1 = .ok x := congrArg Prod.fst hcall
    cases hrun : runStages w.next script (w.start script) with
    | error s =>
      dsimp only
      exact sameTables_rollback
        (tracked_stop (tracked_start hlive script) hnames rfl hdeallocs hrun)
        (hpin hpinned) (hundone s hrun)
    | ok s =>
      -- without a text left behind, a run that reaches its end succeeds
      have herror : (s.register w.next script).error = "" := by
        rw [register_error, sameError_runStages w.next script _ s hrun]
        exact hnotice
      rw [hrun] at hfails
      dsimp only at hfails
      rw [if_pos herror] at hfails
      cases hfails

/-- A target with one block, at page 16, where new mappings go to page 32. -/
def smallTarget : Target where
  mem := fun _ => 0
  pages := fun p => if p = 16 then some MemProt.all else none
  pageBits := 12
  pid := 7
  image := none
  check := fun _ => .live
  isX86 := fun _ => true
  reply := fun _ => { address := 0x20000 }
  clock := 0

/-- Another script allocated `newmem`, as every injection template does. -/
def sharedWorld : World where
  target := smallTarget
  tables := { knownAllocations := [("newmem", ⟨"newmem", 0x10000, 4096, 0, 1, none⟩)] }
  next := 2

def failingScript (name : String) : Script where
  allocs := [{ name := name, size := 4096 }]
  lines := [.refuse "No active assembly address"]

theorem sharedWorld_trackedLive : sharedWorld.TrackedLive := fun _ _ _ _ _ => rfl

theorem failed_run_keeps_tables_cave :
    SameTables sharedWorld (execute (failingScript "cave") sharedWorld).2 := by
  refine failed_run_keeps_tables sharedWorld_trackedLive ⟨?_, ?_⟩ ?_ rfl (by decide) ?_
  · intro a ha _
    rw [List.mem_singleton.mp ha]
    decide
  · exact List.pairwise_singleton _ _
  · intro s pre name post s₁ s₂ hrun
    have hstop : (runLines sharedWorld.next (failingScript "cave")
        (sharedWorld.start (failingScript "cave"))).isOk = false := by decide
    rw [hrun] at hstop
    cases hstop
  · intro s hs
    have hdone : (cleanup (outcome (runStages sharedWorld.next (failingScript "cave")
        (sharedWorld.start (failingScript "cave")))).info
      (outcome (runStages sharedWorld.next (failingScript "cave")
        (sharedWorld.start (failingScript "cave")))).world).1.success = true := by decide
    rw [hs] at hdone
    exact hdone

theorem failed_run_loses_block :
    sharedWorld.TrackedLive ∧
      (execute (failingScript "newmem") sharedWorld).1.success = false ∧
      (∀ s, runStages sharedWorld.next (failingScript "newmem")
          (sharedWorld.start (failingScript "newmem")) = .error s →
        (cleanup s.info s.world).1.success = true) ∧
      ¬ SameTables sharedWorld (execute (failingScript "newmem") sharedWorld).2 := by
  refine ⟨sharedWorld_trackedLive, by decide, ?_, ?_⟩
  · intro s hs
    have hdone : (cleanup (outcome (runStages sharedWorld.next (failingScript "newmem")
        (sharedWorld.start (failingScript "newmem")))).info
      (outcome (runStages sharedWorld.next (failingScript "newmem")
        (sharedWorld.start (failingScript "newmem")))).world).1.success = true := by decide
    rw [hs] at hdone
    exact hdone
  · intro h
    have hlost : (execute (failingScript "newmem") sharedWorld).2.tables.knownAllocations.find
        "newmem" = none := by decide
    have hkept := h.knownAllocations "newmem"
    rw [hlost] at hkept
    exact absurd hkept (by decide)

end CheatEngine.AutoAssembler
