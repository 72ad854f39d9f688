import CheatEngineLinux.Core.XmlHeader
import CheatEngineLinux.Core.XmlHierarchy
import CheatEngineLinux.Core.TableLoad

/-!
# Saving and loading the hierarchy of a table

* `loadForest_length`, `loadForest_valid`, `loadForest_links` — **PROVED**: what is loaded from a
  forest of records.
* `table_hierarchy_round_trip` — **PROVED**: a saved table has every record once and can be loaded;
  with distinct ids and chains that end, every record keeps its id and its parent.
-/

namespace CheatEngine.CtFile

open JsonGrammar (Bytes)
open Markup (cut Lacks Seam Tagged)

/-! ### What is loaded from a forest -/

section loaded

variable {α : Type} {own : α → Bytes}

theorem loadForest_length (f : Forest α) (parentId : Int32) (st : LoadState) :
    (loadForest own f parentId st).entries.length = st.entries.length + f.toList.length := by
  induction f generalizing parentId st with
  | nil => rfl
  | leaf a next ih =>
    rw [loadForest, ih]
    simp [LoadState.add, Forest.toList]
    omega
  | node a kids next ihkids ihnext =>
    rw [loadForest, ihnext, ihkids]
    simp [LoadState.add, Forest.toList]
    omega

theorem loadForest_valid {f : Forest α} (h : ∀ a ∈ f.toList, ∀ list, validFormats (recordXml list (own a)) = true)
    (parentId : Int32) (st : LoadState) : (loadForest own f parentId st).validFormat = st.validFormat := by
  induction f generalizing parentId st with
  | nil => rfl
  | leaf a next ih =>
    obtain ⟨ha, hnext⟩ := List.forall_mem_cons.mp h
    rw [loadForest, ih hnext, validFormat_add, leafXml_eq, ha, Bool.and_true]
  | node a kids next ihkids ihnext =>
    obtain ⟨ha, hrest⟩ := List.forall_mem_cons.mp h
    rw [loadForest, ihnext (fun b hb => hrest b (List.mem_append_right _ hb)),
      ihkids (fun b hb => hrest b (List.mem_append_left _ hb)), validFormat_add, nodeXml_eq, ha, Bool.and_true]

/-- A record that was read from the own part of a written one. -/
def ReadFrom (own : α → Bytes) (r : CheatEntry) (a : α) : Prop :=
  ∃ list id parentId, r = { (readFields (recordXml list (own a))).1 with id, parentId }

theorem loadForest_reads (f : Forest α) (parentId : Int32) (st : LoadState) :
    ∃ new, (loadForest own f parentId st).entries = st.entries ++ new ∧ List.Forall₂ (ReadFrom own) new f.toList := by
  have hadd : ∀ (st : LoadState) (a : α) (list : Bool) (parentId : Int32), ∃ r, ReadFrom own r a ∧
      (st.add (recordXml list (own a)) parentId).1.entries = st.entries ++ [r] :=
    fun st a list parentId => ⟨_, ⟨list, _, parentId, rfl⟩, rfl⟩
  induction f generalizing parentId st with
  | nil => exact ⟨[], by simp [loadForest], List.Forall₂.nil⟩
  | leaf a next ih =>
    obtain ⟨r, hr, hentries⟩ := hadd st a false parentId
    obtain ⟨new, hnew, hreads⟩ := ih parentId (st.add (leafXml (own a)) parentId).1
    refine ⟨r :: new, ?_, List.Forall₂.cons hr hreads⟩
    rw [loadForest, hnew, leafXml_eq, hentries, List.append_assoc]
    rfl
  | node a kids next ihkids ihnext =>
    obtain ⟨r, hr, hentries⟩ := hadd st a true parentId
    obtain ⟨inside, hinside, hreads⟩ :=
      ihkids (st.add (nodeXml (own a)) parentId).2 (st.add (nodeXml (own a)) parentId).1
    obtain ⟨beside, hbeside, hreads'⟩ := ihnext parentId
      (loadForest own kids (st.add (nodeXml (own a)) parentId).2 (st.add (nodeXml (own a)) parentId).1)
    refine ⟨r :: (inside ++ beside), ?_, List.Forall₂.cons hr (List.rel_append hreads hreads')⟩
    rw [loadForest, hbeside, hinside, nodeXml_eq, hentries]
    simp

def readsId (xml : Bytes) : Option Int32 := readId (getTag (eraseHotkeys xml) "ID")

theorem add_free {xml : Bytes} {id : Int32} (hid : readsId xml = some id) {st : LoadState} (hfree : id ∉ st.usedIds)
    (parentId : Int32) :
    (st.add xml parentId).2 = id ∧ (st.add xml parentId).1.usedIds = id :: st.usedIds ∧
    (st.add xml parentId).1.entries = st.entries ++ [{ (readFields xml).1 with id, parentId }] := by
  unfold readsId at hid
  unfold LoadState.add
  simp [hid, hfree]

variable {idOf : α → Int32} {parent : α → Option α}

def parentIdOf (idOf : α → Int32) (p : Option α) : Int32 := (p.map idOf).getD (-1)

theorem loadForest_links {f : Forest α} {p : Option α} (hlinked : f.Linked parent p)
    (hids : ∀ a ∈ f.toList, ∀ list, readsId (recordXml list (own a)) = some (idOf a)) {st : LoadState}
    (hnodup : (f.toList.map idOf ++ st.usedIds).Nodup) :
    (loadForest own f (parentIdOf idOf p) st).entries.map (fun e => (e.id, e.parentId))
      = st.entries.map (fun e => (e.id, e.parentId)) ++ f.toList.map (fun a => (idOf a, parentIdOf idOf (parent a))) ∧
    (loadForest own f (parentIdOf idOf p) st).usedIds.Perm (f.toList.map idOf ++ st.usedIds) := by
  induction f generalizing p st with
  | nil => exact ⟨by simp [loadForest, Forest.toList], List.Perm.refl _⟩
  | leaf a next ih =>
    obtain ⟨hparent, hlinked⟩ := hlinked
    obtain ⟨ha, hnext⟩ := List.forall_mem_cons.mp hids
    rw [Forest.toList, List.map_cons, List.cons_append, List.nodup_cons] at hnodup
    have hfree : idOf a ∉ st.usedIds := fun hmem => hnodup.1 (List.mem_append_right _ hmem)
    have hread : readsId (leafXml (own a)) = some (idOf a) := leafXml_eq (own a) ▸ ha false
    obtain ⟨-, hused, hentries⟩ := add_free hread hfree (parentIdOf idOf p)
    have hnodup' : (next.toList.map idOf ++ (st.add (leafXml (own a)) (parentIdOf idOf p)).1.usedIds).Nodup := by
      rw [hused, List.perm_middle.nodup_iff]
      exact List.nodup_cons.mpr hnodup
    obtain ⟨hpairs, hperm⟩ := ih hlinked hnext hnodup'
    rw [loadForest]
    constructor
    · rw [hpairs, hentries]
      simp [Forest.toList, hparent]
    · rw [hused] at hperm
      exact hperm.trans List.perm_middle
  | node a kids next ihkids ihnext =>
    obtain ⟨hparent, hlinkedKids, hlinkedNext⟩ := hlinked
    obtain ⟨ha, hrest⟩ := List.forall_mem_cons.mp hids
    have hkids : ∀ b ∈ kids.toList, ∀ list, readsId (recordXml list (own b)) = some (idOf b) :=
      fun b hb => hrest b (List.mem_append_left _ hb)
    have hnext : ∀ b ∈ next.toList, ∀ list, readsId (recordXml list (own b)) = some (idOf b) :=
      fun b hb => hrest b (List.mem_append_right _ hb)
    rw [Forest.toList, List.map_cons, List.cons_append, List.nodup_cons, List.map_append] at hnodup
    have hfree : idOf a ∉ st.usedIds := fun hmem => hnodup.1 (List.mem_append_right _ hmem)
    have hread : readsId (nodeXml (own a)) = some (idOf a) := nodeXml_eq (own a) ▸ ha true
    obtain ⟨hid, hused, hentries⟩ := add_free hread hfree (parentIdOf idOf p)
    have hall : (idOf a :: (kids.toList.map idOf ++ (next.toList.map idOf ++ st.usedIds))).Nodup := by
      rw [← List.append_assoc]
      exact List.nodup_cons.mpr hnodup
    -- the list inside first, and then the records beside
    have hnodupKids : (kids.toList.map idOf ++ (st.add (nodeXml (own a)) (parentIdOf idOf p)).1.usedIds).Nodup := by
      rw [hused, List.perm_middle.nodup_iff]
      refine hall.sublist (List.Sublist.cons_cons _ (List.Sublist.append (List.Sublist.refl _) ?_))
      exact List.sublist_append_right _ _
    obtain ⟨hpairsKids, hpermKids⟩ := ihkids hlinkedKids hkids hnodupKids
    have hpermAll : (next.toList.map idOf ++ (kids.toList.map idOf ++ (idOf a :: st.usedIds))).Perm
        (idOf a :: (kids.toList.map idOf ++ (next.toList.map idOf ++ st.usedIds))) := by
      rw [← List.append_assoc]
      refine (List.perm_append_comm.append_right _).trans ?_
      rw [List.append_assoc]
      exact (List.perm_middle.append_left _).trans List.perm_middle
    have hid' : (st.add (nodeXml (own a)) (parentIdOf idOf p)).2 = parentIdOf idOf (some a) := hid
    have hnodupNext : (next.toList.map idOf ++ (loadForest own kids (parentIdOf idOf (some a))
        (st.add (nodeXml (own a)) (parentIdOf idOf p)).1).usedIds).Nodup := by
      rw [(hpermKids.append_left _).nodup_iff, hused]
      exact hpermAll.nodup_iff.mpr hall
    obtain ⟨hpairsNext, hpermNext⟩ := ihnext hlinkedNext hnext hnodupNext
    rw [loadForest, hid']
    constructor
    · rw [hpairsNext, hpairsKids, hentries]
      simp [Forest.toList, hparent]
    · refine hpermNext.trans ((hpermKids.append_left _).trans ?_)
      rw [hused, Forest.toList, List.map_cons, List.map_append, List.cons_append, List.append_assoc]
      exact hpermAll

end loaded

/-! ### Tables that were saved -/

/-- What `writeTableXml` writes. -/
def savedText (t : CheatTable) : Bytes :=
  headerText t ++ (block 2 "CheatEntries" ((plan t.entries).render (fieldsAt t.entries)) ++ footerText t)

theorem writeTableXml_eq {t : CheatTable} {text : Bytes} (h : writeTableXml t = some text) :
    text = savedText t ∧ validRecordFormats t.entries = true := by
  unfold writeTableXml at h
  split at h
  · next hvalid =>
    rw [writeEntries_eq] at h
    exact ⟨(Option.some.inj h).symm, hvalid⟩
  · cases h

section saved

variable {t : CheatTable}

theorem mem_plan {i : ℕ} : i ∈ (plan t.entries).toList ↔ i < t.entries.length := by
  rw [(plan_perm t.entries).mem_iff, List.mem_range]

theorem getD_mem {i : ℕ} (hi : i < t.entries.length) : t.entries.getD i {} ∈ t.entries := by
  rw [List.getD_eq_getElem _ _ hi]
  exact List.getElem_mem hi

theorem readEntriesXml_savedText (hquiet : ∀ e ∈ t.entries, Quiet (keptXml e)) :
    readEntriesXml (savedText t) = loadForest (fieldsAt t.entries) (plan t.entries) (-1) {} :=
  readEntriesXml_render (fun _ hi => recordText_writeEntryFields (hquiet _ (getD_mem (mem_plan.mp hi))))
    (plan_depth t.entries) (lacks_list_headerText t) (headerOk_headerText t).2 _

theorem loadFromString_savedText (before : CheatTable) :
    loadFromString before (savedText t) = ((readTableXml (savedText t)).2, (readTableXml (savedText t)).1) := by
  unfold loadFromString
  rw [if_pos (by rw [savedText, contains_headerText]; rfl)]

theorem savedText_reads (hquiet : ∀ e ∈ t.entries, Quiet (keptXml e)) (before : CheatTable) :
    List.Forall₂ (ReadFrom (fieldsAt t.entries)) (loadFromString before (savedText t)).2.entries
      (plan t.entries).toList := by
  obtain ⟨new, hnew, hreads⟩ := loadForest_reads (plan t.entries) (-1) {}
  rw [loadFromString_savedText, readTableXml_entries, readEntriesXml_savedText hquiet, hnew]
  exact hreads

/-- The id and the parent of a record, `-1` for a parent that does not exist. -/
def linkOf (entries : List CheatEntry) (e : CheatEntry) : Int32 × Int32 :=
  (e.id, if (idToIndex entries e.parentId).isSome then e.parentId else -1)

theorem parentIdOf_parentOf {entries : List CheatEntry} (hids : ∀ e ∈ entries, 0 ≤ e.id) {i : ℕ}
    (hi : i < entries.length) :
    parentIdOf (fun i : ℕ => (entries.getD i {}).id) (parentOf entries i) = (linkOf entries (entries.getD i {})).2 := by
  have hentry : entries[i]? = some (entries.getD i {}) := by
    rw [List.getD_eq_getElem _ _ hi]
    exact List.getElem?_eq_getElem hi
  unfold parentOf linkOf
  rw [hentry]
  dsimp only
  cases hindex : idToIndex entries (entries.getD i {}).parentId with
  | none => split <;> rfl
  | some parent =>
    obtain ⟨hlt, hid, -⟩ := List.findIdx?_eq_some_iff_getElem.mp hindex
    have hid : (entries.getD parent {}).id = (entries.getD i {}).parentId := by
      rw [List.getD_eq_getElem _ _ hlt]
      exact eq_of_beq hid
    have hnonneg : 0 ≤ (entries.getD i {}).parentId := by
      rw [← hid, List.getD_eq_getElem _ _ hlt]
      exact hids _ (List.getElem_mem hlt)
    have hne : (entries.getD i {}).parentId ≠ -1 := by
      intro heq
      rw [heq] at hnonneg
      exact absurd hnonneg (by decide)
    rw [if_neg hne]
    exact hid

/-- Every record is written once, in lists no deeper than the loader takes, and the text is loaded
with as many records.  Where ids are distinct and no chain of parents is too long, every record has
its id and its parent again. -/
theorem table_hierarchy_round_trip (t : CheatTable) (hraw : ∀ e ∈ t.entries, e.NoRaw) {text : Bytes}
    (hwrite : writeTableXml t = some text) (before : CheatTable) :
    ∃ (f : Forest ℕ) (loaded : CheatTable),
      text = headerText t ++ (block 2 "CheatEntries" (f.render (fieldsAt t.entries)) ++ footerText t) ∧
      f.toList.Perm (List.range t.entries.length) ∧ f.depth ≤ kMaxEntryDepth ∧
      (∀ i < t.entries.length, RecordText (fieldsAt t.entries i)) ∧
      loadFromString before text = (true, loaded) ∧ loaded.entries.length = t.entries.length ∧
      ((t.entries.map CheatEntry.id).Nodup → (∀ e ∈ t.entries, 0 ≤ e.id) →
        (∀ i < t.entries.length, chainLength t.entries kMaxEntryDepth i < kMaxEntryDepth) →
        loaded.entries.map (fun e => (e.id, e.parentId))
          = f.toList.map fun i => linkOf t.entries (t.entries.getD i {})) := by
  obtain ⟨rfl, hvalid⟩ := writeTableXml_eq hwrite
  have hquiet : ∀ e ∈ t.entries, Quiet (keptXml e) := fun e he => by
    rw [keptXml_nil (hraw e he).extraHotkeysXml]
    exact quiet_nil
  have hread := readEntriesXml_savedText hquiet
  have hformats : ∀ i ∈ (plan t.entries).toList, ∀ list,
      validFormats (recordXml list (fieldsAt t.entries i)) = true := by
    intro i hi list
    have hmem := getD_mem (mem_plan.mp hi)
    have hno := hraw _ hmem
    have hformat := readFormat_written list hno.tame (fun n _ => by
      rw [hno.extraXml]
      exact Markup.lacks_plain (by simp)) (List.all_eq_true.mp hvalid _ hmem)
    unfold validFormats
    exact hformat ▸ rfl
  have hload : loadFromString before (savedText t) = (true, (readTableXml (savedText t)).1) := by
    have hsucceeds : (readTableXml (savedText t)).2 = true := by
      rw [readTableXml_validFormat, hread, loadForest_valid hformats]
    rw [loadFromString_savedText, hsucceeds]
  have hentries : (readTableXml (savedText t)).1.entries
      = (loadForest (fieldsAt t.entries) (plan t.entries) (-1) {}).entries := by
    rw [readTableXml_entries, hread]
  refine ⟨plan t.entries, (readTableXml (savedText t)).1, rfl, plan_perm t.entries, plan_depth t.entries,
    fun i hi => recordText_writeEntryFields (hquiet _ (getD_mem hi)), hload, ?_, fun hnodup hids hchains => ?_⟩
  · rw [hentries, loadForest_length, (plan_perm t.entries).length_eq]
    simp
  · have hreads : ∀ i ∈ (plan t.entries).toList, ∀ list,
        readsId (recordXml list (fieldsAt t.entries i)) = some (t.entries.getD i {}).id :=
      fun i hi list => readId_written list (hids _ (getD_mem (mem_plan.mp hi)))
    have hperm : ((plan t.entries).toList.map fun i => (t.entries.getD i {}).id).Perm (t.entries.map CheatEntry.id) := by
      refine ((plan_perm t.entries).map _).trans (List.Perm.of_eq ?_)
      refine List.ext_getElem (by simp) fun i hi hi' => ?_
      simp only [List.length_map] at hi'
      simp [hi']
    have hfree : ((plan t.entries).toList.map (fun i => (t.entries.getD i {}).id) ++
        ({} : LoadState).usedIds).Nodup := by
      rw [List.append_nil]
      exact hperm.nodup_iff.mpr hnodup
    have hlinks := (loadForest_links (plan_linked hchains) hreads hfree).1
    rw [hentries]
    refine hlinks.trans (List.map_congr_left fun i hi => ?_)
    have hlt := mem_plan.mp hi
    rw [parentIndex_eq_parentOf hchains hlt, parentIdOf_parentOf hids hlt]
    rfl

/-- A group with one record in it. -/
def pairTable : CheatTable :=
  { entries := [{ id := 1, isGroup := true }, { id := 2, parentId := 1, addressString := lit "10" }] }

theorem pairTable_round_trip :
    (∀ e ∈ pairTable.entries, e.NoRaw) ∧
    ∃ (text : Bytes) (f : Forest ℕ) (loaded : CheatTable), writeTableXml pairTable = some text ∧
      f.toList.Perm [0, 1] ∧ loadFromString {} text = (true, loaded) ∧
      loaded.entries.map (fun e => (e.id, e.parentId)) = f.toList.map fun i => if i = 0 then (1, -1) else (2, 1) := by
  have hraw : ∀ e ∈ pairTable.entries, e.NoRaw := by
    simp only [pairTable, List.forall_mem_cons]
    exact ⟨⟨rfl, rfl, rfl, rfl⟩, ⟨rfl, rfl, rfl, rfl⟩, fun e he => by cases he⟩
  have hwrite : ∃ text, writeTableXml pairTable = some text := by
    unfold writeTableXml
    rw [if_pos (by decide)]
    exact ⟨_, rfl⟩
  obtain ⟨text, hwrite⟩ := hwrite
  obtain ⟨f, loaded, -, hperm, -, -, hload, -, hlinks⟩ := table_hierarchy_round_trip pairTable hraw hwrite {}
  refine ⟨hraw, text, f, loaded, hwrite, hperm, hload, ?_⟩
  rw [hlinks (by decide) (by decide) (by decide)]
  refine List.map_congr_left fun i hi => ?_
  have hcases : ∀ i ∈ [0, 1], linkOf pairTable.entries (pairTable.entries.getD i {})
      = if i = 0 then (1, -1) else (2, 1) := by decide
  exact hcases i (hperm.mem_iff.mp hi)

end saved

end CheatEngine.CtFile
