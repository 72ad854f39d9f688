import CheatEngineLinux.Core.XmlLines

/-!
# Nested records

The lists of records in a table as a forest: how it is written, and that the loader finds its
records one by one, whatever the fields of the records are, as long as their text has no tag of a
record or a list.

* `findMatchingClose_eq` — **PROVED**: a close tag is matched across nested elements.
* `parse_render` — **PROVED**: the loader walks the forest.
-/

namespace CheatEngine.CtFile

open JsonGrammar (Bytes)
open Markup (cut Lacks Seam Tagged)

/-! ### Matching tags -/

section matching

variable {tag : String}

/-- The loop without its fuel. -/
def matchClose (tag : String) (depth : ℕ) (s : Bytes) : Option (Bytes × Bytes) :=
  matchingClose tag (s.length + 1) depth s

theorem cut_length {pat s a b : Bytes} (h : cut pat s = some (a, b)) :
    s.length = a.length + pat.length + b.length := by
  rw [Markup.cut_eq_some h, List.length_append, List.length_append]

theorem openTag_pos (tag : String) : 0 < (openTag tag).length := by simp [openTag]

theorem closeTag_pos (tag : String) : 0 < (closeTag tag).length := by simp [closeTag]

theorem matchingClose_fuel {fuel : ℕ} (depth : ℕ) {s : Bytes} (h : s.length < fuel) :
    matchingClose tag fuel depth s = matchClose tag depth s := by
  suffices hall : ∀ (k fuel fuel' depth : ℕ) (s : Bytes), s.length ≤ k → s.length < fuel →
      s.length < fuel' → matchingClose tag fuel depth s = matchingClose tag fuel' depth s from
    hall s.length fuel (s.length + 1) depth s (Nat.le_refl _) h (Nat.lt_succ_self _)
  intro k
  induction k with
  | zero =>
    intro fuel fuel' depth s hk h h'
    obtain ⟨fuel, rfl⟩ := Nat.exists_eq_succ_of_ne_zero (Nat.ne_of_gt (Nat.zero_lt_of_lt h))
    obtain ⟨fuel', rfl⟩ := Nat.exists_eq_succ_of_ne_zero (Nat.ne_of_gt (Nat.zero_lt_of_lt h'))
    rw [List.length_eq_zero_iff.mp (Nat.le_zero.mp hk)]
    simp [matchingClose, cut, closeTag]
  | succ k ih =>
    intro fuel fuel' depth s hk h h'
    obtain ⟨fuel, rfl⟩ := Nat.exists_eq_succ_of_ne_zero (Nat.ne_of_gt (Nat.zero_lt_of_lt h))
    obtain ⟨fuel', rfl⟩ := Nat.exists_eq_succ_of_ne_zero (Nat.ne_of_gt (Nat.zero_lt_of_lt h'))
    rw [Nat.succ_eq_add_one, Nat.succ_eq_add_one, matchingClose, matchingClose]
    cases hclose : cut (closeTag tag) s with
    | none => rfl
    | some r =>
      obtain ⟨before, after⟩ := r
      have hlength := cut_length hclose
      have hpos := closeTag_pos tag
      dsimp only
      rw [ih fuel fuel' (depth - 1) after (by omega) (by omega) (by omega)]
      cases hopen : cut (openTag tag) s with
      | none => rfl
      | some r =>
        obtain ⟨before', after'⟩ := r
        have hlength := cut_length hopen
        have hpos := openTag_pos tag
        dsimp only
        rw [ih fuel fuel' (depth + 1) after' (by omega) (by omega) (by omega)]

variable (hn : tagName tag = true)

include hn

theorem not_slash_start (p s : Bytes) : ¬ 0x2f :: p <+: lit tag ++ s := by
  obtain ⟨b, name, hname⟩ := List.exists_cons_of_ne_nil (tagName_ne_nil hn)
  have hslash := not_mem_tagName hn (b := 0x2f) (by decide)
  rw [hname] at hslash ⊢
  rw [List.cons_append, List.cons_prefix_cons]
  exact fun h => hslash (h.1 ▸ List.mem_cons_self)

theorem matchClose_close {before : Bytes} (hbefore : 0x3c ∉ before) (depth : ℕ) (after : Bytes) :
    matchClose tag depth (before ++ (closeTag tag ++ after))
      = if depth = 1 then some (before, after)
        else (matchClose tag (depth - 1) after).map fun r => (before ++ (closeTag tag ++ r.1), r.2) := by
  have hclose := cut_closeTag hn (Markup.lacks_plain hbefore) after
  have hopen : ∀ a b, cut (openTag tag) (before ++ (closeTag tag ++ after)) = some (a, b) →
      ¬ a.length < before.length := by
    intro a b hcut
    have hlacks : Lacks (openTag tag) before := Markup.lacks_plain hbefore
    rw [Markup.cut_append hlacks (seam_openTag hn before (by simp [closeTag]))] at hcut
    obtain ⟨r, -, heq⟩ := Option.map_eq_some_iff.mp hcut
    cases heq
    simp
  have hfuel : after.length < (before ++ (closeTag tag ++ after)).length := by
    have hpos := closeTag_pos tag
    simp only [List.length_append]
    omega
  rw [matchClose, matchingClose, hclose]
  dsimp only
  rw [matchingClose_fuel (depth - 1) hfuel]
  cases hcut : cut (openTag tag) (before ++ (closeTag tag ++ after)) with
  | none => rfl
  | some r =>
    dsimp only
    rw [if_neg (hopen r.1 r.2 hcut)]

theorem matchClose_open {before : Bytes} (hbefore : 0x3c ∉ before) (depth : ℕ) (after : Bytes) :
    matchClose tag depth (before ++ (openTag tag ++ after))
      = (matchClose tag (depth + 1) after).map fun r => (before ++ (openTag tag ++ r.1), r.2) := by
  have hopen := cut_openTag hn (Markup.lacks_plain hbefore) after
  have hclose : cut (closeTag tag) (before ++ (openTag tag ++ after))
      = (cut (closeTag tag) after).map fun r => (before ++ (openTag tag ++ r.1), r.2) := by
    have hsplit : openTag tag ++ after = 0x3c :: (lit tag ++ 0x3e :: after) := by simp [openTag]
    have hsplit' : lit tag ++ 0x3e :: after = (lit tag ++ [0x3e]) ++ after := by simp
    have hplain : 0x3c ∉ lit tag ++ [0x3e] := by simp [(plain_tagName hn).lt]
    unfold closeTag
    rw [Markup.cut_plain_append hbefore, hsplit, Markup.cut_cons (not_slash_start hn _ _), hsplit',
      Markup.cut_plain_append hplain, Option.map_map, Option.map_map]
    rfl
  have hfuel : after.length < (before ++ (openTag tag ++ after)).length := by
    have hpos := openTag_pos tag
    simp only [List.length_append]
    omega
  rw [matchClose, matchingClose, hclose, hopen]
  cases hcut : cut (closeTag tag) after with
  | none =>
    rw [matchClose, matchingClose, hcut]
    rfl
  | some r =>
    dsimp only [Option.map_some]
    rw [if_pos (by simp only [List.length_append]; have := openTag_pos tag; omega),
      matchingClose_fuel (depth + 1) hfuel]

omit hn in
/-- The search for a close tag passes over a text. -/
def Passes (tag : String) (s : Bytes) : Prop :=
  ∀ depth r, 0 < depth →
    matchClose tag depth (s ++ r) = (matchClose tag depth r).map fun x => (s ++ x.1, x.2)

omit hn in
theorem Passes.append {s t : Bytes} (hs : Passes tag s) (ht : Passes tag t) : Passes tag (s ++ t) := by
  intro depth r hdepth
  rw [List.append_assoc, hs depth _ hdepth, ht depth r hdepth, Option.map_map]
  simp [Function.comp_def]

omit hn in
theorem passes_of_cut {s : Bytes}
    (hopen : ∀ r, cut (openTag tag) (s ++ r) = (cut (openTag tag) r).map fun x => (s ++ x.1, x.2))
    (hclose : ∀ r, cut (closeTag tag) (s ++ r) = (cut (closeTag tag) r).map fun x => (s ++ x.1, x.2)) :
    Passes tag s := by
  intro depth r _
  rw [matchClose, matchingClose, hclose, hopen, matchClose, matchingClose]
  cases hcut : cut (closeTag tag) r with
  | none => rfl
  | some c =>
    have hlength := cut_length hcut
    have hpos := closeTag_pos tag
    have hfuel : c.2.length < (s ++ r).length := by
      rw [List.length_append]
      omega
    have hfuel' : c.2.length < r.length := by omega
    dsimp only [Option.map_some]
    rw [matchingClose_fuel _ hfuel, matchingClose_fuel _ hfuel']
    cases hcut' : cut (openTag tag) r with
    | none =>
      dsimp only [Option.map_none]
      split
      · rfl
      · rw [Option.map_map]
        simp [Function.comp_def]
    | some o =>
      have hlength := cut_length hcut'
      have hpos := openTag_pos tag
      have hfuel : o.2.length < (s ++ r).length := by
        rw [List.length_append]
        omega
      have hfuel' : o.2.length < r.length := by omega
      dsimp only [Option.map_some]
      rw [matchingClose_fuel _ hfuel, matchingClose_fuel _ hfuel', List.length_append, List.length_append]
      simp only [Nat.add_lt_add_iff_left]
      split
      · rw [Option.map_map]
        simp [Function.comp_def]
      · split
        · rfl
        · rw [Option.map_map]
          simp [Function.comp_def]

omit hn in
theorem passes_plain {x : Bytes} (hx : 0x3c ∉ x) : Passes tag x :=
  passes_of_cut (fun _ => Markup.cut_plain_append hx) (fun _ => Markup.cut_plain_append hx)

theorem passes_lines {s : Bytes} (hopen : Lacks (openTag tag) s) (hclose : Lacks (closeTag tag) s)
    (hs : EndsLine s) : Passes tag s :=
  passes_of_cut (fun _ => Markup.cut_append hopen (hs.seam (openTag_line_break hn) _))
    (fun _ => Markup.cut_append hclose (hs.seam (closeTag_line_break hn) _))

theorem passes_block {indent : ℕ} {content : Bytes} (h : Passes tag content) :
    Passes tag (block indent tag content) := by
  intro depth r hdepth
  have hbreak : Passes tag [0x0a] := passes_plain (by decide)
  have hsplit : block indent tag content ++ r = spaces indent ++ (openTag tag ++ ([0x0a] ++ (content ++
      (spaces indent ++ (closeTag tag ++ ([0x0a] ++ r)))))) := by
    simp [block, openLine, closeLine]
  have hpos : 0 < depth + 1 := Nat.succ_pos depth
  rw [hsplit, matchClose_open hn (plain_spaces indent).lt, hbreak _ _ hpos, h _ _ hpos,
    matchClose_close hn (plain_spaces indent).lt, if_neg (by omega), Nat.add_sub_cancel,
    hbreak _ _ hdepth]
  simp only [Option.map_map, Function.comp_def]
  simp [block, openLine, closeLine]

theorem findMatchingClose_eq {s before : Bytes} (hs : Passes tag s) (hbefore : 0x3c ∉ before)
    (rest : Bytes) :
    findMatchingClose tag (s ++ (before ++ (closeTag tag ++ rest))) = some (s ++ before, rest) := by
  show matchClose tag 1 _ = _
  rw [hs 1 _ Nat.one_pos, matchClose_close hn hbefore, if_pos rfl]
  rfl

theorem passes_other_block {other : String} (hother : tagName other = true) (hne : lit tag ≠ lit other)
    {indent : ℕ} {content : Bytes} (h : Passes tag content) : Passes tag (block indent other content) := by
  have hslash := not_mem_tagName hn (b := 0x2f) (by decide)
  have hslash' := not_mem_tagName hother (b := 0x2f) (by decide)
  have hopenLine : Tagged 0x3c 0x3e (fun t => t = lit other) (openLine indent other) :=
    tagged_openLine hother rfl
  have hcloseLine : Tagged 0x3c 0x3e (fun t => t = closing other) (closeLine indent other) :=
    tagged_closeLine hother rfl
  have hfirst : Passes tag (openLine indent other) := by
    refine passes_lines hn (lacks_open hn hopenLine hne)
      (lacks_close hn hopenLine fun heq => hslash' ?_) (endsLine_openLine indent other)
    rw [← heq]
    exact List.mem_cons_self
  have hlast : Passes tag (closeLine indent other) := by
    refine passes_lines hn (lacks_open hn hcloseLine fun heq => hslash ?_)
      (lacks_close hn hcloseLine fun heq => hne ?_) (endsLine_closeLine indent other)
    · rw [heq]
      exact List.mem_cons_self
    · exact (List.cons.inj heq).2
  exact hfirst.append (h.append hlast)

end matching

/-! ### Forests -/

/-- Records with the records that are listed in them, each with the next one beside it. -/
inductive Forest (α : Type) where
  | nil : Forest α
  | leaf : α → Forest α → Forest α
  | node : α → Forest α → Forest α → Forest α

namespace Forest

variable {α : Type} (own : α → Bytes)

/-- The records in the order in which they are written. -/
def toList : Forest α → List α
  | .nil => []
  | .leaf a next => a :: next.toList
  | .node a kids next => a :: (kids.toList ++ next.toList)

/-- The levels that a list and the lists in it take. -/
def depth : Forest α → ℕ
  | .nil => 1
  | .leaf _ next => next.depth
  | .node _ kids next => max (kids.depth + 1) next.depth

/-- The text of a list. -/
def render : Forest α → Bytes
  | .nil => []
  | .leaf a next => block 4 "CheatEntry" (own a) ++ next.render
  | .node a kids next =>
    block 4 "CheatEntry" (own a ++ block 6 "CheatEntries" kids.render) ++ next.render

theorem depth_pos (f : Forest α) : 1 ≤ f.depth := by
  induction f with
  | nil => exact Nat.le_refl _
  | leaf a next ih => exact ih
  | node a kids next _ ih => exact Nat.le_trans ih (Nat.le_max_right _ _)

end Forest

structure RecordText (s : Bytes) : Prop where
  lines : EndsLine s
  quiet : ∀ n ∈ ["CheatEntry", "CheatEntries"], Lacks (openTag n) s ∧ Lacks (closeTag n) s

theorem listTags_name : ∀ n ∈ ["CheatEntry", "CheatEntries"], tagName n = true := by decide

theorem listTags_ne : lit "CheatEntries" ≠ lit "CheatEntry" := by decide

section render

variable {α : Type} {own : α → Bytes}

theorem RecordText.passes {s : Bytes} (h : RecordText s) {n : String}
    (hn : n ∈ ["CheatEntry", "CheatEntries"]) : Passes n s :=
  passes_lines (listTags_name n hn) (h.quiet n hn).1 (h.quiet n hn).2 h.lines

theorem passes_entry {n : String} (hn : n ∈ ["CheatEntry", "CheatEntries"]) {content : Bytes}
    (h : Passes n content) (indent : ℕ) {tag : String} (htag : tag ∈ ["CheatEntry", "CheatEntries"]) :
    Passes n (block indent tag content) := by
  by_cases heq : n = tag
  · subst heq
    exact passes_block (listTags_name n hn) h
  · refine passes_other_block (listTags_name n hn) (listTags_name tag htag) ?_ h
    have hall : ∀ n ∈ ["CheatEntry", "CheatEntries"], ∀ tag ∈ ["CheatEntry", "CheatEntries"],
        n ≠ tag → lit n ≠ lit tag := by decide
    exact hall n hn tag htag heq

theorem passes_render {n : String} (hn : n ∈ ["CheatEntry", "CheatEntries"]) {f : Forest α}
    (h : ∀ a ∈ f.toList, RecordText (own a)) : Passes n (f.render own) := by
  induction f with
  | nil => exact passes_plain (by simp [Forest.render])
  | leaf a next ih =>
    obtain ⟨ha, hnext⟩ := List.forall_mem_cons.mp h
    exact (passes_entry hn (ha.passes hn) 4 (by simp)).append (ih hnext)
  | node a kids next ihkids ihnext =>
    obtain ⟨ha, hrest⟩ := List.forall_mem_cons.mp h
    have hkids := ihkids fun b hb => hrest b (List.mem_append_left _ hb)
    have hnext := ihnext fun b hb => hrest b (List.mem_append_right _ hb)
    have hlist : Passes n (block 6 "CheatEntries" (kids.render own)) :=
      passes_entry hn hkids 6 (by simp)
    exact (passes_entry hn ((ha.passes hn).append hlist) 4 (by simp)).append hnext

/-! ### The loader on a forest -/

/-- What the loader takes for the own part of a record without a list. -/
def leafXml (s : Bytes) : Bytes :=
  openTag "CheatEntry" ++ (0x0a :: (s ++ (spaces 4 ++ closeTag "CheatEntry")))

/-- What it takes for the own part of a record with one. -/
def nodeXml (s : Bytes) : Bytes := openTag "CheatEntry" ++ (0x0a :: (s ++ spaces 6))

/-- The records of a list are appended one by one, each before those that are listed in it. -/
def loadForest (own : α → Bytes) : Forest α → Int32 → LoadState → LoadState
  | .nil, _, st => st
  | .leaf a next, parentId, st => loadForest own next parentId (st.add (leafXml (own a)) parentId).1
  | .node a kids next, parentId, st =>
    let added := st.add (nodeXml (own a)) parentId
    loadForest own next parentId (loadForest own kids added.2 added.1)

theorem lacks_recordOpen {s : Bytes} (hs : Lacks (openTag "CheatEntries") s) (x : Bytes) (hx : 0x3c ∉ x) :
    Lacks (openTag "CheatEntries") (openTag "CheatEntry" ++ (x ++ s)) := by
  have hsplit : openTag "CheatEntry" ++ (x ++ s) = 0x3c :: (lit "CheatEntry" ++ 0x3e :: (x ++ s)) := by
    simp [openTag]
  rw [hsplit]
  refine Markup.lacks_tag (by decide) (by decide) (fun hpre => ?_) (Markup.lacks_plain_append hx hs)
  exact listTags_ne (Markup.eq_of_prefix_mark (by decide) (by decide) hpre)

theorem lacks_pad {pat s : Bytes} (hs : Lacks pat s) (hends : EndsLine s) (hpat : 0x0a ∉ pat)
    (hlt : 0x3c ∈ pat) (n : ℕ) : Lacks pat (s ++ spaces n) :=
  Markup.lacks_append hs (Markup.lacks_of_not_mem hlt (plain_spaces n).lt) (hends.seam hpat _)

theorem splitRecord_leaf {s : Bytes} (h : RecordText s) (rest : Bytes) :
    splitRecord (0x0a :: (s ++ spaces 4)) rest = (leafXml s, none) := by
  have hquiet := (h.quiet "CheatEntries" (by simp)).1
  have hlacks : Lacks (openTag "CheatEntries") (openTag "CheatEntry" ++ (0x0a :: (s ++ spaces 4))) :=
    lacks_recordOpen (lacks_pad hquiet h.lines (by decide) (by decide) 4) [0x0a] (by decide)
  unfold splitRecord
  dsimp only
  rw [hlacks.cut]
  simp [leafXml]

theorem splitRecord_node {s list : Bytes} (h : RecordText s) (hlist : Passes "CheatEntries" list)
    (rest : Bytes) :
    splitRecord (0x0a :: (s ++ (block 6 "CheatEntries" list ++ spaces 4))) rest
      = (nodeXml s, some (0x0a :: (list ++ (spaces 6 ++ (closeTag "CheatEntries" ++
          (0x0a :: (spaces 4 ++ (closeTag "CheatEntry" ++ rest)))))), (0x0a :: (list ++ spaces 6)).length)) := by
  have hname : tagName "CheatEntries" = true := by decide
  have hquiet := (h.quiet "CheatEntries" (by simp)).1
  have hlacks : Lacks (openTag "CheatEntries") (openTag "CheatEntry" ++ ([0x0a] ++ (s ++ spaces 6))) :=
    lacks_recordOpen (lacks_pad hquiet h.lines (by decide) (by decide) 6) [0x0a] (by decide)
  have hrecord : openTag "CheatEntry" ++ (0x0a :: (s ++ (block 6 "CheatEntries" list ++ spaces 4)))
      = (openTag "CheatEntry" ++ ([0x0a] ++ (s ++ spaces 6))) ++ (openTag "CheatEntries" ++
        (0x0a :: (list ++ (spaces 6 ++ (closeTag "CheatEntries" ++ (0x0a :: spaces 4)))))) := by
    simp [block, openLine, closeLine]
  have hcut := cut_openTag hname hlacks
    (0x0a :: (list ++ (spaces 6 ++ (closeTag "CheatEntries" ++ (0x0a :: spaces 4)))))
  have hafter : (0x0a :: (list ++ (spaces 6 ++ (closeTag "CheatEntries" ++ (0x0a :: spaces 4))))) ++
      (closeTag "CheatEntry" ++ rest) = ([0x0a] ++ list) ++ (spaces 6 ++ (closeTag "CheatEntries" ++
        (0x0a :: (spaces 4 ++ (closeTag "CheatEntry" ++ rest))))) := by simp
  have hbreak : Passes "CheatEntries" ([0x0a] ++ list) := (passes_plain (by decide)).append hlist
  unfold splitRecord
  dsimp only
  rw [hrecord, hcut]
  dsimp only
  rw [hafter, findMatchingClose_eq hname hbreak (plain_spaces 6).lt]
  dsimp only
  rw [if_pos]
  · simp [nodeXml]
  · rw [Bool.and_eq_true, decide_eq_true_eq]
    refine ⟨?_, by simp⟩
    have hpos := closeTag_pos "CheatEntries"
    simp only [List.length_append, List.length_cons, List.length_nil]
    omega

theorem entriesLoop_record {child : Bytes → ℕ → Int32 → LoadState → LoadState} {content : Bytes}
    (hcontent : Passes "CheatEntry" content) (fuel : ℕ) (after : Bytes) (room : ℕ)
    (parentId : Int32) (st : LoadState) :
    entriesLoop child (fuel + 1) (0x0a :: (block 4 "CheatEntry" content ++ after))
        ((block 4 "CheatEntry" content).length + (room + 1)) parentId st
      = entriesLoop child fuel (0x0a :: after) (room + 1) parentId
        (match (splitRecord (0x0a :: (content ++ spaces 4)) (0x0a :: after)).2 with
          | none => (st.add (splitRecord (0x0a :: (content ++ spaces 4)) (0x0a :: after)).1 parentId).1
          | some (text, length) =>
            let added := st.add (splitRecord (0x0a :: (content ++ spaces 4)) (0x0a :: after)).1 parentId
            child text length added.2 added.1) := by
  have hname : tagName "CheatEntry" = true := by decide
  have hsplit : 0x0a :: (block 4 "CheatEntry" content ++ after)
      = (0x0a :: spaces 4) ++ (openTag "CheatEntry" ++ (([0x0a] ++ content) ++ (spaces 4 ++
        (closeTag "CheatEntry" ++ (0x0a :: after))))) := by
    simp [block, openLine, closeLine]
  have hcut := cut_openTag hname (Markup.lacks_plain (p := lit "CheatEntry" ++ [0x3e])
    (show 0x3c ∉ 0x0a :: spaces 4 by decide)) (([0x0a] ++ content) ++ (spaces 4 ++
      (closeTag "CheatEntry" ++ (0x0a :: after))))
  have hmatch := findMatchingClose_eq hname ((passes_plain (x := [0x0a]) (by decide)).append hcontent)
    (plain_spaces 4).lt (0x0a :: after)
  have hlength : (block 4 "CheatEntry" content).length = (0x0a :: spaces 4).length +
      (openTag "CheatEntry").length + (([0x0a] ++ content) ++ spaces 4).length +
      (closeTag "CheatEntry").length := by
    simp only [block, openLine, closeLine, List.length_append, List.length_cons, List.length_nil]
    omega
  have hinside : ([0x0a] ++ content) ++ spaces 4 = 0x0a :: (content ++ spaces 4) := by simp
  rcases hparts : splitRecord (0x0a :: (content ++ spaces 4)) (0x0a :: after) with ⟨own, _ | list⟩
  all_goals
    rw [hsplit, entriesLoop, hcut]
    dsimp only
    rw [if_neg (by rw [hlength]; simp only [List.length_append]; omega), hmatch]
    dsimp only
    rw [if_neg (by rw [hlength]; omega), hlength, Nat.add_sub_cancel_left, hinside, hparts]

theorem entriesLoop_end (child : Bytes → ℕ → Int32 → LoadState → LoadState) (fuel : ℕ) {pad : Bytes}
    (hpad : 0x3c ∉ pad) (rest : Bytes) (parentId : Int32) (st : LoadState) :
    entriesLoop child fuel (0x0a :: (pad ++ rest)) (pad.length + 1) parentId st = st := by
  have hplain : 0x3c ∉ 0x0a :: pad := by simp [hpad]
  cases fuel with
  | zero => rfl
  | succ fuel =>
    have hcut := Markup.cut_plain_append (p := lit "CheatEntry" ++ [0x3e]) (s := rest) hplain
    rw [List.cons_append] at hcut
    rw [entriesLoop, openTag, hcut]
    cases cut (0x3c :: (lit "CheatEntry" ++ [0x3e])) rest with
    | none => rfl
    | some r =>
      dsimp only [Option.map_some]
      rw [if_pos (by simp)]

theorem length_block_pos (indent : ℕ) (tag : String) (content : Bytes) :
    0 < (block indent tag content).length := by
  have hpos := openTag_pos tag
  simp only [block, openLine, List.length_append]
  omega

theorem entriesLoop_render {f : Forest α} (h : ∀ a ∈ f.toList, RecordText (own a)) {levels : ℕ}
    (hlevels : f.depth ≤ levels + 1) {fuel : ℕ} {pad rest : Bytes} (hpad : 0x3c ∉ pad)
    (hfuel : (f.render own).length < fuel) (parentId : Int32) (st : LoadState) :
    entriesLoop (parseCheatEntriesBlock levels) fuel (0x0a :: (f.render own ++ (pad ++ rest)))
      ((f.render own).length + (pad.length + 1)) parentId st = loadForest own f parentId st := by
  induction f generalizing levels fuel pad rest parentId st with
  | nil =>
    rw [Forest.render, List.nil_append, List.length_nil, Nat.zero_add]
    exact entriesLoop_end _ fuel hpad rest parentId st
  | leaf a next ih =>
    obtain ⟨ha, hnext⟩ := List.forall_mem_cons.mp h
    obtain ⟨fuel, rfl⟩ := Nat.exists_eq_succ_of_ne_zero (Nat.ne_of_gt (Nat.zero_lt_of_lt hfuel))
    have hpos := length_block_pos 4 "CheatEntry" (own a)
    rw [Forest.render, List.length_append] at hfuel
    rw [Forest.render, List.append_assoc, List.length_append, Nat.add_assoc, ← Nat.add_assoc _ pad.length 1,
      Nat.succ_eq_add_one, entriesLoop_record (ha.passes (by simp)), splitRecord_leaf ha]
    dsimp only
    rw [Nat.add_assoc, ih hnext hlevels hpad (by omega)]
    rfl
  | node a kids next ihkids ihnext =>
    obtain ⟨ha, hrest⟩ := List.forall_mem_cons.mp h
    have hkids : ∀ b ∈ kids.toList, RecordText (own b) := fun b hb => hrest b (List.mem_append_left _ hb)
    have hnext : ∀ b ∈ next.toList, RecordText (own b) := fun b hb => hrest b (List.mem_append_right _ hb)
    have hdepth : kids.depth ≤ levels ∧ next.depth ≤ levels + 1 := by
      unfold Forest.depth at hlevels
      omega
    obtain ⟨fuel, rfl⟩ := Nat.exists_eq_succ_of_ne_zero (Nat.ne_of_gt (Nat.zero_lt_of_lt hfuel))
    have hlist : Passes "CheatEntry" (block 6 "CheatEntries" (kids.render own)) :=
      passes_entry (by simp) (passes_render (by simp) hkids) 6 (by simp)
    have hpos := length_block_pos 4 "CheatEntry" (own a ++ block 6 "CheatEntries" (kids.render own))
    rw [Forest.render, List.length_append] at hfuel
    rw [Forest.render, List.append_assoc, List.length_append, Nat.add_assoc, ← Nat.add_assoc _ pad.length 1,
      Nat.succ_eq_add_one, entriesLoop_record ((ha.passes (by simp)).append hlist), List.append_assoc,
      splitRecord_node ha (passes_render (by simp) hkids)]
    dsimp only
    -- the list inside is one level further in
    obtain ⟨levels, rfl⟩ := Nat.exists_eq_succ_of_ne_zero
      (Nat.ne_of_gt (Nat.lt_of_lt_of_le (Forest.depth_pos kids) hdepth.1))
    have hinner := @ihkids hkids levels hdepth.1
    rw [Nat.add_assoc, ihnext hnext hdepth.2 hpad (by omega), Nat.succ_eq_add_one, parseCheatEntriesBlock]
    have hroom : (0x0a :: (kids.render own ++ spaces 6)).length
        = (kids.render own).length + ((spaces 6).length + 1) := by
      simp only [List.length_cons, List.length_append]
      omega
    rw [hroom, hinner (plain_spaces 6).lt (by simp only [List.length_cons, List.length_append]; omega)]
    rfl

theorem parse_render {f : Forest α} (h : ∀ a ∈ f.toList, RecordText (own a)) {levels : ℕ}
    (hlevels : f.depth ≤ levels) {pad rest : Bytes} (hpad : 0x3c ∉ pad) (parentId : Int32)
    (st : LoadState) :
    parseCheatEntriesBlock levels (0x0a :: (f.render own ++ (pad ++ rest)))
      (0x0a :: (f.render own ++ pad)).length parentId st = loadForest own f parentId st := by
  obtain ⟨levels, rfl⟩ := Nat.exists_eq_succ_of_ne_zero
    (Nat.ne_of_gt (Nat.lt_of_lt_of_le (Forest.depth_pos f) hlevels))
  have hroom : (0x0a :: (f.render own ++ pad)).length = (f.render own).length + (pad.length + 1) := by
    simp only [List.length_cons, List.length_append]
    omega
  rw [Nat.succ_eq_add_one, parseCheatEntriesBlock, hroom]
  exact entriesLoop_render h hlevels hpad (by simp only [List.length_cons, List.length_append]; omega)
    parentId st

end render

end CheatEngine.CtFile
