import CheatEngineLinux.Core.XmlReadBack

/-!
# Elements of one name

What `tagBlockRanges` finds in a list of elements that was written, and the parts of one of them.

* `tagBlockRanges_element` — **PROVED**: one element, and the text after it.
* `blocksOf_elements` — **PROVED**: the elements of a list.
* `getTagWithAttributes_element` — **PROVED**: the text and the attributes of an element.
-/

namespace CheatEngine.CtFile

open JsonGrammar (Bytes)
open Markup (cut Lacks Seam Tagged)

variable {tag : String}

/-! ### The loop of `tagBlockRanges` -/

theorem blockAt_length (tag : String) (rest : Bytes) : (blockAt tag rest).2.length ≤ rest.length := by
  unfold blockAt
  split
  · split
    · exact Nat.zero_le _
    · next h =>
      have hlength := cut_length h
      dsimp only
      omega
  · split
    · exact Nat.zero_le _
    · next h =>
      have hlength := cut_length h
      dsimp only
      omega

theorem blockRanges_fuel {attributesOnly : Bool} {fuel : ℕ} (gap : Bytes) {s : Bytes} (h : s.length < fuel) :
    blockRanges tag attributesOnly fuel gap s = blockRanges tag attributesOnly (s.length + 1) gap s := by
  suffices hall : ∀ (k fuel fuel' : ℕ) (gap s : Bytes), s.length ≤ k → s.length < fuel → s.length < fuel' →
      blockRanges tag attributesOnly fuel gap s = blockRanges tag attributesOnly fuel' gap s from
    hall s.length fuel (s.length + 1) gap s (Nat.le_refl _) h (Nat.lt_succ_self _)
  intro k
  induction k with
  | zero =>
    intro fuel fuel' gap s hk h h'
    obtain ⟨fuel, rfl⟩ := Nat.exists_eq_succ_of_ne_zero (Nat.ne_of_gt (Nat.zero_lt_of_lt h))
    obtain ⟨fuel', rfl⟩ := Nat.exists_eq_succ_of_ne_zero (Nat.ne_of_gt (Nat.zero_lt_of_lt h'))
    rw [List.length_eq_zero_iff.mp (Nat.le_zero.mp hk)]
    simp [blockRanges, cut]
  | succ k ih =>
    intro fuel fuel' gap s hk h h'
    obtain ⟨fuel, rfl⟩ := Nat.exists_eq_succ_of_ne_zero (Nat.ne_of_gt (Nat.zero_lt_of_lt h))
    obtain ⟨fuel', rfl⟩ := Nat.exists_eq_succ_of_ne_zero (Nat.ne_of_gt (Nat.zero_lt_of_lt h'))
    rw [Nat.succ_eq_add_one, Nat.succ_eq_add_one, blockRanges, blockRanges]
    cases hcut : cut (0x3c :: lit tag) s with
    | none => rfl
    | some r =>
      obtain ⟨before, rest⟩ := r
      have hlength := cut_length hcut
      rw [List.length_cons] at hlength
      dsimp only
      cases rest.head? with
      | none => rfl
      | some next =>
        dsimp only
        split
        · refine ih fuel fuel' _ _ ?_ ?_ ?_
          all_goals
            rw [List.length_append]
            omega
        · have hafter := blockAt_length tag rest
          rw [ih fuel fuel' [] (blockAt tag rest).2 (by omega) (by omega) (by omega)]

/-- The elements of a name in a text without them. -/
theorem tagBlockRanges_of_lacks {attributesOnly : Bool} {s : Bytes} (h : Lacks (0x3c :: lit tag) s) :
    tagBlockRanges s tag attributesOnly = ([], s) := by
  unfold tagBlockRanges
  rw [blockRanges, h.cut]
  rfl

section elements

variable (hn : tagName tag = true)

include hn

theorem cut_name {before : Bytes} (hbefore : Lacks (0x3c :: lit tag) before) (rest : Bytes) :
    cut (0x3c :: lit tag) (before ++ 0x3c :: (lit tag ++ rest)) = some (before, rest) := by
  have hname := not_mem_tagName hn (b := 0x3c) (by decide)
  have hcut := Markup.cut_pattern (List.cons_ne_nil 0x3c (lit tag)) hbefore (Or.inr fun c hc => by
    cases hc
    exact hname) rest
  rwa [List.cons_append] at hcut

theorem tagBlockRanges_element {before inside after : Bytes} {next : UInt8}
    (hbefore : Lacks (0x3c :: lit tag) before) (hnext : endsTagName next = true) (hslash : next ≠ 0x2f)
    (hinside : Lacks (closeTag tag) (next :: inside)) :
    tagBlockRanges (before ++ 0x3c :: (lit tag ++ (next :: inside ++ (closeTag tag ++ after)))) tag false
      = ((before, 0x3c :: (lit tag ++ (next :: inside) ++ closeTag tag)) :: (tagBlockRanges after tag false).1,
        (tagBlockRanges after tag false).2) := by
  have hcut := cut_name hn hbefore (next :: inside ++ (closeTag tag ++ after))
  have hclose := cut_closeTag hn hinside after
  have hhead : (next :: inside ++ (closeTag tag ++ after)).head? = some next := rfl
  have hblock : blockAt tag (next :: inside ++ (closeTag tag ++ after))
      = (0x3c :: (lit tag ++ (next :: inside) ++ closeTag tag), after) := by
    unfold blockAt
    rw [hhead, if_neg (by simpa using hslash), hclose]
  have hfuel : after.length < (before ++ 0x3c :: (lit tag ++ (next :: inside ++ (closeTag tag ++ after)))).length := by
    simp only [List.length_append, List.length_cons]
    omega
  unfold tagBlockRanges
  rw [blockRanges, hcut]
  dsimp only
  rw [hhead]
  dsimp only
  rw [hnext, hblock, blockRanges_fuel [] hfuel]
  simp

end elements

theorem blocksOf_of_lacks {s : Bytes} (h : Lacks (0x3c :: lit tag) s) : blocksOf s tag = [] := by
  rw [blocksOf, tagBlockRanges_of_lacks h]
  rfl

/-! ### Elements that were written -/

def element (tag : String) (attributes text : Bytes) : Bytes :=
  0x3c :: (lit tag ++ (attributes ++ 0x3e :: (text ++ closeTag tag)))

theorem elementLine_element (indent : ℕ) (tag : String) (attributes text : Bytes) :
    elementLine indent tag attributes text = spaces indent ++ (element tag attributes text ++ [0x0a]) := by
  simp [elementLine, element]

/-- Attributes that can stand in a start tag. -/
structure Attributes (a : Bytes) : Prop where
  plain : Plain a
  space : ∀ b ∈ a.head?, b = 0x20
  open_ : a.getLast? ≠ some 0x2f

theorem attributes_nil : Attributes [] := ⟨plain_nil, by simp, by simp⟩

section parts

variable (hn : tagName tag = true) {attributes text : Bytes} (ha : Attributes attributes)
  (htext : Lacks (closeTag tag) text)

include hn ha htext

theorem blocksOf_element {before : Bytes} (hbefore : Lacks (0x3c :: lit tag) before) (after : Bytes) :
    blocksOf (before ++ (element tag attributes text ++ after)) tag
      = element tag attributes text :: blocksOf after tag := by
  have hlacks : Lacks (closeTag tag) (attributes ++ 0x3e :: text) := by
    refine Markup.lacks_plain_append ha.plain.lt ?_
    exact Markup.lacks_plain_append (x := [0x3e]) (by decide) htext
  -- what follows the name is a space or the end of the tag
  have hfirst : ∃ next inside, attributes ++ 0x3e :: text = next :: inside ∧ endsTagName next = true ∧
      next ≠ 0x2f := by
    cases attributes with
    | nil => exact ⟨0x3e, text, rfl, by decide, by decide⟩
    | cons b rest => exact ⟨b, rest ++ 0x3e :: text, rfl, by rw [ha.space b rfl]; decide, by rw [ha.space b rfl]; decide⟩
  obtain ⟨next, inside, hsplit, hnext, hslash⟩ := hfirst
  rw [hsplit] at hlacks
  have helement : element tag attributes text = 0x3c :: (lit tag ++ (next :: inside) ++ closeTag tag) := by
    rw [← hsplit]
    simp [element]
  have hwhole : before ++ (element tag attributes text ++ after)
      = before ++ 0x3c :: (lit tag ++ (next :: inside ++ (closeTag tag ++ after))) := by
    rw [helement]
    simp
  rw [hwhole, blocksOf, tagBlockRanges_element hn hbefore hnext hslash hlacks, helement]
  rfl

omit htext in
theorem blockParts_element : blockParts tag (element tag attributes text) = (text, trimmedXmlText attributes) := by
  have hgt := (plain_tagName hn).gt
  have hstart : cut [0x3e] (element tag attributes text)
      = some (0x3c :: (lit tag ++ attributes), text ++ closeTag tag) := by
    have hlacks : Lacks [0x3e] (0x3c :: (lit tag ++ attributes)) :=
      Markup.lacks_plain (by simp [hgt, ha.plain.gt])
    have hcut := Markup.cut_pattern (List.cons_ne_nil 0x3e []) hlacks (Or.inr fun c hc => by simp) (text ++ closeTag tag)
    rw [← hcut]
    simp [element]
  have hlast : (0x3c :: (lit tag ++ attributes)).getLast? ≠ some 0x2f := by
    intro hlast
    cases attributes with
    | nil =>
      rw [List.append_nil] at hlast
      have hmem := List.mem_of_getLast? hlast
      rcases List.mem_cons.mp hmem with h | h
      · exact absurd h (by decide)
      · exact not_mem_tagName hn (b := 0x2f) (by decide) h
    | cons b rest =>
      refine ha.open_ ?_
      rw [← List.cons_append, List.getLast?_append, List.getLast?_cons, Option.some_or] at hlast
      rw [List.getLast?_cons]
      exact hlast
  have hself : ((0x3c :: (lit tag ++ attributes)).getLast? == some 0x2f) = false := by simpa using hlast
  have hsuffix : (closeTag tag).isSuffixOf (text ++ closeTag tag) = true :=
    List.isSuffixOf_iff_suffix.mpr (List.suffix_append _ _)
  have hdrop : (0x3c :: (lit tag ++ attributes)).drop (1 + (lit tag).length) = attributes := by
    rw [Nat.add_comm, List.drop_succ_cons, List.drop_left]
  unfold blockParts
  rw [hstart]
  dsimp only
  rw [hself, hsuffix]
  simp only [Bool.not_true, Bool.or_self, Bool.false_eq_true, if_false, hdrop]
  rw [List.length_append, Nat.add_sub_cancel, List.take_left]

theorem getTagWithAttributes_element {before : Bytes} (hbefore : Lacks (0x3c :: lit tag) before) (after : Bytes) :
    getTagWithAttributes (before ++ (element tag attributes text ++ after)) tag
      = (text, trimmedXmlText attributes) := by
  unfold getTagWithAttributes
  rw [blocksOf_element hn ha htext hbefore]
  exact blockParts_element hn ha

theorem getTagWithAttributes_self :
    getTagWithAttributes (element tag attributes text) tag = (text, trimmedXmlText attributes) := by
  have hnil : Lacks (0x3c :: lit tag) ([] : Bytes) := Markup.lacks_plain (by simp)
  have hparts := getTagWithAttributes_element hn ha htext hnil []
  rwa [List.nil_append, List.append_nil] at hparts

end parts

theorem blocksOf_elements (hn : tagName tag = true) {β : Type} {text : β → Bytes} {l : List β}
    (htext : ∀ x ∈ l, Lacks (closeTag tag) (text x)) (indent : ℕ) {before after : Bytes} (hbefore : 0x3c ∉ before)
    (hafter : Lacks (0x3c :: lit tag) after) :
    blocksOf (before ++ (l.flatMap (fun x => spaces indent ++ (element tag [] (text x) ++ [0x0a])) ++ after)) tag
      = l.map fun x => element tag [] (text x) := by
  induction l generalizing before with
  | nil => exact blocksOf_of_lacks (Markup.lacks_plain_append hbefore hafter)
  | cons x l ih =>
    obtain ⟨hx, hl⟩ := List.forall_mem_cons.mp htext
    have hsplit : before ++ ((x :: l).flatMap (fun x => spaces indent ++ (element tag [] (text x) ++ [0x0a])) ++ after)
        = (before ++ spaces indent) ++ (element tag [] (text x) ++ ([0x0a] ++
          (l.flatMap (fun x => spaces indent ++ (element tag [] (text x) ++ [0x0a])) ++ after))) := by
      simp
    have hplain : 0x3c ∉ before ++ spaces indent := by simp [hbefore, (plain_spaces indent).lt]
    rw [hsplit, blocksOf_element hn attributes_nil hx (Markup.lacks_plain hplain), ih hl (by decide)]
    rfl

end CheatEngine.CtFile
