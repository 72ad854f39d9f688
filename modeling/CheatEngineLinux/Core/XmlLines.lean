import CheatEngineLinux.Core.TableXmlReader

/-!
# The tags of a written table

What the searches of the loader find in the lines of the writer.

* `Found.getTag` — **PROVED**: an element that is found in a part of a text is found in the text.
* `found_written` — **PROVED**: the field of a list of lines is found under its name.
-/

namespace CheatEngine.CtFile

open JsonGrammar (Bytes isDigit)
open Markup (cut Lacks Seam Tagged)

/-! ### Texts in texts -/

theorem contains_iff {text sub : Bytes} : contains text sub = true ↔ sub <:+: text := by
  unfold contains
  simp only [List.any_eq_true, List.mem_tails, List.isPrefixOf_iff_prefix]
  constructor
  · rintro ⟨t, hsuffix, hprefix⟩
    exact hprefix.isInfix.trans hsuffix.isInfix
  · intro h
    obtain ⟨t, hprefix, hsuffix⟩ := List.infix_iff_prefix_suffix.mp h
    exact ⟨t, hsuffix, hprefix⟩

/-! ### Texts without markup -/

/-- No mark of a tag. -/
def Plain (x : Bytes) : Prop := ∀ b ∈ x, b ≠ 0x3c ∧ b ≠ 0x3e

theorem Plain.lt {x : Bytes} (h : Plain x) : 0x3c ∉ x := fun hmem => (h _ hmem).1 rfl

theorem Plain.gt {x : Bytes} (h : Plain x) : 0x3e ∉ x := fun hmem => (h _ hmem).2 rfl

theorem Plain.append {x y : Bytes} (hx : Plain x) (hy : Plain y) : Plain (x ++ y) :=
  fun b hb => (List.mem_append.mp hb).elim (hx b) (hy b)

theorem plain_nil : Plain [] := fun _ h => by cases h

theorem plain_of_all {x : Bytes} (h : x.all (fun b => b != 0x3c && b != 0x3e) = true) : Plain x :=
  fun b hb => by simpa using List.all_eq_true.mp h b hb

theorem plain_spaces (n : ℕ) : Plain (spaces n) := fun b hb => by
  rw [List.eq_of_mem_replicate hb]
  decide

theorem plain_xmlEscape (s : Bytes) : Plain (xmlEscape s) := by
  intro b hb
  obtain ⟨c, -, hc⟩ := List.mem_flatMap.mp hb
  have hlits : ∀ x : Bytes, x = lit "&amp;" ∨ x = lit "&lt;" ∨ x = lit "&gt;" ∨ x = lit "&quot;" →
      Plain x := by
    rintro x (rfl | rfl | rfl | rfl)
    all_goals exact plain_of_all (by decide)
  split at hc
  · exact hlits _ (Or.inl rfl) b hc
  split at hc
  · exact hlits _ (Or.inr (Or.inl rfl)) b hc
  split at hc
  · exact hlits _ (Or.inr (Or.inr (Or.inl rfl))) b hc
  split at hc
  · exact hlits _ (Or.inr (Or.inr (Or.inr rfl))) b hc
  · next hlt hgt _ =>
    rw [List.mem_singleton.mp hc]
    exact ⟨by simpa using hlt, by simpa using hgt⟩

theorem plain_xmlEscapeText (s : Bytes) : Plain (xmlEscapeText s) := by
  intro b hb
  obtain ⟨c, -, hc⟩ := List.mem_flatMap.mp hb
  have hlits : ∀ x : Bytes, x = lit "&amp;" ∨ x = lit "&lt;" ∨ x = lit "&gt;" → Plain x := by
    rintro x (rfl | rfl | rfl)
    all_goals exact plain_of_all (by decide)
  split at hc
  · exact hlits _ (Or.inl rfl) b hc
  split at hc
  · exact hlits _ (Or.inr (Or.inl rfl)) b hc
  split at hc
  · exact hlits _ (Or.inr (Or.inr rfl)) b hc
  · next hlt hgt =>
    rw [List.mem_singleton.mp hc]
    exact ⟨by simpa using hlt, by simpa using hgt⟩

theorem plain_digitsText {base : ℕ} (n : ℕ) (hbase : 1 < base) (hbase' : base ≤ 16) :
    Plain (digitsText base n) := by
  intro b hb
  obtain ⟨d, hd, rfl⟩ := mem_digitsText hbase hbase' hb
  have hcases : ∀ d < 16, digitByte d ≠ 0x3c ∧ digitByte d ≠ 0x3e := by decide
  exact hcases d (by omega)

theorem plain_intText (n : ℤ) : Plain (intText n) := by
  have hdigits := @plain_digitsText 10 n.natAbs (by decide) (by decide)
  unfold intText
  split
  · exact Plain.append (x := [0x2d]) (plain_of_all (by decide)) hdigits
  · exact hdigits

/-! ### Names of tags -/

/-- Letters and digits only. -/
def tagName (n : String) : Bool := !(lit n).isEmpty && (lit n).all nameChar

section names

variable {n : String} (h : tagName n = true)

include h

theorem tagName_ne_nil : lit n ≠ [] := by
  unfold tagName at h
  simp only [Bool.and_eq_true, Bool.not_eq_true', List.isEmpty_eq_false_iff] at h
  exact h.1

theorem tagName_mem {b : UInt8} (hb : b ∈ lit n) : nameChar b = true := by
  unfold tagName at h
  simp only [Bool.and_eq_true] at h
  exact List.all_eq_true.mp h.2 b hb

theorem not_mem_tagName {b : UInt8} (hb : nameChar b = false) : b ∉ lit n :=
  fun hmem => by simp [tagName_mem h hmem] at hb

theorem plain_tagName : Plain (lit n) := fun b hb =>
  ⟨fun heq => not_mem_tagName h (b := 0x3c) (by decide) (heq ▸ hb),
    fun heq => not_mem_tagName h (b := 0x3e) (by decide) (heq ▸ hb)⟩

end names

/-- What stands in a close tag. -/
def closing (n : String) : Bytes := 0x2f :: lit n

theorem openTag_ne_nil (n : String) : openTag n ≠ [] := List.cons_ne_nil _ _

theorem closeTag_ne_nil (n : String) : closeTag n ≠ [] := List.cons_ne_nil _ _

/-! ### Lines -/

def EndsLine (s : Bytes) : Prop := ∀ c ∈ s.getLast?, c = 0x0a

theorem endsLine_nil : EndsLine [] := fun c hc => by cases hc

theorem endsLine_snoc (s : Bytes) : EndsLine (s ++ [0x0a]) := fun c hc => by
  rw [List.getLast?_concat] at hc
  exact (Option.some.inj hc).symm

theorem EndsLine.append {s t : Bytes} (hs : EndsLine s) (ht : EndsLine t) : EndsLine (s ++ t) := by
  cases t with
  | nil => rwa [List.append_nil]
  | cons c t =>
    intro b hb
    rw [List.getLast?_append, List.getLast?_cons, Option.some_or] at hb
    exact ht b (by rw [List.getLast?_cons]; exact hb)

theorem EndsLine.append_left {s t : Bytes} (ht : EndsLine t) (hne : t ≠ []) : EndsLine (s ++ t) := by
  obtain ⟨c, t, rfl⟩ := List.exists_cons_of_ne_nil hne
  intro b hb
  rw [List.getLast?_append, List.getLast?_cons, Option.some_or] at hb
  exact ht b (by rw [List.getLast?_cons]; exact hb)

theorem EndsLine.seam {s : Bytes} (h : EndsLine s) {pat : Bytes} (hpat : 0x0a ∉ pat) (t : Bytes) :
    Seam pat s t :=
  Or.inl fun c hc => h c hc ▸ hpat

theorem endsLine_flatMap {β : Type} {f : β → Bytes} {l : List β} (h : ∀ i ∈ l, EndsLine (f i)) :
    EndsLine (l.flatMap f) := by
  induction l with
  | nil => exact endsLine_nil
  | cons i l ih =>
    obtain ⟨hi, hl⟩ := List.forall_mem_cons.mp h
    rw [List.flatMap_cons]
    exact hi.append (ih hl)

theorem elementLine_eq (indent : ℕ) (tag : String) (attributes text : Bytes) :
    elementLine indent tag attributes text
      = spaces indent ++ 0x3c :: ((lit tag ++ attributes) ++ 0x3e :: (text ++ (closeTag tag ++ [0x0a]))) := by
  simp [elementLine]

theorem endsLine_elementLine (indent : ℕ) (tag : String) (attributes text : Bytes) :
    EndsLine (elementLine indent tag attributes text) := by
  have hsplit : elementLine indent tag attributes text
      = (spaces indent ++ (0x3c :: (lit tag ++ (attributes ++ (0x3e :: (text ++ closeTag tag)))))) ++ [0x0a] := by
    simp [elementLine]
  rw [hsplit]
  exact endsLine_snoc _

theorem endsLine_closeLine (indent : ℕ) (tag : String) : EndsLine (closeLine indent tag) := by
  unfold closeLine
  rw [← List.append_assoc]
  exact endsLine_snoc _

theorem endsLine_openLine (indent : ℕ) (tag : String) : EndsLine (openLine indent tag) := by
  unfold openLine
  rw [← List.append_assoc]
  exact endsLine_snoc _

theorem endsLine_block (indent : ℕ) (tag : String) (content : Bytes) :
    EndsLine (block indent tag content) := by
  have hne : closeLine indent tag ≠ [] := by simp [closeLine]
  unfold block
  rw [← List.append_assoc]
  exact (endsLine_closeLine indent tag).append_left hne

section tagged

variable {P : Bytes → Prop} {indent : ℕ} {n : String} (hn : tagName n = true)

include hn

theorem tagged_closeTag (hclose : P (closing n)) {s : Bytes} (hs : Tagged 0x3c 0x3e P s) :
    Tagged 0x3c 0x3e P (closeTag n ++ s) := by
  have hplain := plain_tagName hn
  have hsplit : closeTag n ++ s = [] ++ 0x3c :: (closing n ++ 0x3e :: s) := by simp [closeTag, closing]
  rw [hsplit]
  refine .tag (by simp) hclose ?_ ?_ hs
  · exact fun hmem => (List.mem_cons.mp hmem).elim (by decide) hplain.lt
  · exact fun hmem => (List.mem_cons.mp hmem).elim (by decide) hplain.gt

theorem tagged_elementLine {attributes text : Bytes} (hopen : P (lit n ++ attributes))
    (hclose : P (closing n)) (hattributes : Plain attributes) (htext : Tagged 0x3c 0x3e P text) :
    Tagged 0x3c 0x3e P (elementLine indent n attributes text) := by
  have hplain := (plain_tagName hn).append hattributes
  rw [elementLine_eq]
  exact .tag (plain_spaces indent).lt hopen hplain.lt hplain.gt
    (htext.append (tagged_closeTag hn hclose (.plain (by decide))))

theorem tagged_line {text : Bytes} (hopen : P (lit n)) (hclose : P (closing n)) (htext : Plain text) :
    Tagged 0x3c 0x3e P (line indent n text) :=
  tagged_elementLine hn (by rwa [List.append_nil]) hclose plain_nil (.plain htext.lt)

theorem tagged_openLine (hopen : P (lit n)) : Tagged 0x3c 0x3e P (openLine indent n) := by
  have hplain := plain_tagName hn
  have hsplit : openLine indent n = spaces indent ++ 0x3c :: (lit n ++ 0x3e :: [0x0a]) := by
    simp [openLine, openTag]
  rw [hsplit]
  exact .tag (plain_spaces indent).lt hopen hplain.lt hplain.gt (.plain (by decide))

theorem tagged_closeLine (hclose : P (closing n)) : Tagged 0x3c 0x3e P (closeLine indent n) := by
  unfold closeLine
  exact Tagged.plain_append (plain_spaces indent).lt (tagged_closeTag hn hclose (.plain (by decide)))

theorem tagged_block {content : Bytes} (hopen : P (lit n)) (hclose : P (closing n))
    (hcontent : Tagged 0x3c 0x3e P content) : Tagged 0x3c 0x3e P (block indent n content) :=
  (tagged_openLine hn hopen).append (hcontent.append (tagged_closeLine hn hclose))

theorem lacks_open {s : Bytes} (h : Tagged 0x3c 0x3e P s) (hP : ¬ P (lit n)) : Lacks (openTag n) s :=
  h.lacks (by decide) hP (plain_tagName hn).gt

theorem lacks_close {s : Bytes} (h : Tagged 0x3c 0x3e P s) (hP : ¬ P (closing n)) : Lacks (closeTag n) s := by
  have hgt : 0x3e ∉ closing n := by simp [closing, (plain_tagName hn).gt]
  exact h.lacks (by decide) hP hgt

end tagged

/-! ### What `getTag` finds -/

def Found (text : Bytes) (n : String) (body : Bytes) : Prop :=
  ∃ a b c, cut (openTag n) text = some (a, b) ∧ cut (closeTag n) b = some (body, c)

section found

variable {text body : Bytes} {n : String}

theorem Found.getTag (h : Found text n body) : getTag text n = body := by
  obtain ⟨a, b, c, hopen, hclose⟩ := h
  rw [CtFile.getTag, hopen]
  dsimp only
  rw [hclose]

theorem getTag_of_lacks (h : Lacks (openTag n) text) : getTag text n = [] := by
  rw [CtFile.getTag, h.cut]

theorem Found.append (h : Found text n body) (rest : Bytes) : Found (text ++ rest) n body := by
  obtain ⟨a, b, c, hopen, hclose⟩ := h
  exact ⟨a, b ++ rest, c ++ rest, Markup.cut_append_left (openTag_ne_nil n) hopen rest,
    Markup.cut_append_left (closeTag_ne_nil n) hclose rest⟩

theorem Found.after (h : Found text n body) {lead : Bytes} (hlead : Lacks (openTag n) lead)
    (hseam : Seam (openTag n) lead text) : Found (lead ++ text) n body := by
  obtain ⟨a, b, c, hopen, hclose⟩ := h
  exact ⟨lead ++ a, b, c, by rw [Markup.cut_append hlead hseam, hopen]; rfl, hclose⟩

variable (hn : tagName n = true)

include hn

theorem openTag_line_break : 0x0a ∉ openTag n := by
  have hname := not_mem_tagName hn (b := 0x0a) (by decide)
  simp [openTag, hname]

theorem closeTag_line_break : 0x0a ∉ closeTag n := by
  have hname := not_mem_tagName hn (b := 0x0a) (by decide)
  simp [closeTag, hname]

theorem seam_openTag (a : Bytes) {b : Bytes} (hb : ∀ c ∈ b.head?, c = 0x3c) : Seam (openTag n) a b := by
  have hname := not_mem_tagName hn (b := 0x3c) (by decide)
  exact Or.inr fun c hc => by simp [hb c hc, openTag, hname]

theorem seam_closeTag (a : Bytes) {b : Bytes} (hb : ∀ c ∈ b.head?, c = 0x3c) : Seam (closeTag n) a b := by
  have hname := not_mem_tagName hn (b := 0x3c) (by decide)
  exact Or.inr fun c hc => by simp [hb c hc, closeTag, hname]

theorem cut_closeTag {body : Bytes} (hbody : Lacks (closeTag n) body) (rest : Bytes) :
    cut (closeTag n) (body ++ (closeTag n ++ rest)) = some (body, rest) :=
  Markup.cut_pattern (closeTag_ne_nil n) hbody (seam_closeTag hn body (by simp [closeTag])) rest

theorem cut_openTag {before : Bytes} (hbefore : Lacks (openTag n) before) (rest : Bytes) :
    cut (openTag n) (before ++ (openTag n ++ rest)) = some (before, rest) :=
  Markup.cut_pattern (openTag_ne_nil n) hbefore (seam_openTag hn before (by simp [openTag])) rest

theorem found_line {indent : ℕ} {body : Bytes} (hbody : Lacks (closeTag n) body) :
    Found (line indent n body) n body := by
  have hsplit : line indent n body = spaces indent ++ (openTag n ++ (body ++ (closeTag n ++ [0x0a]))) := by
    simp [line, elementLine, openTag]
  refine ⟨spaces indent, body ++ (closeTag n ++ [0x0a]), [0x0a], ?_, cut_closeTag hn hbody _⟩
  rw [hsplit]
  exact cut_openTag hn (Markup.lacks_plain (plain_spaces indent).lt) _

theorem found_plain_line {indent : ℕ} {body : Bytes} (hbody : Plain body) :
    Found (line indent n body) n body := found_line hn (Markup.lacks_plain hbody.lt)

theorem found_block {indent : ℕ} {content : Bytes} (hcontent : Lacks (closeTag n) content) :
    Found (block indent n content) n (0x0a :: (content ++ spaces indent)) := by
  have hsplit : block indent n content
      = spaces indent ++ (openTag n ++ ((0x0a :: (content ++ spaces indent)) ++ (closeTag n ++ [0x0a]))) := by
    simp [block, openLine, closeLine]
  have hlacks : Lacks (closeTag n) (0x0a :: (content ++ spaces indent)) := by
    refine Markup.lacks_plain_append (x := [0x0a]) (by decide) ?_
    refine Markup.lacks_append hcontent (Markup.lacks_plain (plain_spaces indent).lt) (Or.inr fun c hc => ?_)
    have hc : c = 0x20 := List.eq_of_mem_replicate (List.mem_of_mem_head? hc)
    have hname := not_mem_tagName hn (b := 0x20) (by decide)
    simp [hc, hname]
  refine ⟨spaces indent, _, [0x0a], ?_, cut_closeTag hn hlacks _⟩
  rw [hsplit]
  exact cut_openTag hn (Markup.lacks_plain (plain_spaces indent).lt) _

end found

/-! ### Lists of lines -/

section written

variable {fields : List (String × Option Bytes)}

def Lines (fields : List (String × Option Bytes)) : Prop := ∀ f ∈ fields, ∀ text ∈ f.2, EndsLine text

theorem endsLine_written (h : Lines fields) : EndsLine (written fields) := by
  refine endsLine_flatMap fun f hf => ?_
  cases hfield : f.2 with
  | none => exact endsLine_nil
  | some text => exact h f hf text (by rw [hfield]; rfl)

theorem tagged_written {P : Bytes → Prop} (h : ∀ f ∈ fields, ∀ text ∈ f.2, Tagged 0x3c 0x3e P text) :
    Tagged 0x3c 0x3e P (written fields) := by
  refine Tagged.flatMap fun f hf => ?_
  cases hfield : f.2 with
  | none => exact .plain (by simp)
  | some text => exact h f hf text (by rw [hfield]; rfl)

theorem lacks_written {pat : Bytes} (hpat : 0x0a ∉ pat) (hne : pat ≠ []) (hlines : Lines fields)
    (h : ∀ f ∈ fields, ∀ text ∈ f.2, Lacks pat text) : Lacks pat (written fields) := by
  induction fields with
  | nil => exact fun hin => hne (by simpa [written] using hin)
  | cons f fields ih =>
    obtain ⟨hf, hrest⟩ := List.forall_mem_cons.mp h
    obtain ⟨hfline, hlines⟩ := List.forall_mem_cons.mp hlines
    have htail := ih hlines hrest
    obtain ⟨k, o⟩ := f
    cases o with
    | none => exact htail
    | some text => exact Markup.lacks_append (hf text rfl) htail ((hfline text rfl).seam hpat _)

theorem found_written {n : String} (hn : tagName n = true) (hlines : Lines fields)
    (hothers : ∀ f ∈ fields, f.1 ≠ n → ∀ text ∈ f.2, Lacks (openTag n) text)
    (hkeys : (fields.map Prod.fst).Nodup) {text body : Bytes} (hmem : (n, some text) ∈ fields)
    (hfound : Found text n body) : Found (written fields) n body := by
  induction fields with
  | nil => cases hmem
  | cons f fields ih =>
    obtain ⟨hf, hothers⟩ := List.forall_mem_cons.mp hothers
    obtain ⟨hfline, hlines⟩ := List.forall_mem_cons.mp hlines
    obtain ⟨hfresh, hkeys⟩ := List.nodup_cons.mp hkeys
    rcases List.mem_cons.mp hmem with heq | hmem
    · subst heq
      exact hfound.append _
    · have hne : f.1 ≠ n := fun heq => hfresh (List.mem_map.mpr ⟨_, hmem, heq.symm⟩)
      have htail := ih hlines hothers hkeys hmem
      obtain ⟨k, o⟩ := f
      cases o with
      | none => exact htail
      | some line => exact htail.after (hf hne line rfl) ((hfline line rfl).seam (openTag_line_break hn) _)

theorem lacks_written_open {n : String} (hn : tagName n = true) (hlines : Lines fields)
    (hothers : ∀ f ∈ fields, f.1 ≠ n → ∀ text ∈ f.2, Lacks (openTag n) text)
    (hnone : ∀ f ∈ fields, f.1 = n → f.2 = none) : Lacks (openTag n) (written fields) := by
  refine lacks_written (openTag_line_break hn) (openTag_ne_nil n) hlines fun f hf text htext => ?_
  by_cases heq : f.1 = n
  · rw [hnone f hf heq] at htext
    cases htext
  · exact hothers f hf heq text htext

end written

end CheatEngine.CtFile
