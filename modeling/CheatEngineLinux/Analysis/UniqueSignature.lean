import CheatEngineLinux.Analysis.Signature
import CheatEngineLinux.Scanner.GroupedParse

/-!
# What a unique signature says

* **PROVED `parseAOB_toAob`**: `parseAOB` reads the printed pattern back.
* **PROVED `signature_reported_unique`**: a signature that is reported unique matches at the address
  and nowhere else in the scope.
* `stray_byte_not_noticed`: a range that is shorter than the pattern need not be readable.
-/

namespace CheatEngine.Signature

open AutoAssembler (AobPattern Found noteMatch Matches matchesFrom kChunk)
open ByteOverlay
open Grouped (parseAOB aobStep nib AobState)
open JsonGrammar (Bytes)

variable {target : StaticTarget} {pat : List PatByte}

/-! ### The text -/

theorem tokens_intercalate {words : List Bytes} (hne : ∀ w ∈ words, w ≠ [])
    (hspace : ∀ w ∈ words, ∀ b ∈ w, CtFile.isSpace b = false) :
    Grouped.tokens ([0x20].intercalate words) = words := by
  induction words with
  | nil => rfl
  | cons w words ih =>
    have hw : (!w.isEmpty) = true := by simpa using hne w List.mem_cons_self
    have hwspace := hspace w List.mem_cons_self
    cases words with
    | nil =>
      rw [List.intercalate_singleton, Grouped.tokens, List.splitOnP_eq_singleton hwspace,
        List.filter_cons, if_pos hw, List.filter_nil]
    | cons w' rest =>
      have hrest := ih (fun w hw => hne w (List.mem_cons_of_mem _ hw))
        fun w hw => hspace w (List.mem_cons_of_mem _ hw)
      rw [List.intercalate_cons_cons, List.append_assoc, List.singleton_append, Grouped.tokens,
        List.splitOnP_append_cons_of_forall_mem hwspace _ (by decide),
        List.filter_cons, if_pos hw, ← Grouped.tokens, hrest]

theorem hexDigit_facts : ∀ n < 16, nib (hexDigit n) = (UInt8.ofNat n, 0xf, true) ∧
    hexDigit n ≠ 0x3f ∧ CtFile.isSpace (hexDigit n) = false := by
  decide

theorem nibbles_join : ∀ n < 256,
    (UInt8.ofNat (n / 16) <<< 4) ||| UInt8.ofNat (n % 16) = UInt8.ofNat n := by
  decide +kernel

theorem text_ne_nil (b : PatByte) : b.text ≠ [] := by
  unfold PatByte.text
  split <;> exact List.cons_ne_nil _ _

theorem text_not_space (b : PatByte) : ∀ c ∈ b.text, CtFile.isSpace c = false := by
  have hlt := b.value.toNat_lt
  unfold PatByte.text
  split
  · intro c hc
    have hc : c = 0x3f := by simpa using hc
    subst hc
    decide
  · intro c hc
    rcases List.mem_cons.mp hc with rfl | hc
    · exact (hexDigit_facts _ (by omega)).2.2
    · rw [List.mem_singleton.mp hc]
      exact (hexDigit_facts _ (by omega)).2.2

theorem aobStep_text {st : AobState} (hvalid : st.valid = true) (b : PatByte) :
    aobStep st b.text = ⟨true, st.bytes ++ [if b.wild then 0 else b.value],
      st.mask ++ [if b.wild then 0 else 0xff]⟩ := by
  have hlt := b.value.toNat_lt
  unfold PatByte.text
  split
  · rw [aobStep, if_pos (by decide), hvalid]
  · obtain ⟨hhigh, hne, -⟩ := hexDigit_facts (b.value.toNat / 16) (by omega)
    obtain ⟨hlow, -, -⟩ := hexDigit_facts (b.value.toNat % 16) (by omega)
    rw [aobStep, if_neg (by simp [hne])]
    simp only [AobState.pushPair, hhigh, hlow, hvalid, nibbles_join _ hlt, UInt8.ofNat_toNat]
    rfl

theorem foldl_aobStep (pat : List PatByte) (st : AobState) (hvalid : st.valid = true) :
    (pat.map PatByte.text).foldl aobStep st =
      ⟨true, st.bytes ++ (toPattern pat).bytes, st.mask ++ (toPattern pat).mask⟩ := by
  induction pat generalizing st with
  | nil =>
    obtain ⟨valid, bytes, mask⟩ := st
    cases hvalid
    simp [toPattern]
  | cons b pat ih =>
    rw [List.map_cons, List.foldl_cons, aobStep_text hvalid, ih _ rfl]
    simp [toPattern]

theorem trimmed_trimmed (pat : List PatByte) : trimmed (trimmed pat) = trimmed pat :=
  List.rdropWhile_idempotent _ _

/-- `parseAOB` reads the printed pattern back. -/
theorem parseAOB_toAob {pat : List PatByte} (h : trimmed pat ≠ []) :
    parseAOB (toAob pat) =
      (true, (toPattern (trimmed pat)).bytes, (toPattern (trimmed pat)).mask) := by
  have htokens : Grouped.tokens (toAob pat) = (trimmed pat).map PatByte.text := by
    refine tokens_intercalate ?_ ?_
    · rw [List.forall_mem_map]
      exact fun b _ => text_ne_nil b
    · rw [List.forall_mem_map]
      exact fun b _ => text_not_space b
  have hne : (toPattern (trimmed pat)).bytes.isEmpty = false := by
    simpa [toPattern] using h
  rw [parseAOB, htokens, foldl_aobStep _ _ rfl]
  dsimp only
  rw [List.nil_append, List.nil_append, hne]
  rfl

/-! ### The verdict -/

variable {count : List PatByte → Bool → Found × Bool} {address maxBytes : ℕ}

/-- The last count of a pattern that is reported unique. -/
def Counted (count : List PatByte → Bool → Found × Bool) (pat : List PatByte) (address : ℕ)
    (after : Bool) : Prop :=
  ∃ before, (count pat before).1.count = 1 ∧ (count pat before).1.first = address ∧
    (count pat before).2 = after

theorem grow_unique (insns : List Instruction) (pat : List PatByte) (incomplete : Bool)
    (h : (grow count address maxBytes insns pat incomplete).2.1 = true) :
    Counted count (trimmed (grow count address maxBytes insns pat incomplete).1) address
      (grow count address maxBytes insns pat incomplete).2.2 := by
  induction insns generalizing pat incomplete with
  | nil => cases h
  | cons insn insns ih =>
    rw [grow] at h ⊢
    dsimp only at h ⊢
    split at h
    · next hone =>
      rw [if_pos hone]
      exact ⟨incomplete, hone, eq_of_beq h, rfl⟩
    · next hone =>
      rw [if_neg hone]
      split at h
      · cases h
      · next hmore =>
        rw [if_neg hmore]
        exact ih _ _ h

theorem signatureOf_unique {insns : List Instruction} {incomplete : Bool}
    (h : (signatureOf count address maxBytes insns incomplete).unique = true) :
    ∃ pat, trimmed pat = pat ∧
      (signatureOf count address maxBytes insns incomplete).pattern = toAob pat ∧
      (signatureOf count address maxBytes insns incomplete).length = pat.length ∧
      (signatureOf count address maxBytes insns incomplete).incomplete = false ∧
      Counted count pat address false := by
  have hgrown := @grow_unique count address maxBytes insns [] incomplete
  unfold signatureOf at h ⊢
  generalize grow count address maxBytes insns [] incomplete = grown at h hgrown ⊢
  obtain ⟨pat, unique, after⟩ := grown
  refine ⟨trimmed pat, trimmed_trimmed pat, rfl, rfl, ?_⟩
  cases unique with
  | true =>
    have hafter : after = false := by simpa using h
    subst hafter
    exact ⟨rfl, hgrown rfl⟩
  | false =>
    simp only [Bool.false_eq_true, if_false, Bool.and_eq_true, beq_iff_eq,
      Bool.not_eq_true'] at h
    exact ⟨h.2, after, h.1.1, h.1.2, h.2⟩

theorem signatureOf_incomplete (hcount : ∀ pat incomplete, (count pat incomplete).2 = incomplete)
    (insns : List Instruction) (incomplete : Bool) :
    (signatureOf count address maxBytes insns incomplete).incomplete = incomplete := by
  have hgrow : ∀ pat, (grow count address maxBytes insns pat incomplete).2.2 = incomplete := by
    induction insns with
    | nil => exact fun _ => rfl
    | cons insn insns ih =>
      intro pat
      rw [grow]
      dsimp only
      rw [hcount]
      split
      · rfl
      · split
        · rfl
        · exact ih _
  have hgrown := hgrow []
  unfold signatureOf
  generalize grow count address maxBytes insns [] incomplete = grown at hgrown ⊢
  obtain ⟨pat, unique, after⟩ := grown
  cases hgrown
  cases unique with
  | true => rfl
  | false => exact hcount _ _

theorem countScope_cached (pat : List PatByte) (scope : List SearchRange) (found : Found)
    (incomplete : Bool) :
    (countScope target true pat scope found incomplete).2 = incomplete := by
  induction scope generalizing found with
  | nil => rfl
  | cons r scope ih =>
    rw [countScope]
    split
    · exact ih _
    · rfl

theorem copiesIncomplete_eq_false {scope : List SearchRange} :
    copiesIncomplete target scope = false ↔ ∀ r ∈ scope, r.Readable target := by
  rw [copiesIncomplete, List.any_eq_false]
  refine forall₂_congr fun r _ => ?_
  rw [decide_eq_true_iff, Nat.not_lt]
  refine ⟨readable_of_cachedCopy, fun h => ?_⟩
  rw [cachedCopy_eq h, slice_length]

/-! ### Uniqueness -/

structure UniqueAt (mem : ℕ → UInt8) (scope : List SearchRange) (p : AobPattern) (address : ℕ) :
    Prop where
  found : Matches mem p address
  inside : ∃ r ∈ scope, r.base ≤ address ∧ address + p.size ≤ r.base + r.size
  only : ∀ r ∈ scope, ∀ a, r.base ≤ a → a + p.size ≤ r.base + r.size → Matches mem p a →
    a = address

theorem mem_rangeMatches (hpat : pat ≠ []) {r : SearchRange} {a : ℕ} :
    a ∈ rangeMatches target pat r ↔
      (r.base ≤ a ∧ a + (toPattern pat).size ≤ r.base + r.size) ∧
        Matches target.mem (toPattern pat) a := by
  have hlength : 0 < pat.length := List.length_pos_iff.mpr hpat
  rw [rangeMatches, AutoAssembler.mem_matchesFrom, toPattern_size]
  refine and_congr_left fun _ => ?_
  omega

theorem uniqueAt_of_rangeMatches (hpat : pat ≠ []) {scope : List SearchRange}
    (h : scope.flatMap (rangeMatches target pat) = [address]) :
    UniqueAt target.mem scope (toPattern pat) address := by
  have hmem : ∀ a, (∃ r ∈ scope, a ∈ rangeMatches target pat r) ↔ a = address := fun a => by
    rw [← List.mem_flatMap, h, List.mem_singleton]
  obtain ⟨r, hr, hfound⟩ := (hmem address).mpr rfl
  obtain ⟨hinside, hmatch⟩ := (mem_rangeMatches hpat).mp hfound
  exact ⟨hmatch, ⟨r, hr, hinside⟩, fun r hr a hbase hlast ha =>
    (hmem a).mp ⟨r, hr, (mem_rangeMatches hpat).mpr ⟨⟨hbase, hlast⟩, ha⟩⟩⟩

variable {disassemble : ℕ → Bytes → Option (List Instruction)} {codeRegion : SearchRange}
  {scope : List SearchRange}

/-- With code to disassemble, `makeSignatureIn` counts. -/
theorem makeSignatureWith_eq {code : Bytes} {insns : List Instruction}
    (hin : ¬(codeRegion.size = 0 ∨ address < codeRegion.base ∨
      address - codeRegion.base ≥ codeRegion.size))
    (hread : target.read address
      (min (codeRegion.size - (address - codeRegion.base)) ((maxBytes + 16) % 2 ^ 64)) = some code)
    (hcode : code ≠ []) (hinsns : disassemble address code = some insns) (useCache : Bool) :
    makeSignatureWith target disassemble useCache address codeRegion scope maxBytes =
      signatureOf (fun pat => countScope target useCache pat scope ⟨0, 0⟩) address maxBytes insns
        (useCache && copiesIncomplete target scope) := by
  rw [makeSignatureWith, if_neg hin]
  dsimp only
  rw [hread]
  cases code with
  | nil => exact absurd rfl hcode
  | cons b code =>
    dsimp only
    rw [hinsns]

/-- `makeSignatureIn` returns nothing, or counts. -/
theorem makeSignatureWith_cases (target : StaticTarget)
    (disassemble : ℕ → Bytes → Option (List Instruction)) (address : ℕ) (codeRegion : SearchRange)
    (scope : List SearchRange) (maxBytes : ℕ) :
    (∀ useCache, makeSignatureWith target disassemble useCache address codeRegion scope maxBytes =
      {}) ∨
    ∃ insns, ∀ useCache,
      makeSignatureWith target disassemble useCache address codeRegion scope maxBytes =
        signatureOf (fun pat => countScope target useCache pat scope ⟨0, 0⟩) address maxBytes insns
          (useCache && copiesIncomplete target scope) := by
  unfold makeSignatureWith
  split
  · exact .inl fun _ => rfl
  · dsimp only
    split
    · exact .inl fun _ => rfl
    · exact .inl fun _ => rfl
    · split
      · exact .inl fun _ => rfl
      · exact .inr ⟨_, fun _ => rfl⟩

theorem readable_of_cached
    (h : (makeSignatureWith target disassemble true address codeRegion scope maxBytes).unique =
      true) : ∀ r ∈ scope, r.Readable target := by
  rcases makeSignatureWith_cases target disassemble address codeRegion scope maxBytes with
    hnone | ⟨insns, hcount⟩
  · rw [hnone] at h
    cases h
  · rw [hcount] at h
    obtain ⟨-, -, -, -, hwhole, -⟩ := signatureOf_unique h
    have hcounts := fun pat incomplete => @countScope_cached target pat scope ⟨0, 0⟩ incomplete
    rw [signatureOf_incomplete hcounts] at hwhole
    exact copiesIncomplete_eq_false.mp hwhole

theorem makeSignatureWith_modes (h : ∀ r ∈ scope, r.Readable target) :
    makeSignatureWith target disassemble true address codeRegion scope maxBytes =
      makeSignatureWith target disassemble false address codeRegion scope maxBytes := by
  rcases makeSignatureWith_cases target disassemble address codeRegion scope maxBytes with
    hnone | ⟨insns, hcount⟩
  · rw [hnone, hnone]
  · rw [hcount, hcount, copiesIncomplete_eq_false.mpr h]
    congr 1
    funext pat incomplete
    exact countScope_modes h pat incomplete

theorem makeSignatureWith_unique {useCache : Bool}
    (h : (makeSignatureWith target disassemble useCache address codeRegion scope maxBytes).unique =
      true) :
    ∃ pat, pat ≠ [] ∧ trimmed pat = pat ∧
      (makeSignatureWith target disassemble useCache address codeRegion scope maxBytes).pattern =
        toAob pat ∧
      (makeSignatureWith target disassemble useCache address codeRegion scope maxBytes).length =
        pat.length ∧
      (∀ r ∈ scope, pat.length ≤ r.size → r.Readable target) ∧
      scope.flatMap (rangeMatches target pat) = [address] := by
  have hcache : useCache = true → ∀ r ∈ scope, r.Readable target := by
    rintro rfl
    exact readable_of_cached h
  rcases makeSignatureWith_cases target disassemble address codeRegion scope maxBytes with
    hnone | ⟨insns, hcount⟩
  · rw [hnone] at h
    cases h
  · rw [hcount] at h ⊢
    obtain ⟨pat, htrimmed, hpattern, hlength, -, before, hone, hfirst, hwhole⟩ :=
      signatureOf_unique h
    have hpat : pat ≠ [] := by
      rintro rfl
      dsimp only at hone
      rw [countScope_nil] at hone
      cases hone
    obtain ⟨-, hreads, hseen⟩ := countScope_one hpat hcache hwhole hone
    rw [hfirst] at hseen
    exact ⟨pat, hpat, htrimmed, hpattern, hlength, hreads, hseen⟩

theorem uniqueAt_of_unique {useCache : Bool}
    (h : (makeSignatureWith target disassemble useCache address codeRegion scope maxBytes).unique =
      true) :
    (∀ r ∈ scope,
      (makeSignatureWith target disassemble useCache address codeRegion scope maxBytes).length ≤
        r.size → r.Readable target) ∧
    ∃ bytes mask, parseAOB (makeSignatureWith target disassemble useCache address codeRegion scope
        maxBytes).pattern = (true, bytes, mask) ∧ UniqueAt target.mem scope ⟨bytes, mask⟩ address := by
  obtain ⟨pat, hpat, htrimmed, hpattern, hlength, hreads, hone⟩ := makeSignatureWith_unique h
  have hparsed := parseAOB_toAob (htrimmed.symm ▸ hpat)
  rw [htrimmed, ← hpattern] at hparsed
  exact ⟨fun r hr hle => hreads r hr (hlength ▸ hle), _, _, hparsed,
    uniqueAt_of_rangeMatches hpat hone⟩

/-- **A signature reported unique is unique**, and every range it fits in was read.  The copies
report what the chunks do, unless a range that the pattern does not fit in cannot be read. -/
theorem signature_reported_unique (target : StaticTarget)
    (disassemble : ℕ → Bytes → Option (List Instruction)) (address : ℕ) (codeRegion : SearchRange)
    (scope : List SearchRange) (maxBytes : ℕ) :
    let out (useCache : Bool) :=
      makeSignatureWith target disassemble useCache address codeRegion scope maxBytes
    (∀ useCache, (out useCache).unique = true →
      (∃ bytes mask, parseAOB (out useCache).pattern = (true, bytes, mask) ∧
        UniqueAt target.mem scope ⟨bytes, mask⟩ address) ∧
      (∀ r ∈ scope, (out useCache).length ≤ r.size → r.Readable target) ∧
      (useCache = true → ∀ r ∈ scope, r.Readable target)) ∧
    ((out true).unique = true ↔
      (out false).unique = true ∧
        ∀ r ∈ scope, r.size < (out false).length → r.Readable target) := by
  intro out
  refine ⟨fun useCache h => ?_, fun h => ?_, fun ⟨h, hshort⟩ => ?_⟩
  · obtain ⟨hreads, hunique⟩ := uniqueAt_of_unique h
    refine ⟨hunique, hreads, ?_⟩
    rintro rfl
    exact readable_of_cached h
  · have hread := readable_of_cached h
    have hsame : out true = out false := makeSignatureWith_modes hread
    exact ⟨hsame ▸ h, fun r hr _ => hread r hr⟩
  · obtain ⟨pat, -, -, -, hlength, hreads, -⟩ := makeSignatureWith_unique h
    have hread : ∀ r ∈ scope, r.Readable target := by
      intro r hr
      rcases Nat.lt_or_ge r.size pat.length with hlt | hge
      · exact hshort r hr (hlength ▸ hlt)
      · exact hreads r hr hge
    have hsame : out true = out false := makeSignatureWith_modes hread
    exact hsame ▸ h

/-- A process where a read returns all it asks for, or nothing. -/
def wholeReads (mem : ℕ → UInt8) (readable : ℕ → Prop) [DecidablePred readable] : StaticTarget where
  mem := mem
  readable := readable
  read a n := if ∀ i < n, readable (a + i) then some (slice mem a n) else none
  read_sound a n bytes h := by
    split at h
    · next hread =>
      cases h
      rw [slice_length]
      exact ⟨Nat.le_refl n, rfl, hread⟩
    · cases h
  read_whole a n _ h := if_pos h

/-- Eight bytes twice over, the last of them another. -/
def doubled (a : ℕ) : UInt8 := if a = 0x100f then 0xcc else UInt8.ofNat (a % 8)

/-- A call whose displacement is masked, and the byte after it. -/
theorem signature_reported_unique_call :
    UniqueAt doubled [⟨0x1000, 16, by decide⟩]
      ⟨[0x02, 0, 0, 0, 0, 0x07], [0xff, 0, 0, 0, 0, 0xff]⟩ 0x1002 := by
  have hout := ((signature_reported_unique (wholeReads doubled fun _ => True)
    (fun _ _ => some [⟨[2, 3, 4, 5, 6], 0x1010, {}, 1, 4, 0, 0⟩, ⟨[7], 0, {}, 0, 0, 0, 0⟩])
    0x1002 ⟨0x1000, 16, by decide⟩ [⟨0x1000, 16, by decide⟩] 64).1 true (by decide)).1
  obtain ⟨bytes, mask, hparsed, hunique⟩ := hout
  have hbytes : ((true, bytes, mask) : Bool × Bytes × Bytes) =
      (true, [0x02, 0, 0, 0, 0, 0x07], [0xff, 0, 0, 0, 0, 0xff]) := hparsed.symm.trans (by decide)
  cases hbytes
  exact hunique

/-- **What the signature of an address is good for**: it stands there and nowhere else in the
readable mappings of the same file, or in the one mapping where there is none such, and those that
it fits in were all read. -/
theorem makeSignature_unique (target : StaticTarget)
    (disassemble : ℕ → Bytes → Option (List Instruction)) (mappings : List Mapping)
    (address maxBytes : ℕ) :
    let out := makeSignature target disassemble mappings address maxBytes
    out.unique = true → ∃ region ∈ mappings,
      region.base ≤ address ∧ address < region.base + region.size ∧
      out.moduleWide = (region.path.startsWith "/" &&
        mappings.any fun r => r.path == region.path && r.read && r.size ≠ 0) ∧
      ∃ scope : List SearchRange, scope = (if out.moduleWide then
          (mappings.filter fun r => r.path == region.path && r.read && r.size ≠ 0).map
            Mapping.toSearchRange else [region.toSearchRange]) ∧
        (∀ r ∈ scope, out.length ≤ r.size → r.Readable target) ∧
        ∃ bytes mask, parseAOB out.pattern = (true, bytes, mask) ∧
          UniqueAt target.mem scope ⟨bytes, mask⟩ address := by
  intro out h
  cases hfind : mappings.find? fun r => decide (r.base ≤ address ∧ address < r.base + r.size) with
  | none =>
    have hout : out = {} := by simp only [out, makeSignature, hfind]
    rw [hout] at h
    cases h
  | some region =>
    have hin : region.base ≤ address ∧ address < region.base + region.size := by
      simpa using List.find?_some hfind
    have hwide : out.moduleWide = (region.path.startsWith "/" &&
        mappings.any fun r => r.path == region.path && r.read && r.size ≠ 0) := by
      simp only [out, makeSignature, hfind]
      cases region.path.startsWith "/" with
      | false => rfl
      | true =>
        rw [if_pos rfl, Bool.true_and, Bool.eq_iff_iff, Bool.not_eq_true',
          List.isEmpty_eq_false_iff_exists_mem, List.any_eq_true]
        simp only [List.mem_filter]
    refine ⟨region, List.mem_of_find?_eq_some hfind, hin.1, hin.2, hwide, _, rfl, ?_⟩
    simp only [out, makeSignature, hfind] at h ⊢
    generalize hscope : (if region.path.startsWith "/" = true then _ else _ : List Mapping) = scope
      at h ⊢
    have hranges : (if (!scope.isEmpty) = true then scope.map Mapping.toSearchRange
        else [region.toSearchRange]) = if (!scope.isEmpty) = true then
          (mappings.filter fun r => r.path == region.path && r.read && r.size ≠ 0).map
            Mapping.toSearchRange else [region.toSearchRange] := by
      subst hscope
      split_ifs <;> simp_all
    rw [← hranges]
    exact uniqueAt_of_unique h

theorem makeSignatureInRange_unique {regionBase regionSize : ℕ}
    (h : (makeSignatureInRange target disassemble address regionBase regionSize maxBytes).unique =
      true) :
    ∃ hend : regionBase + regionSize ≤ 2 ^ 64, ∃ bytes mask,
      parseAOB (makeSignatureInRange target disassemble address regionBase regionSize
        maxBytes).pattern = (true, bytes, mask) ∧
      UniqueAt target.mem [⟨regionBase, regionSize, hend⟩] ⟨bytes, mask⟩ address := by
  unfold makeSignatureInRange at h ⊢
  split at h
  · next hrange =>
    rw [dif_pos hrange]
    exact ⟨hrange.2, (uniqueAt_of_unique h).2⟩
  · cases h

def librarySignature : SignatureResult :=
  makeSignature (wholeReads doubled fun _ => True)
    (fun _ _ => some [⟨[2, 3, 4, 5, 6], 0x1010, {}, 1, 4, 0, 0⟩, ⟨[7], 0, {}, 0, 0, 0, 0⟩])
    [⟨⟨0x1000, 8, by decide⟩, "/lib", true⟩, ⟨⟨0x1008, 8, by decide⟩, "/lib", true⟩] 0x1002 64

theorem makeSignature_unique_library : librarySignature.moduleWide = true ∧
    ∃ bytes mask, parseAOB librarySignature.pattern = (true, bytes, mask) ∧
      Matches doubled ⟨bytes, mask⟩ 0x1002 := by
  have hunique : librarySignature.unique = true := by decide +kernel
  obtain ⟨_, _, _, _, _, _, _, _, bytes, mask, hparsed, h⟩ := makeSignature_unique _ _ _ _ _ hunique
  exact ⟨by decide +kernel, bytes, mask, hparsed, h.found⟩

/-! ### A range the pattern does not fit in -/

/-- Two bytes of code in memory that is zero elsewhere. -/
def loneNop (a : ℕ) : UInt8 := if a = 0x10000000 then 0x66 else if a = 0x10000001 then 0x90 else 0

/-- A target where nothing above `2^40` can be read. -/
def lowTarget : StaticTarget := wholeReads loneNop (· < 2 ^ 40)

def largeText : SearchRange := ⟨0x10000000, 2 ^ 27 + 1, by norm_num⟩

/-- A single byte that cannot be read. -/
def strayByte : SearchRange := ⟨2 ^ 40, 1, by norm_num⟩

def takeNop (_ : ℕ) (code : Bytes) : Option (List Instruction) := some [{ bytes := code.take 2 }]

def Disassembles (disassemble : ℕ → Bytes → Option (List Instruction)) : Prop :=
  ∀ address code insns, disassemble address code = some insns → insns.flatMap (·.bytes) <+: code

theorem disassembles_takeNop : Disassembles takeNop := by
  intro _ code insns h
  cases h
  rw [List.flatMap_singleton]
  exact List.take_prefix 2 code

theorem largeText_readable : largeText.Readable lowTarget := by
  intro i hi
  have hi : i < 2 ^ 27 + 1 := hi
  show 0x10000000 + i < 2 ^ 40
  omega

theorem strayByte_unreadable : ¬strayByte.Readable lowTarget := fun h =>
  absurd (h 0 Nat.one_pos) (Nat.lt_irrefl (2 ^ 40))

def nopPattern : List PatByte := [⟨0x66, false⟩, ⟨0x90, false⟩]

theorem nopPattern_ne_nil : nopPattern ≠ [] := List.cons_ne_nil _ _

theorem rangeMatches_largeText : rangeMatches lowTarget nopPattern largeText = [0x10000000] := by
  have hnodup : (rangeMatches lowTarget nopPattern largeText).Nodup :=
    (AutoAssembler.matchesFrom_sorted _ _).imp fun h => Nat.ne_of_lt h
  refine List.perm_singleton.mp ((List.perm_ext_iff_of_nodup hnodup
    (List.nodup_singleton _)).mpr fun a => ?_)
  rw [mem_rangeMatches nopPattern_ne_nil, List.mem_singleton]
  constructor
  · rintro ⟨-, hmatch⟩
    have hfirst : (toPattern nopPattern).accepts 0 (loneNop a) = true := hmatch 0 Nat.two_pos
    rw [accepts_toPattern Nat.two_pos] at hfirst
    have hbyte : loneNop a = 0x66 := eq_of_beq hfirst
    unfold loneNop at hbyte
    split at hbyte
    · assumption
    · split at hbyte
      · exact absurd hbyte (by decide)
      · exact absurd hbyte (by decide)
  · rintro rfl
    refine ⟨⟨Nat.le_refl _, by rw [toPattern_size]; decide +kernel⟩, fun i hi => ?_⟩
    have hi : i < 2 := hi
    interval_cases i <;> decide +kernel

theorem countScope_nop :
    countScope lowTarget false nopPattern [largeText, strayByte] ⟨0, 0⟩ false =
      (⟨1, 0x10000000⟩, false) := by
  have hstray : ∀ incomplete, countRange lowTarget false nopPattern strayByte incomplete =
      (⟨0, 0⟩, incomplete) := fun _ => rfl
  rw [countScope, if_pos Nat.two_pos, countRange_eq nopPattern_ne_nil largeText_readable,
    rangeMatches_largeText]
  dsimp only
  rw [countScope, if_pos (by decide), hstray]
  rfl

theorem read_nop : lowTarget.read 0x10000000 18 = some (slice loneNop 0x10000000 18) :=
  lowTarget.read_whole _ _ (by decide) fun i hi => by
    show 0x10000000 + i < 2 ^ 40
    omega

theorem slice_nop : slice loneNop 0x10000000 18 = 0x66 :: 0x90 :: slice loneNop 0x10000002 16 := by
  rw [slice_succ, slice_succ]
  rfl

theorem want_nop :
    min (largeText.size - (0x10000000 - largeText.base)) ((2 + 16) % 2 ^ 64) = 18 := by
  decide +kernel

theorem useCacheFor_large : useCacheFor [largeText, strayByte] = false := by decide +kernel

theorem makeSignature_nop (useCache : Bool) :
    makeSignatureWith lowTarget takeNop useCache 0x10000000 largeText [largeText, strayByte] 2 =
      signatureOf (fun pat => countScope lowTarget useCache pat [largeText, strayByte] ⟨0, 0⟩)
        0x10000000 2 [{ bytes := [0x66, 0x90] }]
        (useCache && copiesIncomplete lowTarget [largeText, strayByte]) := by
  have hin : ¬(largeText.size = 0 ∨ 0x10000000 < largeText.base ∨
      0x10000000 - largeText.base ≥ largeText.size) := by decide +kernel
  have hread : lowTarget.read 0x10000000
      (min (largeText.size - (0x10000000 - largeText.base)) ((2 + 16) % 2 ^ 64)) =
        some (0x66 :: 0x90 :: slice loneNop 0x10000002 16) := by
    rw [want_nop, read_nop, slice_nop]
  exact makeSignatureWith_eq hin hread (List.cons_ne_nil _ _) rfl useCache

theorem nop_unique_in_chunks :
    (makeSignatureWith lowTarget takeNop false 0x10000000 largeText [largeText, strayByte]
      2).unique = true := by
  have hgrow : ∀ count : List PatByte → Bool → Found × Bool,
      count nopPattern false = (⟨1, 0x10000000⟩, false) →
      (signatureOf count 0x10000000 2 [{ bytes := [0x66, 0x90] }] false).unique = true := by
    intro count hcount
    have htrimmed : trimmed ([] ++ ({ bytes := [0x66, 0x90] } : Instruction).patBytes) =
      nopPattern := by decide
    rw [signatureOf, grow]
    dsimp only
    rw [htrimmed, hcount]
    rfl
  rw [makeSignature_nop]
  exact hgrow _ countScope_nop

theorem nop_not_unique_in_copies :
    (makeSignatureWith lowTarget takeNop true 0x10000000 largeText [largeText, strayByte]
      2).unique = false := by
  rw [Bool.eq_false_iff]
  intro h
  exact strayByte_unreadable (readable_of_cached h strayByte (by simp))

/-- **A range that the pattern does not fit in is not read** by a search in chunks: a signature is
reported unique though a byte of its scope cannot be read, and it would not be from copies. -/
theorem stray_byte_not_noticed :
    Disassembles takeNop ∧
    [largeText, strayByte].Pairwise
      (fun r r' => r.base + r.size ≤ r'.base ∨ r'.base + r'.size ≤ r.base) ∧
    (makeSignatureIn lowTarget takeNop 0x10000000 largeText [largeText, strayByte] 2).unique =
      true ∧
    ¬strayByte.Readable lowTarget ∧
    (makeSignatureWith lowTarget takeNop false 0x10000000 largeText [largeText, strayByte]
      2).unique = true ∧
    (makeSignatureWith lowTarget takeNop true 0x10000000 largeText [largeText, strayByte]
      2).unique = false := by
  refine ⟨disassembles_takeNop, by decide +kernel, ?_, strayByte_unreadable, nop_unique_in_chunks,
    nop_not_unique_in_copies⟩
  rw [makeSignatureIn, useCacheFor_large]
  exact nop_unique_in_chunks

end CheatEngine.Signature
