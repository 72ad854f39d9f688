import CheatEngineLinux.Analysis.Il2CppMetadata

/-!
# The IL2CPP parser stays in the buffer

Whatever the buffer holds, the parser reads inside of it and its `int32_t` arithmetic is in range,
with one exception: a table of string literals whose size is close to 2^31.

* `Sound`: where the parts of what was parsed are from.
* `LiteralsOverrun`: the exception.

* **PROVED `ends_decodeTables`**: the tables are read from their regions.
* **PROVED `ends_literalLoop`, `literalLoop_overflows`**: the loop over the literals ends, or its
  index overflows.
* **PROVED `parse_sound_iff`**: the parser is sound except for the exception.
-/

namespace CheatEngine.Il2Cpp

open BufferReads Stops

variable {b : Buffer} {s : List (Access Unit)}

abbrev noFault : Fault → List (Access Unit) → Prop := fun _ _ => False

/-! ### Strings -/

def InRegion (b : Buffer) (r : Region b) (text : Bytes) : Prop :=
  ∃ i n, i + n ≤ r.size ∧ text = b.bytes (r.off + i) n

theorem inRegion_nil (r : Region b) : InRegion b r [] := ⟨0, 0, Nat.zero_le _, rfl⟩

theorem inRegion_takeWhile {r : Region b} {i n : ℕ} (h : i + n ≤ r.size) (p : UInt8 → Bool) :
    InRegion b r ((b.bytes (r.off + i) n).takeWhile p) := by
  obtain ⟨m, hm, htext⟩ := @takeWhile_bytes b (r.off + i) n p
  exact ⟨i, m, by omega, htext⟩

theorem toNat_of_nonneg {v : BitVec 32} (h : 0 ≤ v.toInt) : (v.toNat : ℤ) = v.toInt := by
  have hlt := toNat_lt_of_nonneg h
  rw [BitVec.toInt_eq_toNat_of_lt (by omega)]

theorem ends_stringAt (str : Region b) (idx : BitVec 32) :
    Ends (stringAt b str idx) s (fun text _ => InRegion b str text) noFault := by
  refine Ends.ite (fun _ => Ends.pure (inRegion_nil str)) fun hidx => ?_
  have hnonneg : 0 ≤ idx.toInt := by omega
  have hnat := toNat_of_nonneg hnonneg
  have hsmall := str.small
  have hfits := str.fits
  refine Ends.bind (ends_subInt (by omega) ?_)
  refine Ends.bind (ends_read (by omega) (Ends.pure ?_))
  exact inRegion_takeWhile (by omega) _

theorem ends_readRegion {offset : ℕ} {A : Option (Region b) → List (Access Unit) → Prop}
    {E : Fault → List (Access Unit) → Prop} (hin : offset + 8 ≤ b.size)
    (h : ∀ s, A (Region.of b (b.int32 offset) (b.int32 (offset + 4))) s) :
    Ends (readRegion b offset) s A E :=
  Ends.bind (ends_int32 (by omega) (Ends.bind (ends_int32 (by omega) (Ends.pure (h _)))))

/-! ### Tables -/

def FieldFrom (b : Buffer) (str fields : Region b) (k : ℕ) (f : Il2CppFieldDef) : Prop :=
  InRegion b str f.name ∧ f.typeIndex = b.int32 (fields.off + k * kFieldRecSize + 4) ∧
    f.token = b.uint (fields.off + k * kFieldRecSize + 8) 4

def FieldSlice (table fields : List Il2CppFieldDef) : Prop :=
  fields = [] ∨ ∃ start count, start + count ≤ table.length ∧
    fields = (table.drop start).take count

/-- Whole records make up the region, and each has room for its index and its token. -/
structure MethodTable.Whole (m : MethodTable b) : Prop where
  declared : Region.of b (b.int32 kOffMethods) (b.int32 (kOffMethods + 4)) = some m.region
  size : m.total * m.recSize = m.region.size
  room : 8 ≤ m.recSize
  token : m.tokenOff + 4 ≤ m.recSize

def MethodFrom (b : Buffer) (str : Region b) (m : MethodTable b) (index : ℕ)
    (method : Il2CppMethodDef) : Prop :=
  InRegion b str method.name ∧
    method.token = b.uint (m.region.off + index * m.recSize + m.tokenOff) 4

def MethodSlice (b : Buffer) (str : Region b) (methods : List Il2CppMethodDef) : Prop :=
  methods = [] ∨ ∃ (m : MethodTable b) (start count : ℕ), m.Whole ∧ start + count ≤ m.total ∧
    List.Forall₂ (fun j method => MethodFrom b str m (start + j) method) (List.range count) methods

structure TypeOk (b : Buffer) (str : Region b) (table : List Il2CppFieldDef) (t : Il2CppTypeDef) :
    Prop where
  name : InRegion b str t.name
  namespaceName : InRegion b str t.namespaceName
  fields : FieldSlice table t.fields
  methods : MethodSlice b str t.methods

structure ImageOk (b : Buffer) (str : Region b) (nTypes : ℕ) (img : Il2CppImageDef) : Prop where
  name : InRegion b str img.name
  range : img.typeStart + img.typeCount ≤ nTypes

structure TablesOk (b : Buffer) (str fields : Region b) (table : List Il2CppFieldDef)
    (tables : Tables) : Prop where
  declared : Region.of b (b.int32 0x60) (b.int32 0x64) = some fields
  records : List.Forall₂ (FieldFrom b str fields) (List.range (fields.size / kFieldRecSize)) table
  types : ∀ t ∈ tables.types, TypeOk b str table t
  copied : (tables.types.flatMap Il2CppTypeDef.fields).length ≤ table.length
  images : ∀ img ∈ tables.images, ImageOk b str tables.types.length img

theorem record_in {r : Region b} {k n recSize : ℕ} (hk : k < n) (h : n * recSize ≤ r.size) :
    r.off + k * recSize + recSize ≤ b.size := by
  have hle : (k + 1) * recSize ≤ n * recSize := Nat.mul_le_mul_right recSize hk
  rw [Nat.succ_mul] at hle
  have hfits := r.fits
  omega

theorem ends_fieldAt {str fields : Region b} {k : ℕ} (hk : k < fields.size / kFieldRecSize) :
    Ends (fieldAt b str fields k) s (fun f _ => FieldFrom b str fields k f) noFault := by
  have hrec := record_in hk (Nat.div_mul_le_self ..)
  have hsize : kFieldRecSize = 12 := rfl
  refine Ends.bind (ends_int32 (by omega) (Ends.bind ?_))
  refine (ends_stringAt str _).mono (fun name s' hname => ?_) fun _ _ h => h
  exact Ends.bind (ends_int32 (by omega) (Ends.bind (ends_uint (by omega)
    (Ends.pure ⟨hname, rfl, rfl⟩))))

section Types

variable {str td : Region b} {table : List Il2CppFieldDef} {nTypes : ℕ}

theorem ends_typeAt {k copiedFields : ℕ} (hk : k < nTypes)
    (htd : nTypes * kLayoutByrefless.typeDefSize ≤ td.size)
    (hcopied : copiedFields ≤ table.length) :
    Ends (typeAt b kLayoutByrefless str td table table.length k copiedFields) s
      (fun r _ => TypeOk b str table r.1 ∧ r.2 = copiedFields + r.1.fields.length ∧
        r.2 ≤ table.length) noFault := by
  have hrec := record_in hk htd
  have hlayout : kLayoutByrefless = ⟨0x58, 0, 4, 0x20, 0x44, 0x24, 0x40, 0x54, 0x10, 0x28, 0, 8,
    0xc⟩ := rfl
  rw [hlayout] at hrec ⊢
  dsimp only at hrec
  unfold typeAt
  dsimp only
  refine Ends.bind (ends_int32 (by omega) (Ends.bind ?_))
  refine (ends_stringAt str _).mono (fun name s₁ hname => ?_) fun _ _ h => h
  refine Ends.bind (ends_int32 (by omega) (Ends.bind ?_))
  refine (ends_stringAt str _).mono (fun namespaceName s₂ hnamespace => ?_) fun _ _ h => h
  refine Ends.bind (ends_uint (by omega) (Ends.bind (ends_int32 (by omega) (Ends.bind
    (ends_int32 (by omega) (Ends.bind (ends_uint (by omega) ?_)))))))
  refine Ends.ite (fun hslice => Ends.pure ?_) fun _ => Ends.pure ?_
  · obtain ⟨-, hstart, htotal⟩ := hslice
    refine ⟨⟨hname, hnamespace, Or.inr ⟨_, _, hstart, rfl⟩, Or.inl rfl⟩, ?_, htotal⟩
    dsimp only
    rw [List.length_take, List.length_drop, Nat.min_eq_left (by omega)]
  · exact ⟨⟨hname, hnamespace, Or.inl rfl, Or.inl rfl⟩, rfl, hcopied⟩

theorem ends_typeLoop (ks : List ℕ) (hks : ∀ k ∈ ks, k < nTypes)
    (htd : nTypes * kLayoutByrefless.typeDefSize ≤ td.size) {copiedFields : ℕ}
    (hcopied : copiedFields ≤ table.length) :
    Ends (typeLoop b kLayoutByrefless str td table table.length ks copiedFields) s
      (fun ts _ => ts.length = ks.length ∧ (∀ t ∈ ts, TypeOk b str table t) ∧
        copiedFields + (ts.flatMap Il2CppTypeDef.fields).length ≤ table.length) noFault := by
  induction ks generalizing s copiedFields with
  | nil => exact Ends.pure ⟨rfl, by simp, by simpa using hcopied⟩
  | cons k rest ih =>
    refine Ends.bind ((ends_typeAt (hks k List.mem_cons_self) htd hcopied).mono ?_ fun _ _ h => h)
    rintro ⟨t, copied⟩ s₁ ⟨ht, hsum, hle⟩
    refine Ends.bind ((ih (fun k hk => hks k (List.mem_cons_of_mem _ hk)) hle).mono ?_
      fun _ _ h => h)
    rintro ts s₂ ⟨hlen, hts, htotal⟩
    refine Ends.pure ⟨by simp [hlen], List.forall_mem_cons.2 ⟨ht, hts⟩, ?_⟩
    rw [List.flatMap_cons, List.length_append]
    dsimp only at hsum htotal ⊢
    omega

theorem ends_findToken {region : Region b} {recSize : ℕ} (hrec : recSize ≤ region.size)
    {turns o : ℕ} (hturns : recSize < turns + o) (ho : o ≤ recSize) :
    Ends (findToken b region.off recSize turns o) s
      (fun r _ => ∀ tokenOff, r = some tokenOff → 8 ≤ recSize ∧ tokenOff + 4 ≤ recSize)
      noFault := by
  have hfits := region.fits
  induction turns generalizing s o with
  | zero => omega
  | succ turns ih =>
    refine Ends.ite (fun hin => ?_) fun _ => Ends.pure (by simp)
    refine Ends.bind (ends_uint (by omega) ?_)
    refine Ends.ite (fun _ => Ends.pure fun tokenOff h => ?_) fun _ => ih (by omega) hin.2
    exact Option.some.inj h ▸ hin

theorem ends_methodAt {m : MethodTable b} (hm : m.Whole) {index : ℕ} (h : index < m.total) :
    Ends (methodAt b str m index) s (fun method _ => MethodFrom b str m index method) noFault := by
  have hrec := record_in h hm.size.le
  have hroom := hm.room
  have htoken := hm.token
  refine Ends.bind (ends_int32 (by omega) (Ends.bind ?_))
  refine (ends_stringAt str _).mono (fun name s₁ hname => ?_) fun _ _ h => h
  exact Ends.bind (ends_uint (by omega) (Ends.pure ⟨hname, rfl⟩))

theorem ends_methods {m : MethodTable b} (hm : m.Whole) {start count : ℕ}
    (h : start + count ≤ m.total) :
    Ends (readMap (fun j => methodAt b str m (start + j)) (List.range count)) s
      (fun methods _ => MethodSlice b str methods) noFault := by
  refine (ends_readMap (I := fun _ => True)
    (R := fun j method => MethodFrom b str m (start + j) method) _ (fun j hj s _ => ?_)
    trivial).mono (fun methods s₁ hmethods => ?_) fun _ _ h => h
  · have hj := List.mem_range.1 hj
    exact (ends_methodAt hm (by omega)).mono (fun method s₁ h => ⟨h, trivial⟩) fun _ _ h => h
  · exact Or.inr ⟨m, start, count, hm, h, hmethods.1⟩

theorem ends_methodLoop {m : MethodTable b} (hm : m.Whole) (types : List Il2CppTypeDef)
    (htypes : ∀ t ∈ types, TypeOk b str table t)
    (htd : nTypes * kLayoutByrefless.typeDefSize ≤ td.size) {k nameBytes : ℕ}
    (hk : k + types.length ≤ nTypes) :
    Ends (methodLoop b kLayoutByrefless str td m k types nameBytes) s
      (fun ts _ => (∀ t ∈ ts, TypeOk b str table t) ∧
        ts.map Il2CppTypeDef.fields = types.map Il2CppTypeDef.fields) noFault := by
  induction types generalizing s k nameBytes with
  | nil => exact Ends.pure ⟨htypes, rfl⟩
  | cons t rest ih =>
    rw [List.length_cons] at hk
    obtain ⟨ht, hrest⟩ := List.forall_mem_cons.1 htypes
    have hrec := record_in (show k < nTypes by omega) htd
    have hsize : kLayoutByrefless.typeDefSize = 0x58 := rfl
    have hstart : kLayoutByrefless.tdMethodStartOff = 0x24 := rfl
    have hcount : kLayoutByrefless.tdMethodCountOff = 0x40 := rfl
    refine Ends.ite (fun _ => Ends.pure ⟨htypes, rfl⟩) fun _ => ?_
    refine Ends.bind (ends_int32 (by omega) (Ends.bind (ends_uint (by omega) ?_)))
    refine Ends.ite (fun _ => Ends.bind ?_) fun hslice => Ends.bind ?_
    · refine (ih hrest (by omega)).mono (fun ts s₁ ⟨hts, hfields⟩ => Ends.pure ⟨?_, ?_⟩)
        fun _ _ h => h
      · exact List.forall_mem_cons.2 ⟨ht, hts⟩
      · rw [List.map_cons, List.map_cons, hfields]
    · refine (ends_methods hm (by omega)).mono (fun methods s₁ hmethods => Ends.bind ?_)
        fun _ _ h => h
      refine (ih hrest (by omega)).mono (fun ts s₂ ⟨hts, hfields⟩ => Ends.pure ⟨?_, ?_⟩)
        fun _ _ h => h
      · refine List.forall_mem_cons.2 ⟨?_, hts⟩
        exact { ht with methods := hmethods }
      · rw [List.map_cons, List.map_cons, hfields]

theorem ends_addMethods (types : List Il2CppTypeDef)
    (htypes : ∀ t ∈ types, TypeOk b str table t)
    (htd : types.length * kLayoutByrefless.typeDefSize ≤ td.size) :
    Ends (addMethods b kLayoutByrefless str td types) s
      (fun ts _ => (∀ t ∈ ts, TypeOk b str table t) ∧
        ts.map Il2CppTypeDef.fields = types.map Il2CppTypeDef.fields) noFault := by
  have hsize : kLayoutByrefless.typeDefSize = 0x58 := rfl
  have hcount : kLayoutByrefless.tdMethodCountOff = 0x40 := rfl
  refine Ends.ite (fun _ => Ends.pure ⟨htypes, rfl⟩) fun hheader => ?_
  refine Ends.bind (ends_readRegion (by omega) fun s₁ => ?_)
  cases hregion : Region.of b (b.int32 kOffMethods) (b.int32 (kOffMethods + 4)) with
  | none => exact Ends.pure ⟨htypes, rfl⟩
  | some region =>
    refine Ends.ite (fun _ => Ends.pure ⟨htypes, rfl⟩) fun _ => Ends.bind ?_
    refine (ends_readMap (I := fun _ => True) (R := fun _ _ => True) _ (fun k hk s _ => ?_)
      trivial).mono (fun counts s₂ _ => ?_) fun _ _ h => h
    · have hrec := record_in (List.mem_range.1 hk) htd
      exact ends_uint (by omega) ⟨trivial, trivial⟩
    refine Ends.ite (fun _ => Ends.pure ⟨htypes, rfl⟩) fun htotal => ?_
    push Not at htotal
    have hwhole : sum64 counts * (region.size / sum64 counts) = region.size :=
      Nat.mul_div_cancel' (Nat.dvd_of_mod_eq_zero htotal.2)
    refine Ends.bind ((ends_findToken (Nat.div_le_self ..) (by omega) (Nat.zero_le _)).mono
      (fun r s₃ hr => ?_) fun _ _ h => h)
    cases r with
    | none => exact Ends.pure ⟨htypes, rfl⟩
    | some tokenOff =>
      obtain ⟨hroom, htoken⟩ := hr tokenOff rfl
      exact ends_methodLoop ⟨hregion, hwhole, hroom, htoken⟩ types htypes htd (by omega)

theorem ends_imageAt {img : Region b} {k n : ℕ} (hk : k < n)
    (himg : n * kLayoutByrefless.imageSize ≤ img.size) :
    Ends (imageAt b kLayoutByrefless str img nTypes k) s (fun r _ => ImageOk b str nTypes r)
      noFault := by
  have hrec := record_in hk himg
  have hlayout : kLayoutByrefless = ⟨0x58, 0, 4, 0x20, 0x44, 0x24, 0x40, 0x54, 0x10, 0x28, 0, 8,
    0xc⟩ := rfl
  rw [hlayout] at hrec ⊢
  dsimp only at hrec
  unfold imageAt
  dsimp only
  refine Ends.bind (ends_int32 (by omega) (Ends.bind ?_))
  refine (ends_stringAt str _).mono (fun name s₁ hname => ?_) fun _ _ h => h
  refine Ends.bind (ends_uint (by omega) (Ends.bind (ends_uint (by omega) ?_)))
  exact Ends.ite (fun hrange => Ends.pure ⟨hname, hrange⟩)
    fun _ => Ends.pure ⟨hname, Nat.zero_le _⟩

end Types

theorem ends_table {β : Type} {f : ℕ → Run β} {R : ℕ → β → Prop} (n : ℕ)
    (hf : ∀ k < n, ∀ s, Ends (f k) s (fun y _ => R k y) noFault) :
    Ends (readMap f (List.range n)) s (fun ys _ => List.Forall₂ R (List.range n) ys) noFault := by
  refine (ends_readMap (I := fun _ => True) (R := R) _ (fun k hk s _ => ?_) trivial).mono
    (fun ys s₁ h => h.1) fun _ _ h => h
  exact (hf k (List.mem_range.1 hk) s).mono (fun y s₁ h => ⟨h, trivial⟩) fun _ _ h => h

theorem forall_of_forall₂ {α β : Type} {P : β → Prop} {xs : List α} {ys : List β}
    (h : List.Forall₂ (fun _ => P) xs ys) : ∀ y ∈ ys, P y := by
  induction h with
  | nil => simp
  | cons hy _ ih => exact List.forall_mem_cons.2 ⟨hy, ih⟩

def Decoded (b : Buffer) (str : Region b) (tables : Option Tables) : Prop :=
  ∀ t, tables = some t → ∃ fields records, TablesOk b str fields records t

theorem ends_decodeRegions {str fields td img : Region b}
    (hfields : Region.of b (b.int32 0x60) (b.int32 0x64) = some fields) :
    Ends (decodeRegions b kLayoutByrefless str fields td img) s
      (fun r _ => Decoded b str r) noFault := by
  have hnone : Decoded b str none := fun t h => nomatch h
  have hsize : kLayoutByrefless.imageSize = 0x28 := rfl
  have hcount : kLayoutByrefless.imgTypeCountOff = 0xc := rfl
  have himg : img.size / kLayoutByrefless.imageSize * kLayoutByrefless.imageSize ≤ img.size :=
    Nat.div_mul_le_self ..
  refine Ends.bind ((ends_table (R := fun _ _ => True) _ fun k hk s => ?_).mono
    (fun counts s₁ _ => ?_) fun _ _ h => h)
  · have hrec := record_in hk himg
    exact ends_uint (by omega) trivial
  refine Ends.ite (fun _ => Ends.pure hnone) fun _ => ?_
  refine Ends.ite (fun _ => Ends.pure hnone) fun hle => ?_
  refine Ends.ite (fun _ => Ends.pure hnone) fun _ => ?_
  have htd : sum64 counts * kLayoutByrefless.typeDefSize ≤ td.size :=
    (Nat.mul_le_mul_right _ (Nat.le_of_not_gt hle)).trans (Nat.div_mul_le_self ..)
  refine Ends.bind ((ends_table _ fun k hk s => ends_fieldAt hk).mono
    (fun records s₂ hrecords => ?_) fun _ _ h => h)
  have hlen := hrecords.length_eq
  rw [List.length_range] at hlen
  rw [hlen]
  refine Ends.bind ((ends_typeLoop _ (fun k => List.mem_range.1) htd (Nat.zero_le _)).mono ?_
    fun _ _ h => h)
  rintro types s₃ ⟨hlength, htypes, hcopied⟩
  rw [List.length_range] at hlength
  refine Ends.bind ((ends_addMethods types htypes (by rwa [hlength])).mono ?_ fun _ _ h => h)
  rintro types' s₄ ⟨htypes', hsame⟩
  have hlength' : types'.length = sum64 counts := by
    rw [← hlength, ← List.length_map Il2CppTypeDef.fields, hsame, List.length_map]
  refine Ends.bind ((ends_table _ fun k hk s => ends_imageAt hk himg).mono
    (fun images s₅ himages => Ends.pure ?_) fun _ _ h => h)
  rintro t ⟨⟩
  refine ⟨fields, records, hfields, hrecords, htypes', ?_, fun image himage => ?_⟩
  · rw [Nat.zero_add] at hcopied
    rwa [List.flatMap_def, hsame, ← List.flatMap_def]
  · rw [hlength']
    exact forall_of_forall₂ himages image himage

theorem ends_decodeTables (version : BitVec 32) (str : Region b) :
    Ends (decodeTables b version str) s (fun r _ => Decoded b str r) noFault := by
  have hnone : Decoded b str none := fun t h => nomatch h
  unfold decodeTables
  cases hlayout : layoutFor version with
  | none => exact Ends.pure hnone
  | some L =>
    obtain rfl : L = kLayoutByrefless := by
      unfold layoutFor at hlayout
      split at hlayout
      · exact (Option.some.inj hlayout).symm
      · cases hlayout
    refine Ends.ite (fun _ => Ends.pure hnone) fun hheader => ?_
    have hend : kTableHeaderEnd = 0xb0 := rfl
    refine Ends.bind (ends_readRegion (by omega) fun s₁ => Ends.bind (ends_readRegion (by omega)
      fun s₂ => Ends.bind (ends_readRegion (by omega) fun s₃ => ?_)))
    cases hfields : Region.of b (b.int32 0x60) (b.int32 (0x60 + 4)) with
    | none => exact Ends.pure hnone
    | some fields =>
      cases Region.of b (b.int32 0xa0) (b.int32 (0xa0 + 4)) with
      | none => exact Ends.pure hnone
      | some td =>
        cases Region.of b (b.int32 0xa8) (b.int32 (0xa8 + 4)) with
        | none => exact Ends.pure hnone
        | some img => exact ends_decodeRegions hfields

/-! ### String pools -/

theorem ends_stringLoop (str : Region b) {turns : ℕ} {i : ℤ} {out : List Bytes} (hi : 0 ≤ i)
    (hsize : i ≤ str.size) (hturns : str.size < turns + i)
    (hout : ∀ text ∈ out, InRegion b str text) :
    Ends (stringLoop b str turns i out) s (fun strings _ => ∀ text ∈ strings, InRegion b str text)
      noFault := by
  have hfits := str.fits
  have hsmall := str.small
  induction turns generalizing s i out with
  | zero => omega
  | succ turns ih =>
    refine Ends.ite (fun hmore => ?_) fun _ => Ends.pure hout
    refine Ends.bind (ends_subInt (by omega) (Ends.bind (ends_read (by omega) ?_)))
    have htext := @inRegion_takeWhile b str i.toNat (str.size - i).toNat (by omega) (· ≠ 0)
    have hle : ((b.bytes (str.off + i.toNat) (str.size - i).toNat).takeWhile (· ≠ 0)).length ≤
        (str.size - i).toNat := by
      have h := (List.takeWhile_prefix (· ≠ 0)
        (l := b.bytes (str.off + i.toNat) (str.size - i).toNat)).length_le
      rwa [length_bytes] at h
    generalize (b.bytes (str.off + i.toNat) (str.size - i).toNat).takeWhile (· ≠ 0) = text
      at htext hle ⊢
    have hout' : ∀ t ∈ (if text = [] then out else out ++ [text]), InRegion b str t := by
      split
      · exact hout
      · intro t ht
        rcases List.mem_append.1 ht with ht | ht
        · exact hout t ht
        · exact List.mem_singleton.1 ht ▸ htext
    refine Ends.ite (fun _ => Ends.pure hout') fun hshort => ?_
    refine Ends.bind (ends_addInt (by omega) (Ends.bind (ends_addInt (by omega) ?_)))
    exact ih (by omega) (by omega) (by omega) hout'

section Literals

variable {lit litData : Region b} {out : List Bytes}

/-- How many bytes an entry of the table of string literals stands for, if it is well formed. -/
def accepted (b : Buffer) (lit litData : Region b) (j : ℕ) : ℕ :=
  let length := b.uint (lit.off + 8 * j) 4
  let dataIndex := b.int32 (lit.off + 8 * j + 4)
  if dataIndex.toInt < 0 ∨ dataIndex.toNat + length > litData.size then 0 else length

def acceptedBytes (b : Buffer) (lit litData : Region b) : ℕ → ℕ
  | 0 => 0
  | j + 1 => acceptedBytes b lit litData j + accepted b lit litData j

theorem acceptedBytes_mono {i j : ℕ} (h : i ≤ j) :
    acceptedBytes b lit litData i ≤ acceptedBytes b lit litData j := by
  induction h with
  | refl => exact Nat.le_refl _
  | step _ ih => exact ih.trans (Nat.le_add_right ..)

/-- Copies of parts of the literal data, so many bytes in total. -/
def Copied (b : Buffer) (litData : Region b) (n : ℕ) (out : List Bytes) : Prop :=
  (∀ text ∈ out, InRegion b litData text) ∧ out.flatten.length = n

/-- The entry where the index plus 8 is too large. -/
def lastEntry : ℕ := 2 ^ 28 - 1

theorem ends_literalEntry {turns j : ℕ} {A : List Bytes → List (Access Unit) → Prop}
    {E : Fault → List (Access Unit) → Prop} (hj : j < lastEntry) (hin : 8 * j + 8 ≤ lit.size)
    (hout : Copied b litData (acceptedBytes b lit litData j) out)
    (hle : acceptedBytes b lit litData j ≤ litData.size)
    (hmore : acceptedBytes b lit litData (j + 1) ≤ litData.size → ∀ s out',
      Copied b litData (acceptedBytes b lit litData (j + 1)) out' →
      Ends (literalLoop b lit litData turns (8 * (j + 1) : ℕ)
        (acceptedBytes b lit litData (j + 1)) out') s A E)
    (hstop : litData.size < acceptedBytes b lit litData (j + 1) → ∀ s, A out s) :
    Ends (literalLoop b lit litData (turns + 1) (8 * j : ℕ) (acceptedBytes b lit litData j) out) s
      A E := by
  have hlast : lastEntry = 2 ^ 28 - 1 := rfl
  have hfits := lit.fits
  have hsmall := litData.small
  have hnext : ((8 * j : ℕ) : ℤ) + 8 = (8 * (j + 1) : ℕ) := by omega
  have hlen := uint_lt b (lit.off + 8 * j) 4
  have hbytes : acceptedBytes b lit litData (j + 1) =
    acceptedBytes b lit litData j + accepted b lit litData j := rfl
  refine Ends.bind (ends_addInt (by omega) (Ends.ite (fun _ => ?_) fun h => by omega))
  rw [Int.toNat_natCast]
  refine Ends.bind (ends_uint (by omega) (Ends.bind (ends_int32 (by omega) ?_)))
  refine Ends.ite (fun hskip => Ends.bind (ends_addInt (by omega) ?_)) fun hok => ?_
  · have hzero : accepted b lit litData j = 0 := if_pos hskip
    have hsame : acceptedBytes b lit litData j = acceptedBytes b lit litData (j + 1) := by
      rw [hbytes, hzero]
      rfl
    rw [hnext, hsame]
    rw [hsame] at hout hle
    exact hmore hle _ _ hout
  · have hlength : accepted b lit litData j = b.uint (lit.off + 8 * j) 4 := if_neg hok
    rw [hlength] at hbytes
    rw [Nat.mod_eq_of_lt (by omega), ← hbytes]
    refine Ends.ite (fun h => Ends.pure (hstop h _)) fun hroom => ?_
    have hdata := litData.fits
    refine Ends.bind (ends_read (by omega) (Ends.bind (ends_addInt (by omega) ?_)))
    rw [hnext]
    refine hmore (by omega) _ _ ⟨fun text ht => ?_, ?_⟩
    · rcases List.mem_append.1 ht with ht | ht
      · exact hout.1 text ht
      · exact List.mem_singleton.1 ht ▸ ⟨_, _, by omega, rfl⟩
    · rw [List.flatten_append, List.length_append, hout.2, List.flatten_singleton, length_bytes,
        hbytes]

/-- The loop reaches the last entry that an index plus 8 can pass. -/
def Overruns (b : Buffer) (lit litData : Region b) : Prop :=
  8 * lastEntry ≤ lit.size ∧ acceptedBytes b lit litData lastEntry ≤ litData.size

theorem ends_literalLoop (h : ¬Overruns b lit litData) {turns j : ℕ} (hj : j ≤ lastEntry)
    (hin : 8 * j ≤ lit.size) (hturns : lit.size < 8 * (turns + j))
    (hout : Copied b litData (acceptedBytes b lit litData j) out)
    (hle : acceptedBytes b lit litData j ≤ litData.size) :
    Ends (literalLoop b lit litData turns (8 * j : ℕ) (acceptedBytes b lit litData j) out) s
      (fun literals _ => ∃ n ≤ litData.size, Copied b litData n literals) noFault := by
  induction turns generalizing s j out with
  | zero => omega
  | succ turns ih =>
    have hlt : j < lastEntry := by
      refine Nat.lt_of_le_of_ne hj fun hlast => h ?_
      rw [hlast] at hin hle
      exact ⟨hin, hle⟩
    by_cases hmore : 8 * j + 8 ≤ lit.size
    · exact ends_literalEntry hlt hmore hout hle
        (fun hle' s out' hout' => ih hlt (by omega) (by omega) hout' hle')
        fun _ s => ⟨_, hle, hout⟩
    · have hlast : lastEntry = 2 ^ 28 - 1 := rfl
      refine Ends.bind (ends_addInt (by omega) (Ends.ite (fun h => by omega) fun _ => ?_))
      exact Ends.pure ⟨_, hle, hout⟩

theorem literalLoop_overflows (h : Overruns b lit litData) {turns j : ℕ} (hj : j ≤ lastEntry)
    (hturns : lastEntry < turns + j)
    (hout : Copied b litData (acceptedBytes b lit litData j) out) :
    Ends (literalLoop b lit litData turns (8 * j : ℕ) (acceptedBytes b lit litData j) out) s
      (fun _ _ => False) fun e _ => e = .overflow := by
  induction turns generalizing s j out with
  | zero => omega
  | succ turns ih =>
    obtain ⟨hsize, hall⟩ := h
    have hlast : lastEntry = 2 ^ 28 - 1 := rfl
    rcases Nat.lt_or_eq_of_le hj with hlt | rfl
    · have hle' := (acceptedBytes_mono (show j + 1 ≤ lastEntry by omega)).trans hall
      exact ends_literalEntry hlt (by omega) hout ((acceptedBytes_mono hj).trans hall)
        (fun _ s out' hout' => ih hlt (by omega) hout') fun hgt => absurd hle' (by omega)
    · refine Ends.bind ?_
      rw [addInt, if_neg (by omega)]
      exact Ends.stop rfl

end Literals

/-! ### The parser -/

/-- What was parsed comes from the regions that the header declares. -/
structure Sound (b : Buffer) (str : Region b) (md : Il2CppMetadata) : Prop where
  declared : Region.of b (b.int32 24) (b.int32 28) = some str
  strings : ∀ text ∈ md.strings, InRegion b str text
  literals : md.stringLiterals = [] ∨ ∃ litData n,
    Region.of b (b.int32 16) (b.int32 20) = some litData ∧ n ≤ litData.size ∧
      Copied b litData n md.stringLiterals
  tables : (md.tablesDecoded = false ∧ md.tables = {}) ∨
    ∃ fields records, TablesOk b str fields records md.tables

def ParsedSound (data : Option Buffer) (r : Option Il2CppMetadata) : Prop :=
  ∀ md, r = some md → ∃ b str, data = some b ∧ Sound b str md

/-- The table of string literals is so large, and its entries so short, that the loop over them gets
to an index where adding 8 overflows. -/
structure LiteralsOverrun (b : Buffer) : Prop where
  header : kMinHeader ≤ b.size
  magic : b.uint 0 4 = kIl2CppMagic
  strings : ∃ str, Region.of b (b.int32 24) (b.int32 28) = some str
  literals : ∃ lit litData, Region.of b (b.int32 8) (b.int32 12) = some lit ∧
    Region.of b (b.int32 16) (b.int32 20) = some litData ∧ Overruns b lit litData

theorem copied_nil (litData : Region b) : Copied b litData (acceptedBytes b lit litData 0) [] :=
  ⟨by simp, rfl⟩

theorem ends_readLiterals (hheader : kMinHeader ≤ b.size)
    (h : ∀ lit litData, Region.of b (b.int32 8) (b.int32 12) = some lit →
      Region.of b (b.int32 16) (b.int32 20) = some litData → ¬Overruns b lit litData) :
    Ends (readLiterals b) s (fun literals _ => literals = [] ∨ ∃ litData n,
      Region.of b (b.int32 16) (b.int32 20) = some litData ∧ n ≤ litData.size ∧
        Copied b litData n literals) noFault := by
  have hmin : kMinHeader = 32 := rfl
  refine Ends.bind (ends_readRegion (by omega) fun s₁ => Ends.bind (ends_readRegion (by omega)
    fun s₂ => ?_))
  cases hlit : Region.of b (b.int32 8) (b.int32 (8 + 4)) with
  | none => exact Ends.pure (Or.inl rfl)
  | some lit =>
    cases hlitData : Region.of b (b.int32 16) (b.int32 (16 + 4)) with
    | none => exact Ends.pure (Or.inl rfl)
    | some litData =>
      refine (ends_literalLoop (h lit litData hlit hlitData) (Nat.zero_le _) (Nat.zero_le _)
        (by omega) (copied_nil litData) (Nat.zero_le _)).mono (fun literals s₃ hcopied => ?_)
        fun _ _ h => h
      obtain ⟨n, hn, hcopied⟩ := hcopied
      exact Or.inr ⟨litData, n, rfl, hn, hcopied⟩

theorem ends_parse (h : ¬LiteralsOverrun b) :
    Ends (parseIl2CppMetadata (some b)) s (fun r _ => ParsedSound (some b) r) noFault := by
  have hnone : ParsedSound (some b) none := fun md h => nomatch h
  have hmin : kMinHeader = 32 := rfl
  refine Ends.ite (fun _ => Ends.pure hnone) fun hheader => Ends.bind (ends_uint (by omega) ?_)
  refine Ends.ite (fun _ => Ends.pure hnone) fun hmagic => Ends.bind (ends_int32 (by omega) ?_)
  refine Ends.bind (ends_readRegion (by omega) fun s₁ => ?_)
  cases hstr : Region.of b (b.int32 24) (b.int32 (24 + 4)) with
  | none => exact Ends.pure hnone
  | some str =>
    refine Ends.bind ((ends_stringLoop str (Int.le_refl 0) (by omega) (by omega) (by simp)).mono
      (fun strings s₂ hstrings => ?_) fun _ _ h => h)
    refine Ends.bind ((ends_readLiterals (by omega) fun lit litData hlit hlitData hover => h
      ⟨by omega, not_not.1 hmagic, ⟨str, hstr⟩, lit, litData, hlit, hlitData, hover⟩).mono
      (fun literals s₃ hliterals => ?_) fun _ _ h => h)
    refine Ends.bind ((ends_decodeTables _ str).mono (fun tables s₄ htables => Ends.pure ?_)
      fun _ _ h => h)
    rintro md ⟨⟩
    refine ⟨b, str, rfl, hstr, hstrings, hliterals, ?_⟩
    cases tables with
    | none => exact Or.inl ⟨rfl, rfl⟩
    | some t => exact Or.inr (htables t rfl)

theorem parse_overflows (h : LiteralsOverrun b) :
    Ends (parseIl2CppMetadata (some b)) s (fun _ _ => False) fun e _ => e = .overflow := by
  obtain ⟨hheader, hmagic, ⟨str, hstr⟩, lit, litData, hlit, hlitData, hover⟩ := h
  have hmin : kMinHeader = 32 := rfl
  refine Ends.ite (fun hsmall => by omega) fun _ => Ends.bind (ends_uint (by omega) ?_)
  refine Ends.ite (fun hother => absurd hmagic hother) fun _ =>
    Ends.bind (ends_int32 (by omega) ?_)
  refine Ends.bind (ends_readRegion (by omega) fun s₁ => ?_)
  rw [hstr]
  refine Ends.bind ((ends_stringLoop str (Int.le_refl 0) (by omega) (by omega) (by simp)).mono
    (fun strings s₂ _ => ?_) fun _ _ h => h.elim)
  refine Ends.bind (Ends.bind (ends_readRegion (by omega) fun s₃ => Ends.bind
    (ends_readRegion (by omega) fun s₄ => ?_)))
  rw [hlit, hlitData]
  refine (literalLoop_overflows hover (Nat.zero_le _) ?_ (copied_nil litData)).mono
    (fun _ _ h => h.elim) fun _ _ h => h
  have hsize := hover.1
  omega

theorem not_ends_of_overrun (h : LiteralsOverrun b) {A : Option Il2CppMetadata →
    List (Access Unit) → Prop} : ¬Ends (parseIl2CppMetadata (some b)) s A noFault := by
  intro hends
  exact Ends.state (P := fun _ => False)
    ((hends.and (parse_overflows h)).mono (fun _ _ h => h.2) fun _ _ h => h.1)

/-- The parser ends, reads nothing outside of the buffer, adds no two `int32_t` whose sum is not one
and gives nothing but parts of the declared regions, unless the table of string literals is too
large. -/
theorem parse_sound_iff (data : Option Buffer) :
    Ends (parseIl2CppMetadata data) [] (fun r _ => ParsedSound data r) noFault ↔
      ∀ b, data = some b → ¬LiteralsOverrun b := by
  constructor
  · rintro hends b rfl hover
    exact not_ends_of_overrun hover hends
  · intro h
    cases data with
    | none => exact Ends.pure fun md h => nomatch h
    | some b => exact ends_parse (h b rfl)

/-- A file of 2^31 + 32 bytes: a header that declares a table of 2^31 - 8 bytes, and zeros. -/
def largeTable : Buffer where
  size := 2 ^ 31 + 32
  byte i := [0xaf, 0x1b, 0xb1, 0xfa, 0, 0, 0, 0, 32, 0, 0, 0, 0xf8, 0xff, 0xff, 0x7f].getD i 0

theorem uint_largeTable {off : ℕ} (h : 16 ≤ off) : largeTable.uint off 4 = 0 := by
  have hzero : largeTable.bytes off 4 = List.replicate 4 0 := by
    refine List.eq_replicate_iff.2 ⟨length_bytes .., fun x hx => ?_⟩
    obtain ⟨i, -, rfl⟩ := List.mem_map.1 hx
    exact List.getD_eq_default _ _ (h.trans (Nat.le_add_right ..))
  rw [Buffer.uint, hzero]
  rfl

theorem largeTable_overruns : LiteralsOverrun largeTable := by
  have hlit : Region.of largeTable (largeTable.int32 8) (largeTable.int32 12) =
      some ⟨32, 2 ^ 31 - 8, by decide, by decide⟩ := by decide
  refine ⟨by decide, by decide, ⟨⟨0, 0, Nat.zero_le _, by decide⟩, by decide⟩, _, _, hlit,
    show _ = some ⟨0, 0, Nat.zero_le _, by decide⟩ by decide, by decide, ?_⟩
  suffices h : ∀ j, acceptedBytes largeTable _ _ j = 0 from (h _).le
  intro j
  induction j with
  | zero => rfl
  | succ j ih =>
    have hzero : largeTable.uint (32 + 8 * j) 4 = 0 := uint_largeTable (by omega)
    rw [acceptedBytes, ih, accepted, hzero, ite_self]

theorem not_parse_sound : ¬∀ data : Option Buffer,
    Ends (parseIl2CppMetadata data) [] (fun r _ => ParsedSound data r) noFault := by
  intro h
  exact not_ends_of_overrun largeTable_overruns (h (some largeTable))

end CheatEngine.Il2Cpp
