import CheatEngineLinux.Core.SimpleHook

/-!
# What a hook leaves behind

* `Untouched`: nothing that the target had has changed.
* `Kept`: the cave is allocated, and all that has changed are bytes of the code, to bytes of the
  jump.
* `InPlace`: jump, gate and displaced code lead where they should.
* **PROVED `installSimpleHook_ends`**: an installation ends in a hook that is in place, or leaves
  one of the first two.
* **PROVED `removed_hook_restores_code`**: a removal that succeeds has restored the code.
* **PROVED `simple_hook_never_dangles`**: and no later call takes the cave away.
-/

namespace CheatEngine.SimpleHooks

open AutoAssembler ByteOverlay RecordFile NearJump Stages Stops

/-- All that was mapped is as it was. -/
def Untouched (t s : Target) : Prop :=
  ∀ a, t.mapped a = true → s.mapped a = true ∧ s.mem a = t.mem a

/-- The new cave is allocated, and a byte that has changed is one of the jump to it. -/
structure Kept (t s : Target) (address cave patchLen : ℕ) : Prop where
  block : ∀ a, cave ≤ a → a < cave + (64 + patchLen) → t.mapped a = false ∧ s.mapped a = true
  code : ∀ a, t.mapped a = true → s.mapped a = true ∧ (s.mem a = t.mem a ∨
    byteAt address (hookPatch address cave patchLen) a = some (s.mem a))

/-- The jump, the gate and the displaced code with the way back are in place. -/
structure InPlace (code32 : Bool) (target : ℕ) (t s : Target) (hook : SimpleHook) : Prop where
  kept : Kept t s hook.address hook.codecave hook.patchLen
  room : hook.address + hook.patchLen < 2 ^ 64
  original : hook.original = slice t.mem hook.address hook.patchLen
  patch : slice s.mem hook.address hook.patchLen = hook.installed
  jump : jumpTarget code32 s.mem hook.address = some hook.codecave
  gate : jumpTarget code32 s.mem hook.codecave = some target
  displaced : slice s.mem hook.trampoline hook.patchLen = hook.original
  back : jumpTarget code32 s.mem (hook.trampoline + hook.patchLen) =
    some ((hook.address + hook.patchLen) % space code32)

/-- **The cave is there wherever the code may hold the jump to it.** -/
def NoDanglingJump (t s : Target) (address : ℕ) : Prop :=
  Untouched t s ∨ ∃ cave patchLen, Kept t s address cave patchLen

/-! ### Calls that change no byte -/

/-- Bytes and mappings are as before. -/
structure Calm (s s' : Target) : Prop where
  steady : s.Steady s'
  mem : s'.mem = s.mem

theorem frame_calm : Frame Calm where
  refl := fun s => ⟨frame_steady.refl s, rfl⟩
  trans := fun hab hbc => ⟨frame_steady.trans hab.steady hbc.steady, hbc.mem.trans hab.mem⟩

theorem calm_of_looked {s s' : Target} (h : s.Looked s') : Calm s s' := by
  refine ⟨h.steady, ?_⟩
  obtain ⟨n, -, rfl⟩ := h
  rfl

theorem calm_protect (address size : ℕ) (protection : MemProt) :
    Moves Calm (protect address size protection) :=
  fun s => ⟨steady_protect address size protection s, rfl⟩

theorem calm_hookMatches (hook : SimpleHook) (wanted : List UInt8) :
    Moves Calm (hookMatches hook wanted) :=
  Moves.bind frame_calm (fun s => calm_of_looked (looked_read _ _ s)) fun answer => by
    cases answer <;> exact Moves.pure frame_calm _

theorem calm_setProtections (writable : Bool) (ranges : List ProtectionRange) :
    Moves Calm (setProtections writable ranges) := by
  induction ranges with
  | nil => exact Moves.pure frame_calm _
  | cons range rest ih =>
    exact Moves.bind frame_calm (calm_protect _ _ _) fun _ =>
      Moves.bind frame_calm ih fun _ => Moves.pure frame_calm _

theorem looked_protectionsFor (turns address size : ℕ) :
    Moves Target.Looked (protectionsFor turns address size) := by
  induction turns generalizing address size with
  | zero => cases size <;> exact Moves.pure frame_looked _
  | succ turns ih =>
    cases size with
    | zero => exact Moves.pure frame_looked _
    | succ size =>
      refine Moves.bind frame_looked (looked_queryRegion _) fun region => ?_
      cases region with
      | none => exact Moves.pure frame_looked _
      | some region =>
        exact Moves.ite (Moves.pure frame_looked _)
          (Moves.bind frame_looked (ih _ _) fun _ => Moves.pure frame_looked _)

theorem mapped_of_steady {s s' : Target} (h : s.Steady s') (a : ℕ) : s'.mapped a = s.mapped a := by
  unfold Target.mapped Target.page
  rw [h.pageBits]
  exact h.mapped _

theorem slice_of_hookMatches {hook : SimpleHook} {wanted : List UInt8} {s : Target}
    (h : (hookMatches hook wanted s).1 = true) :
    slice s.mem hook.address wanted.length = wanted := by
  unfold hookMatches at h
  rw [bind_apply] at h
  cases hread : (AutoAssembler.read hook.address wanted.length s).1 with
  | error r =>
    rw [hread] at h
    cases h
  | ok actual =>
    rw [hread] at h
    obtain ⟨hlength, hsame⟩ := Bool.and_eq_true_iff.mp h
    have hslice := (read_eq_ok hread).1
    rw [of_decide_eq_true hsame] at hslice
    exact hslice.symm

/-! ### Writes -/

theorem steady_writeAll (address : ℕ) (bytes : List UInt8) :
    Moves Target.Steady (writeAll address bytes) :=
  Moves.bind frame_steady (steady_write address bytes) fun answer => by
    cases answer <;> exact Moves.pure frame_steady _

theorem writeAll_mem (address : ℕ) (bytes : List UInt8) (s : Target) :
    ∃ n, (writeAll address bytes s).2.mem = lay s.mem address (bytes.take n) ∧
      ((writeAll address bytes s).1 = true → bytes.take n = bytes) := by
  unfold writeAll
  rw [bind_apply]
  unfold write
  dsimp only
  refine ⟨(s.reply s.clock).limit (s.mappedCount address bytes.length), ?_⟩
  split
  · exact ⟨rfl, fun h => by cases h⟩
  · refine ⟨rfl, fun h => ?_⟩
    rw [of_decide_eq_true h, List.take_length]

theorem slice_congr {m m' : ℕ → UInt8} {a n : ℕ} (h : ∀ x, a ≤ x → x < a + n → m' x = m x) :
    slice m' a n = slice m a n :=
  List.map_congr_left fun _ hi => h _ (Nat.le_add_right ..)
    (Nat.add_lt_add_left (List.mem_range.mp hi) _)

theorem slice_lay_self (m : ℕ → UInt8) (a : ℕ) (bytes : List UInt8) :
    slice (lay m a bytes) a bytes.length = bytes := by
  refine List.ext_getElem (slice_length ..) fun _ _ hi => ?_
  simp only [slice, List.getElem_map, List.getElem_range]
  refine lay_of_some ?_
  rw [byteAt, if_pos (Nat.le_add_right ..), Nat.add_sub_cancel_left, List.getElem?_eq_getElem hi]

theorem slice_lay_of_apart {m : ℕ → UInt8} {a n b : ℕ} {bytes : List UInt8}
    (h : b + bytes.length ≤ a ∨ a + n ≤ b) : slice (lay m b bytes) a n = slice m a n :=
  slice_congr fun x hx hx' => lay_of_none (byteAt_eq_none.mpr (by omega))

theorem eq_of_slice_eq {m m' : ℕ → UInt8} {a n x : ℕ} (h : slice m' a n = slice m a n)
    (hx : a ≤ x) (hx' : x < a + n) : m' x = m x := by
  have hbyte : byteAt a (slice m' a n) x = byteAt a (slice m a n) x := congrArg (byteAt a · x) h
  rw [byteAt_slice, byteAt_slice, if_pos ⟨hx, hx'⟩, if_pos ⟨hx, hx'⟩, Option.some.injEq] at hbyte
  exact hbyte

/-! ### Around a cave -/

variable {t s s' : Target} {hook : SimpleHook}

/-- The code before the hook. -/
structure Inspected (t : Target) (hook : SimpleHook) : Prop where
  original : hook.original = slice t.mem hook.address hook.patchLen
  mapped : ∀ a, hook.address ≤ a → a < hook.address + hook.patchLen → t.mapped a = true
  long : 5 ≤ hook.patchLen
  room : hook.address + hook.patchLen < 2 ^ 64

/-- The pages of the cave are new. -/
structure Around (t s : Target) (hook : SimpleHook) : Prop where
  fresh : ∀ p, t.covers hook.codecave (64 + hook.patchLen) p = true → t.pages p = none
  bits : s.pageBits = t.pageBits
  kept : Kept t s hook.address hook.codecave hook.patchLen

theorem hookPatch_length {address cave patchLen : ℕ} (h : 5 ≤ patchLen) :
    (hookPatch address cave patchLen).length = patchLen := by
  rw [hookPatch, List.length_append, relJump_length, List.length_replicate]
  omega

theorem Untouched.calm (h : Untouched t s) (hs : Calm s s') : Untouched t s' := fun a ha =>
  ⟨(mapped_of_steady hs.steady a).trans (h a ha).1, by rw [hs.mem]; exact (h a ha).2⟩

theorem Around.write (h : Around t s hook) (hs : s.Steady s') {bytes : List UInt8} {address : ℕ}
    (hmem : s'.mem = lay s.mem address bytes)
    (hbytes : ∀ a b, t.mapped a = true → byteAt address bytes a = some b → b = t.mem a ∨
      byteAt hook.address (hookPatch hook.address hook.codecave hook.patchLen) a = some b) :
    Around t s' hook := by
  refine ⟨h.fresh, hs.pageBits.trans h.bits, ⟨fun a ha ha' => ?_, fun a ha => ?_⟩⟩
  · obtain ⟨hnew, hthere⟩ := h.kept.block a ha ha'
    exact ⟨hnew, (mapped_of_steady hs a).trans hthere⟩
  · obtain ⟨hthere, hbyte⟩ := h.kept.code a ha
    refine ⟨(mapped_of_steady hs a).trans hthere, ?_⟩
    rw [hmem]
    cases hwritten : byteAt address bytes a with
    | none => rwa [lay_of_none hwritten]
    | some b =>
      rw [lay_of_some hwritten]
      exact hbytes a b ha hwritten

theorem Around.calm (h : Around t s hook) (hs : Calm s s') : Around t s' hook :=
  @Around.write t s s' hook h hs.steady [] 0 (hs.mem.trans (by
    funext a
    exact (lay_of_none (byteAt_nil 0 a)).symm)) fun a b _ hb => by
      rw [byteAt_nil] at hb
      cases hb

theorem Around.write_cave (h : Around t s hook) (hclean : Untouched t s) (hs : s.Steady s')
    {bytes : List UInt8} {address : ℕ} (hmem : s'.mem = lay s.mem address bytes)
    (hlow : hook.codecave ≤ address)
    (hhigh : address + bytes.length ≤ hook.codecave + (64 + hook.patchLen)) :
    Around t s' hook ∧ Untouched t s' := by
  have hapart : ∀ a, t.mapped a = true → byteAt address bytes a = none := by
    intro a ha
    rw [byteAt_eq_none]
    by_contra hin
    rw [(h.kept.block a (by omega) (by omega)).1] at ha
    cases ha
  refine ⟨h.write hs hmem fun a b ha hb => ?_, fun a ha => ?_⟩
  · rw [hapart a ha] at hb
    cases hb
  · refine ⟨(mapped_of_steady hs a).trans (hclean a ha).1, ?_⟩
    rw [hmem, lay_of_none (hapart a ha)]
    exact (hclean a ha).2

/-- Where the code is as before, all is. -/
theorem Around.untouched (h : Around t s hook) (hcode : Inspected t hook)
    (hsame : slice s.mem hook.address hook.patchLen = hook.original) : Untouched t s := by
  intro a ha
  obtain ⟨hthere, hbyte⟩ := h.kept.code a ha
  refine ⟨hthere, ?_⟩
  by_cases hin : hook.address ≤ a ∧ a < hook.address + hook.patchLen
  · exact eq_of_slice_eq (hsame.trans hcode.original) hin.1 hin.2
  · refine hbyte.resolve_right fun hjump => ?_
    have hnone : byteAt hook.address (hookPatch hook.address hook.codecave hook.patchLen) a =
        none := by
      rw [byteAt_eq_none, hookPatch_length hcode.long]
      omega
    rw [hnone] at hjump
    cases hjump

/-- The cave may go where nothing has changed. -/
theorem giveUp_ends {α : Type} (h : Around t s hook) (hclean : Untouched t s)
    {A : α → Target → Prop} :
    Ends (giveUp hook) s A fun _ s' => Untouched t s' := by
  refine Ends.bind (Ends.call (Ends.stop fun a ha => ?_))
  unfold free
  dsimp only
  split
  · exact hclean a ha
  · refine ⟨?_, (hclean a ha).2⟩
    have hcovers : ∀ p, s.tick.covers hook.codecave (64 + hook.patchLen) p =
        t.covers hook.codecave (64 + hook.patchLen) p := fun p => by
      unfold Target.covers Target.page
      rw [show s.tick.pageBits = t.pageBits from h.bits]
    have hpage : s.page a = t.page a := by
      unfold Target.page
      rw [h.bits]
    have hold := (hclean a ha).1
    unfold Target.mapped at ha hold ⊢
    change (if s.covers _ _ (s.page a) then none else s.pages (s.page a)).isSome = true
    rw [if_neg fun hcover => ?_]
    · exact hold
    · rw [hpage] at hcover
      have hnone := h.fresh _ ((hcovers _).symm.trans hcover)
      rw [hnone] at ha
      cases ha

/-! ### The stages -/

/-- The decoder tells instructions that lie within the bytes it gets. -/
def Host.Whole (host : Host) : Prop :=
  ∀ architecture address code,
    ((host.disassemble architecture address code).map Instruction.size).sum ≤ code.length

theorem displacedLength_le {instructions : List Instruction} {n k : ℕ}
    (h : displacedLength instructions n = some k) :
    k ≤ n + (instructions.map Instruction.size).sum := by
  induction instructions generalizing n with
  | nil =>
    cases h
    exact Nat.le_add_right ..
  | cons i rest ih =>
    rw [displacedLength] at h
    rw [List.map_cons, List.sum_cons]
    split at h
    · cases h
    · split at h
      · cases h
        omega
      · have := ih h
        omega

theorem untouched_of_looked (h : t.Looked s) : Untouched t s := by
  have hcalm := calm_of_looked h
  exact fun a ha => ⟨(mapped_of_steady hcalm.steady a).trans ha, by rw [hcalm.mem]⟩

variable {host : Host} {code32 : Bool} {target : ℕ}

theorem looked_pin : Moves Target.Looked pin := fun t => looked_tick t

theorem inspect_ends (hwhole : host.Whole) (architecture : CpuArchitecture) (address : UInt64)
    (t : Target) :
    Ends (inspect host architecture address) t
      (fun hook s => Inspected t hook ∧ hook.address = address.toNat ∧ t.Looked s)
      fun _ s => t.Looked s := by
  unfold inspect pinImage
  refine Ends.bind (Ends.bind (Ends.get (Ends.bind (Ends.call ?_))))
  have hpin := looked_pin t
  generalize pin t = answer at hpin
  obtain ⟨_ | _, s⟩ := answer
  · exact Ends.stop hpin
  refine Ends.pure (Ends.bind (Ends.call ?_))
  have hlooked := frame_looked.trans hpin (looked_read address.toNat 32 s)
  have hread : ∀ code, (AutoAssembler.read address.toNat 32 s).1 = .ok code → _ := fun code =>
    read_eq_ok
  generalize AutoAssembler.read address.toNat 32 s = answer at hlooked hread
  obtain ⟨_ | code, s₁⟩ := answer
  · exact Ends.stop hlooked
  obtain ⟨hcode, hmapped⟩ := hread code rfl
  refine Ends.ite (fun _ => Ends.stop hlooked) fun hfive => ?_
  cases hlength : displacedLength (host.disassemble architecture address code) 0 with
  | none => exact Ends.stop hlooked
  | some patchLen =>
    refine Ends.ite (fun _ => Ends.stop hlooked) fun hlong => Ends.ite
      (fun _ => Ends.stop hlooked) fun hroom => Ends.bind (Ends.call ?_)
    have hall := frame_looked.trans hlooked
      (looked_protectionsFor patchLen address.toNat patchLen s₁)
    generalize protectionsFor patchLen address.toNat patchLen s₁ = answer at hall
    obtain ⟨_ | _ | ⟨range, ranges⟩, s₂⟩ := answer
    · exact Ends.stop hall
    · exact Ends.stop hall
    have hle : patchLen ≤ code.length := by
      have := displacedLength_le hlength
      have := hwhole architecture address code
      omega
    refine Ends.pure ⟨⟨?_, fun a ha ha' => ?_, Nat.not_lt.mp hlong, by dsimp only; omega⟩, rfl,
      hall⟩
    · have hmem : s.mem = t.mem := by
        obtain ⟨n, -, rfl⟩ := hpin
        rfl
      dsimp only
      rw [hcode, hmem]
      obtain ⟨more, hmore⟩ := Nat.exists_eq_add_of_le hle
      rw [hmore, slice_append, List.take_left' (slice_length ..)]
    · dsimp only at ha ha'
      have hin : a - address.toNat < s.mappedCount address.toNat 32 := by omega
      have := Target.mapped_of_lt_mappedCount hin
      rw [Nat.add_sub_cancel' ha, mapped_of_steady hpin.steady] at this
      exact this

/-- Where the cave lies. -/
structure Reserved (code32 : Bool) (hook : SimpleHook) : Prop where
  trampoline : hook.trampoline = hook.codecave + 16
  room : hook.codecave + (64 + hook.patchLen) < 2 ^ 64
  low : code32 = true → hook.codecave < 2 ^ 32
  near : code32 = true ∨ relTo hook.codecave hook.address < 2 ^ 31 ∨
    2 ^ 64 - 2 ^ 31 ≤ relTo hook.codecave hook.address

theorem around_mapNew (hlooked : t.Looked s)
    (hfits : s.fits hook.codecave (64 + hook.patchLen) = true) :
    Around t (s.mapNew hook.codecave (64 + hook.patchLen)) hook ∧
      Untouched t (s.mapNew hook.codecave (64 + hook.patchLen)) := by
  have hcalm := calm_of_looked hlooked
  have hfree := (fits_spec hfits).2.2
  have hpages : s.pages = t.pages := by
    obtain ⟨n, -, rfl⟩ := hlooked
    rfl
  have hcovers : ∀ p, s.covers hook.codecave (64 + hook.patchLen) p =
      t.covers hook.codecave (64 + hook.patchLen) p := covers_congr hcalm.steady.pageBits _ _
  have hclean : Untouched t (s.mapNew hook.codecave (64 + hook.patchLen)) := by
    intro a ha
    have hnot : s.covers hook.codecave (64 + hook.patchLen) (s.page a) = false := by
      by_contra hcover
      have hnone := hfree _ (Bool.of_not_eq_false hcover)
      rw [← mapped_of_steady hcalm.steady a] at ha
      unfold Target.mapped at ha
      rw [hnone] at ha
      cases ha
    refine ⟨?_, ?_⟩
    · rw [← mapped_of_steady hcalm.steady a] at ha
      change (if s.covers _ _ (s.page a) then some MemProt.all else s.pages (s.page a)).isSome = _
      rw [hnot]
      exact ha
    · change (if s.covers _ _ (s.page a) then 0 else s.mem a) = _
      rw [hnot, if_neg Bool.false_ne_true, hcalm.mem]
  refine ⟨⟨fun p hp => ?_, hcalm.steady.pageBits, ⟨fun a ha ha' => ⟨?_, ?_⟩, fun a ha =>
    ⟨(hclean a ha).1, .inl (hclean a ha).2⟩⟩⟩, hclean⟩
  · rw [← hpages]
    exact hfree p ((hcovers p).trans hp)
  · have hnone := hfree _ (covers_of_mem ha ha')
    rw [← mapped_of_steady hcalm.steady a]
    unfold Target.mapped
    rw [hnone]
    rfl
  · change (if s.covers _ _ (s.page a) then some MemProt.all else s.pages (s.page a)).isSome = _
    rw [covers_of_mem ha ha', if_pos rfl]
    rfl

theorem reserve_ends (hcode : Inspected t hook) (hlooked : t.Looked s) :
    Ends (reserve code32 hook) s
      (fun hook' s' => Inspected t hook' ∧ hook'.address = hook.address ∧ Around t s' hook' ∧
        Untouched t s' ∧ Reserved code32 hook')
      fun _ s' => Untouched t s' := by
  unfold reserve
  refine Ends.bind (Ends.call ?_)
  rcases allocate_cases (64 + hook.patchLen) s with ⟨r, hcall⟩ | ⟨cave, hfits, hcall⟩ <;> rw [hcall]
  · exact Ends.stop (untouched_of_looked (frame_looked.trans hlooked (looked_tick s)))
  · obtain ⟨haround, hclean⟩ := @around_mapNew t s { hook with codecave := cave } hlooked hfits
    refine Ends.ite (fun _ => giveUp_ends haround hclean) fun hroom => ?_
    refine Ends.ite (fun _ => giveUp_ends haround hclean) fun hnear => Ends.pure ?_
    rw [not_or, not_and] at hroom
    dsimp only at hroom hnear
    have hcode32 : code32 = true ∨ code32 = false := by cases code32 <;> simp
    refine ⟨⟨hcode.original, hcode.mapped, hcode.long, hcode.room⟩, rfl,
      ⟨haround.fresh, haround.bits, haround.kept⟩, hclean, ⟨rfl, ?_, fun h32 => ?_, ?_⟩⟩
    · dsimp only
      omega
    · have := hroom.2 h32
      dsimp only
      omega
    · refine hcode32.imp id fun h64 => ?_
      dsimp only
      simp only [h64, true_and, not_and] at hnear
      omega

/-- What the cave holds. -/
structure Filled (code32 : Bool) (target : ℕ) (hook : SimpleHook) (s : Target) : Prop where
  gate : slice s.mem hook.codecave (putJmp code32 hook.codecave target).length =
    putJmp code32 hook.codecave target
  displaced : slice s.mem hook.trampoline hook.patchLen = hook.original
  back : slice s.mem (hook.trampoline + hook.patchLen)
      (putJmp code32 (hook.trampoline + hook.patchLen) (hook.address + hook.patchLen)).length =
    putJmp code32 (hook.trampoline + hook.patchLen) (hook.address + hook.patchLen)

theorem putJmp_length_le (code32 : Bool) (address target : ℕ) :
    (putJmp code32 address target).length ≤ 14 := by
  unfold putJmp
  cases code32 <;> simp

theorem Inspected.original_length (h : Inspected t hook) :
    hook.original.length = hook.patchLen := by
  rw [h.original, slice_length]

theorem fillCave_ends (hcode : Inspected t hook) (haround : Around t s hook)
    (hclean : Untouched t s) (hreserved : Reserved code32 hook) :
    Ends (fillCave code32 target hook) s
      (fun _ s' => Around t s' hook ∧ Untouched t s' ∧ Filled code32 target hook s')
      fun _ s' => Untouched t s' := by
  unfold fillCave
  have hgate := putJmp_length_le code32 hook.codecave target
  generalize hbytes : putJmp code32 hook.codecave target = gate at hgate
  have hback := putJmp_length_le code32 (hook.trampoline + hook.patchLen)
    (hook.address + hook.patchLen)
  generalize hbytes' : putJmp code32 (hook.trampoline + hook.patchLen)
    (hook.address + hook.patchLen) = back at hback
  have htramp : (hook.original ++ back).length = hook.patchLen + back.length := by
    rw [List.length_append, hcode.original_length]
  have hplace := hreserved.trampoline
  refine Ends.bind (Ends.call ?_)
  obtain ⟨n, hmem, hall⟩ := writeAll_mem hook.codecave gate s
  obtain ⟨haround₁, hclean₁⟩ := haround.write_cave hclean (steady_writeAll hook.codecave gate s)
    hmem (Nat.le_refl _) (by rw [List.length_take]; omega)
  generalize writeAll hook.codecave gate s = answer at *
  obtain ⟨written, s₁⟩ := answer
  refine Ends.ite (fun hwritten => Ends.bind (Ends.call ?_)) fun _ => giveUp_ends haround₁ hclean₁
  have hmem : s₁.mem = lay s.mem hook.codecave gate := by
    rw [hall hwritten] at hmem
    exact hmem
  obtain ⟨n', hmem', hall'⟩ := writeAll_mem hook.trampoline (hook.original ++ back) s₁
  obtain ⟨haround₂, hclean₂⟩ := haround₁.write_cave hclean₁
    (steady_writeAll hook.trampoline (hook.original ++ back) s₁) hmem' (by omega)
    (by rw [List.length_take, htramp]; omega)
  generalize writeAll hook.trampoline (hook.original ++ back) s₁ = answer at *
  obtain ⟨written', s₂⟩ := answer
  refine Ends.ite (fun hwritten' => Ends.pure ⟨haround₂, hclean₂, ?_⟩) fun _ =>
    giveUp_ends haround₂ hclean₂
  have hmem' : s₂.mem = lay s₁.mem hook.trampoline (hook.original ++ back) := by
    rw [hall' hwritten'] at hmem'
    exact hmem'
  have hslice := slice_lay_self s₁.mem hook.trampoline (hook.original ++ back)
  rw [← hmem', List.length_append] at hslice
  have hfirst := slice_eq_left hslice
  have hlast := slice_eq_right hslice
  rw [hcode.original_length] at hfirst hlast
  refine ⟨?_, hfirst, by rw [hbytes']; exact hlast⟩
  rw [hbytes, hmem', slice_lay_of_apart (.inr (by omega)), hmem, slice_lay_self]

/-- A first part of the jump, or of the code before it, is written to the code. -/
theorem Around.write_patch (h : Around t s hook) {n : ℕ}
    (hs : s.Steady s') (hmem : s'.mem = lay s.mem hook.address
      ((hookPatch hook.address hook.codecave hook.patchLen).take n)) : Around t s' hook :=
  h.write hs hmem fun a b _ hb => by
    rw [byteAt_take] at hb
    split at hb
    · exact .inr hb
    · cases hb

theorem Around.write_original (h : Around t s hook) (hcode : Inspected t hook) {n : ℕ}
    (hs : s.Steady s') (hmem : s'.mem = lay s.mem hook.address (hook.original.take n)) :
    Around t s' hook :=
  h.write hs hmem fun a b _ hb => by
    rw [byteAt_take, hcode.original, byteAt_slice] at hb
    split at hb
    · split at hb
      · exact .inl (Option.some.inj hb).symm
      · cases hb
    · cases hb

/-- The cave goes only if the code is as before. -/
theorem recover_ends {α : Type} (hcode : Inspected t hook) (haround : Around t s hook)
    {A : α → Target → Prop} :
    Ends (recover hook) s A fun _ s' => NoDanglingJump t s' hook.address := by
  -- A comparison with the displaced code decides about the cave.
  have hdecide : ∀ s, Around t s hook → Ends (do
      if ← Stops.call (hookMatches hook hook.original) then giveUp hook else refuse) s A
        fun _ s' => NoDanglingJump t s' hook.address := by
    intro s haround
    refine Ends.bind (Ends.call ?_)
    have hcalm := calm_hookMatches hook hook.original s
    have hslice := @slice_of_hookMatches hook hook.original s
    generalize hookMatches hook hook.original s = answer at hcalm hslice
    obtain ⟨same, s₁⟩ := answer
    have haround₁ := haround.calm hcalm
    refine Ends.ite (fun hsame => ?_) fun _ => Ends.stop (.inr ⟨_, _, haround₁.kept⟩)
    have hsame := hslice hsame
    rw [hcode.original_length, ← hcalm.mem] at hsame
    exact (giveUp_ends haround₁ (haround₁.untouched hcode hsame)).mono (fun _ _ h => h)
      fun _ _ h => .inl h
  unfold recover
  cases hook.image with
  | some image => exact hdecide s haround
  | none =>
    refine Ends.bind (Ends.call (Ends.bind (Ends.call ?_)))
    obtain ⟨n, hmem, -⟩ := writeAll_mem hook.address hook.original s
    have haround₁ := haround.write_original hcode
      (steady_writeAll hook.address hook.original s) hmem
    have haround₂ := haround₁.calm (calm_setProtections false hook.protections _)
    exact Ends.ite (fun _ => hdecide _ haround₂) fun _ => Ends.stop (.inr ⟨_, _, haround₂.kept⟩)

theorem Filled.of_write (h : Filled code32 target hook s) (hcode : Inspected t hook)
    (haround : Around t s hook) (hreserved : Reserved code32 hook)
    (hmem : ∀ a, (a < hook.address ∨ hook.address + hook.patchLen ≤ a) → s'.mem a = s.mem a) :
    Filled code32 target hook s' := by
  have hcave : ∀ a, hook.codecave ≤ a → a < hook.codecave + (64 + hook.patchLen) →
      s'.mem a = s.mem a := fun a ha ha' => hmem a (by
    by_contra hin
    have hmapped := hcode.mapped a (by omega) (by omega)
    rw [(haround.kept.block a ha ha').1] at hmapped
    cases hmapped)
  have hgate := putJmp_length_le code32 hook.codecave target
  have hback := putJmp_length_le code32 (hook.trampoline + hook.patchLen)
    (hook.address + hook.patchLen)
  have hplace := hreserved.trampoline
  refine ⟨?_, ?_, ?_⟩
  · rw [slice_congr fun x hx hx' => hcave x hx (by omega)]
    exact h.gate
  · rw [slice_congr fun x hx hx' => hcave x (by omega) (by omega)]
    exact h.displaced
  · rw [slice_congr fun x hx hx' => hcave x (by omega) (by omega)]
    exact h.back

theorem jumpTarget_putJmp {mem : ℕ → UInt8} {a : ℕ} (ha : a + 14 ≤ 2 ^ 64) (ht : target < 2 ^ 64)
    (h : slice mem a (putJmp code32 a target).length = putJmp code32 a target) :
    jumpTarget code32 mem a = some (target % space code32) := by
  unfold putJmp at h
  cases code32 with
  | true =>
    rw [if_pos rfl, relJump_length] at h
    refine jumpTarget_relJump h ?_ (by omega) ht (.inl rfl)
    rw [relTo]
    omega
  | false =>
    rw [if_neg Bool.false_ne_true, absJump_length] at h
    rw [jumpTarget_absJump h ha ht, space, if_neg Bool.false_ne_true, Nat.mod_eq_of_lt ht]

theorem inPlace_of_filled (hcode : Inspected t hook) (haround : Around t s hook)
    (hreserved : Reserved code32 hook) (hfilled : Filled code32 target hook s)
    (ht : target < space code32)
    (hpatch : slice s.mem hook.address hook.patchLen =
      hookPatch hook.address hook.codecave hook.patchLen) :
    InPlace code32 target t s
      { hook with installed := hookPatch hook.address hook.codecave hook.patchLen } := by
  have hspace : space code32 ≤ 2 ^ 64 := by
    unfold space
    split <;> decide
  have hroom := hreserved.room
  have hend := hcode.room
  have hlong := hcode.long
  have hplace := hreserved.trampoline
  refine ⟨haround.kept, hend, hcode.original, hpatch, ?_, ?_, hfilled.displaced, ?_⟩
  · have hfirst := @slice_eq_left s.mem hook.address (relJump (relTo hook.codecave hook.address))
      (List.replicate (hook.patchLen - 5) 0x90) (by
        rw [relJump_length, List.length_replicate, Nat.add_sub_cancel' hlong]
        exact hpatch)
    rw [relJump_length] at hfirst
    have hrel : relTo hook.codecave hook.address =
        (hook.codecave + 2 ^ 64 - (hook.address + 5)) % 2 ^ 64 := by
      rw [relTo]
      omega
    have hjump := jumpTarget_relJump hfirst hrel (by omega) (by omega) hreserved.near
    rw [Nat.mod_eq_of_lt] at hjump
    · exact hjump
    · unfold space
      split
      · exact hreserved.low ‹_›
      · omega
  · have hgate := jumpTarget_putJmp (by omega) (Nat.lt_of_lt_of_le ht hspace) hfilled.gate
    rwa [Nat.mod_eq_of_lt ht] at hgate
  · exact jumpTarget_putJmp (by dsimp only; omega) hend hfilled.back

theorem patchCode_ends (hcode : Inspected t hook) (haround : Around t s hook)
    (hclean : Untouched t s) (hreserved : Reserved code32 hook)
    (hfilled : Filled code32 target hook s) (ht : target < space code32) :
    Ends (patchCode hook) s
      (fun hook' s' => hook'.address = hook.address ∧ InPlace code32 target t s' hook')
      fun _ s' => NoDanglingJump t s' hook.address := by
  unfold patchCode
  have hlength := @hookPatch_length hook.address hook.codecave _ hcode.long
  generalize hpatch : hookPatch hook.address hook.codecave hook.patchLen = patch at hlength
  have hprotect : ∀ writable : Bool, Moves Calm
      (if hook.image.isNone then setProtections writable hook.protections else pure true) :=
    fun writable => Moves.ite (calm_setProtections writable _) (Moves.pure frame_calm _)
  refine Ends.bind (Ends.call ?_)
  have hcalm := hprotect true s
  dsimp only at hcalm ⊢
  generalize (if hook.image.isNone then setProtections true hook.protections else pure true) s =
    answer at hcalm
  obtain ⟨writable, s₁⟩ := answer
  have haround₁ := haround.calm hcalm
  have hclean₁ := hclean.calm hcalm
  refine Ends.ite (fun _ => Ends.bind (Ends.call ?_)) fun _ => Ends.bind (Ends.call ?_)
  · have hcalm := calm_setProtections false hook.protections s₁
    exact (giveUp_ends (haround₁.calm hcalm) (hclean₁.calm hcalm)).mono (fun _ _ h => h)
      fun _ _ h => .inl h
  · obtain ⟨n, hmem, hall⟩ := writeAll_mem hook.address patch s₁
    have hsteady := steady_writeAll hook.address patch s₁
    dsimp only
    generalize writeAll hook.address patch s₁ = answer at *
    obtain ⟨written, s₂⟩ := answer
    have haround₂ := haround₁.write_patch hsteady (by rw [hpatch]; exact hmem)
    refine Ends.bind (Ends.call ?_)
    have hcode' : Inspected t { hook with installed := patch } :=
      ⟨hcode.original, hcode.mapped, hcode.long, hcode.room⟩
    have haround' : ∀ s', Around t s' hook → Around t s' { hook with installed := patch } :=
      fun s' h => ⟨h.fresh, h.bits, h.kept⟩
    have hcalm₃ : Moves Calm
        (if written then hookMatches { hook with installed := patch } patch else pure false) :=
      Moves.ite (calm_hookMatches _ _) (Moves.pure frame_calm _)
    have hcalm₃ := hcalm₃ s₂
    have hplace : ((if written then hookMatches { hook with installed := patch } patch
        else pure false : Op Bool) s₂).1 = true →
          slice s₂.mem hook.address patch.length = patch := by
      intro h
      split at h
      · exact slice_of_hookMatches h
      · cases h
    dsimp only at hcalm₃ hplace ⊢
    generalize (if written then hookMatches { hook with installed := patch } patch
      else pure false : Op Bool) s₂ = answer at hcalm₃ hplace
    obtain ⟨inPlace, s₃⟩ := answer
    refine Ends.ite (fun hin => Ends.bind (Ends.call (Ends.pure ⟨rfl, ?_⟩))) fun _ => ?_
    · have hcalm₄ := hprotect false s₃
      dsimp only at hcalm₄ ⊢
      generalize (if hook.image.isNone then setProtections false hook.protections else pure true)
        s₃ = answer at hcalm₄
      obtain ⟨closed, s₄⟩ := answer
      have hbytes : s₄.mem = s₂.mem := hcalm₄.mem.trans hcalm₃.mem
      have hin := hplace hin
      rw [hlength, ← hbytes] at hin
      have hfilled' : Filled code32 target hook s₄ := by
        refine hfilled.of_write hcode haround hreserved fun a ha => ?_
        rw [hbytes, hmem, lay_of_none, hcalm.mem]
        rw [byteAt_eq_none, List.length_take]
        omega
      have := inPlace_of_filled hcode ((haround₂.calm hcalm₃).calm hcalm₄) hreserved hfilled' ht
        (by rw [hpatch]; exact hin)
      rwa [hpatch] at this
    · exact recover_ends hcode' (haround' _ (haround₂.calm hcalm₃))

/-- **A hook is in place, or no jump to a freed cave is left.** -/
theorem installSimpleHook_ends (hwhole : host.Whole) (address target : UInt64) (t : Target) :
    Ends (installSimpleHook host address target) t
      (fun hook s => hook.address = address.toNat ∧
        InPlace (host.machineAt address == .x86_32) target.toNat t s hook)
      fun _ s => NoDanglingJump t s address.toNat := by
  unfold installSimpleHook
  have hsame : Untouched t t := fun a ha => ⟨ha, rfl⟩
  dsimp only
  refine Ends.ite (fun _ => Ends.stop (.inl hsame)) fun _ => Ends.ite
    (fun _ => Ends.stop (.inl hsame)) fun _ => Ends.ite (fun _ => Ends.stop (.inl hsame))
    fun hsmall => ?_
  generalize hcode32 : (host.machineAt address == CpuArchitecture.x86_32) = code32 at hsmall ⊢
  have ht : target.toNat < space code32 := by
    have := target.toNat_lt
    unfold space
    split
    · rename_i h32
      simp only [h32, Bool.true_and, Bool.or_eq_true, decide_eq_true_eq, not_or] at hsmall
      omega
    · exact this
  refine Ends.bind ((inspect_ends hwhole _ address t).mono (fun hook s h => ?_)
    fun _ s h => .inl (untouched_of_looked h))
  obtain ⟨hcode, haddress, hlooked⟩ := h
  rw [← haddress]
  refine Ends.bind ((reserve_ends hcode hlooked).mono (fun hook' s' h => ?_)
    fun _ s' h => .inl h)
  obtain ⟨hcode', hsite, haround, hclean, hreserved⟩ := h
  rw [← hsite]
  refine Ends.bind ((fillCave_ends hcode' haround hclean hreserved).mono (fun _ s'' h => ?_)
    fun _ s'' h => .inl h)
  obtain ⟨haround', hclean', hfilled⟩ := h
  exact patchCode_ends hcode' haround' hclean' hreserved hfilled ht

/-! ### A session -/

theorem steady_hookMatches (hook : SimpleHook) (wanted : List UInt8) :
    Moves Target.Steady (hookMatches hook wanted) :=
  fun s => (calm_hookMatches hook wanted s).steady

theorem steady_setProtections (writable : Bool) (ranges : List ProtectionRange) :
    Moves Target.Steady (setProtections writable ranges) :=
  fun s => (calm_setProtections writable ranges s).steady

theorem calm_ownCode (hook : SimpleHook) : Moves Calm (ownCode hook) :=
  Moves.ite (Moves.pure frame_calm _)
    (Moves.bind frame_calm (fun s => calm_of_looked (looked_read _ _ s)) fun answer => by
      cases answer <;> exact Moves.pure frame_calm _)

theorem steady_restoreImage (hook : SimpleHook) : Moves Target.Steady (restoreImage hook) :=
  Moves.bind frame_steady (steady_hookMatches _ _) fun _ =>
    Moves.ite (Moves.pure frame_steady _)
      (Moves.bind frame_steady (steady_writeAll _ _) fun _ =>
        Moves.ite (steady_hookMatches _ _) (Moves.pure frame_steady _))

theorem steady_restoreRanges (hook : SimpleHook) : Moves Target.Steady (restoreRanges hook) := by
  refine Moves.bind frame_steady (Moves.ite (steady_of_looked (looked_protectionsFor _ _ _))
    (Moves.pure frame_steady _)) fun found => ?_
  refine Moves.bind frame_steady (Moves.ite (Moves.pure frame_steady _)
    (steady_setProtections _ _)) fun writable => Moves.ite ?_ ?_
  · exact Moves.bind frame_steady (steady_setProtections _ _) fun _ => Moves.pure frame_steady _
  · refine Moves.bind frame_steady (steady_writeAll _ _) fun _ => ?_
    exact Moves.bind frame_steady (Moves.ite (steady_hookMatches _ _) (Moves.pure frame_steady _))
      fun _ => Moves.bind frame_steady (steady_setProtections _ _) fun _ =>
        Moves.pure frame_steady _

/-- A removal frees nothing. -/
theorem steady_removeSimpleHook (hook : SimpleHook) :
    Moves Target.Steady (removeSimpleHook hook) := by
  refine Moves.ite (Moves.pure frame_steady _) (Moves.bind frame_steady (Moves.ite
    (steady_of_looked looked_tryLock) (Moves.pure frame_steady _)) fun locked => ?_)
  refine Moves.ite (Moves.pure frame_steady _) (Moves.ite (Moves.pure frame_steady _) ?_)
  refine Moves.bind frame_steady (fun s => frame_steady.refl s) fun t => ?_
  cases standing hook t with
  | unknown => exact Moves.pure frame_steady _
  | retired => exact Moves.pure frame_steady _
  | live =>
    refine Moves.bind frame_steady (fun s => (calm_ownCode hook s).steady) fun own =>
      Moves.ite (Moves.bind frame_steady ?_ fun ok => Moves.pure frame_steady _)
        (Moves.pure frame_steady _)
    exact Moves.ite (steady_restoreImage hook) (steady_restoreRanges hook)

theorem hookMatches_after {wanted : List UInt8} (h : (hookMatches hook wanted s).1 = true) :
    slice (hookMatches hook wanted s).2.mem hook.address wanted.length = wanted := by
  rw [(calm_hookMatches hook wanted s).mem]
  exact slice_of_hookMatches h

theorem restoreImage_ok (h : (restoreImage hook s).1 = true) :
    slice (restoreImage hook s).2.mem hook.address hook.original.length = hook.original := by
  unfold restoreImage at h ⊢
  rw [bind_apply] at h ⊢
  split at h
  · rename_i hsame
    rw [if_pos hsame]
    exact hookMatches_after hsame
  · rename_i hsame
    rw [if_neg hsame]
    rw [bind_apply] at h ⊢
    split at h
    · rename_i hwritten
      rw [if_pos hwritten]
      exact hookMatches_after h
    · cases h

theorem restoreRanges_ok (h : (restoreRanges hook s).1 = true) :
    slice (restoreRanges hook s).2.mem hook.address hook.original.length = hook.original := by
  unfold restoreRanges at h ⊢
  rw [bind_apply] at h ⊢
  generalize (if hook.protections.isEmpty then _ else _ : Op (Option (List ProtectionRange))) s =
    answer at h ⊢
  obtain ⟨found, s₁⟩ := answer
  dsimp only at h ⊢
  rw [bind_apply] at h ⊢
  generalize (if (found.getD []).isEmpty then _ else _ : Op Bool) s₁ = answer at h ⊢
  obtain ⟨writable, s₂⟩ := answer
  dsimp only at h ⊢
  split at h
  · cases h
  · rename_i hwritable
    rw [if_neg hwritable]
    rw [bind_apply] at h ⊢
    generalize writeAll hook.address hook.original s₂ = answer at h ⊢
    obtain ⟨restored, s₃⟩ := answer
    dsimp only at h ⊢
    rw [bind_apply, bind_apply] at h ⊢
    rw [pure_apply] at h ⊢
    obtain ⟨-, hplace⟩ := Bool.and_eq_true_iff.mp h
    dsimp only
    rw [(calm_setProtections false _ _).mem]
    split at hplace
    · rename_i hrestored
      rw [if_pos hrestored]
      exact hookMatches_after hplace
    · cases hplace

/-- **A removal that succeeds has restored the code**, unless it was done before or the target's
image is gone. -/
theorem removeSimpleHook_restores (h : (removeSimpleHook hook s).1.1 = true)
    (hfirst : hook.removal ≠ some true) (hlive : standing hook s = .live) :
    slice (removeSimpleHook hook s).2.mem hook.address hook.original.length = hook.original := by
  unfold removeSimpleHook at h ⊢
  split at h
  · cases h
  · rename_i hempty
    rw [if_neg hempty]
    rw [bind_apply] at h ⊢
    have hsteady : Moves Target.Steady
        (if hook.removal.isSome then tryLock else pure true : Op Bool) :=
      Moves.ite (steady_of_looked looked_tryLock) (Moves.pure frame_steady _)
    have hsteady := hsteady s
    generalize (if hook.removal.isSome then tryLock else pure true : Op Bool) s = answer
      at h hsteady ⊢
    obtain ⟨locked, s₁⟩ := answer
    dsimp only at h hsteady ⊢
    split at h
    · cases h
    · rename_i hlocked
      rw [if_neg hlocked, if_neg hfirst]
      have hstanding : standing hook s₁ = .live := by
        unfold standing at hlive ⊢
        rwa [hsteady.pid, hsteady.check]
      have hget : (get : Op Target) s₁ = (s₁, s₁) := rfl
      rw [bind_apply, hget] at h ⊢
      dsimp only at h ⊢
      rw [hstanding] at h ⊢
      dsimp only at h ⊢
      rw [bind_apply] at h ⊢
      split at h
      · rename_i hown
        rw [if_pos hown]
        rw [bind_apply] at h ⊢
        split at h
        · rename_i himage
          rw [if_pos himage]
          exact restoreImage_ok h
        · rename_i himage
          rw [if_neg himage]
          exact restoreRanges_ok h
      · cases h

variable {a : ℕ} {requests : List Request}

theorem serve_mapped (hwhole : host.Whole) (s : Session) (request : Request)
    (ha : s.target.mapped a = true) : (s.serve host request).target.mapped a = true := by
  cases request with
  | install address target =>
    have hends : Ends (installSimpleHook host address target) s.target
        (fun _ s' => s'.mapped a = true) fun _ s' => s'.mapped a = true :=
      (installSimpleHook_ends hwhole address target s.target).mono
        (fun _ _ h => (h.2.kept.code a ha).1) fun _ _ h => by
          rcases h with h | ⟨cave, patchLen, h⟩
          · exact (h a ha).1
          · exact (h.code a ha).1
    have hstate := hends.state
    unfold Session.serve
    dsimp only
    generalize finish (installSimpleHook host address target) s.target = answer at hstate
    obtain ⟨_ | _, t⟩ := answer <;> exact hstate
  | remove i =>
    unfold Session.serve
    dsimp only
    cases s.hooks[i]? with
    | none => exact ha
    | some hook => exact (mapped_of_steady (steady_removeSimpleHook hook s.target) a).trans ha

theorem run_mapped (hwhole : host.Whole) (s : Session) (ha : s.target.mapped a = true) :
    (s.run host requests).target.mapped a = true := by
  induction requests generalizing s with
  | nil => exact ha
  | cons request rest ih => exact ih (s.serve host request) (serve_mapped hwhole s request ha)

def CaveAllocated (t : Target) (cave patchLen : ℕ) : Prop :=
  ∀ a, cave ≤ a → a < cave + (64 + patchLen) → t.mapped a = true

/-- A host that decodes one instruction of six bytes. -/
def moveHost : Host where
  unsupported := false
  machineAt := fun _ => .x86_64
  disassemble := fun _ _ code => if 6 ≤ code.length then [⟨6, "mov", false, 0⟩] else []

theorem moveHost_whole : moveHost.Whole := by
  intro architecture address code
  change (List.map _ (if 6 ≤ code.length then _ else _)).sum ≤ _
  split
  · assumption
  · exact Nat.zero_le _

/-- A page of code, and a system that maps the next one. -/
def onePage : Session where
  target := {
    mem := fun a => UInt8.ofNat a
    pages := fun p => if p = 1 then some ⟨true, false, true⟩ else none
    pageBits := 12
    pid := 1
    image := none
    check := fun _ => .live
    isX86 := fun _ => true
    reply := fun _ => { address := 0x2000, region := some ⟨0x1000, 0x1000, ⟨true, false, true⟩⟩ }
    clock := 0 }
  hooks := []

/-- **No jump is left into freed memory**: a hook that is returned is in place, and where none is,
the code is as before or the cave is allocated.  After any later calls the cave still is. -/
theorem simple_hook_never_dangles (host : Host) (hwhole : host.Whole) (s : Session)
    (address target : UInt64) (later : List Request) :
    let s₁ := s.serve host (.install address target)
    let s₂ := s₁.run host later
    (∃ hook, s₁.hooks = s.hooks ++ [hook] ∧ hook.address = address.toNat ∧
      InPlace (host.machineAt address == .x86_32) target.toNat s.target s₁.target hook ∧
      CaveAllocated s₂.target hook.codecave hook.patchLen) ∨
    s₁.hooks = s.hooks ∧ (Untouched s.target s₁.target ∨
      ∃ cave patchLen, Kept s.target s₁.target address.toNat cave patchLen ∧
        CaveAllocated s₂.target cave patchLen) := by
  intro s₁ s₂
  have hstays : ∀ {cave patchLen : ℕ}, Kept s.target s₁.target address.toNat cave patchLen →
      CaveAllocated s₂.target cave patchLen := fun h a ha ha' =>
    run_mapped hwhole s₁ (h.block a ha ha').2
  have hends := installSimpleHook_ends hwhole address target s.target
  unfold Ends at hends
  have hs₁ : s₁ = s.serve host (.install address target) := rfl
  unfold Session.serve at hs₁
  dsimp only at hs₁
  generalize finish (installSimpleHook host address target) s.target = answer at hends hs₁
  obtain ⟨_ | hook, t⟩ := answer
  · refine .inr ⟨by rw [hs₁], ?_⟩
    have htarget : s₁.target = t := by rw [hs₁]
    rw [htarget] at hstays ⊢
    exact hends.imp id fun ⟨cave, patchLen, hkept⟩ => ⟨cave, patchLen, hkept, hstays hkept⟩
  · obtain ⟨haddress, hplace⟩ := hends
    have htarget : s₁.target = t := by rw [hs₁]
    rw [htarget] at hstays ⊢
    have hkept := hplace.kept
    refine .inl ⟨hook, by rw [hs₁], haddress, hplace, ?_⟩
    rw [haddress] at hkept
    exact hstays hkept

/-- A hook that is installed and removed again: its cave stays. -/
theorem removed_hook_keeps_cave :
    let s₁ := onePage.serve moveHost (.install 0x1100 0x1800)
    let s₂ := s₁.run moveHost [.remove 0]
    s₁.hooks.length = 1 ∧ ∃ hook, s₁.hooks = [hook] ∧ hook.address = 0x1100 ∧
      InPlace false 0x1800 onePage.target s₁.target hook ∧
      CaveAllocated s₂.target hook.codecave hook.patchLen := by
  have hone : (onePage.serve moveHost (.install 0x1100 0x1800)).hooks.length = 1 := by
    decide +kernel
  refine ⟨hone, ?_⟩
  rcases simple_hook_never_dangles moveHost moveHost_whole onePage 0x1100 0x1800 [.remove 0] with
    h | ⟨hnone, -⟩
  · exact h
  · rw [hnone] at hone
    cases hone

/-- **A hook that is taken out is gone**: whatever became of the target since it was installed, the
first removal that succeeds leaves the code as it was before. -/
theorem removed_hook_restores_code {host : Host} (hwhole : host.Whole) {address target : UInt64}
    {t t' s : Target} {hook : SimpleHook}
    (hinstall : finish (installSimpleHook host address target) t = (.ok hook, t'))
    (hlive : standing hook s = .live) (hfirst : hook.removal ≠ some true)
    (hremoved : (removeSimpleHook hook s).1.1 = true) :
    slice (removeSimpleHook hook s).2.mem address.toNat hook.patchLen =
      slice t.mem address.toNat hook.patchLen := by
  have hends := installSimpleHook_ends hwhole address target t
  rw [Ends, hinstall] at hends
  obtain ⟨haddress, hplace⟩ := hends
  have h := removeSimpleHook_restores hremoved hfirst hlive
  have hlength : hook.original.length = hook.patchLen := by
    rw [hplace.original, slice_length]
  rwa [hlength, hplace.original, haddress] at h

/-- A hook that is installed and removed again. -/
theorem removed_hook_restores_code_onePage :
    ∃ hook t', finish (installSimpleHook moveHost 0x1100 0x1800) onePage.target = (.ok hook, t') ∧
      slice (removeSimpleHook hook t').2.mem 0x1100 hook.patchLen =
        slice onePage.target.mem 0x1100 hook.patchLen := by
  have hsome : ∃ hook t', finish (installSimpleHook moveHost 0x1100 0x1800) onePage.target =
      (.ok hook, t') ∧ standing hook t' = .live ∧ hook.removal ≠ some true ∧
        (removeSimpleHook hook t').1.1 = true :=
    ⟨_, _, rfl, by decide +kernel, by decide +kernel, by decide +kernel⟩
  obtain ⟨hook, t', hinstall, hlive, hfirst, hremoved⟩ := hsome
  exact ⟨hook, t', hinstall,
    removed_hook_restores_code moveHost_whole hinstall hlive hfirst hremoved⟩

end CheatEngine.SimpleHooks
