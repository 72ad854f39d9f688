import CheatEngineLinux.Core.XmlText

/-!
# Keys of hotkeys

The key lists of Cheat Engine's hotkeys (Windows virtual-key codes) and the key sequences of the
records, as `core/ct_file.cpp` turns one into the other.

* `vksToKeyString_keyStringToVKs` — **PROVED**: a key sequence that was made from a key list is
  made again from the list it stands for.
-/

namespace CheatEngine.CtFile

open JsonGrammar (Bytes)

/-! ### Actions -/

/-- `kHotkeyActions`, by the `mrh*` codes. -/
def kHotkeyActions : List String :=
  ["Toggle Activation", "Toggle Activation Allow Increase", "Toggle Activation Allow Decrease",
    "Activate", "Deactivate", "Set Value", "Increase Value", "Decrease Value"]

/-- `hotkeyActionFromText` -/
def hotkeyActionFromText (text : Bytes) : ℕ :=
  match kHotkeyActions.findIdx? fun name => lit name == text with
  | some code => code
  | none =>
    match fromCharsInt text with
    | some (code, []) => if 0 ≤ code ∧ code < 8 then code.toNat else 0
    | _ => 0

/-- `hotkeySlot`: 0 toggle, 1 set value, 2 increase, 3 decrease. -/
def hotkeySlot (action : ℕ) : ℕ := if action ≤ 4 then 0 else action - 4

/-! ### Codes to key sequences -/

def namedKeys : List (ℤ × String) :=
  [(16, "Shift"), (17, "Ctrl"), (18, "Alt"), (91, "Meta"), (92, "Meta"), (8, "Backspace"), (9, "Tab"),
    (13, "Return"), (27, "Esc"), (32, "Space"), (33, "PgUp"), (34, "PgDown"), (35, "End"),
    (36, "Home"), (37, "Left"), (38, "Up"), (39, "Right"), (40, "Down"), (45, "Ins"), (46, "Del")]

/-- The keypad's operators and the punctuation of a US layout. -/
def punctuationKeys : List (ℤ × String) :=
  [(106, "Num+*"), (107, "Num++"), (109, "Num+-"), (110, "Num+."), (111, "Num+/"), (186, ";"),
    (187, "="), (188, ","), (189, "-"), (190, "."), (191, "/"), (192, "`"), (219, "["), (220, "\\"),
    (221, "]"), (222, "'")]

/-- `vkToKeyToken` -/
def vkToKeyToken (vk : ℤ) : Bytes :=
  match namedKeys.lookup vk with
  | some name => lit name
  | none =>
    if 48 ≤ vk ∧ vk ≤ 57 then [UInt8.ofNat vk.toNat]
    else if 65 ≤ vk ∧ vk ≤ 90 then [UInt8.ofNat vk.toNat]
    else if 96 ≤ vk ∧ vk ≤ 105 then lit "Num+" ++ [UInt8.ofNat (vk.toNat - 48)]
    else
      match punctuationKeys.lookup vk with
      | some name => lit name
      | none => if 112 ≤ vk ∧ vk ≤ 135 then 0x46 :: intText (vk - 111) else []

/-- The modifiers and the first other key of a list. -/
structure KeyCombo where
  ctrl : Bool := false
  alt : Bool := false
  shift : Bool := false
  metaKey : Bool := false
  key : Bytes := []
  deriving DecidableEq

/-- The loop of `vksToKeyString`. -/
def KeyCombo.add (combo : KeyCombo) (vk : ℤ) : KeyCombo :=
  let tok := vkToKeyToken vk
  if tok == lit "Ctrl" then { combo with ctrl := true }
  else if tok == lit "Alt" then { combo with alt := true }
  else if tok == lit "Shift" then { combo with shift := true }
  else if tok == lit "Meta" then { combo with metaKey := true }
  else if !tok.isEmpty && combo.key.isEmpty then { combo with key := tok }
  else combo

/-- What `vksToKeyString` returns. -/
def KeyCombo.text (combo : KeyCombo) : Bytes :=
  let out := (if combo.ctrl then lit "Ctrl+" else []) ++ (if combo.alt then lit "Alt+" else []) ++
    (if combo.shift then lit "Shift+" else []) ++ (if combo.metaKey then lit "Meta+" else [])
  if combo.key.isEmpty && !out.isEmpty then out.dropLast else out ++ combo.key

/-- `vksToKeyString` -/
def vksToKeyString (vks : List ℤ) : Bytes := (vks.foldl KeyCombo.add {}).text

/-! ### Key sequences to codes -/

/-- The names `keyTokenToVK` compares with. -/
def tokenCodes : List (String × ℤ) :=
  [("Ctrl", 17), ("Alt", 18), ("Shift", 16), ("Meta", 91), ("Backspace", 8), ("Tab", 9),
    ("Return", 13), ("Enter", 13), ("Esc", 27), ("Space", 32), ("PgUp", 33), ("PgDown", 34),
    ("End", 35), ("Home", 36), ("Left", 37), ("Up", 38), ("Right", 39), ("Down", 40), ("Ins", 45),
    ("Del", 46)]

/-- The single characters of `keyTokenToVK`. -/
def characterCodes : List (UInt8 × ℤ) :=
  [(0x3b, 186), (0x3d, 187), (0x2b, 187), (0x2c, 188), (0x2d, 189), (0x2e, 190), (0x2f, 191),
    (0x60, 192), (0x5b, 219), (0x5c, 220), (0x5d, 221), (0x27, 222)]

/-- The function keys of `keyTokenToVK`. -/
def functionKey (t : Bytes) : Option ℤ :=
  if t.length ≥ 2 && t.head? == some 0x46 then
    (stoi t.tail).bind fun n => if 1 ≤ n ∧ n ≤ 24 then some (111 + n) else none
  else none

/-- `keyTokenToVK`, 0 for an unknown one. -/
def keyTokenToVK (t : Bytes) : ℤ :=
  match tokenCodes.find? fun p => lit p.1 == t with
  | some p => p.2
  | none =>
    match t with
    | [c] =>
      if (0x30 ≤ c ∧ c ≤ 0x39) ∨ (0x41 ≤ c ∧ c ≤ 0x5a) then c.toNat
      else (characterCodes.lookup c).getD 0
    | _ => (functionKey t).getD 0

/-- `keypadTokenToVK` -/
def keypadTokenToVK (t : Bytes) : ℤ :=
  match t with
  | [c] =>
    if 0x30 ≤ c ∧ c ≤ 0x39 then 96 + (c.toNat - 0x30)
    else (([(0x2a, 106), (0x2b, 107), (0x2d, 109), (0x2e, 110), (0x2f, 111)] :
      List (UInt8 × ℤ)).lookup c).getD 0
  | _ => 0

/-- Blanks off both ends. -/
def trimBlanks (t : Bytes) : Bytes := (t.dropWhile (· == 0x20)).rdropWhile (· == 0x20)

/-- The last key is the plus key itself. -/
def endsInPlus (s : Bytes) : Bool :=
  s == [0x2b] || (s.length ≥ 2 && s.drop (s.length - 2) == [0x2b, 0x2b])

def keyTokens (s : Bytes) : List Bytes :=
  let rest := if endsInPlus s then s.take (s.length - 2) else s
  ((rest.splitOn 0x2b).map trimBlanks).filter (!·.isEmpty) ++ if endsInPlus s then [[0x2b]] else []

/-- The loop over the tokens, with `keypad`. -/
def tokensToVKs : Bool → List Bytes → List ℤ
  | _, [] => []
  | keypad, tok :: toks =>
    if tok == lit "Num" then tokensToVKs true toks
    else
      let vk := if keypad then keypadTokenToVK tok else 0
      let vk := if vk = 0 then keyTokenToVK tok else vk
      if vk = 0 then tokensToVKs keypad toks else vk :: tokensToVKs keypad toks

/-- `keyStringToVKs` -/
def keyStringToVKs (s : Bytes) : List ℤ := tokensToVKs false (keyTokens s)

/-! ### There and back -/

def isModifier (tok : Bytes) : Bool :=
  tok == lit "Ctrl" || tok == lit "Alt" || tok == lit "Shift" || tok == lit "Meta"

def comboKeys : List Bytes :=
  ((List.range 256).map fun n : ℕ => vkToKeyToken n).filter fun tok => !(tok.isEmpty || isModifier tok)

theorem comboKeys_single : (comboKeys.all fun key => match keyStringToVKs key with
    | [vk] => vkToKeyToken vk == key
    | _ => false) = true := by
  decide +kernel

theorem keyStringToVKs_key {key : Bytes} (h : key ∈ comboKeys) :
    ∃ vk, keyStringToVKs key = [vk] ∧ vkToKeyToken vk = key := by
  have hkey := List.all_eq_true.mp comboKeys_single key h
  split at hkey
  · next vk hvk => exact ⟨vk, hvk, eq_of_beq hkey⟩
  · cases hkey

theorem vkToKeyToken_range {vk : ℤ} (h : vkToKeyToken vk ≠ []) : 0 ≤ vk ∧ vk < 256 := by
  by_contra hout
  apply h
  have hnamed : namedKeys.lookup vk = none := by
    rw [List.lookup_eq_none_iff]
    simp only [namedKeys, List.forall_mem_cons, List.not_mem_nil, false_implies, implies_true,
      and_true, bne_iff_ne]
    omega
  have hpunctuation : punctuationKeys.lookup vk = none := by
    rw [List.lookup_eq_none_iff]
    simp only [punctuationKeys, List.forall_mem_cons, List.not_mem_nil, false_implies, implies_true,
      and_true, bne_iff_ne]
    omega
  unfold vkToKeyToken
  rw [hnamed, hpunctuation]
  dsimp only
  rw [if_neg (by omega), if_neg (by omega), if_neg (by omega), if_neg (by omega)]

theorem mem_comboKeys {vk : ℤ} (hne : vkToKeyToken vk ≠ [])
    (hmodifier : isModifier (vkToKeyToken vk) = false) : vkToKeyToken vk ∈ comboKeys := by
  obtain ⟨hlow, hhigh⟩ := vkToKeyToken_range hne
  have hmem : vkToKeyToken vk ∈ (List.range 256).map fun n : ℕ => vkToKeyToken n := by
    have hrange : vk.toNat ∈ List.range 256 := List.mem_range.mpr (by omega)
    rw [List.mem_map]
    exact ⟨vk.toNat, hrange, by rw [Int.toNat_of_nonneg hlow]⟩
  unfold comboKeys
  rw [List.mem_filter]
  exact ⟨hmem, by simp [hmodifier, hne]⟩

theorem foldl_add_key (vks : List ℤ) {combo : KeyCombo}
    (h : combo.key = [] ∨ combo.key ∈ comboKeys) :
    (vks.foldl KeyCombo.add combo).key = [] ∨ (vks.foldl KeyCombo.add combo).key ∈ comboKeys := by
  induction vks generalizing combo with
  | nil => exact h
  | cons vk vks ih =>
    refine ih ?_
    unfold KeyCombo.add
    dsimp only
    split
    · exact h
    split
    · exact h
    split
    · exact h
    split
    · exact h
    split
    · next hctrl halt hshift hmeta hkey =>
      simp only [Bool.and_eq_true, Bool.not_eq_true', List.isEmpty_eq_false_iff] at hkey
      exact Or.inr (mem_comboKeys hkey.1 (by simp [isModifier, hctrl, halt, hshift, hmeta]))
    · exact h

theorem splitOn_modifier {m : Bytes} (hplus : 0x2b ∉ m) (s : Bytes) :
    (m ++ 0x2b :: s).splitOn 0x2b = m :: s.splitOn 0x2b := by
  refine List.splitOnP_append_cons_of_forall_mem (fun b hb => ?_) 0x2b rfl s
  rw [beq_eq_false_iff_ne]
  rintro rfl
  exact hplus hb

theorem keyTokens_modifier {m s : Bytes} (hplus : 0x2b ∉ m) (htrim : trimBlanks m = m)
    (hne : m ≠ []) (hs : s ≠ []) : keyTokens (m ++ 0x2b :: s) = m :: keyTokens s := by
  have hm : (!m.isEmpty) = true := by simpa using hne
  have hmlength : 0 < m.length := List.length_pos_iff.mpr hne
  have hone : (m ++ 0x2b :: s == [0x2b]) = false := by
    rw [beq_eq_false_iff_ne]
    intro heq
    have := congrArg List.length heq
    simp only [List.length_append, List.length_cons, List.length_nil] at this
    omega
  match s, hs with
  | [c], _ =>
    have hends : endsInPlus (m ++ [0x2b, c]) = endsInPlus [c] := by
      simp [endsInPlus, hone]
    have htake : (m ++ [0x2b, c]).take ((m ++ [0x2b, c]).length - 2) = m := by simp
    have hsplit : m.splitOn 0x2b = [m] := by
      refine List.splitOnP_eq_singleton fun b hb => ?_
      rw [beq_eq_false_iff_ne]
      rintro rfl
      exact hplus hb
    unfold keyTokens
    rw [hends, htake]
    cases endsInPlus [c] with
    | true => simp [hsplit, htrim, hm, show trimBlanks [] = [] from rfl]
    | false => simp [splitOn_modifier hplus, htrim, hm]
  | c :: c' :: s, _ =>
    have hlength : (m ++ 0x2b :: c :: c' :: s).length - 2 = m.length + (s.length + 1) := by
      simp only [List.length_append, List.length_cons]
      omega
    have hslength : (c :: c' :: s).length - 2 = s.length := by simp
    have hdrop : (m ++ 0x2b :: c :: c' :: s).drop (m.length + (s.length + 1))
        = (c :: c' :: s).drop s.length := by
      rw [List.drop_append]
      simp
    have htake : (m ++ 0x2b :: c :: c' :: s).take (m.length + (s.length + 1))
        = m ++ 0x2b :: (c :: c' :: s).take s.length := by
      rw [List.take_append]
      simp
    have hends : endsInPlus (m ++ 0x2b :: c :: c' :: s) = endsInPlus (c :: c' :: s) := by
      unfold endsInPlus
      rw [hone, hlength, hslength, hdrop]
      simp
      omega
    unfold keyTokens
    rw [hends, hlength, hslength, htake]
    cases endsInPlus (c :: c' :: s) with
    | true => simp [splitOn_modifier hplus, htrim, hm]
    | false => simp [splitOn_modifier hplus, htrim, hm]

theorem keyStringToVKs_modifier {m s : Bytes} (hplus : 0x2b ∉ m) (htrim : trimBlanks m = m)
    (hne : m ≠ []) (hnum : (m == lit "Num") = false) (hcode : keyTokenToVK m ≠ 0) (hs : s ≠ []) :
    keyStringToVKs (m ++ 0x2b :: s) = keyTokenToVK m :: keyStringToVKs s := by
  unfold keyStringToVKs
  rw [keyTokens_modifier hplus htrim hne hs, tokensToVKs, hnum]
  simp [hcode]

theorem keyStringToVKs_modifiers {s : Bytes} (hs : s ≠ []) :
    keyStringToVKs (lit "Ctrl+" ++ s) = 17 :: keyStringToVKs s ∧
    keyStringToVKs (lit "Alt+" ++ s) = 18 :: keyStringToVKs s ∧
    keyStringToVKs (lit "Shift+" ++ s) = 16 :: keyStringToVKs s ∧
    keyStringToVKs (lit "Meta+" ++ s) = 91 :: keyStringToVKs s := by
  have hctrl := @keyStringToVKs_modifier (lit "Ctrl") s (by decide) (by decide) (by decide) rfl
    (by decide) hs
  have halt := @keyStringToVKs_modifier (lit "Alt") s (by decide) (by decide) (by decide) rfl
    (by decide) hs
  have hshift := @keyStringToVKs_modifier (lit "Shift") s (by decide) (by decide) (by decide) rfl
    (by decide) hs
  have hmeta := @keyStringToVKs_modifier (lit "Meta") s (by decide) (by decide) (by decide) rfl
    (by decide) hs
  exact ⟨hctrl, halt, hshift, hmeta⟩

theorem keyStringToVKs_text {combo : KeyCombo} (hkey : combo.key ≠ []) :
    keyStringToVKs combo.text = (if combo.ctrl then [17] else []) ++ (if combo.alt then [18] else []) ++
      (if combo.shift then [16] else []) ++ (if combo.metaKey then [91] else []) ++
      keyStringToVKs combo.key := by
  obtain ⟨ctrl, alt, shift, metaKey, key⟩ := combo
  have hempty : key.isEmpty = false := by simpa using hkey
  have hmods : ∀ s : Bytes, s ≠ [] → _ := fun s => @keyStringToVKs_modifiers s
  have happ : ∀ (m : Bytes) {s : Bytes}, s ≠ [] → m ++ s ≠ [] := fun m s hs h => hs (by simp_all)
  have hmeta : keyStringToVKs ((if metaKey then lit "Meta+" else []) ++ key)
      = (if metaKey then [91] else []) ++ keyStringToVKs key := by
    cases metaKey with
    | true => exact (hmods key hkey).2.2.2
    | false => rfl
  have hshift : keyStringToVKs ((if shift then lit "Shift+" else []) ++
        ((if metaKey then lit "Meta+" else []) ++ key))
      = (if shift then [16] else []) ++ ((if metaKey then [91] else []) ++ keyStringToVKs key) := by
    rw [← hmeta]
    cases shift with
    | true => exact (hmods _ (happ _ hkey)).2.2.1
    | false => rfl
  have halt : keyStringToVKs ((if alt then lit "Alt+" else []) ++ ((if shift then lit "Shift+" else []) ++
        ((if metaKey then lit "Meta+" else []) ++ key)))
      = (if alt then [18] else []) ++ ((if shift then [16] else []) ++
        ((if metaKey then [91] else []) ++ keyStringToVKs key)) := by
    rw [← hshift]
    cases alt with
    | true => exact (hmods _ (happ _ (happ _ hkey))).2.1
    | false => rfl
  have htext : KeyCombo.text ⟨ctrl, alt, shift, metaKey, key⟩ = (if ctrl then lit "Ctrl+" else []) ++
      ((if alt then lit "Alt+" else []) ++ ((if shift then lit "Shift+" else []) ++
        ((if metaKey then lit "Meta+" else []) ++ key))) := by
    simp [KeyCombo.text, hempty]
  rw [htext]
  simp only [List.append_assoc]
  rw [← halt]
  cases ctrl with
  | true => exact (hmods _ (happ _ (happ _ (happ _ hkey)))).1
  | false => rfl

theorem modifiers_again : ∀ ctrl alt shift metaKey : Bool,
    vksToKeyString (keyStringToVKs (KeyCombo.text ⟨ctrl, alt, shift, metaKey, []⟩))
      = KeyCombo.text ⟨ctrl, alt, shift, metaKey, []⟩ := by
  decide +kernel

theorem foldl_modifiers (ctrl alt shift metaKey : Bool) :
    (if metaKey then [91] else []).foldl KeyCombo.add ((if shift then [16] else []).foldl KeyCombo.add
      ((if alt then [18] else []).foldl KeyCombo.add
        ((if ctrl then [17] else []).foldl KeyCombo.add {}))) = ⟨ctrl, alt, shift, metaKey, []⟩ := by
  revert ctrl alt shift metaKey
  decide

/-- A key sequence made from a key list is made again from the list it stands for. -/
theorem vksToKeyString_keyStringToVKs (vks : List ℤ) :
    vksToKeyString (keyStringToVKs (vksToKeyString vks)) = vksToKeyString vks := by
  have hkey := @foldl_add_key vks {} (Or.inl rfl)
  show vksToKeyString (keyStringToVKs (KeyCombo.text (vks.foldl KeyCombo.add {}))) = _
  unfold vksToKeyString
  generalize vks.foldl KeyCombo.add {} = combo at hkey ⊢
  rcases hkey with hkey | hkey
  · obtain ⟨ctrl, alt, shift, metaKey, key⟩ := combo
    cases hkey
    exact modifiers_again ctrl alt shift metaKey
  · obtain ⟨vk, hvk, htoken⟩ := keyStringToVKs_key hkey
    unfold comboKeys at hkey
    obtain ⟨-, hplain⟩ := List.mem_filter.mp hkey
    simp only [isModifier, Bool.not_eq_true', Bool.or_eq_false_iff, List.isEmpty_eq_false_iff] at hplain
    obtain ⟨hne, ⟨⟨hctrl, halt⟩, hshift⟩, hmeta⟩ := hplain
    have hadd : ∀ c : KeyCombo, c.key = [] → c.add vk = { c with key := combo.key } := by
      intro c hc
      unfold KeyCombo.add
      rw [htoken]
      simp [hctrl, halt, hshift, hmeta, hne, hc]
    rw [keyStringToVKs_text hne, hvk, List.foldl_append, List.foldl_append, List.foldl_append,
      List.foldl_append, List.foldl_cons, List.foldl_nil, foldl_modifiers, hadd _ rfl]

end CheatEngine.CtFile
