import Mathlib.Data.List.Induction
import CheatEngineLinux.Core.JsonTokens

/-!
# The JSON parser accepts its grammar

`parse` against RFC 8259: the recursion of `parseValue` on the depth, the loops of `parseArray`
and `parseObject` on the elements.

* `parse_eq_some_iff` — **PROVED**: a byte string is parsed exactly when it is a JSON text, at most
  `kMaxDepth` deep and after an optional byte order mark, and the value is the one it denotes.
-/

namespace CheatEngine.Json

open JsonGrammar

/-- What a text denotes: numbers keep their text, of equal keys the last value counts, in the
first one's place. -/
def valueMeaning : Meaning Value where
  null := Value.null
  bool := Value.boolean
  number := Value.numberText
  string := Value.string
  array := Value.ofItems
  object := fun ms => Value.ofMembers (lastWins ms)

theorem assign_lastWins {V : Type*} (ms : List (Bytes × V)) (k : Bytes) (v : V) :
    assign (lastWins ms) k v = lastWins (ms ++ [(k, v)]) := by
  have hlookup : ∀ k', (ms ++ [(k, v)]).reverse.lookup k'
      = if k' = k then some v else ms.reverse.lookup k' := by
    intro k'
    rw [List.reverse_append, List.reverse_singleton, List.singleton_append, List.lookup_cons]
    by_cases h : k' = k
    · simp [h]
    · have hb : (k' == k) = false := by simpa using h
      simp [hb, h]
  have hsome : ∀ k' ∈ firstKeys (ms.map Prod.fst), ∃ u, ms.reverse.lookup k' = some u := by
    intro k' hk'
    refine lookup_isSome ?_
    rw [List.map_reverse, List.mem_reverse]
    exact mem_firstKeys.mp hk'
  have hany : (lastWins ms).any (fun m => m.1 == k) = decide (k ∈ ms.map Prod.fst) := by
    rw [Bool.eq_iff_iff, List.any_eq_true, decide_eq_true_eq]
    constructor
    · rintro ⟨m, hm, hmk⟩
      simp only [lastWins, List.mem_filterMap, Option.map_eq_some_iff] at hm
      obtain ⟨k', hk', u, -, rfl⟩ := hm
      rw [beq_iff_eq] at hmk
      exact hmk ▸ mem_firstKeys.mp hk'
    · intro hk
      obtain ⟨u, hu⟩ := hsome k (mem_firstKeys.mpr hk)
      refine ⟨(k, u), ?_, by simp⟩
      simp only [lastWins, List.mem_filterMap, Option.map_eq_some_iff]
      exact ⟨k, mem_firstKeys.mpr hk, u, hu, rfl⟩
  have hkeys : (ms ++ [(k, v)]).map Prod.fst = ms.map Prod.fst ++ [k] := by simp
  unfold assign
  rw [hany]
  by_cases hk : k ∈ ms.map Prod.fst
  · -- the value changes in its place
    rw [if_pos (by simpa using hk)]
    unfold lastWins
    rw [hkeys, firstKeys_append, if_pos hk, List.map_filterMap]
    refine List.filterMap_congr fun k' hk' => ?_
    rw [hlookup]
    obtain ⟨u, hu⟩ := hsome k' hk'
    rw [hu]
    by_cases h : k' = k <;> simp [h]
  · rw [if_neg (by simpa using hk)]
    unfold lastWins
    rw [hkeys, firstKeys_append, if_neg hk, List.filterMap_append]
    congr 1
    · refine List.filterMap_congr fun k' hk' => ?_
      have hne : k' ≠ k := fun h => hk (h ▸ mem_firstKeys.mp hk')
      rw [hlookup, if_neg hne]
    · rw [List.filterMap_cons, hlookup, if_pos rfl]
      rfl

theorem foldl_assign {V : Type*} (ms : List (Bytes × V)) :
    ms.foldl (fun acc m => assign acc m.1 m.2) [] = lastWins ms := by
  induction ms using List.reverseRecOn with
  | nil => rfl
  | append_singleton ms m ih =>
    rw [List.foldl_append, ih]
    exact assign_lastWins ms m.1 m.2
/-- A parser of values that reads what the grammar has at a depth. -/
def Sound (d : ℕ) (p : Bytes → Option (Value × Bytes)) : Prop :=
  ∀ {s v rest}, p s = some (v, rest) →
    ∃ w t, Ws w ∧ JsonValue valueMeaning d t v ∧ s = w ++ (t ++ rest)

/-- A parser of values that reads all the grammar has at a depth. -/
def Complete (d : ℕ) (p : Bytes → Option (Value × Bytes)) : Prop :=
  ∀ {w t v rest}, Ws w → JsonValue valueMeaning d t v → Follow rest →
    p (w ++ (t ++ rest)) = some (v, rest)

/-! ### Soundness -/

theorem after_item {close : UInt8} {s tail : Bytes} (h : ((skipWs s).head? == some close) = true)
    (htail : (skipWs s).tail = tail) : ∃ w, Ws w ∧ s = w ++ close :: tail := by
  obtain ⟨w, hw, hs⟩ := skipWs_split s
  refine ⟨w, hw, ?_⟩
  rw [head_eq h, htail] at hs
  exact hs

theorem after_comma {s rest : Bytes} (h : consume 0x2c (skipWs s) = some rest) :
    ∃ w, Ws w ∧ s = w ++ 0x2c :: rest := by
  obtain ⟨w, hw, hs⟩ := skipWs_split s
  obtain ⟨w', hw', hs'⟩ := consume_sound h
  exact ⟨w ++ w', hw.append hw', by rw [hs, hs', List.append_assoc]⟩

theorem parseItems_sound {d : ℕ} {p : Bytes → Option (Value × Bytes)} (hp : Sound d p) {fuel : ℕ}
    {items items' : List Value} {s rest : Bytes}
    (h : parseItems p fuel items s = some (items', rest)) :
    ∃ es : List (Element Value), es ≠ [] ∧ (∀ e ∈ es, Ws e.before ∧ Ws e.after) ∧
      (∀ e ∈ es, JsonValue valueMeaning d e.text e.value) ∧
      s = commaSeparated (es.map Element.bytes) ++ 0x5d :: rest ∧
      items' = items ++ es.map Element.value := by
  induction fuel generalizing items s with
  | zero => simp [parseItems] at h
  | succ fuel ih =>
    simp only [parseItems, Option.bind_eq_bind, Option.bind_eq_some_iff, Prod.exists] at h
    obtain ⟨item, s1, hitem, h⟩ := h
    obtain ⟨w, t, hw, ht, rfl⟩ := hp hitem
    split at h
    · next hclose =>
      simp only [Option.some.injEq, Prod.mk.injEq] at h
      obtain ⟨rfl, htail⟩ := h
      obtain ⟨w', hw', rfl⟩ := after_item hclose htail
      exact ⟨[⟨w, t, w', item⟩], by simp, by simp [hw, hw'], by simpa using ht,
        by simp [commaSeparated, Element.bytes], by simp⟩
    · simp only [Option.bind_eq_some_iff] at h
      obtain ⟨s2, hcomma, h⟩ := h
      obtain ⟨w', hw', rfl⟩ := after_comma hcomma
      obtain ⟨es, hne, hws, htexts, rfl, rfl⟩ := ih h
      obtain ⟨e, es', rfl⟩ := List.exists_cons_of_ne_nil hne
      refine ⟨⟨w, t, w', item⟩ :: e :: es', by simp, ?_, ?_, ?_, by simp⟩
      · rw [List.forall_mem_cons]
        exact ⟨⟨hw, hw'⟩, hws⟩
      · rw [List.forall_mem_cons]
        exact ⟨ht, htexts⟩
      · simp [commaSeparated_cons, Element.bytes]

theorem parseArray_sound {d : ℕ} {p : Bytes → Option (Value × Bytes)} (hp : Sound d p)
    {s rest : Bytes} {v : Value} (h : parseArray p s = some (v, rest)) :
    ∃ w t, Ws w ∧ JsonValue valueMeaning (d + 1) t v ∧ s = w ++ (t ++ rest) := by
  simp only [parseArray, Option.bind_eq_bind, Option.bind_eq_some_iff] at h
  obtain ⟨s1, hopen, h⟩ := h
  obtain ⟨w, hw, rfl⟩ := consume_sound hopen
  split at h
  · next hclose =>
    simp only [Option.some.injEq, Prod.mk.injEq] at h
    obtain ⟨rfl, htail⟩ := h
    obtain ⟨w', hw', rfl⟩ := after_item hclose htail
    exact ⟨w, 0x5b :: (w' ++ [0x5d]), hw, JsonValue.emptyArray d w' hw', by simp⟩
  · simp only [Option.bind_eq_some_iff, Prod.exists, Option.some.injEq, Prod.mk.injEq] at h
    obtain ⟨items, s2, hitems, rfl, rfl⟩ := h
    obtain ⟨w', hw', hs1⟩ := skipWs_split s1
    obtain ⟨es, hne, hws, htexts, hs, rfl⟩ := parseItems_sound hp hitems
    obtain ⟨e, es', rfl⟩ := List.exists_cons_of_ne_nil hne
    -- the space before the first element belongs to it
    obtain ⟨before, text, after, value⟩ := e
    obtain ⟨⟨hb, ha⟩, hws'⟩ := List.forall_mem_cons.mp hws
    obtain ⟨ht, htexts'⟩ := List.forall_mem_cons.mp htexts
    have hfirst : ∀ e ∈ (⟨w' ++ before, text, after, value⟩ : Element Value) :: es',
        Ws e.before ∧ Ws e.after := by
      rw [List.forall_mem_cons]
      exact ⟨⟨hw'.append hb, ha⟩, hws'⟩
    have hval := JsonValue.array (D := valueMeaning) d
      ((⟨w' ++ before, text, after, value⟩ : Element Value) :: es') (by simp) hfirst
      (by rw [List.forall_mem_cons]; exact ⟨ht, htexts'⟩)
    refine ⟨w, _, hw, hval, ?_⟩
    rw [hs1, hs]
    cases es' with
    | nil => simp [commaSeparated, Element.bytes]
    | cons e' es'' => simp [commaSeparated_cons, Element.bytes]

theorem parseMembers_sound {d : ℕ} {p : Bytes → Option (Value × Bytes)} (hp : Sound d p) {fuel : ℕ}
    {ms ms' : List (Bytes × Value)} {s rest : Bytes}
    (h : parseMembers p fuel ms s = some (ms', rest)) :
    ∃ es : List (Member Value), es ≠ [] ∧
      (∀ m ∈ es, Ws m.before ∧ Ws m.afterKey ∧ Ws m.element.before ∧ Ws m.element.after) ∧
      (∀ m ∈ es, JsonString m.key m.name) ∧
      (∀ m ∈ es, JsonValue valueMeaning d m.element.text m.element.value) ∧
      s = commaSeparated (es.map Member.bytes) ++ 0x7d :: rest ∧
      ms' = (es.map fun m => (m.name, m.element.value)).foldl (fun acc m => assign acc m.1 m.2) ms := by
  induction fuel generalizing ms s with
  | zero => simp [parseMembers] at h
  | succ fuel ih =>
    simp only [parseMembers, Option.bind_eq_bind, Option.bind_eq_some_iff, Prod.exists] at h
    obtain ⟨name, s1, hkey, s2, hcolon, v, s3, hv, h⟩ := h
    obtain ⟨w, hw, hs⟩ := skipWs_split s
    obtain ⟨key, hstr, hs1⟩ := parseString_sound hkey
    obtain ⟨wk, hwk, rfl⟩ := consume_sound hcolon
    obtain ⟨wb, t, hwb, ht, rfl⟩ := hp hv
    rw [hs1] at hs
    split at h
    · next hclose =>
      simp only [Option.some.injEq, Prod.mk.injEq] at h
      obtain ⟨rfl, htail⟩ := h
      obtain ⟨wa, hwa, rfl⟩ := after_item hclose htail
      exact ⟨[⟨w, key, wk, name, ⟨wb, t, wa, v⟩⟩], by simp, by simp [hw, hwk, hwb, hwa],
        by simpa using hstr, by simpa using ht,
        by simp [hs, commaSeparated, Member.bytes, Element.bytes], by simp⟩
    · simp only [Option.bind_eq_some_iff] at h
      obtain ⟨s4, hcomma, h⟩ := h
      obtain ⟨wa, hwa, rfl⟩ := after_comma hcomma
      obtain ⟨es, hne, hws, hkeys, htexts, rfl, rfl⟩ := ih h
      obtain ⟨e, es', rfl⟩ := List.exists_cons_of_ne_nil hne
      refine ⟨⟨w, key, wk, name, ⟨wb, t, wa, v⟩⟩ :: e :: es', by simp, ?_, ?_, ?_, ?_, by simp⟩
      · rw [List.forall_mem_cons]
        exact ⟨⟨hw, hwk, hwb, hwa⟩, hws⟩
      · rw [List.forall_mem_cons]
        exact ⟨hstr, hkeys⟩
      · rw [List.forall_mem_cons]
        exact ⟨ht, htexts⟩
      · simp [hs, commaSeparated_cons, Member.bytes, Element.bytes]

theorem parseObject_sound {d : ℕ} {p : Bytes → Option (Value × Bytes)} (hp : Sound d p)
    {s rest : Bytes} {v : Value} (h : parseObject p s = some (v, rest)) :
    ∃ w t, Ws w ∧ JsonValue valueMeaning (d + 1) t v ∧ s = w ++ (t ++ rest) := by
  simp only [parseObject, Option.bind_eq_bind, Option.bind_eq_some_iff] at h
  obtain ⟨s1, hopen, h⟩ := h
  obtain ⟨w, hw, rfl⟩ := consume_sound hopen
  split at h
  · next hclose =>
    simp only [Option.some.injEq, Prod.mk.injEq] at h
    obtain ⟨rfl, htail⟩ := h
    obtain ⟨w', hw', rfl⟩ := after_item hclose htail
    exact ⟨w, 0x7b :: (w' ++ [0x7d]), hw, JsonValue.emptyObject d w' hw', by simp⟩
  · simp only [Option.bind_eq_some_iff, Prod.exists, Option.some.injEq, Prod.mk.injEq] at h
    obtain ⟨ms, s2, hms, rfl, rfl⟩ := h
    obtain ⟨w', hw', hs1⟩ := skipWs_split s1
    obtain ⟨es, hne, hws, hkeys, htexts, hs, rfl⟩ := parseMembers_sound hp hms
    obtain ⟨e, es', rfl⟩ := List.exists_cons_of_ne_nil hne
    obtain ⟨before, key, afterKey, name, element⟩ := e
    obtain ⟨⟨hb, hak, heb, hea⟩, hws'⟩ := List.forall_mem_cons.mp hws
    obtain ⟨hk, hkeys'⟩ := List.forall_mem_cons.mp hkeys
    obtain ⟨ht, htexts'⟩ := List.forall_mem_cons.mp htexts
    have hfirst : ∀ m ∈ (⟨w' ++ before, key, afterKey, name, element⟩ : Member Value) :: es',
        Ws m.before ∧ Ws m.afterKey ∧ Ws m.element.before ∧ Ws m.element.after := by
      rw [List.forall_mem_cons]
      exact ⟨⟨hw'.append hb, hak, heb, hea⟩, hws'⟩
    have hval := JsonValue.object (D := valueMeaning) d
      ((⟨w' ++ before, key, afterKey, name, element⟩ : Member Value) :: es') (by simp) hfirst
      (by rw [List.forall_mem_cons]; exact ⟨hk, hkeys'⟩)
      (by rw [List.forall_mem_cons]; exact ⟨ht, htexts'⟩)
    rw [foldl_assign]
    refine ⟨w, _, hw, hval, ?_⟩
    rw [hs1, hs]
    cases es' with
    | nil => simp [commaSeparated, Member.bytes]
    | cons e' es'' => simp [commaSeparated_cons, Member.bytes]

theorem take_drop_eq {s lit : Bytes} {n : ℕ} (h : (s.take n == lit) = true) :
    s = lit ++ s.drop n := by
  rw [← beq_iff_eq.mp h, List.take_append_drop]

theorem parseValue_sound (d : ℕ) : Sound d (parseValue d) := by
  induction d with
  | zero =>
    intro s v rest h
    simp [parseValue] at h
  | succ d ih =>
    intro s v rest h
    obtain ⟨w, hw, hs⟩ := skipWs_split s
    simp only [parseValue] at h
    have hlit : ∀ {lit : Bytes} {n : ℕ} {u : Value}, ((skipWs s).take n == lit) = true →
        JsonValue valueMeaning (d + 1) lit u → some (u, (skipWs s).drop n) = some (v, rest) →
        ∃ w t, Ws w ∧ JsonValue valueMeaning (d + 1) t v ∧ s = w ++ (t ++ rest) := by
      intro lit n u htake hval heq
      simp only [Option.some.injEq, Prod.mk.injEq] at heq
      obtain ⟨rfl, rfl⟩ := heq
      exact ⟨w, lit, hw, hval, by rw [← take_drop_eq htake]; exact hs⟩
    have hnested : (∃ w' t, Ws w' ∧ JsonValue valueMeaning (d + 1) t v ∧
          skipWs s = w' ++ (t ++ rest)) →
        ∃ w t, Ws w ∧ JsonValue valueMeaning (d + 1) t v ∧ s = w ++ (t ++ rest) := by
      rintro ⟨w', t, hw', hval, hskip⟩
      exact ⟨w ++ w', t, hw.append hw', hval, by rw [List.append_assoc, ← hskip]; exact hs⟩
    split at h
    · cases h
    · next c tail hskip =>
      split at h
      · simp only [Option.map_eq_some_iff, Prod.exists, Prod.mk.injEq] at h
        obtain ⟨text, s1, hstr, rfl, rfl⟩ := h
        obtain ⟨t, ht, hs1⟩ := parseString_sound hstr
        exact ⟨w, t, hw, JsonValue.string d t text ht, by rw [← hs1]; exact hs⟩
      · split at h
        · exact hnested (parseObject_sound ih h)
        · split at h
          · exact hnested (parseArray_sound ih h)
          · split at h
            · simp only [Option.map_eq_some_iff, Prod.exists, Prod.mk.injEq] at h
              obtain ⟨text, s1, hnum, rfl, rfl⟩ := h
              obtain ⟨ht, hs1⟩ := parseNumber_sound hnum
              exact ⟨w, text, hw, JsonValue.number d text ht, by rw [← hs1]; exact hs⟩
            · split at h
              · next hlit' => exact hlit hlit' (JsonValue.true d) h
              · split at h
                · next hlit' => exact hlit hlit' (JsonValue.false d) h
                · split at h
                  · next hlit' => exact hlit hlit' (JsonValue.null d) h
                  · cases h

/-! ### Completeness -/

theorem Follow.of_append {w : Bytes} (hw : Ws w) {b : UInt8} (hb : b = 0x2c ∨ b = 0x5d ∨ b = 0x7d)
    (s : Bytes) : Follow (w ++ b :: s) := by
  intro c hc
  cases w with
  | nil =>
    cases hc
    exact Or.inr hb
  | cons a w =>
    cases hc
    exact Or.inl (hw _ (by simp))

theorem commaSeparated_length {xs : List Bytes} : xs.length ≤ (commaSeparated xs).length + 1 := by
  induction xs with
  | nil => simp [commaSeparated]
  | cons x xs ih =>
    cases xs with
    | nil => simp [commaSeparated]
    | cons y ys =>
      rw [commaSeparated_cons, List.length_append, List.length_cons, List.length_cons]
      simp only [List.length_cons] at ih ⊢
      omega

/-- The loop of `parseArray` on elements of the grammar. -/
theorem parseItems_complete {d : ℕ} {p : Bytes → Option (Value × Bytes)} (hp : Complete d p)
    {es : List (Element Value)} (hne : es ≠ []) (hws : ∀ e ∈ es, Ws e.before ∧ Ws e.after)
    (htexts : ∀ e ∈ es, JsonValue valueMeaning d e.text e.value) {fuel : ℕ}
    (hfuel : es.length ≤ fuel) (items : List Value) (rest : Bytes) :
    parseItems p fuel items (commaSeparated (es.map Element.bytes) ++ 0x5d :: rest)
      = some (items ++ es.map Element.value, rest) := by
  induction es generalizing fuel items with
  | nil => exact absurd rfl hne
  | cons e es ih =>
    obtain ⟨⟨hb, ha⟩, hws'⟩ := List.forall_mem_cons.mp hws
    obtain ⟨ht, htexts'⟩ := List.forall_mem_cons.mp htexts
    obtain ⟨fuel, rfl⟩ : ∃ m, fuel = m + 1 := ⟨fuel - 1, by simp at hfuel; omega⟩
    cases es with
    | nil =>
      have hread := hp hb ht (Follow.of_append ha (b := 0x5d) (by simp) rest)
      have hskip := skipWs_append ha (Solid.cons (b := 0x5d) (by decide) rest)
      simp only [List.map_cons, List.map_nil, commaSeparated, Element.bytes, List.append_assoc,
        parseItems, hread, Option.bind_eq_bind, Option.bind_some, hskip]
      simp
    | cons e' es =>
      have hread := hp hb ht (Follow.of_append ha (b := 0x2c) (by simp)
        (commaSeparated ((e' :: es).map Element.bytes) ++ 0x5d :: rest))
      have hskip := skipWs_append ha (Solid.cons (b := 0x2c) (by decide)
        (commaSeparated ((e' :: es).map Element.bytes) ++ 0x5d :: rest))
      have hcomma := consume_complete (b := 0x2c) Ws.nil (by decide)
        (commaSeparated ((e' :: es).map Element.bytes) ++ 0x5d :: rest)
      have hrest := ih (by simp) hws' htexts'
        (show (e' :: es).length ≤ fuel by simpa using hfuel) (items ++ [e.value])
      rw [List.map_cons, List.map_cons, commaSeparated_cons, ← List.map_cons, List.append_assoc,
        List.cons_append]
      simp only [Element.bytes, List.append_assoc] at hread hskip hcomma hrest ⊢
      simp only [parseItems, hread, Option.bind_eq_bind, Option.bind_some, hskip]
      rw [if_neg (by simp), ← List.nil_append (0x2c :: _), hcomma, Option.bind_some, hrest]
      simp

/-- Space in front of the first of some parts can be skipped by itself. -/
theorem commaSeparated_skip (w x : Bytes) (xs : List Bytes) :
    commaSeparated ((w ++ x) :: xs) = w ++ commaSeparated (x :: xs) := by
  cases xs with
  | nil => rfl
  | cons y ys => rw [commaSeparated_cons, commaSeparated_cons, List.append_assoc]

theorem commaSeparated_first (b : UInt8) (x : Bytes) (xs : List Bytes) :
    ∃ tail, commaSeparated ((b :: x) :: xs) = b :: tail := by
  cases xs with
  | nil => exact ⟨x, rfl⟩
  | cons y ys => exact ⟨_, commaSeparated_cons (b :: x) y ys⟩

/-- `skipWs` in front of some elements leaves the same elements, the first without its space. -/
theorem elements_skip {d : ℕ} {es : List (Element Value)} (hne : es ≠ [])
    (hws : ∀ e ∈ es, Ws e.before ∧ Ws e.after)
    (htexts : ∀ e ∈ es, JsonValue valueMeaning d e.text e.value) (s : Bytes) :
    ∃ es' : List (Element Value), es' ≠ [] ∧ (∀ e ∈ es', Ws e.before ∧ Ws e.after) ∧
      (∀ e ∈ es', JsonValue valueMeaning d e.text e.value) ∧
      es'.map Element.value = es.map Element.value ∧
      skipWs (commaSeparated (es.map Element.bytes) ++ s)
        = commaSeparated (es'.map Element.bytes) ++ s ∧
      ∃ b tail, commaSeparated (es'.map Element.bytes) = b :: tail ∧ b ≠ 0x5d := by
  obtain ⟨e, es, rfl⟩ := List.exists_cons_of_ne_nil hne
  obtain ⟨before, text, after, value⟩ := e
  obtain ⟨⟨hb, ha⟩, hws'⟩ := List.forall_mem_cons.mp hws
  obtain ⟨ht, htexts'⟩ := List.forall_mem_cons.mp htexts
  obtain ⟨c, t, rfl, hfirst⟩ : ∃ c t, text = c :: t ∧ firstBytes c = true := ht.first
  have hc : c ≠ 0x5d := fun h => by rw [h] at hfirst; exact absurd hfirst (by decide)
  obtain ⟨tail, htail⟩ := commaSeparated_first c (t ++ after) (es.map Element.bytes)
  refine ⟨⟨[], c :: t, after, value⟩ :: es, by simp, ?_, ?_, rfl, ?_, c, tail, htail, hc⟩
  · rw [List.forall_mem_cons]
    exact ⟨⟨Ws.nil, ha⟩, hws'⟩
  · rw [List.forall_mem_cons]
    exact ⟨ht, htexts'⟩
  · simp only [List.map_cons, Element.bytes, List.nil_append, List.cons_append]
    rw [commaSeparated_skip, List.append_assoc, htail]
    exact skipWs_append hb (Solid.cons (firstBytes_not_ws hfirst) _)

theorem parts_fuel {α : Type*} (bytes : α → Bytes) (es : List α) (b : UInt8) (rest : Bytes) :
    es.length ≤ (commaSeparated (es.map bytes) ++ b :: rest).length := by
  have hlen := @commaSeparated_length (es.map bytes)
  rw [List.length_map] at hlen
  rw [List.length_append, List.length_cons]
  omega

theorem consume_first {b : UInt8} (hb : isWs b = false) (rest : Bytes) :
    consume b (b :: rest) = some rest :=
  consume_complete Ws.nil hb rest

theorem parseArray_complete {d : ℕ} {p : Bytes → Option (Value × Bytes)} (hp : Complete d p)
    {es : List (Element Value)} (hne : es ≠ []) (hws : ∀ e ∈ es, Ws e.before ∧ Ws e.after)
    (htexts : ∀ e ∈ es, JsonValue valueMeaning d e.text e.value) (rest : Bytes) :
    parseArray p (0x5b :: (commaSeparated (es.map Element.bytes) ++ 0x5d :: rest))
      = some (Value.ofItems (es.map Element.value), rest) := by
  obtain ⟨es', hne', hws', htexts', hvalues, hskip, b, tail, hfirst, hb⟩ :=
    elements_skip hne hws htexts (0x5d :: rest)
  have hitems := parseItems_complete hp hne' hws' htexts'
    (parts_fuel Element.bytes es' 0x5d rest) [] rest
  simp only [parseArray, consume_first (b := 0x5b) (by decide), Option.bind_eq_bind,
    Option.bind_some, hskip]
  rw [if_neg (by rw [hfirst]; simpa using hb), hitems]
  simp [hvalues]

theorem parseArray_empty (p : Bytes → Option (Value × Bytes)) {w : Bytes} (hw : Ws w)
    (rest : Bytes) : parseArray p (0x5b :: (w ++ 0x5d :: rest)) = some (Value.ofItems [], rest) := by
  simp only [parseArray, consume_first (b := 0x5b) (by decide), Option.bind_eq_bind,
    Option.bind_some, skipWs_append hw (Solid.cons (b := 0x5d) (by decide) rest)]
  simp

/-- The loop of `parseObject` on members of the grammar. -/
theorem parseMembers_complete {d : ℕ} {p : Bytes → Option (Value × Bytes)} (hp : Complete d p)
    {es : List (Member Value)} (hne : es ≠ [])
    (hws : ∀ m ∈ es, Ws m.before ∧ Ws m.afterKey ∧ Ws m.element.before ∧ Ws m.element.after)
    (hkeys : ∀ m ∈ es, JsonString m.key m.name)
    (htexts : ∀ m ∈ es, JsonValue valueMeaning d m.element.text m.element.value) {fuel : ℕ}
    (hfuel : es.length ≤ fuel) (ms : List (Bytes × Value)) (rest : Bytes) :
    parseMembers p fuel ms (commaSeparated (es.map Member.bytes) ++ 0x7d :: rest)
      = some ((es.map fun m => (m.name, m.element.value)).foldl
          (fun acc m => assign acc m.1 m.2) ms, rest) := by
  induction es generalizing fuel ms with
  | nil => exact absurd rfl hne
  | cons e es ih =>
    obtain ⟨⟨hb, hak, heb, hea⟩, hws'⟩ := List.forall_mem_cons.mp hws
    obtain ⟨hk, hkeys'⟩ := List.forall_mem_cons.mp hkeys
    obtain ⟨ht, htexts'⟩ := List.forall_mem_cons.mp htexts
    obtain ⟨fuel, rfl⟩ : ∃ m, fuel = m + 1 := ⟨fuel - 1, by simp at hfuel; omega⟩
    -- one member, then whatever ends it
    have hread : ∀ (b : UInt8) (s : Bytes), b = 0x2c ∨ b = 0x5d ∨ b = 0x7d →
        parseMembers p (fuel + 1) ms (e.bytes ++ b :: s)
          = if b = 0x7d then some (assign ms e.name e.element.value, s)
            else (consume 0x2c (b :: s)).bind
              (parseMembers p fuel (assign ms e.name e.element.value)) := by
      intro b s hbs
      have hbws : isWs b = false := by rcases hbs with rfl | rfl | rfl <;> decide
      have hvalue := hp heb ht (Follow.of_append hea hbs s)
      have hkey := parseString_complete hk (e.afterKey ++ 0x3a :: (e.element.before ++
        (e.element.text ++ (e.element.after ++ b :: s))))
      have hcolon := consume_complete (b := 0x3a) hak (by decide) (e.element.before ++
        (e.element.text ++ (e.element.after ++ b :: s)))
      have hsolid : Solid (e.key ++ (e.afterKey ++ 0x3a :: (e.element.before ++
          (e.element.text ++ (e.element.after ++ b :: s))))) := by
        obtain ⟨parts, -, hkeytext, -⟩ := hk
        rw [hkeytext]
        exact Solid.cons (by decide) _
      simp only [Member.bytes, Element.bytes, List.append_assoc, List.cons_append, parseMembers,
        skipWs_append hb hsolid, hkey, hcolon, hvalue, Option.bind_eq_bind, Option.bind_some,
        skipWs_append hea (Solid.cons hbws s), List.head?_cons, List.tail_cons, beq_iff_eq,
        Option.some.injEq]
    cases es with
    | nil =>
      rw [List.map_cons, List.map_nil, commaSeparated, hread 0x7d rest (by simp), if_pos rfl]
      rfl
    | cons e' es =>
      have hrest := ih (by simp) hws' hkeys' htexts'
        (show (e' :: es).length ≤ fuel by simpa using hfuel) (assign ms e.name e.element.value)
      rw [List.map_cons, List.map_cons, commaSeparated_cons, ← List.map_cons, List.append_assoc,
        List.cons_append, hread 0x2c _ (by simp), if_neg (by decide),
        consume_first (by decide), Option.bind_some, hrest]
      rfl

/-- `skipWs` in front of some members leaves the same members, the first without its space. -/
theorem members_skip {d : ℕ} {es : List (Member Value)} (hne : es ≠ [])
    (hws : ∀ m ∈ es, Ws m.before ∧ Ws m.afterKey ∧ Ws m.element.before ∧ Ws m.element.after)
    (hkeys : ∀ m ∈ es, JsonString m.key m.name)
    (htexts : ∀ m ∈ es, JsonValue valueMeaning d m.element.text m.element.value) (s : Bytes) :
    ∃ es' : List (Member Value), es' ≠ [] ∧
      (∀ m ∈ es', Ws m.before ∧ Ws m.afterKey ∧ Ws m.element.before ∧ Ws m.element.after) ∧
      (∀ m ∈ es', JsonString m.key m.name) ∧
      (∀ m ∈ es', JsonValue valueMeaning d m.element.text m.element.value) ∧
      (es'.map fun m => (m.name, m.element.value)) = (es.map fun m => (m.name, m.element.value)) ∧
      skipWs (commaSeparated (es.map Member.bytes) ++ s)
        = commaSeparated (es'.map Member.bytes) ++ s ∧
      ∃ tail, commaSeparated (es'.map Member.bytes) = 0x22 :: tail := by
  obtain ⟨e, es, rfl⟩ := List.exists_cons_of_ne_nil hne
  obtain ⟨before, key, afterKey, name, element⟩ := e
  obtain ⟨⟨hb, hrest⟩, hws'⟩ := List.forall_mem_cons.mp hws
  obtain ⟨hk, hkeys'⟩ := List.forall_mem_cons.mp hkeys
  obtain ⟨k, rfl⟩ : ∃ k, key = 0x22 :: k := by
    obtain ⟨parts, -, hkeytext, -⟩ := hk
    exact ⟨_, hkeytext⟩
  obtain ⟨tail, htail⟩ := commaSeparated_first 0x22 (k ++ (afterKey ++ 0x3a :: element.bytes))
    (es.map Member.bytes)
  refine ⟨⟨[], 0x22 :: k, afterKey, name, element⟩ :: es, by simp, ?_, ?_, ?_, rfl, ?_, tail, htail⟩
  · rw [List.forall_mem_cons]
    exact ⟨⟨Ws.nil, hrest⟩, hws'⟩
  · rw [List.forall_mem_cons]
    exact ⟨hk, hkeys'⟩
  · rw [List.forall_mem_cons]
    exact List.forall_mem_cons.mp htexts
  · simp only [List.map_cons, Member.bytes, List.nil_append, List.cons_append]
    rw [commaSeparated_skip, List.append_assoc, htail]
    exact skipWs_append hb (Solid.cons (by decide) _)

theorem parseObject_complete {d : ℕ} {p : Bytes → Option (Value × Bytes)} (hp : Complete d p)
    {es : List (Member Value)} (hne : es ≠ [])
    (hws : ∀ m ∈ es, Ws m.before ∧ Ws m.afterKey ∧ Ws m.element.before ∧ Ws m.element.after)
    (hkeys : ∀ m ∈ es, JsonString m.key m.name)
    (htexts : ∀ m ∈ es, JsonValue valueMeaning d m.element.text m.element.value)
    (rest : Bytes) :
    parseObject p (0x7b :: (commaSeparated (es.map Member.bytes) ++ 0x7d :: rest))
      = some (valueMeaning.object (es.map fun m => (m.name, m.element.value)), rest) := by
  obtain ⟨es', hne', hws', hkeys', htexts', hvalues, hskip, tail, hfirst⟩ :=
    members_skip hne hws hkeys htexts (0x7d :: rest)
  have hmembers := parseMembers_complete hp hne' hws' hkeys' htexts'
    (parts_fuel Member.bytes es' 0x7d rest) [] rest
  simp only [parseObject, consume_first (b := 0x7b) (by decide), Option.bind_eq_bind,
    Option.bind_some, hskip]
  rw [if_neg (by rw [hfirst]; simp), hmembers, hvalues, foldl_assign]
  rfl

theorem parseObject_empty (p : Bytes → Option (Value × Bytes)) {w : Bytes} (hw : Ws w)
    (rest : Bytes) :
    parseObject p (0x7b :: (w ++ 0x7d :: rest)) = some (Value.ofMembers [], rest) := by
  simp only [parseObject, consume_first (b := 0x7b) (by decide), Option.bind_eq_bind,
    Option.bind_some, skipWs_append hw (Solid.cons (b := 0x7d) (by decide) rest)]
  simp

theorem parseValue_complete (d : ℕ) : Complete d (parseValue d) := by
  induction d with
  | zero =>
    intro w t v rest _ ht
    cases ht
  | succ d ih =>
    intro w t v rest hw ht hrest
    have hskip := skipWs_append hw (Solid.value ht rest)
    simp only [parseValue, hskip]
    cases ht with
    | null => simp [isDigit, valueMeaning]
    | true => simp [isDigit, valueMeaning]
    | false => simp [isDigit, valueMeaning]
    | number _ t hnum =>
      have hparse := parseNumber_complete hnum hrest.numberEnd
      obtain ⟨b, t', rfl, hb⟩ := hnum.first
      have h1 : b ≠ 0x22 := by rcases hb with rfl | hb; decide; rintro rfl; exact absurd hb (by decide)
      have h2 : b ≠ 0x7b := by rcases hb with rfl | hb; decide; rintro rfl; exact absurd hb (by decide)
      have h3 : b ≠ 0x5b := by rcases hb with rfl | hb; decide; rintro rfl; exact absurd hb (by decide)
      simp only [List.cons_append] at hparse ⊢
      rw [if_neg (by simpa using h1), if_neg (by simpa using h2), if_neg (by simpa using h3),
        if_pos (by simpa using hb), hparse]
      rfl
    | string _ t chars hstr =>
      have hparse := parseString_complete hstr rest
      obtain ⟨parts, -, rfl, -⟩ := hstr
      simp only [List.cons_append] at hparse ⊢
      rw [if_pos (by simp), hparse]
      rfl
    | emptyArray _ w' hw' =>
      have hparse := parseArray_empty (parseValue d) hw' rest
      simp only [List.cons_append, List.append_assoc, List.nil_append]
      rw [if_neg (by decide), if_neg (by decide), if_pos (by decide), hparse]
      rfl
    | array _ es hne hws htexts =>
      have hparse := parseArray_complete ih hne hws htexts rest
      simp only [List.cons_append, List.append_assoc, List.nil_append]
      rw [if_neg (by decide), if_neg (by decide), if_pos (by decide), hparse]
      rfl
    | emptyObject _ w' hw' =>
      have hparse := parseObject_empty (parseValue d) hw' rest
      simp only [List.cons_append, List.append_assoc, List.nil_append]
      rw [if_neg (by decide), if_pos (by decide), hparse]
      rfl
    | object _ es hne hws hkeys htexts =>
      have hparse := parseObject_complete ih hne hws hkeys htexts rest
      simp only [List.cons_append, List.append_assoc, List.nil_append]
      rw [if_neg (by decide), if_pos (by decide), hparse]

/-! ### Documents -/

/-- The document after an optional byte order mark. -/
def afterBom (input : Bytes) : Bytes :=
  if input.take 3 == [0xef, 0xbb, 0xbf] then input.drop 3 else input

theorem parse_afterBom_iff (input : Bytes) (v : Value) :
    parse input = some v ↔ JsonText valueMeaning kMaxDepth (afterBom input) v := by
  have hparse : parse input = (parseValue kMaxDepth (skipWs (afterBom input))).bind fun r =>
      if (skipWs r.2).isEmpty then some r.1 else none := rfl
  rw [hparse]
  constructor
  · intro h
    simp only [Option.bind_eq_some_iff, Prod.exists] at h
    obtain ⟨u, s, hvalue, h⟩ := h
    split at h
    · next hend =>
      cases h
      obtain ⟨w, hw, hs⟩ := skipWs_split (afterBom input)
      obtain ⟨w1, t, hw1, ht, hs1⟩ := parseValue_sound kMaxDepth hvalue
      obtain ⟨w2, hw2, hs2⟩ := skipWs_split s
      rw [List.isEmpty_iff.mp hend, List.append_nil] at hs2
      refine ⟨w ++ w1, t, w2, hw.append hw1, hw2, ht, ?_⟩
      rw [hs, hs1, hs2, List.append_assoc]
    · cases h
  · rintro ⟨w, t, w', hw, hw', ht, hs⟩
    have hfollow : Follow w' := by
      intro b hb
      exact Or.inl (hw' b (List.mem_of_mem_head? hb))
    have hskip := skipWs_append hw (Solid.value ht w')
    have hread := parseValue_complete kMaxDepth (w := []) Ws.nil ht hfollow
    have hend : skipWs w' = [] := by
      simpa using skipWs_append (s := []) hw' (fun _ h => by simp at h)
    rw [hs, hskip, ← List.nil_append (t ++ w'), hread, Option.bind_some, hend]
    rfl

theorem JsonText.first {D : Meaning Value} {d : ℕ} {s : Bytes} {v : Value}
    (h : JsonText D d s v) : s.head? ≠ some 0xef := by
  obtain ⟨w, t, w', hw, -, ht, rfl⟩ := h
  obtain ⟨b, t', rfl, hb⟩ := ht.first
  cases w with
  | nil =>
    intro heq
    cases heq
    exact absurd hb (by decide)
  | cons c w =>
    intro heq
    cases heq
    exact absurd (hw 0xef (by simp)) (by decide)

/-- `parse` reads the JSON texts, as what they denote. -/
theorem parse_eq_some_iff (input : Bytes) (v : Value) :
    parse input = some v ↔ ∃ bom text, (bom = [] ∨ bom = [0xef, 0xbb, 0xbf]) ∧
      input = bom ++ text ∧ JsonText valueMeaning 128 text v := by
  rw [parse_afterBom_iff]
  constructor
  · intro h
    unfold afterBom at h
    split at h
    · next hbom => exact ⟨_, _, Or.inr rfl, take_drop_eq hbom, h⟩
    · exact ⟨[], input, Or.inl rfl, rfl, h⟩
  · rintro ⟨bom, text, hbom, rfl, htext⟩
    rcases hbom with rfl | rfl
    · have hne : ¬ (([] ++ text : Bytes).take 3 == [0xef, 0xbb, 0xbf]) = true := by
        intro heq
        have hsplit := take_drop_eq heq
        rw [List.nil_append] at hsplit
        exact JsonText.first htext (by rw [hsplit]; rfl)
      unfold afterBom
      rw [if_neg hne]
      exact htext
    · exact htext

end CheatEngine.Json
