import CheatEngineLinux.Core.TableJson

/-!
# Saved tables load as they were

The document around the records, and the protected file around the document.

* `parse_tableText` — **PROVED**: the text is a JSON text for the object of the table;
* `table_round_trip` — **PROVED**: what is written loads as the table, from JSON and from a
  protected file with the same password.
-/

namespace CheatEngine.CtFile

open JsonGrammar
open Json (Value valueMeaning)

/-! ### The lists -/

/-- A new line and two levels of indent. -/
def rowStart : Bytes := [0x0a, 0x20, 0x20, 0x20, 0x20]

def rowsEnd : Bytes := [0x0a, 0x20, 0x20]

theorem ws_rowStart : Ws rowStart := by
  intro b hb
  simp only [rowStart, List.mem_cons, List.not_mem_nil, or_false] at hb
  rcases hb with rfl | rfl | rfl | rfl | rfl <;> rfl

theorem ws_rowsEnd : Ws rowsEnd := by
  intro b hb
  simp only [rowsEnd, List.mem_cons, List.not_mem_nil, or_false] at hb
  rcases hb with rfl | rfl | rfl <;> rfl

def rowElements (f : Value → Value) : List Value → List (Element Value)
  | [] => []
  | [v] => [⟨rowStart, Json.write v, rowsEnd, f v⟩]
  | v :: w :: vs => ⟨rowStart, Json.write v, [], f v⟩ :: rowElements f (w :: vs)

theorem lit_indent : lit "    " = [0x20, 0x20, 0x20, 0x20] := by decide
theorem lit_newline : lit "\n" = [0x0a] := by decide
theorem lit_comma : lit ",\n" = [0x2c, 0x0a] := by decide

theorem rows_eq (f : Value → Value) {vs : List Value} (hne : vs ≠ []) :
    0x0a :: (rows (vs.map Json.write) ++ [0x20, 0x20])
      = commaSeparated ((rowElements f vs).map Element.bytes) := by
  induction vs with
  | nil => exact absurd rfl hne
  | cons v vs ih =>
    cases vs with
    | nil =>
      simp [rows, rowElements, commaSeparated, Element.bytes, rowStart, rowsEnd, lit_indent,
        lit_newline]
    | cons w vs =>
      have hne' : (rowElements f (w :: vs)).map Element.bytes ≠ [] := by
        cases vs <;> simp [rowElements]
      obtain ⟨x, xs, hx⟩ := List.exists_cons_of_ne_nil hne'
      have ih' := ih (by simp)
      rw [hx] at ih'
      rw [rowElements, List.map_cons (f := Element.bytes), hx, commaSeparated_cons, ← ih']
      simp [rows, Element.bytes, rowStart, lit_indent, lit_comma]

theorem rowElements_spec (f : Value → Value) (vs : List Value) :
    (∀ e ∈ rowElements f vs, Ws e.before ∧ Ws e.after) ∧
    (∀ e ∈ rowElements f vs, ∃ v ∈ vs, e.value = f v ∧ e.text = Json.write v) ∧
    (rowElements f vs).map Element.value = vs.map f := by
  induction vs with
  | nil => simp [rowElements]
  | cons v vs ih =>
    cases vs with
    | nil => simp [rowElements, ws_rowStart, ws_rowsEnd]
    | cons w vs =>
      obtain ⟨h1, h2, h3⟩ := ih
      refine ⟨?_, ?_, ?_⟩
      · rw [rowElements, List.forall_mem_cons]
        exact ⟨⟨ws_rowStart, Ws.nil⟩, h1⟩
      · rw [rowElements, List.forall_mem_cons]
        refine ⟨⟨v, by simp, rfl, rfl⟩, fun e he => ?_⟩
        obtain ⟨x, hx, hvalue⟩ := h2 e he
        exact ⟨x, List.mem_cons_of_mem _ hx, hvalue⟩
      · rw [rowElements, List.map_cons, h3, List.map_cons (l := w :: vs)]

def listText (vs : List Value) : Bytes :=
  0x5b :: 0x0a :: (rows (vs.map Json.write) ++ [0x20, 0x20, 0x5d])

theorem jsonValue_listText {d : ℕ} {vs : List Value} (h : ∀ v ∈ vs, Spells d v) :
    JsonValue valueMeaning (d + 1) (listText vs) (Value.ofItems (vs.map (Value.mapStrings Json.repair))) := by
  by_cases hne : vs = []
  · subst hne
    have hws : Ws [0x0a, 0x20, 0x20] := ws_rowsEnd
    exact JsonValue.emptyArray d _ hws
  · obtain ⟨hws, htexts, hvalues⟩ := rowElements_spec (Value.mapStrings Json.repair) vs
    have hne' : rowElements (Value.mapStrings Json.repair) vs ≠ [] := by
      intro heq
      rw [heq] at hvalues
      exact hne (List.map_eq_nil_iff.mp hvalues.symm)
    have hval := JsonValue.array (D := valueMeaning) d (rowElements (Value.mapStrings Json.repair) vs) hne' hws
      (fun e he => by
        obtain ⟨v, hmem, hvalue, htext⟩ := htexts e he
        rw [htext, hvalue]
        exact h v hmem)
    rw [hvalues, ← rows_eq _ hne] at hval
    have htext : listText vs = 0x5b :: (0x0a :: (rows (vs.map Json.write) ++ [0x20, 0x20]) ++ [0x5d]) := by
      simp [listText]
    rw [htext]
    exact hval

/-! ### The document -/

def rootFields (t : CheatTable) : List (String × Option Value) :=
  [("game", some (Value.string t.gameName)),
    ("version", some (Value.string t.gameVersion)),
    ("author", some (Value.string t.author)),
    ("comment", some (Value.string t.comment)),
    ("luaScript", some (Value.string t.luaScript)),
    ("rawFormsXml", some (Value.string t.rawFormsXml)),
    ("rawSectionsXml", some (Value.string t.rawSectionsXml)),
    ("structures", some (Value.ofItems (t.structures.map structureValue))),
    ("disassemblerComments", some (Value.ofItems (t.disassemblerComments.map commentValue))),
    ("entries", some (Value.ofItems (t.entries.map entryValue)))]

def rootValue (t : CheatTable) : Value := Value.ofMembers (present (rootFields t))

def rootKeys : List String :=
  ["game", "version", "author", "comment", "luaScript", "rawFormsXml", "rawSectionsXml",
    "structures", "disassemblerComments", "entries"]

theorem rootKeys_names : FieldNames rootKeys := ⟨by decide, by decide +kernel⟩

def lineMember (key : String) (text : Bytes) (v : Value) (after : Bytes) : Member Value :=
  ⟨[0x0a, 0x20, 0x20], 0x22 :: (lit key ++ [0x22]), [], lit key, ⟨[0x20], text, after, v⟩⟩

/-- A table with its texts as they read from JSON. -/
def CheatTable.repaired (t : CheatTable) : CheatTable where
  gameName := Json.repair t.gameName
  gameVersion := Json.repair t.gameVersion
  author := Json.repair t.author
  comment := Json.repair t.comment
  luaScript := Json.repair t.luaScript
  rawFormsXml := Json.repair t.rawFormsXml
  rawSectionsXml := Json.repair t.rawSectionsXml
  structures := t.structures.map StructureDefinition.repaired
  disassemblerComments := t.disassemblerComments.map DisassemblerComment.repaired
  entries := t.entries.map CheatEntry.repaired

def tableMembers (t : CheatTable) : List (Member Value) :=
  [lineMember "game" (Json.quote t.gameName) (Value.string t.repaired.gameName) [],
    lineMember "version" (Json.quote t.gameVersion) (Value.string t.repaired.gameVersion) [],
    lineMember "author" (Json.quote t.author) (Value.string t.repaired.author) [],
    lineMember "comment" (Json.quote t.comment) (Value.string t.repaired.comment) [],
    lineMember "luaScript" (Json.quote t.luaScript) (Value.string t.repaired.luaScript) [],
    lineMember "rawFormsXml" (Json.quote t.rawFormsXml) (Value.string t.repaired.rawFormsXml) [],
    lineMember "rawSectionsXml" (Json.quote t.rawSectionsXml) (Value.string t.repaired.rawSectionsXml) [],
    lineMember "structures" (listText (t.structures.map structureValue))
      (Value.ofItems (t.repaired.structures.map structureValue)) [],
    lineMember "disassemblerComments"
      (Json.write (Value.ofItems (t.disassemblerComments.map commentValue)))
      (Value.ofItems (t.repaired.disassemblerComments.map commentValue)) [],
    lineMember "entries" (listText (t.entries.map entryValue))
      (Value.ofItems (t.repaired.entries.map entryValue)) [0x0a]]

theorem tableText_eq (t : CheatTable) :
    tableText t = 0x7b :: (commaSeparated ((tableMembers t).map Member.bytes) ++ [0x7d]) ++ [0x0a] := by
  have h1 : lit "\x7b\n" = [0x7b, 0x0a] := by decide
  have h2 : lit "  \"" = [0x20, 0x20, 0x22] := by decide
  have h3 : lit "\": \"" = [0x22, 0x3a, 0x20, 0x22] := by decide
  have h4 : lit "\",\n" = [0x22, 0x2c, 0x0a] := by decide
  have h5 : lit "  \"structures\": [\n"
      = [0x20, 0x20, 0x22] ++ lit "structures" ++ [0x22, 0x3a, 0x20, 0x5b, 0x0a] := by
    decide
  have h6 : lit "  ],\n" = [0x20, 0x20, 0x5d, 0x2c, 0x0a] := by decide
  have h7 : lit "  \"disassemblerComments\": "
      = [0x20, 0x20, 0x22] ++ lit "disassemblerComments" ++ [0x22, 0x3a, 0x20] := by decide
  have h8 : lit "  \"entries\": [\n"
      = [0x20, 0x20, 0x22] ++ lit "entries" ++ [0x22, 0x3a, 0x20, 0x5b, 0x0a] := by decide
  have h9 : lit "  ]\n\x7d\n" = [0x20, 0x20, 0x5d, 0x0a, 0x7d, 0x0a] := by decide
  have hs : (t.structures.map structureValue).map Json.write
      = t.structures.map fun s => Json.write (structureValue s) := by rw [List.map_map]; rfl
  have he : (t.entries.map entryValue).map Json.write
      = t.entries.map fun e => Json.write (entryValue e) := by rw [List.map_map]; rfl
  simp only [tableText, stringLine, h1, h2, h3, h4, h5, h6, h7, h8, h9, lit_comma, tableMembers,
    lineMember, List.map_cons, List.map_nil, commaSeparated, Member.bytes, Element.bytes, Json.quote,
    listText, hs, he, List.append_assoc, List.cons_append, List.nil_append, List.append_nil]

/-- A table that can be read back. -/
structure CheatTable.Writable (t : CheatTable) : Prop where
  texts : ∀ s ∈ [t.gameName, t.gameVersion, t.author, t.comment, t.luaScript, t.rawFormsXml,
    t.rawSectionsXml], Utf8.Valid s
  structures : ∀ s ∈ t.structures, ∀ text ∈ s.texts, Utf8.Valid text
  comments : ∀ c ∈ t.disassemblerComments, (∀ text ∈ c.texts, Utf8.Valid text) ∧ c.address ≠ []
  entries : ∀ e ∈ t.entries, e.Writable

theorem jsonString_key {key : String} (h : Json.escape (lit key) = lit key)
    (h' : Json.repair (lit key) = lit key) :
    JsonString (0x22 :: (lit key ++ [0x22])) (lit key) := by
  have := Json.jsonString_quote (lit key)
  rw [h', Json.quote, h] at this
  exact this

theorem rootKeys_escape : ∀ key ∈ rootKeys, Json.escape (lit key) = lit key := by decide

theorem map_repaired {β : Type} {value : β → Value} {repaired : β → β}
    (h : ∀ x, (value x).mapStrings Json.repair = value (repaired x)) (l : List β) :
    (l.map value).map (Value.mapStrings Json.repair) = (l.map repaired).map value := by
  rw [List.map_map, List.map_map]
  exact List.map_congr_left fun x _ => h x

theorem parse_tableText (t : CheatTable) : Json.parse (tableText t) = some (rootValue t.repaired) := by
  have hquote : ∀ s : Bytes, JsonValue valueMeaning 5 (Json.quote s) (Value.string (Json.repair s)) :=
    fun s => Spells.string s 4
  have hstructures : JsonValue valueMeaning 5 (listText (t.structures.map structureValue))
      (Value.ofItems (t.repaired.structures.map structureValue)) := by
    have hspells : ∀ v ∈ t.structures.map structureValue, Spells 4 v := fun v hv => by
      obtain ⟨s, -, rfl⟩ := List.mem_map.mp hv
      exact spells_structureValue s
    have hlist := jsonValue_listText hspells
    rwa [map_repaired mapStrings_structureValue] at hlist
  have hcomments : JsonValue valueMeaning 5
      (Json.write (Value.ofItems (t.disassemblerComments.map commentValue)))
      (Value.ofItems (t.repaired.disassemblerComments.map commentValue)) := by
    have hlist : Spells 3 (Value.ofItems (t.disassemblerComments.map commentValue)) := Spells.items fun v hv => by
      obtain ⟨c, -, rfl⟩ := List.mem_map.mp hv
      exact spells_commentValue c
    unfold Spells at hlist
    rw [mapStrings_ofItems, map_repaired mapStrings_commentValue] at hlist
    exact JsonValue.mono hlist (by decide)
  have hentries : JsonValue valueMeaning 5 (listText (t.entries.map entryValue))
      (Value.ofItems (t.repaired.entries.map entryValue)) := by
    have hspells : ∀ v ∈ t.entries.map entryValue, Spells 3 v := fun v hv => by
      obtain ⟨e, -, rfl⟩ := List.mem_map.mp hv
      exact spells_entryValue e
    have hlist := jsonValue_listText hspells
    rw [map_repaired mapStrings_entryValue] at hlist
    exact JsonValue.mono hlist (by decide)
  have hline : ∀ m ∈ tableMembers t, ∃ key ∈ rootKeys, ∃ text v after,
      m = lineMember key text v after ∧ Ws after ∧ JsonValue valueMeaning 5 text v := by
    have hnewline : Ws [0x0a] := by
      intro b hb
      rw [List.mem_singleton.mp hb]
      rfl
    simp only [tableMembers, List.forall_mem_cons, List.not_mem_nil, false_implies, implies_true,
      and_true]
    exact ⟨⟨_, by simp [rootKeys], _, _, _, rfl, Ws.nil, hquote _⟩,
      ⟨_, by simp [rootKeys], _, _, _, rfl, Ws.nil, hquote _⟩,
      ⟨_, by simp [rootKeys], _, _, _, rfl, Ws.nil, hquote _⟩,
      ⟨_, by simp [rootKeys], _, _, _, rfl, Ws.nil, hquote _⟩,
      ⟨_, by simp [rootKeys], _, _, _, rfl, Ws.nil, hquote _⟩,
      ⟨_, by simp [rootKeys], _, _, _, rfl, Ws.nil, hquote _⟩,
      ⟨_, by simp [rootKeys], _, _, _, rfl, Ws.nil, hquote _⟩,
      ⟨_, by simp [rootKeys], _, _, _, rfl, Ws.nil, hstructures⟩,
      ⟨_, by simp [rootKeys], _, _, _, rfl, Ws.nil, hcomments⟩,
      ⟨_, by simp [rootKeys], _, _, _, rfl, hnewline, hentries⟩⟩
  have hspace : Ws [0x20] := by
    intro b hb
    rw [List.mem_singleton.mp hb]
    rfl
  have hval := JsonValue.object (D := valueMeaning) 5 (tableMembers t) (by simp [tableMembers])
    (fun m hm => by
      obtain ⟨key, -, text, v, after, rfl, hafter, -⟩ := hline m hm
      exact ⟨ws_rowsEnd, Ws.nil, hspace, hafter⟩)
    (fun m hm => by
      obtain ⟨key, hkey, text, v, after, rfl, -, -⟩ := hline m hm
      exact jsonString_key (rootKeys_escape key hkey)
        (rootKeys_names.plain _ (List.mem_map_of_mem hkey)))
    (fun m hm => by
      obtain ⟨key, -, text, v, after, rfl, -, hvalue⟩ := hline m hm
      exact hvalue)
  have hmembers : ((tableMembers t).map fun m => (m.name, m.element.value))
      = present (rootFields t.repaired) := rfl
  have hnodup : ((present (rootFields t.repaired)).map Prod.fst).Nodup := by
    refine (present_sublist (rootFields t.repaired)).nodup ?_
    exact rootKeys_names.nodup
  have hroot : valueMeaning.object ((tableMembers t).map fun m => (m.name, m.element.value))
      = rootValue t.repaired := by
    show Value.ofMembers (lastWins _) = rootValue t.repaired
    rw [hmembers, Json.lastWins_of_nodup hnodup]
    rfl
  rw [hroot] at hval
  have hdeep := JsonValue.mono hval (show 6 ≤ Json.kMaxDepth by decide)
  rw [Json.parse_afterBom_iff]
  have hbom : Json.afterBom (tableText t) = tableText t := by
    rw [tableText_eq]
    rfl
  have hnewline : Ws [0x0a] := by
    intro b hb
    rw [List.mem_singleton.mp hb]
    rfl
  rw [hbom, tableText_eq]
  exact ⟨[], _, [0x0a], Ws.nil, hnewline, hdeep, rfl⟩

/-! ### The table -/

def CheatTable.settled (t : CheatTable) : CheatTable :=
  { t with
    disassemblerComments := t.disassemblerComments.filter fun c => !c.address.isEmpty
    entries := t.entries.map CheatEntry.settled }

theorem mapM_settled {entries : List CheatEntry} (h : ∀ e ∈ entries, e.Shaped) (items : List Value) :
    (entries.map entryValue).mapM (readEntry items) = some (entries.map CheatEntry.settled) := by
  induction entries with
  | nil => rfl
  | cons e entries ih =>
    obtain ⟨he, hentries⟩ := List.forall_mem_cons.mp h
    rw [List.map_cons, List.mapM_cons, readEntry_settled he, ih hentries]
    rfl

theorem readTableJson_rootValue {t : CheatTable} (h : ∀ e ∈ t.entries, e.Shaped) :
    readTableJson (rootValue t) = some t.settled := by
  have hfield : ∀ (i : ℕ) {k : String} {o : Option Value},
      (rootFields t)[i]? = some (k, o) → getField (rootValue t) k = o :=
    fun i _ _ => rootKeys_names.getField rfl i
  have hgame : getField (rootValue t) "game" = some (Value.string t.gameName) := hfield 0 rfl
  have hstructures : (t.structures.map structureValue).mapM readStructure = some t.structures :=
    mapM_items readStructure structureValue fun s _ => readStructure_eq s
  have hcomments : (t.disassemblerComments.map commentValue).mapM readComment
      = some t.disassemblerComments :=
    mapM_items readComment commentValue fun c _ => readComment_eq c
  unfold readTableJson
  simp only [arrayField_items (hfield 7 rfl), arrayField_items (hfield 8 rfl),
    arrayField_items (hfield 9 rfl), hstructures, hcomments, mapM_settled h, Option.bind_eq_bind,
    Option.bind_some, eitherKey_some hgame, stringField_some hgame, stringField_some (hfield 1 rfl),
    stringField_some (hfield 2 rfl), stringField_some (hfield 3 rfl),
    stringField_some (hfield 4 rfl), stringField_some (hfield 5 rfl),
    stringField_some (hfield 6 rfl)]
  rfl

theorem writeTableJson_eq {t : CheatTable} (h : t.Writable) :
    writeTableJson t = some (tableText t) := by
  have hformats : validRecordFormats t.entries = true := by
    rw [validRecordFormats, List.all_eq_true]
    intro e he
    rcases (h.entries e he).width with hw | hw | hw <;> rw [hw] <;> rfl
  rw [writeTableJson, if_pos hformats]

theorem loadJson_settled {t : CheatTable} (hentries : ∀ e ∈ t.repaired.entries, e.Shaped) :
    loadJsonFromString (tableText t) = some t.repaired.settled := by
  rw [loadJsonFromString, parse_tableText t]
  simp only [Option.bind_eq_bind, Option.bind_some]
  rw [if_neg (show ¬ (rootValue t.repaired).type ≠ .object from fun hne => hne rfl),
    readTableJson_rootValue hentries]

theorem repairedTable_eq {t : CheatTable} (h : t.Writable) : t.repaired = t := by
  have htexts : ∀ s ∈ [t.gameName, t.gameVersion, t.author, t.comment, t.luaScript, t.rawFormsXml,
      t.rawSectionsXml], Json.repair s = s := fun s hs => Json.repair_valid (h.texts s hs)
  have hstructures : t.structures.map StructureDefinition.repaired = t.structures := by
    refine (List.map_congr_left fun s hs => ?_).trans (List.map_id _)
    have hname := Json.repair_valid (h.structures s hs s.name List.mem_cons_self)
    have hfields : s.fields.map StructureField.repaired = s.fields := by
      refine (List.map_congr_left fun f hf => ?_).trans (List.map_id _)
      have hrepair : ∀ text ∈ f.texts, Json.repair text = text := fun text htext => Json.repair_valid
        (h.structures s hs text (List.mem_cons_of_mem _ (List.mem_flatMap.mpr ⟨f, hf, htext⟩)))
      unfold StructureField.repaired
      rw [hrepair f.name (by simp [StructureField.texts]), hrepair f.displayMethod (by simp [StructureField.texts]),
        hrepair f.nestedStructure (by simp [StructureField.texts])]
      rfl
    unfold StructureDefinition.repaired
    rw [hname, hfields]
    rfl
  have hcomments : t.disassemblerComments.map DisassemblerComment.repaired = t.disassemblerComments := by
    refine (List.map_congr_left fun c hc => ?_).trans (List.map_id _)
    have hrepair : ∀ text ∈ c.texts, Json.repair text = text :=
      fun text htext => Json.repair_valid ((h.comments c hc).1 text htext)
    unfold DisassemblerComment.repaired
    rw [hrepair c.address (by simp [DisassemblerComment.texts]), hrepair c.comment (by simp [DisassemblerComment.texts]),
      hrepair c.label (by simp [DisassemblerComment.texts])]
    rfl
  have hentries : t.entries.map CheatEntry.repaired = t.entries :=
    (List.map_congr_left fun e he => repaired_eq (h.entries e he).texts).trans (List.map_id _)
  unfold CheatTable.repaired
  rw [htexts _ (by simp), htexts _ (by simp), htexts _ (by simp), htexts _ (by simp), htexts _ (by simp),
    htexts _ (by simp), htexts _ (by simp), hstructures, hcomments, hentries]

theorem settledTable_eq {t : CheatTable} (h : t.Writable) : t.settled = t := by
  have hfilter : t.disassemblerComments.filter (fun c => !c.address.isEmpty)
      = t.disassemblerComments := by
    rw [List.filter_eq_self]
    intro c hc
    simpa using (h.comments c hc).2
  have hentries : t.entries.map CheatEntry.settled = t.entries := by
    rw [List.map_congr_left fun e he => settled_eq (h.entries e he), List.map_id']
  unfold CheatTable.settled
  rw [hfilter, hentries]

theorem loadJson_tableText {t : CheatTable} (h : t.Writable) :
    loadJsonFromString (tableText t) = some t := by
  have hrepaired := repairedTable_eq h
  rw [loadJson_settled (by rw [hrepaired]; exact fun e he => (h.entries e he).shaped), hrepaired, settledTable_eq h]

/-! ### Protected files -/

theorem xorStream_xorStream (state : UInt64) (s : Bytes) :
    xorStream state (xorStream state s) = s := by
  induction s generalizing state with
  | nil => rfl
  | cons b s ih =>
    rw [xorStream, xorStream, ih, UInt8.xor_assoc, UInt8.xor_self, UInt8.xor_zero]

theorem xorDecrypt_xorCrypt (input password : Bytes) :
    xorDecrypt (xorCrypt input password) password = input :=
  xorStream_xorStream _ _

theorem getline_eq {line rest : Bytes} (h : ∀ b ∈ line, b ≠ 0x0a) :
    getline (line ++ 0x0a :: rest) = some (line, rest) := by
  have hplain : ∀ b ∈ line, (b != 0x0a) = true := fun b hb => by simpa using h b hb
  have htake : (line ++ 0x0a :: rest).takeWhile (· != 0x0a) = line := by
    rw [List.takeWhile_append_of_pos hplain]
    simp
  have hdrop : (line ++ 0x0a :: rest).dropWhile (· != 0x0a) = 0x0a :: rest := by
    rw [List.dropWhile_append_of_pos hplain]
    simp
  unfold getline
  split
  · next hnil => simp at hnil
  · rw [htake, hdrop]
    rfl

theorem digit_facts : ∀ d < 10, isSpace (digitByte d) = false ∧ digitByte d ≠ 0x2d ∧
    digitByte d ≠ 0x2b ∧ digitByte d ≠ 0x0a := by decide

/-- The verifier of the password is read back. -/
theorem stoull_digitsText (n : UInt64) : stoull (digitsText 10 n.toNat) = some n := by
  have hlt := n.toNat_lt
  have hdigit : ∀ b ∈ digitsText 10 n.toNat, isDigit b = true := by
    intro b hb
    obtain ⟨d, hd, rfl⟩ := mem_digitsText (by decide) (by decide) hb
    exact isDigit_digitByte hd
  obtain ⟨b, tail, htext⟩ := List.exists_cons_of_ne_nil (@digitsText_ne_nil 10 n.toNat)
  obtain ⟨d, hd, hb⟩ := @mem_digitsText 10 n.toNat (by decide) (by decide) b (by rw [htext]; simp)
  obtain ⟨hspace, hminus, hplus, -⟩ := digit_facts d hd
  rw [← hb] at hspace hminus hplus
  have hskip : (digitsText 10 n.toNat).dropWhile isSpace = digitsText 10 n.toNat := by
    rw [htext]
    simp [hspace]
  have hneg : ((digitsText 10 n.toNat).head? == some 0x2d) = false := by
    rw [htext]
    simpa using hminus
  have hpos : ((digitsText 10 n.toNat).head? == some 0x2b) = false := by
    rw [htext]
    simpa using hplus
  have htake : (digitsText 10 n.toNat).takeWhile isDigit = digitsText 10 n.toNat :=
    List.takeWhile_eq_self_iff.mpr hdigit
  have hempty : (digitsText 10 n.toNat).isEmpty = false := by
    rw [htext]
    rfl
  unfold stoull
  simp only [hskip, hneg, hpos, Bool.or_self, Bool.false_eq_true, if_false, htake, hempty,
    @readDigits_digitsText 10 n.toNat (by decide) (by decide), Bool.false_or, UInt64.ofNat_toNat]
  rw [if_neg (by unfold uint64Max; simp only [decide_eq_true_eq]; omega)]

theorem loadProtected_saveProtected {t : CheatTable} (h : t.Writable) (password : Bytes)
    {file : Bytes} (hfile : saveProtected t password = some file)
    (hsize : file.length ≤ 64 * 1024 * 1024) : loadProtected file password = some t := by
  rw [saveProtected, writeTableJson_eq h, Option.map_some, Option.some.injEq] at hfile
  have hmagic : lit "CETRAINER1\n" = lit "CETRAINER1" ++ [0x0a] := by decide
  have hmagicLine : ∀ b ∈ lit "CETRAINER1", b ≠ 0x0a := by
    have hall : (lit "CETRAINER1").all (fun b => b != 0x0a) = true := by decide
    intro b hb
    simpa using List.all_eq_true.mp hall b hb
  have hhashLine : ∀ b ∈ digitsText 10 (fnv1a password).toNat, b ≠ 0x0a := by
    intro b hb
    obtain ⟨d, hd, rfl⟩ := mem_digitsText (by decide) (by decide) hb
    exact (digit_facts d hd).2.2.2
  have hfirst : getline file = some (lit "CETRAINER1", digitsText 10 (fnv1a password).toNat ++
      0x0a :: xorCrypt (tableText t) password) := by
    rw [← hfile, hmagic, lit_newline, List.append_assoc]
    exact getline_eq hmagicLine
  unfold loadProtected
  rw [if_neg (by omega)]
  simp only [hfirst, Option.bind_eq_bind, Option.bind_some, getline_eq hhashLine, ne_eq,
    not_true, if_false, stoull_digitsText, xorDecrypt_xorCrypt, loadJson_tableText h]

/-- Tables load as they were saved. -/
theorem table_round_trip (t : CheatTable) (h : t.Writable) :
    (∃ json, writeTableJson t = some json ∧ loadJsonFromString json = some t) ∧
    ∀ password, ∃ file, saveProtected t password = some file ∧
      (file.length ≤ 64 * 1024 * 1024 → loadProtected file password = some t) := by
  refine ⟨⟨tableText t, writeTableJson_eq h, loadJson_tableText h⟩, fun password => ?_⟩
  obtain ⟨file, hfile⟩ : ∃ file, saveProtected t password = some file := by
    rw [saveProtected, writeTableJson_eq h, Option.map_some]
    exact ⟨_, rfl⟩
  exact ⟨file, hfile, loadProtected_saveProtected h password hfile⟩

/-- A pointer record with a negative offset. -/
def pointerEntry : CheatEntry where
  id := 7
  description := lit "hp"
  address := 0x7f0010
  offsets := [-8]
  showAsSigned := false
  pointerWidth := 8
  parentId := 3

def pointerTable : CheatTable := { gameName := lit "game", entries := [pointerEntry] }

theorem valid_mem_texts {texts : List Bytes}
    (h : texts.all (fun s => s.all fun b => decide (b.toNat < 0x80)) = true) :
    ∀ s ∈ texts, Utf8.Valid s :=
  fun s hs => Json.valid_literal (List.all_eq_true.mp h s hs)

theorem pointerTable_writable : pointerTable.Writable where
  texts := valid_mem_texts (by decide)
  structures := fun _ h => by cases h
  comments := fun _ h => by cases h
  entries := by
    intro e he
    rw [List.mem_singleton.mp he]
    exact {
      texts := valid_mem_texts (by decide)
      group := fun h => by cases h
      length_nonneg := by decide
      length_le := by decide
      parent := by decide
      width := by decide
      cascade := fun h => absurd rfl h
      unparsed := fun _ => rfl }

theorem table_round_trip_pointer :
    ∃ json, writeTableJson pointerTable = some json ∧
      loadJsonFromString json = some pointerTable :=
  (table_round_trip pointerTable pointerTable_writable).1

/-- A record that keeps an address without the offsets it was kept for. -/
def strayAddressEntry : CheatEntry := { unparsedAddress := lit "a" }

/-- The address of an unparsed pointer is not written without its offsets. -/
theorem table_loses_stray_address :
    (∀ s ∈ strayAddressEntry.texts, Utf8.Valid s) ∧ strayAddressEntry.isGroup = false ∧
    strayAddressEntry.length = 0 ∧ strayAddressEntry.parentId = -1 ∧
    strayAddressEntry.pointerWidth = 0 ∧ strayAddressEntry.optionsXml = [] ∧
    ∃ json, writeTableJson { entries := [strayAddressEntry] } = some json ∧
      loadJsonFromString json ≠ some { entries := [strayAddressEntry] } := by
  have hplain : ({ entries := [{}] } : CheatTable).Writable := {
    texts := valid_mem_texts (by decide)
    structures := fun _ h => by cases h
    comments := fun _ h => by cases h
    entries := by
      intro e he
      rw [List.mem_singleton.mp he]
      exact {
        texts := valid_mem_texts (by decide)
        group := fun h => by cases h
        length_nonneg := by decide
        length_le := by decide
        parent := by decide
        width := by decide
        cascade := fun h => absurd rfl h
        unparsed := fun _ => rfl } }
  refine ⟨valid_mem_texts (by decide), rfl, rfl, rfl, rfl, rfl,
    tableText { entries := [strayAddressEntry] }, rfl, ?_⟩
  have hsame : tableText { entries := [strayAddressEntry] } = tableText { entries := [{}] } := rfl
  rw [hsame, loadJson_tableText hplain]
  intro heq
  have haddress := congrArg (fun t => t.map fun t => t.entries.map CheatEntry.unparsedAddress) heq
  exact absurd haddress (by decide)

end CheatEngine.CtFile
