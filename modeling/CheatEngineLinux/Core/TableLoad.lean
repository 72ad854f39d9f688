import CheatEngineLinux.Core.XmlLines

/-!
# Loads that fail

The entry points of `core/ct_file.cpp` that replace a table by what they read.  The JSON loader reads
into a table of its own; the XML loader writes into the table while it reads.

* `validFormat_parse` — **PROVED**: what the loader's walk says of a text, record by record.
* `failed_load_keeps_table_iff` — **PROVED**: for which texts a failed load changes nothing.
-/

namespace CheatEngine.CtFile

open JsonGrammar (Bytes)
open Markup (cut)

/-! ### Files -/

/-- `CheatTable::loadJsonFromString` on a table: what it returns, and the table after it. -/
def loadJsonOnto (t : CheatTable) (json : Bytes) : Bool × CheatTable :=
  match loadJsonFromString json with
  | none => (false, t)
  | some pending => (true, pending)

inductive TableFormat
  | unknown | xml | json | protectedFile
  deriving DecidableEq

/-- `detectTableFormat`, of the bytes of a file, `none` if it cannot be opened. -/
def detectTableFormat (file : Option Bytes) : TableFormat :=
  match file with
  | none => .unknown
  | some bytes =>
    let head := bytes.take 511
    if (lit "CETRAINER1").isPrefixOf head then .protectedFile
    else
      let bom : Bytes := [0xef, 0xbb, 0xbf]
      let text := (if bom.isPrefixOf head then head.drop 3 else head).dropWhile isXmlSpace
      if text.head? == some 0x3c then .xml
      else if text.head? == some 0x7b || text.head? == some 0x5b then .json
      else if contains head (lit "<CheatTable") || contains head (lit "<CheatEntries") then .xml
      else .unknown

/-- `CheatTable::load` -/
def load (t : CheatTable) (file : Option Bytes) : Bool × CheatTable :=
  match file with
  | none => (false, t)
  | some xml => loadFromString t xml

/-- `CheatTable::loadJson` -/
def loadJson (t : CheatTable) (file : Option Bytes) : Bool × CheatTable :=
  match file with
  | none => (false, t)
  | some json => loadJsonOnto t json

/-- `CheatTable::loadAuto` -/
def loadAuto (t : CheatTable) (file : Option Bytes) : Bool × CheatTable :=
  match detectTableFormat file with
  | .xml => load t file
  | .json => loadJson t file
  | .protectedFile => (false, t)
  | .unknown =>
    let tried := load t file
    if tried.1 then tried else loadJson tried.2 file

/-! ### The records of a text -/

def ownTextsLoop (child : Bytes → ℕ → Option (List Bytes)) : ℕ → Bytes → ℕ → Option (List Bytes)
  | 0, _, _ => some []
  | fuel + 1, xml, room =>
    match cut (openTag "CheatEntry") xml with
    | none => some []
    | some (before, after) =>
      if before.length ≥ room then some []
      else
        match findMatchingClose "CheatEntry" after with
        | none => some []
        | some (inside, rest) =>
          let size := before.length + (openTag "CheatEntry").length + inside.length +
            (closeTag "CheatEntry").length
          if size > room then some []
          else
            let split := splitRecord inside rest
            let listed := (split.2.map fun list => child list.1 list.2).getD (some [])
            let others := ownTextsLoop child fuel rest (room - size)
            listed.bind fun listed => others.map fun others => split.1 :: (listed ++ others)

/-- The own texts of all records of a list, `none` when lists are nested deeper than the levels. -/
def ownTexts : ℕ → Bytes → ℕ → Option (List Bytes)
  | 0, _, _ => none
  | levels + 1, xml, room => ownTextsLoop (ownTexts levels) (xml.length + 1) xml room

/-- The byte order and the pointer width that a record gives are ones there are. -/
def validFormats (own : Bytes) : Bool :=
  (parseRecordDataFormat (getTag (eraseHotkeys own) "LinuxDataByteOrder")
    (getTag (eraseHotkeys own) "LinuxPointerWidth")).isSome

/-- Lists are nested less deep than the limit, and every record gives valid formats. -/
def recordsReadable (xml : Bytes) : Bool :=
  match cut (openTag "CheatEntries") xml with
  | none => true
  | some (_, after) =>
    match findMatchingClose "CheatEntries" after with
    | none => true
    | some (list, _) => (ownTexts kMaxEntryDepth after list.length).any fun own => own.all validFormats

theorem validFormat_add (st : LoadState) (own : Bytes) (parentId : Int32) :
    (st.add own parentId).1.validFormat = (st.validFormat && validFormats own) := rfl

/-- What the loader has found when it is through with a list of records. -/
def Walks (child : Bytes → ℕ → Int32 → LoadState → LoadState) (texts : Bytes → ℕ → Option (List Bytes)) :
    Prop :=
  ∀ xml room parentId st, (child xml room parentId st).validFormat
    = (st.validFormat && (texts xml room).any fun own => own.all validFormats)

theorem walks_loop {child : Bytes → ℕ → Int32 → LoadState → LoadState}
    {texts : Bytes → ℕ → Option (List Bytes)} (h : Walks child texts) (fuel : ℕ) :
    Walks (entriesLoop child fuel) (ownTextsLoop texts fuel) := by
  induction fuel with
  | zero => exact fun xml room parentId st => by simp [entriesLoop, ownTextsLoop]
  | succ fuel ih =>
    intro xml room parentId st
    rw [entriesLoop, ownTextsLoop]
    cases cut (openTag "CheatEntry") xml with
    | none => simp
    | some r =>
      dsimp only
      split
      · simp
      cases findMatchingClose "CheatEntry" r.2 with
      | none => simp
      | some c =>
        dsimp only
        split
        · simp
        generalize splitRecord c.1 c.2 = record
        obtain ⟨own, list⟩ := record
        dsimp only
        rw [ih]
        generalize ownTextsLoop texts fuel c.2 _ = others
        cases list with
        | none =>
          dsimp only
          rw [validFormat_add]
          cases others with
          | none => simp
          | some others => simp [Bool.and_assoc]
        | some list =>
          dsimp only [Option.map_some, Option.getD_some]
          rw [h, validFormat_add]
          cases texts list.1 list.2 with
          | none => simp
          | some listed =>
            cases others with
            | none => simp
            | some others => simp [Bool.and_assoc]

theorem validFormat_parse (levels : ℕ) : Walks (parseCheatEntriesBlock levels) (ownTexts levels) := by
  induction levels with
  | zero => exact fun xml room parentId st => by simp [parseCheatEntriesBlock, ownTexts]
  | succ levels ih =>
    intro xml room parentId st
    rw [parseCheatEntriesBlock, ownTexts]
    exact walks_loop ih _ xml room parentId st

theorem readTableXml_entries (xml : Bytes) : (readTableXml xml).1.entries = (readEntriesXml xml).entries := rfl

theorem readTableXml_validFormat (xml : Bytes) : (readTableXml xml).2 = (readEntriesXml xml).validFormat := rfl

theorem readTableXml_valid (xml : Bytes) : (readTableXml xml).2 = recordsReadable xml := by
  rw [readTableXml_validFormat]
  unfold readEntriesXml recordsReadable
  cases cut (openTag "CheatEntries") xml with
  | none => rfl
  | some r =>
    dsimp only
    cases findMatchingClose "CheatEntries" r.2 with
    | none => rfl
    | some c =>
      dsimp only
      rw [validFormat_parse kMaxEntryDepth r.2 c.1.length (-1) {}, Bool.true_and]

/-! ### Failed loads -/

theorem recordsReadable_of_not_contains {xml : Bytes} (h : contains xml (openTag "CheatEntries") = false) :
    recordsReadable xml = true := by
  have hlacks : cut (openTag "CheatEntries") xml = none := by
    rw [Markup.cut_eq_none_iff, Markup.Lacks, ← contains_iff, h]
    simp
  unfold recordsReadable
  rw [hlacks]

def FailedLoadKeeps (t : CheatTable) (file : Bytes) : Prop :=
  ((loadFromString t file).1 = false → (loadFromString t file).2 = t) ∧
  ((loadJsonOnto t file).1 = false → (loadJsonOnto t file).2 = t) ∧
  (detectTableFormat (some file) = .unknown → (loadAuto t (some file)).1 = false →
    (loadAuto t (some file)).2 = t)

theorem loadJsonOnto_keeps {t : CheatTable} {json : Bytes} (h : (loadJsonOnto t json).1 = false) :
    (loadJsonOnto t json).2 = t := by
  unfold loadJsonOnto at h ⊢
  split at h
  · rfl
  · cases h

theorem loadFromString_keeps {xml : Bytes} (hreadable : recordsReadable xml = true) {t : CheatTable}
    (h : (loadFromString t xml).1 = false) : (loadFromString t xml).2 = t := by
  unfold loadFromString at h ⊢
  split at h
  · dsimp only at h
    rw [readTableXml_valid, hreadable] at h
    cases h
  · next hneither => rw [if_neg hneither]

theorem loadAuto_keeps {xml : Bytes} (hreadable : recordsReadable xml = true) {t : CheatTable}
    (hformat : detectTableFormat (some xml) = .unknown) (h : (loadAuto t (some xml)).1 = false) :
    (loadAuto t (some xml)).2 = t := by
  unfold loadAuto at h ⊢
  rw [hformat] at h ⊢
  dsimp only [load, loadJson] at h ⊢
  split at h
  · next hloaded =>
    rw [hloaded] at h
    cases h
  · next hfailed =>
    rw [if_neg hfailed, loadJsonOnto_keeps h]
    exact loadFromString_keeps hreadable (Bool.eq_false_iff.mpr hfailed)

/-- A failed load of a text leaves every table as it was exactly when the records of the text can
all be read. -/
theorem failed_load_keeps_table_iff (file : Bytes) :
    (∀ t : CheatTable, FailedLoadKeeps t file) ↔ recordsReadable file = true := by
  constructor
  · intro h
    by_contra hreadable
    rw [Bool.not_eq_true] at hreadable
    have htable : contains file (openTag "CheatEntries") = true := by
      by_contra hlist
      rw [recordsReadable_of_not_contains (Bool.eq_false_iff.mpr hlist)] at hreadable
      cases hreadable
    have hload : ∀ t, loadFromString t file = (false, (readTableXml file).1) := by
      intro t
      unfold loadFromString
      rw [htable, Bool.or_true, if_pos rfl]
      dsimp only
      rw [readTableXml_valid, hreadable]
    -- a table that differs from what is read
    let other : CheatTable := { gameName := 0 :: (readTableXml file).1.gameName }
    have hkeeps := (h other).1
    rw [hload] at hkeeps
    have hname : (readTableXml file).1.gameName = 0 :: (readTableXml file).1.gameName :=
      congrArg CheatTable.gameName (hkeeps rfl)
    exact absurd (congrArg List.length hname) (by simp)
  · exact fun hreadable t => ⟨loadFromString_keeps hreadable, loadJsonOnto_keeps,
      loadAuto_keeps hreadable⟩

def badOrderTable : Bytes :=
  lit "<CheatEntries><CheatEntry><LinuxDataByteOrder>x</LinuxDataByteOrder></CheatEntry></CheatEntries>"

/-- Loading it fails, and the game's name is gone. -/
theorem failed_load_loses_name :
    ¬ ∀ (t : CheatTable) (file : Bytes), FailedLoadKeeps t file := by
  intro h
  have hloaded : (loadFromString { gameName := lit "game" } badOrderTable).1 = false ∧
      (loadFromString { gameName := lit "game" } badOrderTable).2.gameName = [] := by
    decide +kernel
  have hkeeps := (h { gameName := lit "game" } badOrderTable).1 hloaded.1
  rw [hkeeps] at hloaded
  exact absurd hloaded.2 (by decide)

end CheatEngine.CtFile
