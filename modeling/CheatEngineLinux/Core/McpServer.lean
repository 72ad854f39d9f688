import CheatEngineLinux.Core.JsonWriter
import CheatEngineLinux.Core.TableIntegers

/-!
# The MCP server

`core/mcp_server.cpp`: newline-delimited JSON-RPC over the tools of an `AgentSession`.  The
session is a parameter: its table of tools, and what a call answers in which state.  The writes
succeed and no stop is requested.

* `write_noControl` — **PROVED**: what `dump` writes holds no control character, whatever bytes
  the strings hold;
* `handleRequest_spec` — **PROVED**: a notification or response gets nothing, anything else one
  reply with its id;
* `mcp_answers_each_line` — **PROVED**: the lines that are written are the answers to the lines
  that were read, in order and each one once.
-/

namespace CheatEngine.Json

open JsonGrammar

/-- `Value::getString` -/
def Value.getString (v : Value) (key : Bytes) : Option Bytes :=
  match v.get key with
  | some x => if x.type = .string then some x.stringValue else none
  | none => none

end CheatEngine.Json

namespace CheatEngine.Mcp

open JsonGrammar
open Json
open CtFile (lit numberValue intText)

/-! ### The session -/

/-- A tool.  Its schema is built of objects, arrays, texts and booleans with names of the source;
the last three fields say what of that the server relies on. -/
structure AgentToolInfo where
  name : Bytes
  description : Bytes
  inputSchema : Value
  numberTokens : inputSchema.NumberTokens
  distinctKeys : inputSchema.DistinctKeys
  depth_le : inputSchema.depth ≤ 100

structure AgentToolResult where
  isError : Bool
  content : Value

/-- What the server uses of an `AgentSession` with the state `σ`. -/
structure AgentSession (σ : Type*) where
  instructions : Bytes
  tools : List AgentToolInfo
  call : Bytes → Value → σ → AgentToolResult × σ

/-! ### Reading a line -/

def kProtocolVersions : List Bytes := [lit "2025-06-18", lit "2025-03-26", lit "2024-11-05"]

def kMaxMessageBytes : ℕ := 4 <<< 20

inductive LineRead
  | line | tooLong | atEnd
  deriving DecidableEq, Repr

/-- The loop of `readLine`, with `line`, `tooLong` and `any` so far. -/
def readLoop (line : Bytes) (tooLong any : Bool) : Bytes → LineRead × Bytes × Bytes
  | [] => (if !any then .atEnd else if tooLong then .tooLong else .line, line, [])
  | c :: rest =>
    if c == 0x0a then (if tooLong then .tooLong else .line, line, rest)
    else if tooLong then readLoop line true true rest
    else if line.length = kMaxMessageBytes then readLoop [] true true rest
    else readLoop (line ++ [c]) false true rest

/-- `readLine`: what was read, the line, and the bytes after it. -/
def readLine (input : Bytes) : LineRead × Bytes × Bytes := readLoop [] false false input

/-! ### Replies -/

def response (id result : Value) : Bytes :=
  dump ((((Value.ofMembers []).set (lit "jsonrpc") (Value.string (lit "2.0"))).set (lit "id") id).set
    (lit "result") result)

def errorResponse (id : Value) (code : ℤ) (message : Bytes) : Bytes :=
  dump ((((Value.ofMembers []).set (lit "jsonrpc") (Value.string (lit "2.0"))).set (lit "id") id).set
    (lit "error") (((Value.ofMembers []).set (lit "code") (numberValue code)).set (lit "message")
      (Value.string message)))

/-- `id->isNumber() || id->isString()` -/
def usableId (id : Value) : Bool := id.type == .number || id.type == .string

section handlers

variable {σ : Type*} (session : AgentSession σ) (version : Bytes)

/-- The protocol version that `initialize` answers with. -/
def chosenVersion (params : Value) : Bytes :=
  let requested := (params.getString (lit "protocolVersion")).getD (lit "2025-06-18")
  kProtocolVersions.foldl (fun chosen v => if requested == v then v else chosen)
    (lit "2025-06-18")

def initializeResult (params : Value) : Value :=
  ((((Value.ofMembers []).set (lit "protocolVersion") (Value.string (chosenVersion params))).set
    (lit "capabilities") ((Value.ofMembers []).set (lit "tools") (Value.ofMembers []))).set
    (lit "serverInfo") (((Value.ofMembers []).set (lit "name")
      (Value.string (lit "cheat-engine-linux"))).set (lit "version") (Value.string version))).set
    (lit "instructions") (Value.string session.instructions)

def toolValue (tool : AgentToolInfo) : Value :=
  (((Value.ofMembers []).set (lit "name") (Value.string tool.name)).set (lit "description")
    (Value.string tool.description)).set (lit "inputSchema") tool.inputSchema

def toolsListResult : Value :=
  (Value.ofMembers []).set (lit "tools")
    (session.tools.foldl (fun tools tool => tools.push (toolValue tool)) (Value.ofItems []))

def toolsCallResult (result : AgentToolResult) : Value :=
  ((Value.ofMembers []).set (lit "content")
    ((Value.ofItems []).push (((Value.ofMembers []).set (lit "type") (Value.string (lit "text"))).set
      (lit "text") (Value.string (dump result.content))))).set
    (lit "isError") (Value.boolean result.isError)

/-- `handleRequest` from where the id and the method are known. -/
def handleMethod (id : Value) (method : Bytes) (params : Value) (s : σ) : Bytes × σ :=
  if method == lit "initialize" then (response id (initializeResult session version params), s)
  else if method == lit "ping" then (response id (Value.ofMembers []), s)
  else if method == lit "tools/list" then (response id (toolsListResult session), s)
  else if method == lit "tools/call" then
    match params.getString (lit "name") with
    | none => (errorResponse id (-32602) (lit "tools/call needs a tool name"), s)
    | some name =>
      let (result, s) :=
        session.call name ((params.get (lit "arguments")).getD (Value.ofMembers [])) s
      (response id (toolsCallResult result), s)
  else (errorResponse id (-32601) (lit "method not found: " ++ method), s)

/-- `handleRequest`; the empty text is no reply. -/
def handleRequest (message : Value) (s : σ) : Bytes × σ :=
  if message.type ≠ .object then (errorResponse Value.null (-32600) (lit "invalid request"), s)
  else
    match message.get (lit "id"), message.getString (lit "method") with
    | some id, none =>
      if (message.get (lit "result")).isNone && (message.get (lit "error")).isNone then
        (errorResponse (if usableId id then id else Value.null) (-32600)
          (lit "invalid request: no method"), s)
      else ([], s)
    | none, _ => ([], s)
    | some id, some method =>
      if !usableId id then (errorResponse Value.null (-32600) (lit "invalid request id"), s)
      else
        handleMethod session version id method
          ((message.get (lit "params")).getD (Value.ofMembers [])) s

/-- The loop of `handleMcpMessage` over a batch, with `replies` so far. -/
def handleBatch (replies : Bytes) : List Value → σ → Bytes × σ
  | [], s => (replies, s)
  | item :: items, s =>
    let (reply, s) := handleRequest session version item s
    handleBatch
      (if reply.isEmpty then replies
        else replies ++ (if replies.isEmpty then [0x5b] else [0x2c]) ++ reply) items s

def handleMcpMessage (line : Bytes) (s : σ) : Bytes × σ :=
  match parse line with
  | none => (errorResponse Value.null (-32700) (lit "parse error"), s)
  | some message =>
    if message.type = .array then
      if message.arrayValue.isEmpty then
        (errorResponse Value.null (-32600) (lit "invalid request: empty batch"), s)
      else
        let (replies, s) := handleBatch session version [] message.arrayValue s
        (if replies.isEmpty then [] else replies ++ [0x5d], s)
    else handleRequest session version message s

/-- The line without one carriage return at its end. -/
def dropCr (line : Bytes) : Bytes := if line.getLast? == some 0x0d then line.dropLast else line

/-- `find_first_not_of(" \t")` finds nothing. -/
def isBlank (line : Bytes) : Bool := line.all fun b => b == 0x20 || b == 0x09

/-- The loop of `runMcpServer` with the bytes it writes; every turn reads a byte or is the
last. -/
def serve : ℕ → Bytes → σ → Bytes × σ
  | 0, _, s => ([], s)
  | fuel + 1, input, s =>
    let (read, line, rest) := readLine input
    if read = .atEnd then ([], s)
    else
      let line := dropCr line
      if read = .line ∧ isBlank line then serve fuel rest s
      else
        let (reply, s) :=
          if read = .tooLong then
            (errorResponse Value.null (-32600) (lit "invalid request: message longer than "
              ++ intText (kMaxMessageBytes >>> 20 : ℕ) ++ lit " MiB"), s)
          else handleMcpMessage session version line s
        let (out, s) := serve fuel rest s
        (if reply.isEmpty then out else reply ++ [0x0a] ++ out, s)

/-- `runMcpServer`: the output, and the state of the session at the end. -/
def runMcpServer (input : Bytes) (s : σ) : Bytes × σ :=
  serve session version (input.length + 1) input s

end handlers

/-! ### What `dump` writes has no control characters -/

theorem noControl_digit {b : UInt8} (h : isDigit b = true) : 0x20 ≤ b.toNat := by
  simp only [isDigit, Bool.and_eq_true, decide_eq_true_eq, UInt8.le_iff_toNat_le] at h
  exact Nat.le_trans (by decide) h.1

theorem noControl_number {t : Bytes} (h : Number t) : ∀ b ∈ t, 0x20 ≤ b.toNat := by
  intro b hb
  rcases Number.bytes h b hb with hdigit | hsign
  · exact noControl_digit hdigit
  · simp only [List.mem_cons, List.not_mem_nil, or_false] at hsign
    rcases hsign with rfl | rfl | rfl | rfl | rfl <;> decide

theorem noControl_literal {s : Bytes} (h : s.all (fun b => decide (0x20 ≤ b.toNat)) = true) :
    ∀ b ∈ s, 0x20 ≤ b.toNat :=
  fun b hb => of_decide_eq_true (List.all_eq_true.mp h b hb)

theorem noControl_escapeAscii {c : UInt8} (hc : c.toNat < 0x80) :
    ∀ b ∈ escapeAscii c, 0x20 ≤ b.toNat := by
  by_cases hlow : c.toNat < 0x20
  · have hcases : ∀ n < 32, (escapeAscii (UInt8.ofNat n)).all fun b => decide (0x20 ≤ b.toNat) := by
      decide
    have hall := hcases c.toNat hlow
    rw [UInt8.ofNat_toNat] at hall
    exact noControl_literal hall
  · have hnot : ¬ c < 0x20 := by rwa [UInt8.lt_iff_toNat_lt]
    unfold escapeAscii
    split_ifs
    all_goals simp
    omega

theorem noControl_escape (s : Bytes) : ∀ b ∈ escape s, 0x20 ≤ b.toNat := by
  induction s using escape_induction with
  | nil => simp [escape, escapeFrom]
  | ascii c s hc ih =>
    rw [escape_ascii hc, List.forall_mem_append]
    exact ⟨noControl_escapeAscii hc, ih⟩
  | char ch s hc ih =>
    rw [escape_char hc, List.forall_mem_append]
    exact ⟨fun b hb => Nat.le_trans (by decide) (encode_high hc b hb), ih⟩
  | bad c s hbad ih =>
    rw [escape_bad hbad, List.forall_mem_append]
    exact ⟨noControl_literal (by decide), ih⟩

theorem noControl_quote (s : Bytes) : ∀ b ∈ quote s, 0x20 ≤ b.toNat := by
  rw [quote, List.forall_mem_cons, List.forall_mem_append]
  exact ⟨by decide, noControl_escape s, noControl_literal (by decide)⟩

theorem noControl_commaSeparated {xs : List Bytes} (h : ∀ x ∈ xs, ∀ b ∈ x, 0x20 ≤ b.toNat) :
    ∀ b ∈ commaSeparated xs, 0x20 ≤ b.toNat := by
  induction xs with
  | nil => simp [commaSeparated]
  | cons x xs ih =>
    obtain ⟨hx, hxs⟩ := List.forall_mem_cons.mp h
    cases xs with
    | nil => exact hx
    | cons y ys =>
      rw [commaSeparated_cons, List.forall_mem_append, List.forall_mem_cons]
      exact ⟨hx, by decide, ih hxs⟩

theorem write_noControl {d : ℕ} {v : Value} (hd : v.depth ≤ d) (hnum : v.NumberTokens) :
    ∀ b ∈ write v, 0x20 ≤ b.toNat := by
  induction d generalizing v with
  | zero => exact absurd (Value.depth_pos v) (by omega)
  | succ d ih =>
    obtain ⟨t, b, s, items, ms⟩ := v
    cases t with
    | null => exact noControl_literal rfl
    | bool => cases b <;> exact noControl_literal rfl
    | number =>
      have htoken : Number s := hnum _ Value.Inside.self rfl
      rw [write]
      split
      · exact noControl_literal (by decide)
      · exact noControl_number htoken
    | string => exact noControl_quote s
    | array =>
      rw [write, writeItems_eq, List.forall_mem_cons, List.forall_mem_append]
      refine ⟨by decide, noControl_commaSeparated ?_, noControl_literal (by decide)⟩
      intro x hx
      obtain ⟨y, hy, rfl⟩ := List.mem_map.mp hx
      have := Value.depth_le_items hy
      rw [Value.depth] at hd
      exact ih (by omega) (NumberTokens.item hnum rfl hy)
    | object =>
      rw [write, writeMembers_eq, List.forall_mem_cons, List.forall_mem_append]
      refine ⟨by decide, noControl_commaSeparated ?_, noControl_literal (by decide)⟩
      intro x hx
      obtain ⟨m, hm, rfl⟩ := List.mem_map.mp hx
      have := Value.depth_le_members hm
      rw [Value.depth] at hd
      rw [List.forall_mem_append, List.forall_mem_cons]
      exact ⟨noControl_quote m.1, by decide, ih (by omega) (NumberTokens.member hnum rfl hm)⟩

/-! ### Values a dump gives back -/

/-- What makes the dump of a value one line of JSON that reads back as the value. -/
structure Sendable (d : ℕ) (v : Value) : Prop where
  depth_le : v.depth ≤ d
  numberTokens : v.NumberTokens
  distinctKeys : v.DistinctKeys

section sendable

variable {d : ℕ} {v x u : Value} {items : List Value} {ms : List (Bytes × Value)}

theorem inside_items (h : Value.Inside u (Value.ofItems items)) :
    u = Value.ofItems items ∨ ∃ x ∈ items, Value.Inside u x := by
  cases h with
  | self => exact Or.inl rfl
  | item _ hx hin => exact Or.inr ⟨_, hx, hin⟩
  | member hobj => cases hobj

theorem inside_members (h : Value.Inside u (Value.ofMembers ms)) :
    u = Value.ofMembers ms ∨ ∃ m ∈ ms, Value.Inside u m.2 := by
  cases h with
  | self => exact Or.inl rfl
  | item harr => cases harr
  | member _ hm hin => exact Or.inr ⟨_, hm, hin⟩

theorem Sendable.mono {d' : ℕ} (h : Sendable d v) (hle : d ≤ d') : Sendable d' v :=
  { h with depth_le := Nat.le_trans h.depth_le hle }

theorem Sendable.scalar (harr : v.type ≠ .array) (hobj : v.type ≠ .object)
    (hnum : v.type = .number → Number v.stringValue) : Sendable (d + 1) v := by
  have hself : ∀ u, Value.Inside u v → u = v := by
    intro u hu
    cases hu with
    | self => rfl
    | item h => exact absurd h harr
    | member h => exact absurd h hobj
  refine ⟨?_, fun u hu => hself u hu ▸ hnum, fun u hu ht => absurd ht (hself u hu ▸ hobj)⟩
  obtain ⟨t, b, s, items, ms⟩ := v
  cases t with
  | array => exact absurd rfl harr
  | object => exact absurd rfl hobj
  | _ => exact Nat.le_add_left 1 d

theorem Sendable.string (s : Bytes) : Sendable (d + 1) (Value.string s) :=
  .scalar (by simp [Value.string, Value.type]) (by simp [Value.string, Value.type])
    (by simp [Value.string, Value.type])

theorem Sendable.null : Sendable (d + 1) Value.null :=
  .scalar (by simp [Value.null, Value.type]) (by simp [Value.null, Value.type])
    (by simp [Value.null, Value.type])

theorem Sendable.boolean (b : Bool) : Sendable (d + 1) (Value.boolean b) :=
  .scalar (by simp [Value.boolean, Value.type]) (by simp [Value.boolean, Value.type])
    (by simp [Value.boolean, Value.type])

theorem Sendable.number (n : ℤ) : Sendable (d + 1) (numberValue n) :=
  .scalar (by simp [numberValue, Value.numberText, Value.type])
    (by simp [numberValue, Value.numberText, Value.type]) fun _ => CtFile.number_intText n

theorem depthItems_le (h : ∀ x ∈ items, x.depth ≤ d) : Value.depthItems items ≤ d := by
  induction items with
  | nil => exact Nat.zero_le d
  | cons x xs ih =>
    obtain ⟨hx, hxs⟩ := List.forall_mem_cons.mp h
    exact Nat.max_le.mpr ⟨hx, ih hxs⟩

theorem depthMembers_le (h : ∀ m ∈ ms, m.2.depth ≤ d) : Value.depthMembers ms ≤ d := by
  induction ms with
  | nil => exact Nat.zero_le d
  | cons m ms ih =>
    obtain ⟨hm, hms⟩ := List.forall_mem_cons.mp h
    exact Nat.max_le.mpr ⟨hm, ih hms⟩

theorem Sendable.ofItems (h : ∀ x ∈ items, Sendable d x) : Sendable (d + 1) (Value.ofItems items) := by
  refine ⟨Nat.succ_le_succ (depthItems_le fun x hx => (h x hx).depth_le), ?_, ?_⟩
  · intro u hu ht
    rcases inside_items hu with rfl | ⟨x, hx, hin⟩
    · cases ht
    · exact (h x hx).numberTokens u hin ht
  · intro u hu ht
    rcases inside_items hu with rfl | ⟨x, hx, hin⟩
    · cases ht
    · exact (h x hx).distinctKeys u hin ht

theorem Sendable.ofMembers (hkeys : (ms.map fun m => repair m.1).Nodup)
    (h : ∀ m ∈ ms, Sendable d m.2) : Sendable (d + 1) (Value.ofMembers ms) := by
  refine ⟨Nat.succ_le_succ (depthMembers_le fun m hm => (h m hm).depth_le), ?_, ?_⟩
  · intro u hu ht
    rcases inside_members hu with rfl | ⟨m, hm, hin⟩
    · cases ht
    · exact (h m hm).numberTokens u hin ht
  · intro u hu ht
    rcases inside_members hu with rfl | ⟨m, hm, hin⟩
    · exact hkeys
    · exact (h m hm).distinctKeys u hin ht

theorem Sendable.named (keys : List String) (hms : ms.map Prod.fst = keys.map lit)
    (hkeys : (keys.map fun k => repair (lit k)).Nodup) (h : ∀ m ∈ ms, Sendable d m.2) :
    Sendable (d + 1) (Value.ofMembers ms) := by
  refine Sendable.ofMembers ?_ h
  have hmap : (ms.map fun m => repair m.1) = (ms.map Prod.fst).map repair := by simp
  rwa [hmap, hms, List.map_map]

theorem Sendable.jsonText (h : Sendable kMaxDepth v) :
    JsonText valueMeaning kMaxDepth (write v) (v.mapStrings repair) :=
  ⟨[], write v, [], Ws.nil, Ws.nil, jsonValue_write h.depth_le h.numberTokens h.distinctKeys,
    by simp⟩

theorem Sendable.no_newline (h : Sendable d v) : (0x0a : UInt8) ∉ write v := by
  intro hmem
  exact absurd (write_noControl h.depth_le h.numberTokens _ hmem) (by decide)

end sendable

theorem numberTokens_denoted {d : ℕ} {t : Bytes} {v : Value} (h : JsonValue valueMeaning d t v) :
    v.NumberTokens := by
  induction h with
  | null => exact (Sendable.null (d := 0)).numberTokens
  | true => exact (Sendable.boolean (d := 0) _).numberTokens
  | false => exact (Sendable.boolean (d := 0) _).numberTokens
  | number d t ht =>
    exact (Sendable.scalar (d := 0) (v := Value.numberText t) (by simp [Value.numberText, Value.type])
      (by simp [Value.numberText, Value.type]) fun _ => ht).numberTokens
  | string => exact (Sendable.string (d := 0) _).numberTokens
  | emptyArray => exact (Sendable.ofItems (d := 0) (by simp)).numberTokens
  | emptyObject => exact (@Sendable.ofMembers 0 [] (by simp) (by simp)).numberTokens
  | array d es _ _ _ ih =>
    intro u hu ht
    rcases inside_items hu with rfl | ⟨x, hx, hin⟩
    · cases ht
    · obtain ⟨e, he, rfl⟩ := List.mem_map.mp hx
      exact ih e he u hin ht
  | object d es _ _ _ _ ih =>
    intro u hu ht
    rcases inside_members hu with rfl | ⟨m, hm, hin⟩
    · cases ht
    · obtain ⟨e, he, rfl⟩ := List.mem_map.mp (mem_lastWins hm)
      exact ih e he u hin ht

theorem numberTokens_parse {line : Bytes} {v : Value} (h : parse line = some v) :
    v.NumberTokens := by
  obtain ⟨_, _, _, _, _, hval, _⟩ := (parse_afterBom_iff _ _).mp h
  exact numberTokens_denoted hval

/-! ### What an answer is -/

/-- A notification, an object without an id, or a response, an object with a result or an error
and no method. -/
def Silent (message : Value) : Prop :=
  message.type = .object ∧ (message.get (lit "id") = none ∨
    (message.getString (lit "method") = none ∧
      ((message.get (lit "result")).isSome ∨ (message.get (lit "error")).isSome)))

instance (message : Value) : Decidable (Silent message) :=
  inferInstanceAs (Decidable (_ ∧ (_ ∨ (_ ∧ (_ ∨ _)))))

/-- The id of a reply: a number as it was written, a string with its bad bytes replaced, null for
everything else. -/
def EchoedId : Option Value → Value → Prop
  | some (.mk .number _ text _ _), echoed => echoed = Value.numberText text
  | some (.mk .string _ text _ _), echoed => ∃ t, Utf8.Repaired text t ∧ echoed = Value.string t
  | _, echoed => echoed = Value.null

/-- `u` is a reply to `message`. -/
structure ReplyTo (message u : Value) : Prop where
  jsonrpc : u.get (lit "jsonrpc") = some (Value.string (lit "2.0"))
  id : ∃ echoed, u.get (lit "id") = some echoed ∧ EchoedId (message.get (lit "id")) echoed
  body : (u.get (lit "result")).isSome ↔ (u.get (lit "error")).isNone

/-- `u` is an error with a null id. -/
structure NullError (u : Value) : Prop where
  jsonrpc : u.get (lit "jsonrpc") = some (Value.string (lit "2.0"))
  id : u.get (lit "id") = some Value.null
  error : (u.get (lit "error")).isSome
  result : u.get (lit "result") = none

/-! ### The values that are sent -/

def replyValue (id : Value) (key : String) (body : Value) : Value :=
  Value.ofMembers [(lit "jsonrpc", Value.string (lit "2.0")), (lit "id", id), (lit key, body)]

theorem response_eq (id result : Value) :
    response id result = write (replyValue id "result" result) := rfl

theorem errorResponse_eq (id : Value) (code : ℤ) (message : Bytes) :
    errorResponse id code message = write (replyValue id "error" (Value.ofMembers
      [(lit "code", numberValue code), (lit "message", Value.string message)])) := rfl

theorem sendable_reply {id body : Value} {key : String} {d : ℕ} (hkey : key ∈ ["result", "error"])
    (hid : Sendable 1 id) (hbody : Sendable (d + 1) body) :
    Sendable (d + 2) (replyValue id key body) := by
  refine Sendable.named ["jsonrpc", "id", key] rfl ?_ ?_
  · simp only [List.mem_cons, List.not_mem_nil, or_false] at hkey
    rcases hkey with rfl | rfl <;> decide
  · simp only [List.forall_mem_cons]
    exact ⟨Sendable.string _, hid.mono (by omega), hbody, by simp⟩

theorem sendable_error (code : ℤ) (message : Bytes) : Sendable 2 (Value.ofMembers
    [(lit "code", numberValue code), (lit "message", Value.string message)]) := by
  refine Sendable.named ["code", "message"] rfl (by decide) ?_
  simp only [List.forall_mem_cons]
  exact ⟨Sendable.number code, Sendable.string message, by simp⟩

theorem foldl_push {α : Type*} (f : α → Value) (xs : List α) (items : List Value) :
    xs.foldl (fun v x => v.push (f x)) (Value.ofItems items) = Value.ofItems (items ++ xs.map f) := by
  induction xs generalizing items with
  | nil => simp
  | cons x xs ih =>
    rw [List.foldl_cons, List.map_cons, List.append_cons]
    exact ih (items ++ [f x])

section results

variable {σ : Type*} (session : AgentSession σ) (version : Bytes)

theorem sendable_initialized (params : Value) :
    Sendable 3 (initializeResult session version params) := by
  have hempty : Sendable 1 (Value.ofMembers []) := Sendable.named [] rfl (by decide) (by simp)
  have htools : Sendable 2 (Value.ofMembers [(lit "tools", Value.ofMembers [])]) :=
    Sendable.named ["tools"] rfl (by decide) (by simpa using hempty)
  have hinfo : Sendable 2 (Value.ofMembers [(lit "name", Value.string (lit "cheat-engine-linux")),
      (lit "version", Value.string version)]) := by
    refine Sendable.named ["name", "version"] rfl (by decide) ?_
    simp only [List.forall_mem_cons]
    exact ⟨Sendable.string _, Sendable.string _, by simp⟩
  have hvalue : initializeResult session version params = Value.ofMembers
      [(lit "protocolVersion", Value.string (chosenVersion params)),
        (lit "capabilities", Value.ofMembers [(lit "tools", Value.ofMembers [])]),
        (lit "serverInfo", Value.ofMembers [(lit "name", Value.string (lit "cheat-engine-linux")),
          (lit "version", Value.string version)]),
        (lit "instructions", Value.string session.instructions)] := rfl
  rw [hvalue]
  refine Sendable.named ["protocolVersion", "capabilities", "serverInfo", "instructions"] rfl
    (by decide) ?_
  simp only [List.forall_mem_cons]
  exact ⟨Sendable.string _, htools, hinfo, Sendable.string _, by simp⟩

theorem sendable_toolsList : Sendable 103 (toolsListResult session) := by
  have hitems : Sendable 102 (session.tools.foldl (fun tools tool => tools.push (toolValue tool))
      (Value.ofItems [])) := by
    rw [foldl_push]
    refine Sendable.ofItems fun x hx => ?_
    obtain ⟨tool, -, rfl⟩ := List.mem_map.mp hx
    have hvalue : toolValue tool = Value.ofMembers [(lit "name", Value.string tool.name),
        (lit "description", Value.string tool.description), (lit "inputSchema", tool.inputSchema)] :=
      rfl
    rw [hvalue]
    refine Sendable.named ["name", "description", "inputSchema"] rfl (by decide) ?_
    simp only [List.forall_mem_cons]
    exact ⟨Sendable.string _, Sendable.string _,
      ⟨tool.depth_le, tool.numberTokens, tool.distinctKeys⟩, by simp⟩
  have hvalue : toolsListResult session = Value.ofMembers [(lit "tools", session.tools.foldl
      (fun tools tool => tools.push (toolValue tool)) (Value.ofItems []))] := rfl
  rw [hvalue]
  exact Sendable.named ["tools"] rfl (by decide) (by simpa using hitems)

theorem sendable_toolsCall (result : AgentToolResult) : Sendable 4 (toolsCallResult result) := by
  have hcontent : Sendable 3 (Value.ofItems [Value.ofMembers
      [(lit "type", Value.string (lit "text")), (lit "text", Value.string (dump result.content))]]) := by
    refine Sendable.ofItems ?_
    rw [List.forall_mem_singleton]
    refine Sendable.named ["type", "text"] rfl (by decide) ?_
    simp only [List.forall_mem_cons]
    exact ⟨Sendable.string _, Sendable.string _, by simp⟩
  have hvalue : toolsCallResult result = Value.ofMembers [(lit "content", Value.ofItems
      [Value.ofMembers [(lit "type", Value.string (lit "text")),
        (lit "text", Value.string (dump result.content))]]),
      (lit "isError", Value.boolean result.isError)] := rfl
  rw [hvalue]
  refine Sendable.named ["content", "isError"] rfl (by decide) ?_
  simp only [List.forall_mem_cons]
  exact ⟨hcontent, Sendable.boolean _, by simp⟩

end results

/-! ### One request -/

/-- `text` is the dump of a reply to `message`. -/
def Replies (message : Value) (text : Bytes) : Prop :=
  ∃ v, text = write v ∧ Sendable 105 v ∧ ReplyTo message (v.mapStrings repair)

/-- `id` is what a reply to `message` carries. -/
structure ReplyId (message id : Value) : Prop where
  sendable : Sendable 1 id
  echoed : EchoedId (message.get (lit "id")) (id.mapStrings repair)

theorem mapStrings_reply (id : Value) (key : String) (body : Value) :
    (replyValue id key body).mapStrings repair = Value.ofMembers
      [(lit "jsonrpc", Value.string (lit "2.0")), (lit "id", id.mapStrings repair),
        (repair (lit key), body.mapStrings repair)] := rfl

section requests

variable {message id : Value}

theorem replies_response {result : Value} (hid : ReplyId message id) (h : Sendable 103 result) :
    Replies message (response id result) := by
  refine ⟨_, response_eq id result, (sendable_reply (by simp) hid.sendable h).mono (by decide), ?_⟩
  rw [mapStrings_reply]
  exact ⟨rfl, ⟨_, rfl, hid.echoed⟩, Iff.rfl⟩

theorem nullError_reply (code : ℤ) (text : Bytes) :
    NullError ((replyValue Value.null "error" (Value.ofMembers
      [(lit "code", numberValue code), (lit "message", Value.string text)])).mapStrings repair) := by
  rw [mapStrings_reply]
  exact ⟨rfl, rfl, rfl, rfl⟩

theorem replies_error (hid : ReplyId message id) (code : ℤ) (text : Bytes) :
    Replies message (errorResponse id code text) := by
  refine ⟨_, errorResponse_eq id code text,
    (sendable_reply (by simp) hid.sendable (sendable_error code text)).mono (by decide), ?_⟩
  rw [mapStrings_reply]
  exact ⟨rfl, ⟨_, rfl, hid.echoed⟩, Iff.rfl⟩

theorem echoedId_usable (h : usableId id = true) : EchoedId (some id) (id.mapStrings repair) := by
  obtain ⟨t, b, s, items, ms⟩ := id
  cases t with
  | number => exact rfl
  | string => exact ⟨_, (repaired_iff s _).mpr rfl, rfl⟩
  | _ => cases h

theorem echoedId_unusable (h : usableId id = false) : EchoedId (some id) Value.null := by
  obtain ⟨t, b, s, items, ms⟩ := id
  cases t with
  | number => cases h
  | string => cases h
  | _ => exact rfl

theorem replyId_usable (hnum : message.NumberTokens) (hget : message.get (lit "id") = some id)
    (h : usableId id = true) : ReplyId message id := by
  have htoken : id.type = .number → Number id.stringValue := by
    intro ht
    unfold Value.get at hget
    split at hget
    · next hobj =>
      obtain ⟨l₁, l₂, hsplit, -⟩ := List.lookup_eq_some_iff.mp hget
      have hmem : (lit "id", id) ∈ message.members := by
        rw [hsplit]
        simp
      exact hnum id (Value.Inside.member hobj hmem Value.Inside.self) ht
    · cases hget
  have hscalar : id.type = .number ∨ id.type = .string := by simpa [usableId] using h
  refine ⟨Sendable.scalar ?_ ?_ htoken, hget ▸ echoedId_usable h⟩
  · rcases hscalar with ht | ht <;> simp [ht]
  · rcases hscalar with ht | ht <;> simp [ht]

theorem replyId_null (hget : ∀ id ∈ message.get (lit "id"), usableId id = false) :
    ReplyId message Value.null := by
  refine ⟨Sendable.null, ?_⟩
  cases hid : message.get (lit "id") with
  | none => exact rfl
  | some id => exact echoedId_unusable (hget id hid)

end requests

section handlers

variable {σ : Type*} (session : AgentSession σ) (version : Bytes)

theorem replies_handleMethod {message id : Value} (hid : ReplyId message id) (method : Bytes)
    (params : Value) (s : σ) :
    Replies message (handleMethod session version id method params s).1 := by
  unfold handleMethod
  split
  · exact replies_response hid ((sendable_initialized session version params).mono (by decide))
  split
  · exact replies_response hid
      ((@Sendable.ofMembers 0 [] (by simp) (by simp)).mono (by decide))
  split
  · exact replies_response hid (sendable_toolsList session)
  split
  · split
    · exact replies_error hid _ _
    · exact replies_response hid ((sendable_toolsCall _).mono (by decide))
  · exact replies_error hid _ _

theorem handleRequest_spec {message : Value} (hnum : message.NumberTokens) (s : σ) :
    (Silent message → (handleRequest session version message s).1 = []) ∧
      (¬ Silent message → Replies message (handleRequest session version message s).1) := by
  unfold handleRequest
  by_cases hobj : message.type = .object
  · rw [if_neg (by simpa using hobj)]
    cases hid : message.get (lit "id") with
    | none => exact ⟨fun _ => rfl, fun h => absurd ⟨hobj, Or.inl hid⟩ h⟩
    | some id =>
      have hnull : usableId id = false → ReplyId message Value.null := by
        intro husable
        refine replyId_null fun id' hid' => ?_
        rw [hid] at hid'
        cases hid'
        exact husable
      cases hmethod : message.getString (lit "method") with
      | none =>
        dsimp only
        split
        · next hbody =>
          rw [Bool.and_eq_true, Option.isNone_iff_eq_none, Option.isNone_iff_eq_none] at hbody
          refine ⟨fun h => ?_, fun _ => ?_⟩
          · rcases h.2 with h | ⟨-, h | h⟩
            · rw [hid] at h
              cases h
            · rw [hbody.1] at h
              cases h
            · rw [hbody.2] at h
              cases h
          · split
            · next husable => exact replies_error (replyId_usable hnum hid husable) _ _
            · next husable => exact replies_error (hnull (by simpa using husable)) _ _
        · next hbody =>
          refine ⟨fun _ => rfl, fun h => absurd ⟨hobj, Or.inr ⟨hmethod, ?_⟩⟩ h⟩
          rw [Bool.and_eq_true, not_and_or] at hbody
          simpa [Option.isSome_iff_ne_none] using hbody
      | some method =>
        dsimp only
        have hloud : ¬ Silent message := by
          rintro ⟨-, h | ⟨h, -⟩⟩
          · rw [hid] at h
            cases h
          · rw [hmethod] at h
            cases h
        refine ⟨fun h => absurd h hloud, fun _ => ?_⟩
        split
        · next husable => exact replies_error (hnull (by simpa using husable)) _ _
        · next husable =>
          exact replies_handleMethod session version
            (replyId_usable hnum hid (by simpa using husable)) method _ s
  · rw [if_pos (by simpa using hobj)]
    refine ⟨fun h => absurd h.1 hobj, fun _ => replies_error (replyId_null fun id hid => ?_) _ _⟩
    rw [Value.get, if_neg hobj] at hid
    cases hid

end handlers

/-! ### Batches -/

/-- `replies` after the values `vs` were dumped. -/
def batchText (vs : List Value) : Bytes :=
  if vs.isEmpty then [] else 0x5b :: commaSeparated (vs.map write)

theorem Sendable.write_ne_nil {v : Value} (h : Sendable kMaxDepth v) : write v ≠ [] := by
  obtain ⟨b, t, heq, -⟩ :=
    (jsonValue_write h.depth_le h.numberTokens h.distinctKeys).first
  rw [heq]
  exact List.cons_ne_nil b t

theorem commaSeparated_append {xs : List Bytes} (hne : xs ≠ []) (x : Bytes) :
    commaSeparated (xs ++ [x]) = commaSeparated xs ++ 0x2c :: x := by
  induction xs with
  | nil => exact absurd rfl hne
  | cons y ys ih =>
    cases ys with
    | nil => rfl
    | cons z zs =>
      rw [List.cons_append, List.cons_append, commaSeparated_cons, commaSeparated_cons,
        ← List.cons_append, ih (by simp), List.append_assoc]
      rfl

theorem batchText_append (vs : List Value) (v : Value) :
    batchText vs ++ (if (batchText vs).isEmpty then [0x5b] else [0x2c]) ++ write v
      = batchText (vs ++ [v]) := by
  cases vs with
  | nil => rfl
  | cons w ws =>
    have hmap : (w :: ws).map write ≠ [] := by simp
    show 0x5b :: commaSeparated ((w :: ws).map write) ++ [0x2c] ++ write v
      = 0x5b :: commaSeparated ((w :: ws ++ [v]).map write)
    rw [List.map_append, List.map_singleton, commaSeparated_append hmap, List.append_assoc]
    rfl

section batches

variable {σ : Type*} (session : AgentSession σ) (version : Bytes)

theorem handleBatch_spec {items : List Value} (hnum : ∀ item ∈ items, item.NumberTokens)
    (us : List Value) (s : σ) : ∃ vs : List Value, (∀ v ∈ vs, Sendable 105 v) ∧
      List.Forall₂ (fun item v => ReplyTo item (v.mapStrings repair))
        (items.filter fun item => !decide (Silent item)) vs ∧
      (handleBatch session version (batchText us) items s).1 = batchText (us ++ vs) := by
  induction items generalizing us s with
  | nil => exact ⟨[], by simp, List.Forall₂.nil, by simp [handleBatch]⟩
  | cons item items ih =>
    obtain ⟨hitem, hitems⟩ := List.forall_mem_cons.mp hnum
    obtain ⟨hsilent, hloud⟩ := handleRequest_spec session version hitem s
    rw [handleBatch]
    generalize handleRequest session version item s = answer at hsilent hloud ⊢
    obtain ⟨reply, s'⟩ := answer
    dsimp only at hsilent hloud ⊢
    by_cases hs : Silent item
    · obtain ⟨vs, hsends, hvs, hrun⟩ := ih hitems us s'
      refine ⟨vs, hsends, ?_, ?_⟩
      · rwa [List.filter_cons_of_neg (by simpa using hs)]
      · rw [hsilent hs]
        exact hrun
    · obtain ⟨v, rfl, hsend, hreply⟩ := hloud hs
      have hdeep : Sendable kMaxDepth v := hsend.mono (by decide)
      have hne := hdeep.write_ne_nil
      obtain ⟨vs, hsends, hvs, hrun⟩ := ih hitems (us ++ [v]) s'
      refine ⟨v :: vs, List.forall_mem_cons.mpr ⟨hsend, hsends⟩, ?_, ?_⟩
      · rw [List.filter_cons_of_pos (by simpa using hs)]
        exact List.Forall₂.cons hreply hvs
      · rw [if_neg (by simpa using hne), batchText_append, hrun, List.append_assoc]
        rfl

/-! ### Messages -/

inductive MessageAnswer : Value → Option Bytes → Prop
  | emptyBatch {m u : Value} {t : Bytes} : m.type = .array → m.arrayValue = [] →
      JsonText valueMeaning kMaxDepth t u → NullError u → MessageAnswer m (some t)
  | batch {m : Value} {us : List Value} {t : Bytes} : m.type = .array → us ≠ [] →
      List.Forall₂ ReplyTo (m.arrayValue.filter fun item => !decide (Silent item)) us →
      JsonText valueMeaning kMaxDepth t (Value.ofItems us) → MessageAnswer m (some t)
  | silentBatch {m : Value} : m.type = .array → m.arrayValue ≠ [] →
      (∀ item ∈ m.arrayValue, Silent item) → MessageAnswer m none
  | request {m u : Value} {t : Bytes} : m.type ≠ .array → ¬ Silent m →
      JsonText valueMeaning kMaxDepth t u → ReplyTo m u → MessageAnswer m (some t)
  | silent {m : Value} : m.type ≠ .array → Silent m → MessageAnswer m none

/-- The answer to a line that is read, its newline left out. -/
inductive Answered (line : Bytes) : Option Bytes → Prop
  | tooLong {u : Value} {t : Bytes} : kMaxMessageBytes < line.length →
      JsonText valueMeaning kMaxDepth t u → NullError u → Answered line (some t)
  | blank : line.length ≤ kMaxMessageBytes → isBlank (dropCr line) = true → Answered line none
  | notJson {u : Value} {t : Bytes} : line.length ≤ kMaxMessageBytes →
      isBlank (dropCr line) = false →
      (¬ ∃ m, JsonText valueMeaning kMaxDepth (afterBom (dropCr line)) m) →
      JsonText valueMeaning kMaxDepth t u → NullError u → Answered line (some t)
  | message {m : Value} {answer : Option Bytes} : line.length ≤ kMaxMessageBytes →
      isBlank (dropCr line) = false →
      JsonText valueMeaning kMaxDepth (afterBom (dropCr line)) m → MessageAnswer m answer →
      Answered line answer

theorem nullError_text (code : ℤ) (text : Bytes) : ∃ u,
    JsonText valueMeaning kMaxDepth (errorResponse Value.null code text) u ∧ NullError u ∧
      (0x0a : UInt8) ∉ errorResponse Value.null code text ∧
      errorResponse Value.null code text ≠ [] := by
  have hsend : Sendable kMaxDepth (replyValue Value.null "error" (Value.ofMembers
      [(lit "code", numberValue code), (lit "message", Value.string text)])) :=
    (sendable_reply (by simp) Sendable.null (sendable_error code text)).mono (by decide)
  rw [errorResponse_eq]
  exact ⟨_, hsend.jsonText, nullError_reply code text, hsend.no_newline, hsend.write_ne_nil⟩

/-- What `handleMcpMessage` returns is the answer to its message. -/
theorem handleMcpMessage_spec {line : Bytes} {m : Value} (hparse : parse line = some m) (s : σ) :
    (∀ t, (handleMcpMessage session version line s).1 = t → t ≠ [] →
      MessageAnswer m (some t) ∧ (0x0a : UInt8) ∉ t) ∧
    ((handleMcpMessage session version line s).1 = [] → MessageAnswer m none) := by
  have hnum := numberTokens_parse hparse
  rw [handleMcpMessage, hparse]
  dsimp only
  by_cases harr : m.type = .array
  · rw [if_pos harr]
    by_cases hempty : m.arrayValue.isEmpty
    · rw [if_pos hempty]
      obtain ⟨u, htext, herror, hline, hne⟩ :=
        nullError_text (-32600) (lit "invalid request: empty batch")
      refine ⟨?_, fun h => absurd h hne⟩
      rintro t rfl -
      exact ⟨.emptyBatch harr (List.isEmpty_iff.mp hempty) htext herror, hline⟩
    · rw [if_neg hempty]
      obtain ⟨vs, hsends, hvs, hrun⟩ := handleBatch_spec session version
        (fun item hitem => NumberTokens.item hnum harr hitem) [] s
      have hstart : batchText [] = [] := rfl
      rw [hstart, List.nil_append] at hrun
      generalize handleBatch session version [] m.arrayValue s = answer at hrun ⊢
      obtain ⟨replies, s'⟩ := answer
      dsimp only at hrun ⊢
      subst hrun
      cases vs with
      | nil =>
        refine ⟨fun t ht hne => absurd ht.symm hne, fun _ => ?_⟩
        refine .silentBatch harr (by simpa using hempty) fun item hitem => ?_
        have hnone := List.forall₂_nil_right_iff.mp hvs
        simpa using List.filter_eq_nil_iff.mp hnone item hitem
      | cons v vs =>
        have hsend : Sendable kMaxDepth (Value.ofItems (v :: vs)) :=
          (Sendable.ofItems hsends).mono (by decide)
        have htext : (if (batchText (v :: vs)).isEmpty then [] else batchText (v :: vs) ++ [0x5d])
            = write (Value.ofItems (v :: vs)) := by
          rw [Value.ofItems, write, writeItems_eq]
          rfl
        rw [htext]
        refine ⟨?_, fun h => absurd h hsend.write_ne_nil⟩
        rintro t rfl -
        have hjson := hsend.jsonText
        rw [Value.ofItems, Value.mapStrings, Value.mapItems_eq] at hjson
        refine ⟨.batch harr (by simp) ?_ hjson, hsend.no_newline⟩
        rw [List.forall₂_map_right_iff]
        exact hvs
  · rw [if_neg harr]
    obtain ⟨hsilent, hloud⟩ := handleRequest_spec session version hnum s
    by_cases hs : Silent m
    · rw [hsilent hs]
      exact ⟨fun t ht hne => absurd ht.symm hne, fun _ => .silent harr hs⟩
    · obtain ⟨v, htext, hsend, hreply⟩ := hloud hs
      have hsend : Sendable kMaxDepth v := hsend.mono (by decide)
      rw [htext]
      refine ⟨?_, fun h => absurd h hsend.write_ne_nil⟩
      rintro t rfl -
      exact ⟨.request harr hs hsend.jsonText hreply, hsend.no_newline⟩

end batches

/-! ### Lines -/

/-- The lines of an input: each one ends at a newline, the last one also at the end. -/
inductive Lines : Bytes → List Bytes → Prop
  | nil : Lines [] []
  | last {line : Bytes} : (0x0a : UInt8) ∉ line → line ≠ [] → Lines line [line]
  | cons {line rest : Bytes} {lines : List Bytes} : (0x0a : UInt8) ∉ line → Lines rest lines →
      Lines (line ++ 0x0a :: rest) (line :: lines)

section lines

variable {line rest : Bytes}

theorem readLoop_tooLong (h : (0x0a : UInt8) ∉ line) (any : Bool) :
    readLoop [] true any (line ++ 0x0a :: rest) = (.tooLong, [], rest) := by
  induction line generalizing any with
  | nil => rfl
  | cons c line ih =>
    obtain ⟨hc, hline⟩ := not_or.mp (List.mem_cons.not.mp h)
    rw [List.cons_append, readLoop, if_neg (by simpa using fun heq => hc heq.symm), if_pos rfl]
    exact ih hline true

theorem readLoop_tooLong_last (h : (0x0a : UInt8) ∉ line) :
    readLoop [] true true line = (.tooLong, [], []) := by
  induction line with
  | nil => rfl
  | cons c line ih =>
    obtain ⟨hc, hline⟩ := not_or.mp (List.mem_cons.not.mp h)
    rw [readLoop, if_neg (by simpa using fun heq => hc heq.symm), if_pos rfl]
    exact ih hline

/-- One turn on a byte of a line. -/
theorem readLoop_step {acc : Bytes} {c : UInt8} {any : Bool} (hc : (0x0a : UInt8) ≠ c) :
    readLoop acc false any (c :: rest) = if acc.length = kMaxMessageBytes
      then readLoop [] true true rest else readLoop (acc ++ [c]) false true rest := by
  rw [readLoop, if_neg (by simpa using hc.symm), if_neg (by decide)]

theorem readLoop_line {acc : Bytes} {any : Bool} (hacc : acc.length ≤ kMaxMessageBytes)
    (h : (0x0a : UInt8) ∉ line) : readLoop acc false any (line ++ 0x0a :: rest)
      = if kMaxMessageBytes < (acc ++ line).length then (.tooLong, [], rest)
        else (.line, acc ++ line, rest) := by
  induction line generalizing acc any with
  | nil => rw [List.append_nil, if_neg (by omega)]; rfl
  | cons c line ih =>
    obtain ⟨hc, hline⟩ := not_or.mp (List.mem_cons.not.mp h)
    rw [List.cons_append, readLoop_step hc]
    split
    · next hfull =>
      rw [readLoop_tooLong hline, if_pos (by rw [List.length_append, List.length_cons]; omega)]
    · next hfull =>
      rw [ih (by rw [List.length_append, List.length_singleton]; omega) hline, List.append_assoc,
        List.singleton_append]

theorem readLoop_last {acc : Bytes} (hacc : acc.length ≤ kMaxMessageBytes)
    (h : (0x0a : UInt8) ∉ line) : readLoop acc false true line
      = if kMaxMessageBytes < (acc ++ line).length then (.tooLong, [], [])
        else (.line, acc ++ line, []) := by
  induction line generalizing acc with
  | nil => rw [List.append_nil, if_neg (by omega)]; rfl
  | cons c line ih =>
    obtain ⟨hc, hline⟩ := not_or.mp (List.mem_cons.not.mp h)
    rw [readLoop_step hc]
    split
    · next hfull =>
      rw [readLoop_tooLong_last hline, if_pos (by rw [List.length_append, List.length_cons]; omega)]
    · next hfull =>
      rw [ih (by rw [List.length_append, List.length_singleton]; omega) hline, List.append_assoc,
        List.singleton_append]

theorem readLine_line (h : (0x0a : UInt8) ∉ line) : readLine (line ++ 0x0a :: rest)
      = if kMaxMessageBytes < line.length then (.tooLong, [], rest) else (.line, line, rest) :=
  readLoop_line (Nat.zero_le _) h

theorem readLine_last (h : (0x0a : UInt8) ∉ line) (hne : line ≠ []) : readLine line
      = if kMaxMessageBytes < line.length then (.tooLong, [], []) else (.line, line, []) := by
  obtain ⟨c, cs, rfl⟩ := List.exists_cons_of_ne_nil hne
  obtain ⟨hc, hcs⟩ := not_or.mp (List.mem_cons.not.mp h)
  have hone : ([] ++ [c]).length ≤ kMaxMessageBytes := by simp [kMaxMessageBytes]
  rw [readLine, readLoop_step hc, if_neg (by decide), readLoop_last hone hcs]
  rfl

theorem exists_line {input : Bytes} (hne : input ≠ []) : ∃ line, (0x0a : UInt8) ∉ line ∧
    ((input = line ∧ line ≠ []) ∨ ∃ rest, input = line ++ 0x0a :: rest) := by
  refine ⟨input.takeWhile (· != 0x0a), fun hmem => ?_, ?_⟩
  · exact absurd (List.mem_takeWhile_imp hmem) (by decide)
  · have hsplit := List.takeWhile_append_dropWhile (p := fun b : UInt8 => b != 0x0a) (l := input)
    cases hdrop : input.dropWhile (· != 0x0a) with
    | nil =>
      rw [hdrop, List.append_nil] at hsplit
      exact Or.inl ⟨hsplit.symm, by rwa [hsplit]⟩
    | cons c rest =>
      have hc := List.head_dropWhile_not (fun b : UInt8 => b != 0x0a) (l := input) (by rw [hdrop]; simp)
      simp only [hdrop, List.head_cons, bne_eq_false_iff_eq] at hc
      rw [hdrop, hc] at hsplit
      exact Or.inr ⟨rest, hsplit.symm⟩

end lines

/-! ### The server -/

def written (answers : List (Option Bytes)) : Bytes :=
  (answers.filterMap id).flatMap fun text => text ++ [0x0a]

section server

variable {σ : Type*} (session : AgentSession σ) (version : Bytes)

theorem answered_message {line : Bytes} (hlen : line.length ≤ kMaxMessageBytes)
    (hblank : isBlank (dropCr line) = false) (s : σ) : ∃ answer, Answered line answer ∧
      (∀ t ∈ answer, (0x0a : UInt8) ∉ t) ∧
      answer.getD [] = (handleMcpMessage session version (dropCr line) s).1 ∧
      (answer = some [] → False) := by
  cases hparse : parse (dropCr line) with
  | none =>
    obtain ⟨u, htext, herror, hline, hne⟩ := nullError_text (-32700) (lit "parse error")
    refine ⟨_, Answered.notJson hlen hblank ?_ htext herror, ?_, ?_, ?_⟩
    · rintro ⟨m, hm⟩
      rw [(parse_afterBom_iff _ _).mpr hm] at hparse
      cases hparse
    · rintro t ⟨⟩
      exact hline
    · rw [handleMcpMessage, hparse]
      rfl
    · intro h
      exact hne (Option.some.inj h)
  | some m =>
    obtain ⟨hsome, hnone⟩ := handleMcpMessage_spec session version hparse s
    have hm := (parse_afterBom_iff _ _).mp hparse
    generalize (handleMcpMessage session version (dropCr line) s).1 = reply at hsome hnone ⊢
    by_cases hreply : reply = []
    · exact ⟨none, Answered.message hlen hblank hm (hnone hreply), by simp, hreply.symm, by simp⟩
    · obtain ⟨hanswer, hline⟩ := hsome reply rfl hreply
      exact ⟨some reply, Answered.message hlen hblank hm hanswer, by simpa using hline, rfl,
        by simpa using hreply⟩

theorem serve_step {input line rest : Bytes} (fuel : ℕ) (s : σ)
    (hread : readLine input = if kMaxMessageBytes < line.length then (.tooLong, [], rest)
      else (.line, line, rest)) :
    ∃ answer s', Answered line answer ∧ (∀ t ∈ answer, (0x0a : UInt8) ∉ t) ∧
      (serve session version (fuel + 1) input s).1
        = written [answer] ++ (serve session version fuel rest s').1 := by
  rw [serve, hread]
  by_cases hlong : kMaxMessageBytes < line.length
  · obtain ⟨u, htext, herror, hline, hne⟩ := nullError_text (-32600)
      (lit "invalid request: message longer than " ++ intText (kMaxMessageBytes >>> 20 : ℕ)
        ++ lit " MiB")
    refine ⟨_, s, Answered.tooLong hlong htext herror, ?_, ?_⟩
    · rintro t ⟨⟩
      exact hline
    · rw [if_pos hlong]
      simp only [reduceCtorEq, false_and, ↓reduceIte]
      rw [if_neg (by simpa using hne)]
      simp [written]
  · rw [if_neg hlong]
    simp only [reduceCtorEq, true_and, ↓reduceIte]
    by_cases hblank : isBlank (dropCr line) = true
    · exact ⟨none, s, Answered.blank (by omega) hblank, by simp, by rw [if_pos hblank]; rfl⟩
    · have hlen : line.length ≤ kMaxMessageBytes := by omega
      obtain ⟨answer, hanswer, hline, hreply, hne⟩ :=
        answered_message session version hlen (by simpa using hblank) s
      rw [if_neg hblank, ← hreply]
      refine ⟨answer, (handleMcpMessage session version (dropCr line) s).2, hanswer, hline, ?_⟩
      cases answer with
      | none => rfl
      | some t =>
        have ht : t ≠ [] := fun heq => hne (heq ▸ rfl)
        rw [Option.getD_some, if_neg (by simpa using ht)]
        simp [written]

theorem serve_nil (fuel : ℕ) (s : σ) : serve session version fuel [] s = ([], s) := by
  cases fuel <;> rfl

theorem written_cons (answer : Option Bytes) (answers : List (Option Bytes)) :
    written (answer :: answers) = written [answer] ++ written answers := by
  cases answer <;> simp [written]

theorem serve_lines {fuel : ℕ} {input : Bytes} (hfuel : input.length < fuel) (s : σ) :
    ∃ lines answers, Lines input lines ∧ List.Forall₂ Answered lines answers ∧
      (∀ answer ∈ answers, ∀ t ∈ answer, (0x0a : UInt8) ∉ t) ∧
      (serve session version fuel input s).1 = written answers := by
  induction fuel generalizing input s with
  | zero => exact absurd hfuel (Nat.not_lt_zero _)
  | succ fuel ih =>
    by_cases hne : input = []
    · subst hne
      exact ⟨[], [], Lines.nil, List.Forall₂.nil, by simp, rfl⟩
    obtain ⟨line, hline, ⟨rfl, -⟩ | ⟨rest, rfl⟩⟩ := exists_line hne
    · obtain ⟨answer, s', hanswer, htext, hrun⟩ :=
        serve_step session version fuel s (readLine_last hline hne)
      refine ⟨[input], [answer], Lines.last hline hne, List.Forall₂.cons hanswer List.Forall₂.nil,
        by simpa using htext, ?_⟩
      rw [hrun, serve_nil, List.append_nil]
    · have hread := @readLine_line line rest hline
      obtain ⟨answer, s', hanswer, htext, hrun⟩ := serve_step session version fuel s hread
      have hrest : rest.length < fuel := by
        rw [List.length_append, List.length_cons] at hfuel
        omega
      obtain ⟨lines, answers, hlines, hanswers, htexts, hrest⟩ := ih hrest s'
      refine ⟨line :: lines, answer :: answers, Lines.cons hline hlines,
        List.Forall₂.cons hanswer hanswers, List.forall_mem_cons.mpr ⟨htext, htexts⟩, ?_⟩
      rw [hrun, hrest, ← written_cons]

/-- For every input, session and state: the output is one line for each line that gets an answer,
in their order. -/
theorem mcp_answers_each_line (input : Bytes) (s : σ) : ∃ lines answers, Lines input lines ∧
    List.Forall₂ Answered lines answers ∧
    (∀ answer ∈ answers, ∀ t ∈ answer, (0x0a : UInt8) ∉ t) ∧
    (runMcpServer session version input s).1
      = (answers.filterMap id).flatMap fun text => text ++ [0x0a] :=
  serve_lines session version (Nat.lt_succ_self _) s

end server

/-- `schema` of one property, of which none is required. -/
def schema (key : String) (type description : Bytes) : Value :=
  Value.ofMembers [(lit "type", Value.string (lit "object")),
    (lit "properties", Value.ofMembers [(lit key, Value.ofMembers
      [(lit "type", Value.string type), (lit "description", Value.string description)])]),
    (lit "required", Value.ofItems []), (lit "additionalProperties", Value.boolean false)]

theorem sendable_schema (key : String) (type description : Bytes) :
    Sendable 100 (schema key type description) := by
  refine Sendable.named ["type", "properties", "required", "additionalProperties"] rfl
    (by decide) ?_
  simp only [List.forall_mem_cons]
  refine ⟨Sendable.string _, ?_, Sendable.ofItems (by simp), Sendable.boolean _, by simp⟩
  refine Sendable.ofMembers (by simp) ?_
  simp only [List.forall_mem_cons]
  refine ⟨Sendable.named ["type", "description"] rfl (by decide) ?_, by simp⟩
  simp only [List.forall_mem_cons]
  exact ⟨Sendable.string _, Sendable.string _, by simp⟩

/-- A session with one of the tools, which calls nothing. -/
def listSession : AgentSession Unit where
  instructions := []
  tools :=
    let filter := schema "filter" (lit "string") (lit "Case-insensitive part of the process name")
    let sendable := sendable_schema "filter" _ _
    [⟨lit "list_processes", lit "List running processes of this user, largest memory first.",
      filter, sendable.numberTokens, sendable.distinctKeys, sendable.depth_le⟩]
  call _ _ s := (⟨false, Value.null⟩, s)

def listRequest : Value :=
  Value.ofMembers [(lit "id", Value.numberText (lit "1")),
    (lit "method", Value.string (lit "tools/list"))]

/-- The answer to `tools/list` names the tool, with its schema. -/
theorem mcp_answers_each_line_list :
    (handleRequest listSession [] listRequest ()).1 = response (Value.numberText (lit "1"))
      (Value.ofMembers [(lit "tools", Value.ofItems (listSession.tools.map toolValue))]) ∧
    ∃ lines answers, Lines (dump listRequest ++ [0x0a]) lines ∧
      List.Forall₂ Answered lines answers ∧
      (∀ answer ∈ answers, ∀ t ∈ answer, (0x0a : UInt8) ∉ t) ∧
      (runMcpServer listSession [] (dump listRequest ++ [0x0a]) ()).1
        = (answers.filterMap id).flatMap fun text => text ++ [0x0a] :=
  ⟨rfl, mcp_answers_each_line listSession [] (dump listRequest ++ [0x0a]) ()⟩

/-! ### A request that is nested too deep -/

def plainSession : AgentSession Unit := ⟨[], [], fun _ _ s => (⟨false, Value.null⟩, s)⟩

/-- Arrays in arrays, `n + 1` of them. -/
def nested : ℕ → Value
  | 0 => Value.ofItems []
  | n + 1 => Value.ofItems [nested n]

def deepRequest : Value :=
  Value.ofMembers [(lit "id", Value.numberText (lit "1")), (lit "method", Value.string (lit "ping")),
    (lit "params", nested 127)]

theorem sendable_nested (n : ℕ) : Sendable (n + 1) (nested n) := by
  induction n with
  | zero => exact Sendable.ofItems (by simp)
  | succ n ih => exact Sendable.ofItems (by simpa using ih)

theorem sendable_deepRequest : Sendable 129 deepRequest := by
  refine Sendable.named ["id", "method", "params"] rfl (by decide) ?_
  simp only [List.forall_mem_cons]
  refine ⟨?_, Sendable.string _, sendable_nested 127, by simp⟩
  have hone : numberValue 1 = Value.numberText (lit "1") := by
    simp [numberValue, intText, CtFile.digitsText, CtFile.digitByte, lit]
  exact hone ▸ Sendable.number 1

theorem mapStrings_nested (n : ℕ) : (nested n).mapStrings repair = nested n := by
  induction n with
  | zero => rfl
  | succ n ih =>
    rw [nested, Value.ofItems, Value.mapStrings, Value.mapItems, Value.mapItems, ih]
    rfl

theorem mapStrings_deepRequest : deepRequest.mapStrings repair = deepRequest := by
  simp only [deepRequest, Value.ofMembers, Value.mapStrings, Value.mapMembers, mapStrings_nested]
  rfl

theorem parse_deepRequest : (parse (dump deepRequest)).isNone = true ∧
    (dump deepRequest).length ≤ kMaxMessageBytes ∧ dropCr (dump deepRequest) = dump deepRequest ∧
    isBlank (dump deepRequest) = false := by
  decide +kernel

/-- A request of 129 levels is JSON with the id 1, and its reply has a null id. -/
theorem mcp_deep_request_loses_id : ∃ u text,
    JsonText valueMeaning 129 (dump deepRequest) deepRequest ∧
    deepRequest.type = .object ∧ ¬ Silent deepRequest ∧
    deepRequest.get (lit "id") = some (Value.numberText (lit "1")) ∧
    (runMcpServer plainSession [] (dump deepRequest ++ [0x0a]) ()).1 = text ++ [0x0a] ∧
    parse text = some u ∧ u.get (lit "id") = some Value.null ∧ ¬ ReplyTo deepRequest u := by
  obtain ⟨hparse, hlen, hcr, hblank⟩ := parse_deepRequest
  obtain ⟨u, htext, herror, -, hne⟩ := nullError_text (-32700) (lit "parse error")
  have hsend := sendable_deepRequest
  have hjson := jsonValue_write hsend.depth_le hsend.numberTokens hsend.distinctKeys
  rw [mapStrings_deepRequest] at hjson
  have hline : (0x0a : UInt8) ∉ dump deepRequest := hsend.no_newline
  have hread : readLine (dump deepRequest ++ [0x0a]) = (.line, dump deepRequest, []) := by
    rw [readLine_line hline]
    exact if_neg (by omega)
  have hreply : handleMcpMessage plainSession [] (dump deepRequest) ()
      = (errorResponse Value.null (-32700) (lit "parse error"), ()) := by
    rw [handleMcpMessage, Option.isNone_iff_eq_none.mp hparse]
  refine ⟨u, errorResponse Value.null (-32700) (lit "parse error"),
    ⟨[], _, [], Ws.nil, Ws.nil, hjson, by simp [dump]⟩, rfl, by decide, rfl, ?_,
    (parse_eq_some_iff _ _).mpr ⟨[], _, Or.inl rfl, rfl, htext⟩, herror.id, fun h => ?_⟩
  · rw [runMcpServer, serve, hread]
    simp only [reduceCtorEq, true_and, ↓reduceIte]
    rw [hcr, if_neg (by simpa using hblank), hreply, serve_nil]
    simp only [List.isEmpty_iff, hne, ↓reduceIte, List.append_nil]
  · obtain ⟨echoed, hid, hecho⟩ := h.id
    rw [herror.id] at hid
    cases hid
    cases hecho

end CheatEngine.Mcp
