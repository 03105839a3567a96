import AutoAgents.AdapterLines

/-! The streams of the two providers. A line of standard output is an event: it is read as it comes in, by the decoder of progress and by the
filter of what is shown, and once more by the parser when the process has ended. -/

namespace AutoAgents.Adapters

open Base
open Operator (strip splitlines)

abbrev Value := Json FloatLiteral

abbrev Fields := List (String × Value)

/-- What the adapters take from the language: `str` of what is no text, `int` where it does not raise, `int` and `float` that are zero,
the lines that `json.loads` fails on with an error other than that for invalid JSON, the digest of a sorted dump, and the pattern for a
provider that connects again. -/
structure Python where
  str : Value → String
  int : Value → Option Int
  isZero : FloatLiteral → Bool
  tooMuch : List Char → Bool
  fingerprint : Value → String
  reconnecting : String → Bool
  str_ne : ∀ v, str v ≠ ""

def Python.text (py : Python) : Value → String
  | .str s => s
  | v => py.str v

/-- `bool` -/
def Python.truthy (py : Python) : Value → Bool
  | .null => false
  | .bool b => b
  | .int n => n != 0
  | .float x => !py.isZero x
  | .nonFinite _ => true
  | .str s => s != ""
  | .arr items => !items.isEmpty
  | .obj fields => !fields.isEmpty

/-- `json.loads`: none where it raises an error that is not caught, and nothing where the line is no JSON. -/
def Python.loads (py : Python) (line : List Char) : Option (Option Value) := if py.tooMuch line = true then none else some (decode line)

def field (fields : Fields) (key : String) (missing : Value) : Value := (fields.lookup key).getD missing

/-- `str(event.get(key, ""))` -/
def Python.fieldText (py : Python) (fields : Fields) (key : String) : String := py.text (field fields key (.str ""))

inductive Kind
  | activity | error | toolStarted | toolCompleted | milestone | completed
  deriving DecidableEq

/-- `AgentProgressEvent` -/
structure ProgressEvent where
  kind : Kind
  sessionId : String := ""
  toolId : String := ""
  fingerprint : String := ""
  detail : String := ""
  semantic : Bool := false

inductive StreamName
  | stdout | stderr
  deriving DecidableEq

/-- A call of the callback. -/
abbrev Sent := StreamName × String

/-- `AgentUsage` -/
structure Usage where
  inputTokens : Int
  cachedInputTokens : Int
  outputTokens : Int

/-- What the final parser has gathered. -/
structure Parsed where
  visible : List String := []
  usage : Option Usage := none
  errors : List String := []
  session : String := ""
  finalText : String := ""

/-- `text if text.endswith("\n") else text + "\n"` -/
def ended (text : String) : String := if text.toList.getLast? = some '\n' then text else text ++ "\n"

/-- `int(payload.get(key, 0) or 0)` -/
def Python.tokens (py : Python) (payload : Fields) (key : String) : Option Int :=
  py.int (if py.truthy (field payload key (.int 0)) = true then field payload key (.int 0) else .int 0)

/-- `all(usage_payload.get(key) is not None for key in ("input_tokens", "output_tokens"))` -/
def counted (payload : Fields) : Bool :=
  (match field payload "input_tokens" .null with | .null => false | _ => true) &&
    match field payload "output_tokens" .null with | .null => false | _ => true

section

variable (py : Python)

/-! ### Codex -/

/-- `_codex_error_message` -/
def codexErrorMessage (event : Fields) : String :=
  if py.truthy (field event "message" .null) = true then py.text (field event "message" .null)
  else
    match field event "error" .null with
    | .obj error => py.fieldText error "message"
    | _ => ""

/-- The text of a message of the agent that an event completes. -/
def agentMessage (event : Fields) : Option String :=
  match field event "item" (.obj []) with
  | .obj item =>
      match field item "type" .null, field item "text" .null with
      | .str "agent_message", .str text => if text = "" then none else some text
      | _, _ => none
  | _ => none

def activeTools : List String := ["command_execution", "file_change", "mcp_tool_call", "web_search"]

/-- The progress of an item. -/
def itemProgress (eventType : String) (item : Fields) : ProgressEvent :=
  let itemType := py.fieldText item "type"
  let fingerprint := py.fingerprint (.obj (item.filter fun entry => entry.1 != "id"))
  if itemType ∈ activeTools then
    { kind := if eventType = "item.started" then .toolStarted else .toolCompleted
      toolId := py.fieldText item "id"
      fingerprint := fingerprint
      detail :=
        if py.truthy (field item "command" .null) = true then py.text (field item "command" .null)
        else if py.truthy (field item "name" .null) = true then py.text (field item "name" .null)
        else itemType
      semantic := eventType == "item.completed" }
  else
    let semantic := eventType == "item.completed" && (itemType == "plan" || itemType == "plan_update")
    { kind := if semantic = true then .milestone else .activity
      fingerprint := fingerprint
      detail := if itemType = "" then eventType else itemType
      semantic := semantic }

/-- The progress that `CodexProgressDecoder.feed` makes of an event. -/
def codexProgress (event : Fields) : Option (List ProgressEvent) :=
  let eventType := py.fieldText event "type"
  if eventType = "" then none
  else if eventType = "thread.started" then some [{ kind := .activity, sessionId := py.fieldText event "thread_id", detail := eventType }]
  else if eventType = "error" ∨ eventType = "turn.failed" then
    let message := codexErrorMessage py event
    if eventType = "error" ∧ py.reconnecting message = true then
      some [{ kind := .activity, detail := if message = "" then "provider reconnecting" else message }]
    else some [{ kind := .error, detail := if message = "" then eventType else message }]
  else if eventType = "item.started" ∨ eventType = "item.completed" then
    match field event "item" (.obj []) with
    | .obj item => some [itemProgress py eventType item]
    | _ => some [{ kind := .activity, detail := eventType }]
  else if eventType = "turn.completed" then some [{ kind := .completed, detail := eventType }]
  else some [{ kind := .activity, detail := eventType }]

/-- What the filter shows of an event. -/
def codexShown (event : Fields) : List Sent :=
  let eventType := py.fieldText event "type"
  if eventType = "item.completed" then ((agentMessage event).map fun text => (StreamName.stdout, ended text)).toList
  else if eventType = "error" ∨ eventType = "turn.failed" then
    let message := codexErrorMessage py event
    if message ≠ "" then [(.stderr, message ++ "\n")] else []
  else []

/-- The usage that a completed turn reports. -/
def codexUsage (event : Fields) (before : Option Usage) : Option (Option Usage) :=
  match field event "usage" .null with
  | .obj payload =>
      if counted payload = true then do
        let input ← py.tokens payload "input_tokens"
        let cached ← py.tokens payload "cached_input_tokens"
        let output ← py.tokens payload "output_tokens"
        return some ⟨input, cached, output⟩
      else some before
  | _ => some before

/-- What the final parser gathers from an event. -/
def codexGathered (acc : Parsed) (event : Fields) : Option Parsed :=
  let eventType := py.fieldText event "type"
  if eventType = "item.completed" then
    match agentMessage event with
    | some text => some { acc with visible := acc.visible ++ [ended text] }
    | none => some acc
  else if eventType = "turn.completed" then (codexUsage py event acc.usage).map fun usage => { acc with usage := usage }
  else if eventType = "error" ∨ eventType = "turn.failed" then
    let message := codexErrorMessage py event
    if message ≠ "" then some { acc with errors := acc.errors ++ [message] } else some acc
  else some acc

/-! ### Claude Code -/

def errorResultSubtypes : List String :=
  ["error_during_execution", "error_max_budget_usd", "error_max_structured_output_retries", "error_max_turns"]

/-- `str(event.get("subtype") or event.get("type") or "claude code error")` -/
def resultKind (event : Fields) : String :=
  if py.truthy (field event "subtype" .null) = true then py.text (field event "subtype" .null)
  else if py.truthy (field event "type" .null) = true then py.text (field event "type" .null)
  else "claude code error"

/-- The errors of a result that are not blank, one a line. -/
def resultErrors (event : Fields) : List (List Char) :=
  match field event "errors" .null with
  | .arr errors => (errors.map fun item => strip (py.text item).toList).filter (· ≠ [])
  | _ => []

/-- The text of a result, stripped. -/
def resultText (event : Fields) : List Char :=
  match field event "result" .null with
  | .str result => strip result.toList
  | _ => []

/-- `_claude_result_error_message` -/
def claudeResultErrorMessage (event : Fields) : String :=
  if resultText event ≠ [] then String.ofList (resultText event)
  else if resultErrors py event ≠ [] then String.ofList (['\n'].intercalate (resultErrors py event))
  else resultKind py event

/-- `_claude_content_blocks` -/
def claudeContentBlocks (event : Fields) : List Value :=
  match field event "message" .null with
  | .obj message =>
      match field message "content" .null with
      | .arr content => content
      | .str content => [.obj [("type", .str "text"), ("text", .str content)]]
      | _ => []
  | _ => []

def toolCompletedEvent (block : Fields) (blockType : String) : ProgressEvent where
  kind := .toolCompleted
  toolId := py.fieldText block "tool_use_id"
  fingerprint := py.fingerprint (.obj [("content", field block "content" (.str "")), ("is_error", field block "is_error" (.bool false))])
  detail := blockType
  semantic := true

/-- The progress of a block of the assistant. -/
def blockProgress : Value → List ProgressEvent
  | .obj block =>
      let blockType := py.fieldText block "type"
      if blockType = "tool_use" ∨ blockType = "server_tool_use" then
        [{ kind := .toolStarted
           toolId := py.fieldText block "id"
           fingerprint := py.fingerprint (.obj [("name", field block "name" (.str "")), ("input", field block "input" (.obj []))])
           detail := if py.truthy (field block "name" .null) = true then py.text (field block "name" .null) else "tool" }]
      else if "_tool_result".toList.isSuffixOf blockType.toList = true then [toolCompletedEvent py block blockType]
      else if blockType = "text" ∧ strip (py.fieldText block "text").toList ≠ [] then [{ kind := .activity, detail := "assistant.text" }]
      else []
  | _ => []

def toolResultProgress : Value → List ProgressEvent
  | .obj block => if py.fieldText block "type" = "tool_result" then [toolCompletedEvent py block "tool_result"] else []
  | _ => []

/-- `bool(event.get("is_error")) or subtype in _ERROR_RESULT_SUBTYPES` -/
def isErrorResult (event : Fields) : Bool :=
  py.truthy (field event "is_error" .null) || errorResultSubtypes.contains (py.fieldText event "subtype")

/-- The progress that `ClaudeProgressDecoder.feed` makes of an event. -/
def claudeProgress (event : Fields) : Option (List ProgressEvent) :=
  let eventType := py.fieldText event "type"
  if eventType = "" then none
  else if eventType = "system" then
    let subtype := py.fieldText event "subtype"
    some [{ kind := .activity, sessionId := py.fieldText event "session_id",
            detail := if subtype = "" then eventType else "system." ++ subtype }]
  else if eventType = "assistant" then some ((claudeContentBlocks event).flatMap (blockProgress py))
  else if eventType = "user" then some ((claudeContentBlocks event).flatMap (toolResultProgress py))
  else if eventType = "stream_event" then some []
  else if eventType = "result" then
    if isErrorResult py event = true then some [{ kind := .error, detail := claudeResultErrorMessage py event }]
    else some [{ kind := .completed, detail := eventType }]
  else some [{ kind := .activity, detail := eventType }]

/-- The text of a block, if it is one of text. -/
def blockText : Value → Option String
  | .obj block =>
      if py.fieldText block "type" = "text" then
        match field block "text" .null with
        | .str text => if text = "" then none else some (ended text)
        | _ => none
      else none
  | _ => none

/-- What the filter shows of an event. -/
def claudeShown (event : Fields) : List Sent :=
  let eventType := py.fieldText event "type"
  if eventType = "assistant" then ((claudeContentBlocks event).filterMap (blockText py)).map fun text => (.stdout, text)
  else if eventType = "result" then
    if isErrorResult py event = true then
      if claudeResultErrorMessage py event ≠ "" then [(.stderr, claudeResultErrorMessage py event ++ "\n")] else []
    else []
  else []

def claudeUsage (event : Fields) (before : Option Usage) : Option (Option Usage) :=
  match field event "usage" .null with
  | .obj payload =>
      if counted payload = true then do
        let uncached ← py.tokens payload "input_tokens"
        let creation ← py.tokens payload "cache_creation_input_tokens"
        let cached ← py.tokens payload "cache_read_input_tokens"
        let output ← py.tokens payload "output_tokens"
        return some ⟨uncached + creation + cached, cached, output⟩
      else some before
  | _ => some before

/-- `candidate` where there is one. -/
def newer (candidate before : String) : String := if candidate = "" then before else candidate

/-- What a result says of the session, and the error or the answer that it is. -/
def claudeResult (acc : Parsed) (event : Fields) : Parsed :=
  { acc with
    session := newer (py.fieldText event "session_id") acc.session
    errors := if isErrorResult py event = true then acc.errors ++ [claudeResultErrorMessage py event] else acc.errors
    finalText :=
      if isErrorResult py event = false ∧ resultText event ≠ [] then String.ofList (resultText event) else acc.finalText }

/-- What the final parser gathers from an event. -/
def claudeGathered (acc : Parsed) (event : Fields) : Option Parsed :=
  let eventType := py.fieldText event "type"
  if eventType = "system" then some { acc with session := newer (py.fieldText event "session_id") acc.session }
  else if eventType = "assistant" then some { acc with visible := acc.visible ++ (claudeContentBlocks event).filterMap (blockText py) }
  else if eventType = "result" then
    (claudeUsage py event acc.usage).map fun usage => { claudeResult py acc event with usage := usage }
  else some acc

/-! ### Adapters -/

/-- What the two adapters differ in: what they make of an event, of a line that is no object, and of the end of the process. -/
structure Adapter where
  progress : Fields → Option (List ProgressEvent)
  shown : Fields → List Sent
  shownOther : Option (List Sent)
  gathered : Parsed → Fields → Option Parsed
  gatheredOther : Parsed → List Char → Option Parsed
  /-- The session that the result names, where the decoder has read another one. -/
  session : Parsed → String → String
  ok : Int → Parsed → Bool

def codex : Adapter where
  progress := codexProgress py
  shown := codexShown py
  -- the attribute that an object has is asked for of any document
  shownOther := none
  gathered := codexGathered py
  gatheredOther _ _ := none
  session _ live := live
  ok returncode _ := returncode == 0

def claude : Adapter where
  progress := claudeProgress py
  shown := claudeShown py
  shownOther := some []
  gathered := claudeGathered py
  gatheredOther acc raw := some { acc with visible := acc.visible ++ [String.ofList raw ++ "\n"] }
  session parsed _ := parsed.session
  ok returncode parsed := returncode == 0 && parsed.errors.isEmpty

variable (a : Adapter)

/-- `feed`, of a chunk of standard output; none where it raises. -/
def Adapter.feed (chunk : List Char) : Option (List ProgressEvent) :=
  let line := strip chunk
  if line = [] then some []
  else
    match py.loads line with
    | some (some (.obj event)) => a.progress event
    | _ => none

/-- The filter that `_make_json_stream_filter` returns, of a chunk of standard output: the calls of the callback. -/
def Adapter.filtered (chunk : List Char) : Option (List Sent) :=
  let line := strip chunk
  if line = [] then some []
  else
    match py.loads line with
    | none => none
    | some none => some [(.stdout, String.ofList chunk)]
    | some (some (.obj event)) => some (a.shown event)
    | some (some _) => a.shownOther

/-- One turn of the loop of `_parse_json_stdout`. -/
def Adapter.readLine (acc : Parsed) (raw : List Char) : Option Parsed :=
  let line := strip raw
  if line = [] then some acc
  else
    match py.loads line with
    | none => none
    | some none => some { acc with visible := acc.visible ++ [String.ofList raw ++ "\n"] }
    | some (some (.obj event)) => a.gathered acc event
    | some (some _) => a.gatheredOther acc raw

/-- `_parse_json_stdout` -/
def Adapter.parseJsonStdout (stdout : List Char) : Option Parsed := (splitlines stdout).foldlM (a.readLine py) {}

/-- The calls of the callback over the chunks that `forward_output` reads. -/
def Adapter.live (chunks : List (List Char)) : Option (List Sent) := (chunks.mapM (a.filtered py)).map List.flatten

/-- The session that the decoder has read. -/
def Adapter.liveSession (chunks : List (List Char)) : String :=
  chunks.foldl (fun session chunk => ((a.feed py chunk).getD []).foldl (fun session event => newer event.sessionId session) session) ""

/-- The decoder reports an error for one of the chunks. -/
def Adapter.ReportsError (chunks : List (List Char)) : Prop :=
  ∃ chunk ∈ chunks, ∃ events, a.feed py chunk = some events ∧ ∃ event ∈ events, event.kind = .error

/-! ### The two readings -/

/-- A document that is written: an object has no name twice. -/
abbrev Written := { v : Value // v.Distinct }

def textsOf (name : StreamName) (sent : List Sent) : List String := (sent.filter fun call => call.1 == name).map Prod.snd

/-- Neither reading raises; both act on the same lines; they agree in what is visible, in the errors and in the session; and if the decoder
reports an error the result is not ok. -/
def Adapter.Agrees (values : List Written) (returncode : Int) : Prop :=
  let lines := values.map fun v => v.1.encode
  let chunks := lines.map (· ++ ['\n'])
  ∃ parsed sent, a.parseJsonStdout py (written lines) = some parsed ∧ a.live py chunks = some sent ∧
    fragments (written lines) = lines ∧ String.join parsed.visible = String.join (textsOf .stdout sent) ∧
    parsed.errors.map (· ++ "\n") = textsOf .stderr sent ∧ a.session parsed (a.liveSession py chunks) = a.liveSession py chunks ∧
    (a.ReportsError py chunks → a.ok returncode parsed = false)

/-! ### One line -/

theorem strip_chunk (v : Value) : strip (v.encode ++ ['\n']) = v.encode := by
  have htrimmed := trimmed_encode v
  have hdrop : ∀ (c : Char) (rest : List Char), Operator.isSpace c = false → (c :: rest).dropWhile Operator.isSpace = c :: rest :=
    fun c rest hc => List.dropWhile_cons_of_neg (by simp [hc])
  obtain ⟨c, rest, heq⟩ := List.exists_cons_of_ne_nil htrimmed.1
  have hfirst : (v.encode ++ ['\n']).dropWhile Operator.isSpace = v.encode ++ ['\n'] := by
    have hhead := htrimmed.2.1
    rw [heq] at hhead ⊢
    exact hdrop c _ hhead
  have hlast := htrimmed.2.2
  rw [← List.head?_reverse] at hlast
  rw [strip, hfirst, List.reverse_append, List.reverse_singleton, List.singleton_append,
    List.dropWhile_cons_of_pos (by decide)]
  obtain ⟨d, before, hreverse⟩ := List.exists_cons_of_ne_nil (by simpa using htrimmed.1 : v.encode.reverse ≠ [])
  rw [hreverse] at hlast ⊢
  rw [hdrop d before hlast, ← hreverse, List.reverse_reverse]

/-- What the parser makes of a document that stands in a line. -/
def Adapter.readValue (acc : Parsed) (v : Value) : Option Parsed :=
  if py.tooMuch v.encode = true then none
  else
    match v with
    | .obj event => a.gathered acc event
    | v => a.gatheredOther acc v.encode

/-- What the filter makes of it. -/
def Adapter.showValue (v : Value) : Option (List Sent) :=
  if py.tooMuch v.encode = true then none
  else
    match v with
    | .obj event => some (a.shown event)
    | _ => a.shownOther

/-- What the decoder makes of it. -/
def Adapter.feedValue (v : Value) : Option (List ProgressEvent) :=
  if py.tooMuch v.encode = true then none
  else
    match v with
    | .obj event => a.progress event
    | _ => none

variable {py a}

theorem readLine_encode (acc : Parsed) (v : Written) : a.readLine py acc v.1.encode = a.readValue py acc v.1 := by
  obtain ⟨v, hv⟩ := v
  simp only [Adapter.readLine, strip_encode, if_neg (trimmed_encode v).1, Python.loads, Adapter.readValue, decode_encode hv]
  by_cases hmuch : py.tooMuch v.encode = true
  · simp only [hmuch, if_true]
  · cases v <;> simp only [hmuch, if_false, Bool.false_eq_true]

theorem filtered_chunk (v : Written) : a.filtered py (v.1.encode ++ ['\n']) = a.showValue py v.1 := by
  obtain ⟨v, hv⟩ := v
  simp only [Adapter.filtered, strip_chunk, if_neg (trimmed_encode v).1, Python.loads, Adapter.showValue, decode_encode hv]
  by_cases hmuch : py.tooMuch v.encode = true
  · simp only [hmuch, if_true]
  · cases v <;> simp only [hmuch, if_false, Bool.false_eq_true]

theorem feed_chunk (v : Written) : a.feed py (v.1.encode ++ ['\n']) = a.feedValue py v.1 := by
  obtain ⟨v, hv⟩ := v
  simp only [Adapter.feed, strip_chunk, if_neg (trimmed_encode v).1, Python.loads, Adapter.feedValue, decode_encode hv]
  by_cases hmuch : py.tooMuch v.encode = true
  · simp only [hmuch, if_true]
  · cases v <;> simp only [hmuch, if_false, Bool.false_eq_true]

theorem readValue_obj {acc : Parsed} {event : Fields} (h : py.tooMuch (Json.obj event : Value).encode = false) :
    a.readValue py acc (.obj event) = a.gathered acc event := if_neg (by simp [h])

theorem showValue_obj {event : Fields} (h : py.tooMuch (Json.obj event : Value).encode = false) :
    a.showValue py (.obj event) = some (a.shown event) := if_neg (by simp [h])

theorem feedValue_obj {event : Fields} (h : py.tooMuch (Json.obj event : Value).encode = false) :
    a.feedValue py (.obj event) = a.progress event := if_neg (by simp [h])

/-! ### Whole streams -/

variable (py) in
/-- A line that both readings take as one event, from which everything can be read. -/
def Clean (converts : Fields → Prop) (v : Written) : Prop :=
  unbroken v.1.encode = true ∧ py.tooMuch v.1.encode = false ∧ ∃ event, v.1 = .obj event ∧ converts event

/-- What parser and filter make of one event, and of a document that is none. -/
structure Adapter.Lawful (a : Adapter) (converts : Fields → Prop) (final : Fields → String → String) : Prop where
  runs : ∀ acc event, (∃ acc', a.gathered acc event = some acc') ↔ converts event
  keeps : ∀ {acc event acc'}, a.gathered acc event = some acc' → acc'.visible = acc.visible ++ textsOf .stdout (a.shown event) ∧
    acc'.errors.map (· ++ "\n") = acc.errors.map (· ++ "\n") ++ textsOf .stderr (a.shown event) ∧ acc'.session = final event acc.session
  otherRead : ∀ {acc raw acc'}, a.gatheredOther acc raw = some acc' → acc'.visible = acc.visible ++ [String.ofList raw ++ "\n"]
  otherShown : ∀ {sent}, a.shownOther = some sent → sent = []

def sizeOf (texts : List String) : Nat := (texts.map String.length).sum

theorem sizeOf_append (texts more : List String) : sizeOf (texts ++ more) = sizeOf texts + sizeOf more := by
  rw [sizeOf, List.map_append, List.sum_append, sizeOf, sizeOf]

theorem textsOf_append (name : StreamName) (sent more : List Sent) : textsOf name (sent ++ more) = textsOf name sent ++ textsOf name more := by
  rw [textsOf, List.filter_append, List.map_append, textsOf, textsOf]

theorem textsOf_shown (texts : List String) : textsOf .stdout (texts.map fun text => (.stdout, text)) = texts ∧
    textsOf .stderr (texts.map fun text => (.stdout, text)) = [] := by
  induction texts with
  | nil => exact ⟨rfl, rfl⟩
  | cons text rest ih =>
      refine ⟨?_, ih.2⟩
      exact congrArg (text :: ·) ih.1

theorem parseJsonStdout_written {values : List Written} (h : ∀ v ∈ values, unbroken v.1.encode = true) :
    a.parseJsonStdout py (written (values.map fun v => v.1.encode)) = values.foldlM (fun acc v => a.readValue py acc v.1) {} := by
  have hlines : ∀ line ∈ values.map fun v : Written => v.1.encode, unbroken line = true := by
    intro line hline
    obtain ⟨v, hv, rfl⟩ := List.mem_map.mp hline
    exact h v hv
  rw [Adapter.parseJsonStdout, splitlines_written hlines, List.foldlM_map]
  simp only [readLine_encode]

theorem live_chunks (values : List Written) :
    a.live py ((values.map fun v => v.1.encode).map (· ++ ['\n'])) = (values.mapM fun v => a.showValue py v.1).map List.flatten := by
  simp only [Adapter.live, List.map_map, List.mapM_map, Function.comp_def, filtered_chunk]

variable {converts : Fields → Prop} {final : Fields → String → String}

/-- A document that is no object is read as visible text and not shown, or ends a reading. -/
theorem visible_of_runs (h : a.Lawful converts final) {values : List Written} {acc parsed : Parsed} {sent : List (List Sent)}
    (hparsed : values.foldlM (fun acc v => a.readValue py acc v.1) acc = some parsed)
    (hsent : values.mapM (fun v => a.showValue py v.1) = some sent) :
    sizeOf acc.visible + sizeOf (textsOf .stdout sent.flatten) ≤ sizeOf parsed.visible ∧
      (sizeOf parsed.visible ≤ sizeOf acc.visible + sizeOf (textsOf .stdout sent.flatten) →
        ∀ v ∈ values, py.tooMuch v.1.encode = false ∧ ∃ event, v.1 = .obj event ∧ converts event) := by
  induction values generalizing acc sent with
  | nil =>
      cases hparsed
      cases hsent
      exact ⟨le_rfl, fun _ v hv => nomatch hv⟩
  | cons v rest ih =>
      rw [List.foldlM_cons] at hparsed
      rw [List.mapM_cons] at hsent
      obtain ⟨next, hnext, hparsed⟩ := Option.bind_eq_some_iff.mp hparsed
      obtain ⟨first, hfirst, hsent⟩ := Option.bind_eq_some_iff.mp hsent
      obtain ⟨later, hlater, hsent⟩ := Option.bind_eq_some_iff.mp hsent
      obtain rfl := Option.some.inj hsent
      obtain ⟨hle, hall⟩ := ih hparsed hlater
      rw [List.flatten_cons, textsOf_append, sizeOf_append]
      unfold Adapter.readValue at hnext
      unfold Adapter.showValue at hfirst
      split at hnext
      · cases hnext
      · next hmuch =>
          rw [if_neg hmuch] at hfirst
          have hmuch : py.tooMuch v.1.encode = false := by simpa using hmuch
          split at hnext
          · next event hobj =>
              rw [hobj] at hfirst
              obtain rfl := Option.some.inj hfirst
              have hvisible := (h.keeps hnext).1
              rw [hvisible, sizeOf_append] at hle hall
              refine ⟨by omega, fun htight => List.forall_mem_cons.mpr ⟨⟨hmuch, event, hobj, (h.runs acc event).mp ⟨next, hnext⟩⟩, hall (by omega)⟩⟩
          · next hother =>
              have hempty : first = [] := by
                split at hfirst
                · next event hobj => exact absurd hobj (hother event)
                · exact h.otherShown hfirst
              have hvisible := h.otherRead hnext
              have hpositive : 0 < sizeOf [String.ofList v.1.encode ++ "\n"] := by
                simp only [sizeOf, List.map_cons, List.map_nil, List.sum_cons, List.sum_nil, String.length_append]
                exact Nat.lt_of_lt_of_le (by decide : 0 < "\n".length) (by omega)
              rw [hvisible, sizeOf_append] at hle
              subst hempty
              have hnone : sizeOf (textsOf .stdout []) = 0 := rfl
              exact ⟨by omega, fun htight => by omega⟩

/-- Where every line is clean, both readings come to an end. -/
theorem runs_of_clean (h : a.Lawful converts final) {values : List Written} (hclean : ∀ v ∈ values, Clean py converts v) (acc : Parsed) :
    ∃ parsed sent, values.foldlM (fun acc v => a.readValue py acc v.1) acc = some parsed ∧
      values.mapM (fun v => a.showValue py v.1) = some sent ∧
      parsed.visible = acc.visible ++ textsOf .stdout sent.flatten ∧
      parsed.errors.map (· ++ "\n") = acc.errors.map (· ++ "\n") ++ textsOf .stderr sent.flatten ∧
      parsed.session = values.foldl (fun session v => match v.1 with | .obj event => final event session | _ => session) acc.session := by
  induction values generalizing acc with
  | nil => exact ⟨acc, [], rfl, rfl, by simp [textsOf], by simp [textsOf], rfl⟩
  | cons v rest ih =>
      obtain ⟨⟨-, hmuch, event, hobj, hconverts⟩, hrest⟩ := List.forall_mem_cons.mp hclean
      obtain ⟨next, hnext⟩ := (h.runs acc event).mpr hconverts
      obtain ⟨hvisible, herrors, hsession⟩ := h.keeps hnext
      obtain ⟨parsed, sent, hparsed, hsent, hall, hallErrors, hallSession⟩ := ih hrest next
      rw [hobj] at hmuch
      have hread : a.readValue py acc v.1 = some next := by rw [hobj, readValue_obj hmuch, hnext]
      have hshow : a.showValue py v.1 = some (a.shown event) := by rw [hobj, showValue_obj hmuch]
      refine ⟨parsed, a.shown event :: sent, ?_, ?_, ?_, ?_, ?_⟩
      · rw [List.foldlM_cons, hread]
        exact hparsed
      · rw [List.mapM_cons, hshow, hsent]
        rfl
      · rw [hall, hvisible, List.flatten_cons, textsOf_append, List.append_assoc]
      · rw [hallErrors, herrors, List.flatten_cons, textsOf_append, List.append_assoc]
      · rw [hallSession, hsession, List.foldl_cons, hobj]

theorem liveSession_chunks (values : List Written) :
    a.liveSession py ((values.map fun v => v.1.encode).map (· ++ ['\n'])) = values.foldl (fun session v =>
      ((a.feedValue py v.1).getD []).foldl (fun session event => newer event.sessionId session) session) "" := by
  simp only [Adapter.liveSession, List.map_map, List.foldl_map, Function.comp_def, feed_chunk]

theorem reportsError_chunks (values : List Written) :
    a.ReportsError py ((values.map fun v => v.1.encode).map (· ++ ['\n'])) ↔
      ∃ v ∈ values, ∃ events, a.feedValue py v.1 = some events ∧ ∃ event ∈ events, event.kind = .error := by
  constructor
  · rintro ⟨chunk, hchunk, events, hfeed, herror⟩
    obtain ⟨line, hline, rfl⟩ := List.mem_map.mp hchunk
    obtain ⟨v, hv, rfl⟩ := List.mem_map.mp hline
    rw [feed_chunk] at hfeed
    exact ⟨v, hv, events, hfeed, herror⟩
  · rintro ⟨v, hv, events, hfeed, herror⟩
    refine ⟨v.1.encode ++ ['\n'], List.mem_map.mpr ⟨_, List.mem_map.mpr ⟨v, hv, rfl⟩, rfl⟩, events, ?_, herror⟩
    rw [feed_chunk, hfeed]

/-- Both readings agree if and only if every line is clean, both name the same session, and no reported error is taken for success. -/
theorem agrees_iff (h : a.Lawful converts final) {values : List Written} {returncode : Int} :
    a.Agrees py values returncode ↔ (∀ v ∈ values, Clean py converts v) ∧
      ∃ parsed sent, values.foldlM (fun acc v => a.readValue py acc v.1) {} = some parsed ∧
        values.mapM (fun v => a.showValue py v.1) = some sent ∧
        a.session parsed (a.liveSession py ((values.map fun v => v.1.encode).map (· ++ ['\n']))) =
          a.liveSession py ((values.map fun v => v.1.encode).map (· ++ ['\n'])) ∧
        (a.ReportsError py ((values.map fun v => v.1.encode).map (· ++ ['\n'])) → a.ok returncode parsed = false) := by
  have hfragments : fragments (written (values.map fun v => v.1.encode)) = (values.map fun v => v.1.encode) ↔
      ∀ v ∈ values, unbroken v.1.encode = true := by
    rw [fragments_written (List.forall_mem_map.mpr fun v _ => lined_encode v.1) (List.forall_mem_map.mpr fun v _ => trimmed_encode v.1)]
    exact List.forall_mem_map
  unfold Adapter.Agrees
  simp only [live_chunks]
  constructor
  · rintro ⟨parsed, sent, hparsed, hlive, hsame, hvisible, -, hsession, hok⟩
    have hunbroken := hfragments.mp hsame
    rw [parseJsonStdout_written hunbroken] at hparsed
    obtain ⟨parts, hparts, rfl⟩ := Option.map_eq_some_iff.mp hlive
    have hle : sizeOf parsed.visible ≤ sizeOf ({} : Parsed).visible + sizeOf (textsOf .stdout parts.flatten) := by
      have hlength := congrArg String.length hvisible
      rw [String.length_join, String.length_join] at hlength
      simpa [sizeOf] using hlength.le
    have hall := (visible_of_runs h hparsed hparts).2 hle
    exact ⟨fun v hv => ⟨hunbroken v hv, hall v hv⟩, parsed, parts, hparsed, hparts, hsession, hok⟩
  · rintro ⟨hclean, parsed, parts, hparsed, hparts, hsession, hok⟩
    obtain ⟨parsed', parts', hparsed', hparts', hvisible, herrors, -⟩ := runs_of_clean h hclean {}
    obtain rfl := Option.some.inj (hparsed.symm.trans hparsed')
    obtain rfl := Option.some.inj (hparts.symm.trans hparts')
    have hunbroken : ∀ v ∈ values, unbroken v.1.encode = true := fun v hv => (hclean v hv).1
    refine ⟨parsed, parts.flatten, ?_, ?_, hfragments.mpr hunbroken, ?_, ?_, hsession, hok⟩
    · rw [parseJsonStdout_written hunbroken, hparsed]
    · rw [hparts, Option.map_some]
    · rw [hvisible, List.nil_append]
    · simpa using herrors

/-! ### The two providers -/

variable (py)

/-- The counts of the usage that an event has can be converted, where they are there. -/
def Counts (keys : List String) (event : Fields) : Prop :=
  ∀ payload, field event "usage" .null = .obj payload → counted payload = true → ∀ key ∈ keys, ∃ n, py.tokens payload key = some n

def codexConverts (event : Fields) : Prop :=
  py.fieldText event "type" = "turn.completed" → Counts py ["input_tokens", "cached_input_tokens", "output_tokens"] event

def claudeConverts (event : Fields) : Prop :=
  py.fieldText event "type" = "result" →
    Counts py ["input_tokens", "cache_creation_input_tokens", "cache_read_input_tokens", "output_tokens"] event

/-- An event that the decoder reports as an error. -/
def codexReports (event : Fields) : Prop :=
  py.fieldText event "type" = "turn.failed" ∨ py.fieldText event "type" = "error" ∧ py.reconnecting (codexErrorMessage py event) = false

/-- The session that is named last by the events of some types. -/
def sessionOf (types : List String) (session : String) (event : Fields) : String :=
  if py.fieldText event "type" ∈ types then newer (py.fieldText event "session_id") session else session

def lastSession (types : List String) (values : List Written) : String :=
  values.foldl (fun session v => match v.1 with | .obj event => sessionOf py types session event | _ => session) ""

variable {py}

theorem codexUsage_runs {event : Fields} {before : Option Usage} :
    (∃ usage, codexUsage py event before = some usage) ↔
      Counts py ["input_tokens", "cached_input_tokens", "output_tokens"] event := by
  constructor
  · rintro ⟨usage, h⟩ payload hpayload hcounted key hkey
    simp only [codexUsage, hpayload, hcounted, if_true] at h
    obtain ⟨input, hinput, h⟩ := Option.bind_eq_some_iff.mp h
    obtain ⟨cached, hcached, h⟩ := Option.bind_eq_some_iff.mp h
    obtain ⟨output, houtput, h⟩ := Option.bind_eq_some_iff.mp h
    simp only [List.mem_cons, List.not_mem_nil, or_false] at hkey
    rcases hkey with rfl | rfl | rfl
    · exact ⟨input, hinput⟩
    · exact ⟨cached, hcached⟩
    · exact ⟨output, houtput⟩
  · intro h
    unfold codexUsage
    split
    · next payload hpayload =>
      by_cases hcounted : counted payload = true
      · rw [if_pos hcounted]
        obtain ⟨input, hinput⟩ := h payload hpayload hcounted "input_tokens" (by simp)
        obtain ⟨cached, hcached⟩ := h payload hpayload hcounted "cached_input_tokens" (by simp)
        obtain ⟨output, houtput⟩ := h payload hpayload hcounted "output_tokens" (by simp)
        simp [hinput, hcached, houtput]
      · exact ⟨before, if_neg hcounted⟩
    · exact ⟨before, rfl⟩

theorem claudeUsage_runs {event : Fields} {before : Option Usage} :
    (∃ usage, claudeUsage py event before = some usage) ↔
      Counts py ["input_tokens", "cache_creation_input_tokens", "cache_read_input_tokens", "output_tokens"] event := by
  constructor
  · rintro ⟨usage, h⟩ payload hpayload hcounted key hkey
    simp only [claudeUsage, hpayload, hcounted, if_true] at h
    obtain ⟨uncached, huncached, h⟩ := Option.bind_eq_some_iff.mp h
    obtain ⟨creation, hcreation, h⟩ := Option.bind_eq_some_iff.mp h
    obtain ⟨cached, hcached, h⟩ := Option.bind_eq_some_iff.mp h
    obtain ⟨output, houtput, h⟩ := Option.bind_eq_some_iff.mp h
    simp only [List.mem_cons, List.not_mem_nil, or_false] at hkey
    rcases hkey with rfl | rfl | rfl | rfl
    · exact ⟨uncached, huncached⟩
    · exact ⟨creation, hcreation⟩
    · exact ⟨cached, hcached⟩
    · exact ⟨output, houtput⟩
  · intro h
    unfold claudeUsage
    split
    · next payload hpayload =>
      by_cases hcounted : counted payload = true
      · rw [if_pos hcounted]
        obtain ⟨uncached, huncached⟩ := h payload hpayload hcounted "input_tokens" (by simp)
        obtain ⟨creation, hcreation⟩ := h payload hpayload hcounted "cache_creation_input_tokens" (by simp)
        obtain ⟨cached, hcached⟩ := h payload hpayload hcounted "cache_read_input_tokens" (by simp)
        obtain ⟨output, houtput⟩ := h payload hpayload hcounted "output_tokens" (by simp)
        simp [huncached, hcreation, hcached, houtput]
      · exact ⟨before, if_neg hcounted⟩
    · exact ⟨before, rfl⟩

theorem codex_lawful : (codex py).Lawful (codexConverts py) (fun _ session => session) where
  runs acc event := by
    show (∃ acc', codexGathered py acc event = some acc') ↔ _
    unfold codexGathered codexConverts
    by_cases hitem : py.fieldText event "type" = "item.completed"
    · simp only [hitem, if_true]
      refine iff_of_true ?_ (by simp)
      split
      · exact ⟨_, rfl⟩
      · exact ⟨_, rfl⟩
    · by_cases hturn : py.fieldText event "type" = "turn.completed"
      · simp only [hturn, if_neg (by decide : ¬ "turn.completed" = "item.completed"), if_true, forall_const]
        rw [← @codexUsage_runs py event acc.usage]
        simp
      · simp only [if_neg hitem, if_neg hturn]
        refine iff_of_true ?_ (fun h => absurd h hturn)
        split
        · split
          · exact ⟨_, rfl⟩
          · exact ⟨_, rfl⟩
        · exact ⟨_, rfl⟩
  keeps := by
    intro acc event acc' h
    change codexGathered py acc event = some acc' at h
    show _ = _ ++ textsOf .stdout (codexShown py event) ∧ _ = _ ++ textsOf .stderr (codexShown py event) ∧ _
    unfold codexGathered at h
    unfold codexShown
    by_cases hitem : py.fieldText event "type" = "item.completed"
    · simp only [hitem, if_true] at h ⊢
      split at h
      · next text htext => obtain rfl := Option.some.inj h; simp [htext, textsOf]
      · next hnone => obtain rfl := Option.some.inj h; simp [hnone, textsOf]
    · by_cases hturn : py.fieldText event "type" = "turn.completed"
      · simp only [hturn, if_neg (by decide : ¬ "turn.completed" = "item.completed"), if_true] at h ⊢
        obtain ⟨usage, -, rfl⟩ := Option.map_eq_some_iff.mp h
        simp [textsOf]
      · simp only [if_neg hitem, if_neg hturn] at h ⊢
        split at h
        · next herror =>
            rw [if_pos herror]
            split at h
            · next hmessage => obtain rfl := Option.some.inj h; simp [hmessage, textsOf]
            · next hmessage => obtain rfl := Option.some.inj h; simp [hmessage, textsOf]
        · next herror => obtain rfl := Option.some.inj h; simp [if_neg herror, textsOf]
  otherRead h := nomatch h
  otherShown h := nomatch h

/-- The message of a failed result is never empty. -/
theorem claudeResultErrorMessage_ne {event : Fields} : claudeResultErrorMessage py event ≠ "" := by
  have htruthy : ∀ v, py.truthy v = true → py.text v ≠ "" := by
    intro v hv
    cases v with
    | str s => simpa [Python.truthy, Python.text] using hv
    | _ => exact py.str_ne _
  have hofList : ∀ text : List Char, text ≠ [] → String.ofList text ≠ "" := fun text hne h => hne (by simpa using congrArg String.toList h)
  unfold claudeResultErrorMessage
  split
  · next htext => exact hofList _ htext
  · split
    · next herrors =>
        refine hofList _ ?_
        have hblank : ∀ m ∈ resultErrors py event, m ≠ [] := by
          unfold resultErrors
          split
          · exact fun m hm => by simpa using (List.mem_filter.mp hm).2
          · exact fun m hm => nomatch hm
        match hmessages : resultErrors py event with
        | [] => exact absurd hmessages herrors
        | [m] => simpa [List.intercalate] using hblank m (by simp [hmessages])
        | m :: n :: rest => simp [List.intercalate]
    · unfold resultKind
      split
      · next h => exact htruthy _ h
      · split
        · next h => exact htruthy _ h
        · decide

theorem claude_lawful : (claude py).Lawful (claudeConverts py) (fun event session => sessionOf py ["system", "result"] session event) where
  runs acc event := by
    show (∃ acc', claudeGathered py acc event = some acc') ↔ _
    unfold claudeGathered claudeConverts
    by_cases hresult : py.fieldText event "type" = "result"
    · simp only [hresult, if_neg (by decide : ¬ "result" = "system"), if_neg (by decide : ¬ "result" = "assistant"), if_true, forall_const]
      rw [← @claudeUsage_runs py event acc.usage]
      simp
    · refine iff_of_true ?_ (fun h => absurd h hresult)
      simp only [if_neg hresult]
      split
      · exact ⟨_, rfl⟩
      · split
        · exact ⟨_, rfl⟩
        · exact ⟨_, rfl⟩
  keeps := by
    intro acc event acc' h
    change claudeGathered py acc event = some acc' at h
    show _ = _ ++ textsOf .stdout (claudeShown py event) ∧ _ = _ ++ textsOf .stderr (claudeShown py event) ∧ _
    unfold claudeGathered at h
    unfold claudeShown sessionOf
    by_cases hsystem : py.fieldText event "type" = "system"
    · simp only [hsystem, if_true] at h ⊢
      obtain rfl := Option.some.inj h
      simp [textsOf]
    · by_cases hassistant : py.fieldText event "type" = "assistant"
      · simp only [hassistant, if_neg (by decide : ¬ "assistant" = "system"), if_true] at h ⊢
        obtain rfl := Option.some.inj h
        simp [textsOf_shown]
      · by_cases hresult : py.fieldText event "type" = "result"
        · simp only [hresult, if_neg (by decide : ¬ "result" = "system"), if_neg (by decide : ¬ "result" = "assistant"), if_true] at h ⊢
          obtain ⟨usage, -, rfl⟩ := Option.map_eq_some_iff.mp h
          by_cases herror : isErrorResult py event = true
          · simp [claudeResult, herror, claudeResultErrorMessage_ne, textsOf]
          · simp [claudeResult, herror, textsOf]
        · simp only [if_neg hsystem, if_neg hassistant, if_neg hresult] at h ⊢
          obtain rfl := Option.some.inj h
          simp [textsOf, hsystem, hresult]
  otherRead h := by
    obtain rfl := Option.some.inj h
    rfl
  otherShown h := by
    obtain rfl := Option.some.inj h
    rfl

theorem feedValue_clean {v : Written} (hclean : Clean py converts v) :
    ∃ event, v.1 = .obj event ∧ a.feedValue py v.1 = a.progress event := by
  obtain ⟨-, hmuch, event, hobj, -⟩ := hclean
  rw [hobj] at hmuch ⊢
  exact ⟨event, rfl, feedValue_obj hmuch⟩

/-- What the decoder reports as an error of Codex. -/
theorem codexProgress_error {event : Fields} :
    (∃ events, codexProgress py event = some events ∧ ∃ e ∈ events, e.kind = .error) ↔ codexReports py event := by
  have hitem : ∀ eventType item, (itemProgress py eventType item).kind ≠ .error := by
    intro eventType item
    unfold itemProgress
    dsimp only
    split
    · split <;> simp
    · simp only
      split <;> simp
  unfold codexProgress codexReports
  by_cases hfailed : py.fieldText event "type" = "turn.failed"
  · simp [hfailed]
  by_cases herror : py.fieldText event "type" = "error"
  · by_cases hagain : py.reconnecting (codexErrorMessage py event) = true
    · simp [herror, hagain]
    · simp [herror, hagain]
  simp only [hfailed, herror, false_and, iff_false, or_self, if_false]
  rintro ⟨events, hevents, e, he, hkind⟩
  split at hevents
  · cases hevents
  split at hevents
  · obtain rfl := Option.some.inj hevents
    obtain rfl := List.mem_singleton.mp he
    cases hkind
  split at hevents
  · split at hevents
    · obtain rfl := Option.some.inj hevents
      obtain rfl := List.mem_singleton.mp he
      exact hitem _ _ hkind
    · obtain rfl := Option.some.inj hevents
      obtain rfl := List.mem_singleton.mp he
      cases hkind
  split at hevents
  · obtain rfl := Option.some.inj hevents
    obtain rfl := List.mem_singleton.mp he
    cases hkind
  · obtain rfl := Option.some.inj hevents
    obtain rfl := List.mem_singleton.mp he
    cases hkind

/-- The Codex readings agree exactly if all lines are clean and no run with a reported error exits with 0. -/
theorem codex_agrees {values : List Written} {returncode : Int} : (codex py).Agrees py values returncode ↔
    (∀ v ∈ values, Clean py (codexConverts py) v) ∧
      ((∃ v ∈ values, ∃ event, v.1 = .obj event ∧ codexReports py event) → returncode ≠ 0) := by
  rw [agrees_iff codex_lawful]
  refine and_congr_right fun hclean => ?_
  have hreports : (codex py).ReportsError py ((values.map fun v => v.1.encode).map (· ++ ['\n'])) ↔
      ∃ v ∈ values, ∃ event, v.1 = .obj event ∧ codexReports py event := by
    rw [reportsError_chunks]
    refine exists_congr fun v => and_congr_right fun hv => ?_
    obtain ⟨event, hobj, hfeed⟩ := feedValue_clean (a := codex py) (hclean v hv)
    rw [hfeed, hobj]
    exact codexProgress_error.trans (by simp)
  obtain ⟨parsed, sent, hparsed, hsent, -⟩ := runs_of_clean codex_lawful hclean {}
  rw [hreports]
  constructor
  · rintro ⟨parsed', -, -, -, -, hok⟩ hreported hzero
    have hfalse := hok hreported
    simp [codex, hzero] at hfalse
  · intro hok
    exact ⟨parsed, sent, hparsed, hsent, rfl, fun hreported => by simpa [codex] using hok hreported⟩

/-- Events that name no session and report no error. -/
def Quiet (events : List ProgressEvent) : Prop := ∀ e ∈ events, e.sessionId = "" ∧ e.kind ≠ .error

theorem Quiet.session {events : List ProgressEvent} (h : Quiet events) (session : String) :
    events.foldl (fun session e => newer e.sessionId session) session = session := by
  induction events generalizing session with
  | nil => rfl
  | cons e rest ih =>
      obtain ⟨he, hrest⟩ := List.forall_mem_cons.mp h
      rw [List.foldl_cons, newer, if_pos he.1]
      exact ih hrest session

theorem Quiet.flatMap {blocks : List Value} {f : Value → List ProgressEvent} (h : ∀ block, Quiet (f block)) : Quiet (blocks.flatMap f) := by
  intro e he
  obtain ⟨block, -, he⟩ := List.mem_flatMap.mp he
  exact h block e he

theorem blockProgress_quiet (block : Value) : Quiet (blockProgress py block) := by
  unfold blockProgress
  split
  · dsimp only
    split
    · simp [Quiet]
    split
    · simp [Quiet, toolCompletedEvent]
    split
    · simp [Quiet]
    · simp [Quiet]
  · simp [Quiet]

theorem toolResultProgress_quiet (block : Value) : Quiet (toolResultProgress py block) := by
  unfold toolResultProgress
  split
  · split
    · simp [Quiet, toolCompletedEvent]
    · simp [Quiet]
  · simp [Quiet]

theorem sessionOf_other {types : List String} {session : String} {event : Fields} (h : py.fieldText event "type" ∉ types) :
    sessionOf py types session event = session := if_neg h

/-- The decoder of Claude Code names a session only in a system event, and reports an error only of a failed result. -/
theorem claudeProgress_event {event : Fields} {session : String} :
    ((claudeProgress py event).getD []).foldl (fun session e => newer e.sessionId session) session =
        sessionOf py ["system"] session event ∧
      ((∃ events, claudeProgress py event = some events ∧ ∃ e ∈ events, e.kind = .error) →
        py.fieldText event "type" = "result" ∧ isErrorResult py event = true) := by
  have hquiet : ∀ events, claudeProgress py event = some events → Quiet events → py.fieldText event "type" ≠ "system" →
      ((claudeProgress py event).getD []).foldl (fun session e => newer e.sessionId session) session =
          sessionOf py ["system"] session event ∧
        ((∃ events, claudeProgress py event = some events ∧ ∃ e ∈ events, e.kind = .error) →
          py.fieldText event "type" = "result" ∧ isErrorResult py event = true) := by
    intro events hevents hquiet hsystem
    rw [hevents, Option.getD_some, hquiet.session, sessionOf_other (by simpa using hsystem)]
    refine ⟨rfl, ?_⟩
    rintro ⟨events', hsame, e, he, hkind⟩
    obtain rfl := Option.some.inj hsame
    exact absurd hkind (hquiet e he).2
  by_cases hsystem : py.fieldText event "type" = "system"
  · simp [claudeProgress, hsystem, sessionOf]
  by_cases hassistant : py.fieldText event "type" = "assistant"
  · exact hquiet ((claudeContentBlocks event).flatMap (blockProgress py)) (by simp [claudeProgress, hassistant])
      (.flatMap blockProgress_quiet) hsystem
  by_cases huser : py.fieldText event "type" = "user"
  · exact hquiet ((claudeContentBlocks event).flatMap (toolResultProgress py)) (by simp [claudeProgress, huser])
      (.flatMap toolResultProgress_quiet) hsystem
  by_cases hresult : py.fieldText event "type" = "result"
  · by_cases herror : isErrorResult py event = true
    · refine ⟨?_, fun _ => ⟨hresult, herror⟩⟩
      simp [claudeProgress, hresult, herror, sessionOf, newer]
    · exact hquiet [{ kind := .completed, detail := "result" }] (by simp [claudeProgress, hresult, herror]) (by simp [Quiet]) hsystem
  by_cases hnone : py.fieldText event "type" = ""
  · simp [claudeProgress, hnone, sessionOf]
  by_cases hdelta : py.fieldText event "type" = "stream_event"
  · exact hquiet [] (by simp [claudeProgress, hdelta]) (by simp [Quiet]) hsystem
  · exact hquiet [{ kind := .activity, detail := py.fieldText event "type" }]
      (by simp [claudeProgress, hsystem, hassistant, huser, hresult, hnone, hdelta]) (by simp [Quiet]) hsystem

theorem lastSession_live {values : List Written} (hclean : ∀ v ∈ values, Clean py converts v) :
    (claude py).liveSession py ((values.map fun v => v.1.encode).map (· ++ ['\n'])) = lastSession py ["system"] values := by
  rw [liveSession_chunks, lastSession]
  refine List.foldl_ext _ _ _ fun session v hv => ?_
  obtain ⟨event, hobj, hfeed⟩ := feedValue_clean (a := claude py) (hclean v hv)
  rw [hfeed, hobj]
  exact claudeProgress_event.1

theorem mem_of_mapM {values : List Written} {v : Written} {f : Written → Option (List Sent)} {shown : List Sent} {sent : List (List Sent)}
    (hsent : values.mapM f = some sent) (hv : v ∈ values) (hshown : f v = some shown) : shown ∈ sent := by
  induction values generalizing sent with
  | nil => cases hv
  | cons first rest ih =>
      rw [List.mapM_cons] at hsent
      obtain ⟨head, hhead, hsent⟩ := Option.bind_eq_some_iff.mp hsent
      obtain ⟨tail, htail, hsent⟩ := Option.bind_eq_some_iff.mp hsent
      obtain rfl := Option.some.inj hsent
      rcases List.mem_cons.mp hv with rfl | hv
      · obtain rfl := Option.some.inj (hhead.symm.trans hshown)
        exact List.mem_cons_self
      · exact List.mem_cons_of_mem _ (ih htail hv)

/-- A failed result leaves an error with the parser. -/
theorem errors_of_report {values : List Written} {parsed : Parsed} {sent : List (List Sent)}
    (hclean : ∀ v ∈ values, Clean py converts v) (hsent : values.mapM (fun v => (claude py).showValue py v.1) = some sent)
    (herrors : parsed.errors.map (· ++ "\n") = textsOf .stderr sent.flatten)
    (hreports : (claude py).ReportsError py ((values.map fun v => v.1.encode).map (· ++ ['\n']))) : parsed.errors ≠ [] := by
  obtain ⟨v, hv, events, hfeed, herror⟩ := (reportsError_chunks values).mp hreports
  obtain ⟨-, hmuch, event, hobj, -⟩ := hclean v hv
  rw [hobj] at hmuch hfeed
  rw [feedValue_obj hmuch] at hfeed
  obtain ⟨hresult, hfailed⟩ := (@claudeProgress_event py event "").2 ⟨events, hfeed, herror⟩
  have hshown : (claude py).showValue py v.1 = some [(.stderr, claudeResultErrorMessage py event ++ "\n")] := by
    rw [hobj, showValue_obj hmuch]
    simp [claude, claudeShown, hresult, hfailed, claudeResultErrorMessage_ne]
  have hmem : claudeResultErrorMessage py event ++ "\n" ∈ textsOf .stderr sent.flatten := by
    refine List.mem_map.mpr ⟨(.stderr, claudeResultErrorMessage py event ++ "\n"), List.mem_filter.mpr ⟨?_, rfl⟩, rfl⟩
    exact List.mem_flatten.mpr ⟨_, mem_of_mapM hsent hv hshown, List.mem_singleton_self _⟩
  intro hnone
  rw [← herrors, hnone] at hmem
  cases hmem

/-- The Claude Code readings agree exactly if all lines are clean and the results name no session but that of the system events. -/
theorem claude_agrees {values : List Written} {returncode : Int} : (claude py).Agrees py values returncode ↔
    (∀ v ∈ values, Clean py (claudeConverts py) v) ∧ lastSession py ["system", "result"] values = lastSession py ["system"] values := by
  rw [agrees_iff claude_lawful]
  refine and_congr_right fun hclean => ?_
  obtain ⟨parsed, sent, hparsed, hsent, -, herrors, hsession⟩ := runs_of_clean claude_lawful hclean {}
  rw [lastSession_live hclean]
  constructor
  · rintro ⟨parsed', -, hparsed', -, hsame, -⟩
    obtain rfl := Option.some.inj (hparsed.symm.trans hparsed')
    exact hsession.symm.trans hsame
  · intro hsame
    refine ⟨parsed, sent, hparsed, hsent, hsession.trans hsame, fun hreports => ?_⟩
    have hne := errors_of_report hclean hsent (by simpa using herrors) hreports
    simp [claude, hne]

/-- For both providers, the two readings of a stream agree exactly where every event is an object on a line of its own, its counts can be
converted, no reported error of Codex ends with 0 and no result of Claude Code names a session of its own. -/
theorem streams_agree (py : Python) (values : List Written) (returncode : Int) :
    ((codex py).Agrees py values returncode ↔ (∀ v ∈ values, Clean py (codexConverts py) v) ∧
      ((∃ v ∈ values, ∃ event, v.1 = .obj event ∧ codexReports py event) → returncode ≠ 0)) ∧
    ((claude py).Agrees py values returncode ↔ (∀ v ∈ values, Clean py (claudeConverts py) v) ∧
      lastSession py ["system", "result"] values = lastSession py ["system"] values) :=
  ⟨codex_agrees, claude_agrees⟩

end

/-! ### A text with another line end -/

def plainPython : Python where
  str _ := "value"
  int v := match v with | .int n => some n | _ => none
  isZero _ := false
  tooMuch _ := false
  fingerprint _ := ""
  reconnecting _ := false
  str_ne _ := by decide

/-- A message of the agent with a line separator in it, which JSON does not escape. -/
def separatorEvent : Written :=
  ⟨.obj [("type", .str "assistant"), ("message", .obj [("content", .str "a\u2028b")])], by simp [Json.Distinct, DistinctFields]⟩

/-- The parser takes the line apart, and shows both parts. -/
theorem separator_disagrees : ¬ ∀ (values : List Written) (returncode : Int),
    (codex plainPython).Agrees plainPython values returncode ∧ (claude plainPython).Agrees plainPython values returncode := by
  intro hall
  have hclean := (claude_agrees.mp (hall [separatorEvent] 0).2).1 separatorEvent (List.mem_singleton_self _)
  exact absurd hclean.1 (by decide)

end AutoAgents.Adapters
