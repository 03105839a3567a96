import AutoAgents.BaseUrl
import AutoAgents.OperatorStore
import AutoAgents.WorkerSigning

/-! The server of a worker. A request is dispatched by its method and path: it calls functions of the worker and answers with what they
return. -/

namespace AutoAgents.Worker

open Base

abbrev Value := Json FloatLiteral

abbrev Fields := List (String × Value)

/-- An object that no field stands twice in. -/
structure Document where
  fields : Fields
  distinct : (Json.obj fields).Distinct

def Document.value (d : Document) : Value := .obj d.fields

def dumps (v : Value) : Bytes := utf8 (String.ofList (canonicalJson v))

/-- `json.loads(body.decode("utf-8"))` -/
def loads (body : Bytes) : Option Value := (readUtf8 body).bind fun text => decode text.toList

/-- What comes back is the same document, with its fields in order. -/
theorem loads_dumps {v : Value} (h : v.Distinct) : loads (dumps v) = some v.sorted := by
  rw [loads, dumps, readUtf8_utf8, Option.bind_some, String.toList_ofList, canonicalJson, decode_ensureAscii h.sorted]

/-- The fields of an object in order, as they come back. -/
def orderedFields (fields : Fields) : Fields := (sortedFields fields).insertionSort byKey

theorem loads_fields {fields : Fields} (h : (Json.obj fields).Distinct) : loads (dumps (.obj fields)) = some (.obj (orderedFields fields)) := by
  rw [loads_dumps h, Json.sorted, orderedFields]

theorem lookup_ordered (fields : Fields) (key : String) : (orderedFields fields).lookup key = (fields.lookup key).map Json.sorted :=
  lookup_sorted fields key

/-! ### The worker's functions -/

/-- The function of the worker that is called, with its arguments. -/
inductive Call
  | probe (environment : String)
  | stage (key snapshotSha sourceRef : String) (stream : Bytes)
  | execute (manifest : Fields)
  | query (job : String)
  | cancel (job : String)
  | artifacts (job : String)
  | ackArtifacts (job archiveSha : String)
  | cleanupPlan (projectKey planId : String)
  | gc (maxAgeSeconds : Value)
  | repairCapability (request : Fields)
  | consumePairingToken (token : String)

/-- What a function raises. -/
inductive Failure
  | permission (text : String)
  | handled (text : String)
  | unhandled

structure Functions where
  document : Call → Except Failure Document
  archive : String → Except Failure Bytes
  /-- The job has a thread that is alive. -/
  running : String → Bool

/-- What the two sides take from the language: `str` of a value that is no text, `float` of one that is none, the text of a failed
`json.loads`, decoding with replacement, and the page of an error that the server's library answers. -/
structure Runtime where
  str : Value → String
  float : Value → Except Failure Value
  invalid : Bytes → String
  replace : Bytes → String
  page : Nat → Bytes

def Runtime.text (rt : Runtime) : Value → String
  | .str s => s
  | v => rt.str v

/-- `str(request.get(key, ""))` -/
def Runtime.field (rt : Runtime) (request : Fields) (key : String) : String :=
  match request.lookup key with
  | none => ""
  | some v => rt.text v

def Runtime.toFloat (rt : Runtime) : Value → Except Failure Value
  | .float x => .ok (.float x)
  | .nonFinite x => .ok (.nonFinite x)
  | v => rt.float v

/-! ### Answers -/

structure Reply where
  status : Nat
  body : Bytes

/-- The functions that a request called, and its answer; without one, the connection is closed. -/
structure Handled where
  calls : List Call
  reply : Option Reply

def failed (status : Nat) (text : String) : Reply := ⟨status, dumps (.obj [("ok", .bool false), ("error", .str text)])⟩

def Failure.reply : Failure → Option Reply
  | .permission text => some (failed 403 text)
  | .handled text => some (failed 400 text)
  | .unhandled => none

/-- A call whose document is the answer. -/
def Functions.serve (w : Functions) (call : Call) : Handled :=
  ⟨[call], match w.document call with
    | .ok d => some ⟨200, dumps d.value⟩
    | .error f => f.reply⟩

def Document.set (d : Document) (key : String) (n : Int) : Document where
  fields := setField d.fields key (.int n)
  distinct := by
    refine ⟨setField_nodup d.distinct.1, distinctFields_iff.mpr ?_⟩
    intro field hfield
    rcases mem_setField hfield with rfl | ⟨hold, -⟩
    · trivial
    · exact distinctFields_iff.mp d.distinct.2 field hold

/-- `worker_probe` of the service: the worker's own, with the storage protocol. -/
def Functions.workerProbe (w : Functions) (environment : String) : Except Failure Document :=
  (w.document (.probe environment)).map fun d => d.set "storage_protocol" 1

def accepted (job : String) : Document where
  fields := [("ok", .bool true), ("job_id", .str job), ("state", .str "accepted")]
  distinct := by simp [Json.Distinct, DistinctFields]

/-- A job that is known is answered as it is; any other is started. -/
def Functions.submit (w : Functions) (job : String) (manifest : Fields) : List Call × Except Failure (Nat × Document) :=
  match w.document (.query job) with
  | .error f => ([.query job], .error f)
  | .ok record =>
      if record.fields ≠ [] then ([.query job], .ok (200, record))
      else if w.running job = true then ([.query job], .ok (200, accepted job))
      else ([.query job, .execute manifest], .ok (202, accepted job))

/-! ### Paths -/

/-- The path and the query that `urlparse` finds in a target that begins with a single slash. -/
def urlparse (target : List Char) : List Char × List Char :=
  let url := target.takeWhile (· != '#')
  let path := url.takeWhile (· != '?')
  let last := (path.reverse.takeWhile (· != '/')).reverse
  (path.take (path.length - last.length) ++ last.takeWhile (· != ';'), (url.dropWhile (· != '?')).drop 1)

/-- `suffix.partition("/")` -/
def partition (suffix : List Char) : String × String :=
  (String.ofList (suffix.takeWhile (· != '/')), String.ofList ((suffix.dropWhile (· != '/')).drop 1))

def maxRequestBytes : Nat := 512 * 1024 * 1024

section

variable (rt : Runtime) (w : Functions)

/-- The endpoints of one job; `none` for an action that it does not have. -/
def jobRoute (command job action : String) (body : Bytes) : Option Handled :=
  if command = "GET" ∧ action = "" then
    some ⟨[.query job], match w.document (.query job) with
      | .error f => f.reply
      | .ok record =>
          if record.fields ≠ [] then some ⟨200, dumps record.value⟩
          else if w.running job = true then some ⟨200, dumps (accepted job).value⟩
          else some ⟨404, dumps (.obj [("error", .str "job not found")])⟩⟩
  else if command = "POST" ∧ action = "cancel" then
    -- before this the event of a running job is set, which no answer shows
    some (w.serve (.cancel job))
  else if command = "GET" ∧ action = "artifacts" then
    some ⟨[.artifacts job], match w.archive job with
      | .ok payload => some ⟨200, payload⟩
      | .error f => f.reply⟩
  else if command = "POST" ∧ action = "artifact-ack" then
    some (match loads body with
      | none => ⟨[], some (failed 400 (rt.invalid body))⟩
      | some (.obj request) => w.serve (.ackArtifacts job (rt.field request "sha256"))
      | some _ => ⟨[], none⟩)
  else none

/-- The endpoints that come last. -/
def lastRoute (command : String) (path : List Char) (body : Bytes) : Handled :=
  if command = "POST" ∧ path = "/v1/cleanup-plan".toList then
    match loads body with
    | none => ⟨[], some (failed 400 (rt.invalid body))⟩
    | some (.obj request) => w.serve (.cleanupPlan (rt.field request "project_key") (rt.field request "plan_id"))
    | some _ => ⟨[], none⟩
  else if command = "POST" ∧ path = "/v1/gc".toList then
    match loads body with
    | none => ⟨[], some (failed 400 (rt.invalid body))⟩
    | some (.obj request) =>
        match rt.toFloat ((request.lookup "max_age_seconds").getD (.int 86400)) with
        | .ok age => w.serve (.gc age)
        | .error f => ⟨[], f.reply⟩
    | some _ => ⟨[], none⟩
  else ⟨[], some (failed 404 "worker endpoint not found")⟩

/-- What `_dispatch` does with a request that it has authenticated. -/
def route (command : String) (path : List Char) (body : Bytes) : Handled :=
  if command = "GET" ∧ path = "/v1/probe".toList then
    ⟨[.probe ""], match w.workerProbe "" with
      | .ok d => some ⟨200, dumps d.value⟩
      | .error f => f.reply⟩
  else if command = "POST" ∧ path = "/v1/jobs".toList then
    match loads body with
    | none => ⟨[], some (failed 400 (rt.invalid body))⟩
    | some (.obj manifest) =>
        let started := w.submit (rt.field manifest "job_id") manifest
        ⟨started.1, match started.2 with
          | .ok (status, d) => some ⟨status, dumps d.value⟩
          | .error f => f.reply⟩
    | some _ => ⟨[], some (failed 400 "job manifest must be an object")⟩
  else if "/v1/jobs/".toList.isPrefixOf path = true then
    let part := partition (path.drop 9)
    (jobRoute rt w command part.1 part.2 body).getD (lastRoute rt w command path body)
  else lastRoute rt w command path body

variable (lib : Library) (state : ClusterState)

/-- `_dispatch` -/
def dispatch (nonces : Nonces) (a : Arrival) : Handled :=
  let parsed := urlparse a.path.toList
  if a.command = "POST" ∧ parsed.1 = "/v1/snapshots".toList then
    if maxRequestBytes < a.body.length then ⟨[], some (failed 400 "worker request body exceeds the size limit")⟩
    else if (authenticated lib state nonces a).1 = true then
      w.serve (.stage (queryValue rt.replace parsed.2 "project_key") (queryValue rt.replace parsed.2 "snapshot")
        (queryValue rt.replace parsed.2 "source_ref") a.body)
    else ⟨[], some (failed 401 "worker authentication failed")⟩
  else if (if parsed.1 = "/v1/pair".toList then 16 * 1024 else maxRequestBytes) < a.body.length then
    ⟨[], some (failed 400 "worker request body exceeds the size limit")⟩
  else if a.command = "POST" ∧ parsed.1 = "/v1/pair".toList then
    match loads a.body with
    | none => ⟨[], some (failed 400 (rt.invalid a.body))⟩
    | some (.obj request) => w.serve (.consumePairingToken (rt.field request "token"))
    | some _ => ⟨[], some (failed 400 "pair request must be an object")⟩
  else if (authenticated lib state nonces a).1 = true then route rt w a.command parsed.1 a.body
  else ⟨[], some (failed 401 "worker authentication failed")⟩

/-- The longest request line that the server's library reads. -/
def maxRequestLine : Nat := 65536

/-- A request as the server's library takes it: method, target and protocol stand on one line, which may not be too long. -/
def handle (nonces : Nonces) (a : Arrival) : Handled :=
  if maxRequestLine < a.command.length + a.path.length + 12 then ⟨[], some ⟨414, rt.page 414⟩⟩
  else dispatch rt w lib state nonces a

end

end AutoAgents.Worker
