import AutoAgents.WorkerRequests

/-! The client of a worker, and what its operations come to at the server. -/

namespace AutoAgents.Worker

open Base

/-! ### Operations -/

/-- `_safe_identifier`, which takes off outer spaces. -/
def safeIdentifier (value : String) : Option String :=
  let normalized := Operator.strip value.toList
  if normalized ≠ [] ∧ normalized.all (fun c => c.isAlphanum || c == '-' || c == '_') = true then some (String.ofList normalized) else none

/-- The ids that it accepts. -/
abbrev JobId := { job : String // (safeIdentifier job).isSome = true }

/-- A number of seconds. -/
inductive Seconds
  | finite (x : FloatLiteral)
  | nonFinite (x : NonFinite)

def Seconds.value : Seconds → Value
  | finite x => .float x
  | nonFinite x => .nonFinite x

/-- The methods of `WorkerClient`, with their arguments. -/
inductive Operation
  | probe
  | stage (projectKey snapshot sourceRef : String) (bundle : Bytes)
  | submit (manifest : Document)
  | query (job : JobId)
  | cancel (job : JobId)
  | artifacts (job : JobId)
  | acknowledgeArtifacts (job : JobId) (archiveSha : String)
  | cleanupPlan (projectKey planId : String)
  | gc (maxAgeSeconds : Seconds)
  | repairCapability (capability runId incidentId failureId : String) (failedArtifacts : List String) (allowDownloads : Bool)
      (maxCandidates : Int)

namespace Operation

def method : Operation → String
  | probe | query _ | artifacts _ => "GET"
  | _ => "POST"

def target : Operation → List Char
  | probe => "/v1/probe".toList
  | stage projectKey snapshot sourceRef _ =>
      "/v1/snapshots?".toList ++ urlencode [("project_key", projectKey), ("snapshot", snapshot), ("source_ref", sourceRef)]
  | submit _ => "/v1/jobs".toList
  | query job => "/v1/jobs/".toList ++ job.1.toList
  | cancel job => "/v1/jobs/".toList ++ job.1.toList ++ "/cancel".toList
  | artifacts job => "/v1/jobs/".toList ++ job.1.toList ++ "/artifacts".toList
  | acknowledgeArtifacts job _ => "/v1/jobs/".toList ++ job.1.toList ++ "/artifact-ack".toList
  | cleanupPlan _ _ => "/v1/cleanup-plan".toList
  | gc _ => "/v1/gc".toList
  | repairCapability .. => "/v1/repair-capability".toList

/-- The body of a request for a repair. -/
def repairRequest (capability runId incidentId failureId : String) (failedArtifacts : List String) (allowDownloads : Bool)
    (maxCandidates : Int) : Fields :=
  [("capability", .str capability), ("run_id", .str runId), ("incident_id", .str incidentId), ("failure_id", .str failureId),
    ("failed_artifacts", .arr (failedArtifacts.map .str)), ("allow_downloads", .bool allowDownloads), ("max_candidates", .int maxCandidates)]

def body : Operation → Bytes
  | stage _ _ _ bundle => bundle
  | submit manifest => dumps manifest.value
  | acknowledgeArtifacts _ archiveSha => dumps (.obj [("sha256", .str archiveSha)])
  | cleanupPlan projectKey planId => dumps (.obj [("project_key", .str projectKey), ("plan_id", .str planId)])
  | gc maxAgeSeconds => dumps (.obj [("max_age_seconds", maxAgeSeconds.value)])
  | repairCapability capability runId incidentId failureId failedArtifacts allowDownloads maxCandidates =>
      dumps (.obj (repairRequest capability runId incidentId failureId failedArtifacts allowDownloads maxCandidates))
  | _ => []

/-- The operations that first ask for the storage protocol. -/
def probed : Operation → Bool
  | cleanupPlan _ _ | gc _ => true
  | _ => false

end Operation

/-! ### Requests -/

/-- What the client raises. -/
inductive Raised
  | runtime (detail : Value)
  | invalidUrl
  | disconnected
  | undecodable

/-- What an operation returns. -/
inductive Answer
  | value (v : Value)
  | archive (payload : Bytes)

/-- The time and nonce that a request is signed with, and the server's clock and table of nonces when it comes in. The clocks are
within the window, and the nonce is new. -/
structure Exchange (lib : Library) where
  timestamp : String
  nonce : String
  clock : ℚ
  check : ℚ
  now : ℚ
  nonces : Nonces
  stamped : lib.float timestamp = some (.number clock)
  nonce_given : nonce ≠ ""
  ordered : check ≤ now
  near : |check - clock| ≤ authWindowSeconds
  fresh : nonce ∉ nonces.map Prod.fst

/-- The characters that the client's library sends in a target. -/
def urlChar (c : Char) : Bool := decide (32 < c.toNat ∧ c.toNat < 127)

/-- `_headers`, on a request. -/
def Exchange.arrival {lib : Library} (x : Exchange lib) (state : ClusterState) (method : String) (target : List Char) (body : Bytes) :
    Arrival where
  command := method
  path := String.ofList target
  body := body
  cluster := state.clusterId
  timestamp := x.timestamp
  nonce := x.nonce
  signature := signPayload lib state (authPayload lib method (String.ofList target) body x.timestamp x.nonce)
  check := x.check
  now := x.now
  ordered := x.ordered

/-- What an answer from status 400 on says. -/
def errorDetail (rt : Runtime) (body : Bytes) : Value :=
  match loads body with
  | some (.obj fields) => (fields.lookup "error").getD (.str "")
  | _ => .str (fromUtf8 rt.replace body)

/-- `_response` -/
def response (rt : Runtime) : Option Reply → Except Raised Bytes
  | none => .error .disconnected
  | some reply =>
      if 400 ≤ reply.status then
        let detail := errorDetail rt reply.body
        .error (.runtime (if Operator.truthy detail = true then detail
          else .str ("worker request failed with HTTP " ++ toString reply.status)))
      else .ok reply.body

/-- `value if isinstance(value, dict) else {}` -/
def readObject (payload : Bytes) : Except Raised Answer :=
  match loads payload with
  | none => .error .undecodable
  | some (.obj fields) => .ok (.value (.obj fields))
  | some _ => .ok (.value (.obj []))

/-- What the operation makes of the answer. -/
def Operation.read : Operation → Bytes → Except Raised Answer
  | .artifacts _, payload => .ok (.archive payload)
  | .acknowledgeArtifacts _ _, payload =>
      match loads payload with
      | none => .error .undecodable
      | some v => .ok (.value v)
  | _, payload => readObject payload

/-- The answer to an older worker. -/
def legacyAnswer : Value :=
  .obj [("ok", .bool false), ("reason", .str "legacy worker retained; storage protocol upgrade required")]

/-- The value equals `1`. -/
def isOne : Value → Bool
  | .int n => n == 1
  | .bool b => b
  | _ => false

section

variable (rt : Runtime) (w : Functions) {lib : Library} (state : ClusterState)

/-- `_request` -/
def request (x : Exchange lib) (method : String) (target : List Char) (body : Bytes) : List Call × Except Raised Bytes :=
  if target.all urlChar = true then
    let handled := handle rt w lib state x.nonces (x.arrival state method target body)
    (handled.calls, response rt handled.reply)
  else ([], .error .invalidUrl)

/-- The operation's own request. -/
def Operation.send (op : Operation) (x : Exchange lib) : List Call × Except Raised Answer :=
  match op with
  | .stage _ _ _ bundle =>
      -- a file is measured before it is sent
      if maxRequestBytes < bundle.length then ([], .error (.runtime (.str "worker request body exceeds the size limit")))
      else
        let sent := request rt w state x op.method op.target op.body
        (sent.1, sent.2.bind op.read)
  | op =>
      let sent := request rt w state x op.method op.target op.body
      (sent.1, sent.2.bind op.read)

/-- An operation of the client: the worker's functions that it calls, and what it returns or raises. -/
def Operation.perform (op : Operation) (before x : Exchange lib) : List Call × Except Raised Answer :=
  if op.probed = true then
    let asked := Operation.probe.send rt w state before
    match asked.2 with
    | .error e => (asked.1, .error e)
    | .ok (.value (.obj fields)) =>
        if ((fields.lookup "storage_protocol").any isOne) = true then
          let sent := op.send rt w state x
          (asked.1 ++ sent.1, sent.2)
        else (asked.1, .ok (.value legacyAnswer))
    | .ok _ => (asked.1, .ok (.value legacyAnswer))
  else op.send rt w state x

end

/-! ### What an operation is for -/

def Failure.raised : Failure → Raised
  | .permission text => .runtime (.str (if text = "" then "worker request failed with HTTP 403" else text))
  | .handled text => .runtime (.str (if text = "" then "worker request failed with HTTP 400" else text))
  | .unhandled => .disconnected

/-- What a function returns is what the operation returns; a document is the same with its fields in order. -/
def reported : Except Failure Document → Except Raised Answer
  | .ok d => .ok (.value d.value.sorted)
  | .error f => .error f.raised

def Document.sorted (d : Document) : Document where
  fields := orderedFields d.fields
  distinct := by
    have hsorted := d.distinct.sorted
    rwa [Json.sorted] at hsorted

/-- The function of the worker that carries out an operation, on its arguments, with what it returns. -/
def Operation.carried (rt : Runtime) (w : Functions) : Operation → List Call × Except Raised Answer
  | probe => ([.probe ""], reported (w.workerProbe ""))
  | stage projectKey snapshot sourceRef bundle =>
      ([.stage projectKey snapshot sourceRef bundle], reported (w.document (.stage projectKey snapshot sourceRef bundle)))
  | submit manifest =>
      let started := w.submit (rt.field manifest.sorted.fields "job_id") manifest.sorted.fields
      (started.1, reported (started.2.map Prod.snd))
  | query job => ([.query job.1], reported (w.document (.query job.1)))
  | cancel job => ([.cancel job.1], reported (w.document (.cancel job.1)))
  | artifacts job =>
      ([.artifacts job.1], match w.archive job.1 with
        | .ok payload => .ok (.archive payload)
        | .error f => .error f.raised)
  | acknowledgeArtifacts job archiveSha => ([.ackArtifacts job.1 archiveSha], reported (w.document (.ackArtifacts job.1 archiveSha)))
  | cleanupPlan projectKey planId =>
      ([.cleanupPlan projectKey planId], reported (w.document (.cleanupPlan projectKey planId)))
  | gc maxAgeSeconds => ([.gc maxAgeSeconds.value], reported (w.document (.gc maxAgeSeconds.value)))
  | repairCapability capability runId incidentId failureId failedArtifacts allowDownloads maxCandidates =>
      let call := Call.repairCapability (repairRequest capability runId incidentId failureId failedArtifacts allowDownloads maxCandidates)
      ([call], reported (w.document call))

/-- An operation as it should be served, behind the probe if it has one. -/
def Operation.served (rt : Runtime) (w : Functions) (op : Operation) : List Call × Except Raised Answer :=
  if op.probed = true then (.probe "" :: (op.carried rt w).1, (op.carried rt w).2) else op.carried rt w

/-- The job that a path names. -/
def Operation.job? : Operation → Option JobId
  | query job | cancel job | artifacts job | acknowledgeArtifacts job _ => some job
  | _ => none

def Operation.repairs : Operation → Bool
  | repairCapability .. => true
  | _ => false

/-! ### Answers -/

theorem errorDetail_failed (rt : Runtime) (status : Nat) (text : String) : errorDetail rt (failed status text).body = .str text := by
  have hdistinct : (Json.obj [("ok", .bool false), ("error", .str text)] : Value).Distinct := by simp [Json.Distinct, DistinctFields]
  have hlookup := lookup_ordered [("ok", .bool false), ("error", .str text)] "error"
  rw [errorDetail, failed, loads_fields hdistinct]
  simp only [hlookup]
  rfl

theorem response_failed (rt : Runtime) {status : Nat} (hstatus : 400 ≤ status) (text : String) :
    response rt (some (failed status text)) =
      .error (.runtime (.str (if text = "" then "worker request failed with HTTP " ++ toString status else text))) := by
  have hfailed : (failed status text).status = status := rfl
  rw [response, hfailed, if_pos hstatus, errorDetail_failed]
  by_cases htext : text = "" <;> simp [Operator.truthy, htext]

theorem response_failure (rt : Runtime) (f : Failure) : response rt f.reply = .error f.raised := by
  cases f with
  | permission text => exact response_failed rt (by decide) text
  | handled text => exact response_failed rt (by decide) text
  | unhandled => rfl

theorem response_document (rt : Runtime) {status : Nat} (hstatus : status < 400) (d : Document) :
    response rt (some ⟨status, dumps d.value⟩) = .ok (dumps d.value) := by
  rw [response]
  exact if_neg (Nat.not_le_of_lt hstatus)

theorem readObject_document (d : Document) : readObject (dumps d.value) = .ok (.value d.value.sorted) := by
  rw [readObject, Document.value, loads_fields d.distinct, Json.sorted]
  rfl

/-- A function's answer is returned as it is. -/
theorem readObject_reply (rt : Runtime) (result : Except Failure Document) :
    (response rt (match result with
      | .ok d => some ⟨200, dumps d.value⟩
      | .error f => f.reply)).bind readObject = reported result := by
  cases result with
  | ok d =>
      simp only [response_document rt (show 200 < 400 by decide)]
      exact readObject_document d
  | error f =>
      simp only [response_failure]
      rfl

/-- A request of an exchange is authenticated. -/
theorem Exchange.authenticated {lib : Library} (x : Exchange lib) (state : ClusterState) (method : String) (target : List Char)
    (body : Bytes) : (Worker.authenticated lib state x.nonces (x.arrival state method target body)).1 = true := by
  have hadmissible : admissible lib state (x.arrival state method target body) = true := by
    have hnear : ¬ authWindowSeconds < |x.check - x.clock| := not_lt.mpr x.near
    simp [admissible, Exchange.arrival, x.stamped, outside, hnear, verifyPayload, Arrival.payload]
  have hclaim : Remember.claim live x.nonces x.nonce x.now = (true, _) := Remember.claim_new x.fresh
  have hgiven := x.nonce_given
  rw [Worker.authenticated, if_pos hadmissible, claimNonce]
  simp only [Exchange.arrival, if_neg hgiven, hclaim]

end AutoAgents.Worker
