import AutoAgents.WorkerReplay
import AutoAgents.WorkerRoutes

/-! Which operations of the client reach the worker. -/

namespace AutoAgents.Worker

open Base

/-- What an operation needs to get to its function: it is no repair, its job id has no outer spaces, its request line and body are
not too long, the job that it asks for is known, and the probe that goes before it is answered. -/
structure Operation.Deliverable (w : Functions) (op : Operation) : Prop where
  routed : op.repairs = false
  bare : ∀ job, op.job? = some job → job.bare
  line : op.method.length + op.target.length + 12 ≤ maxRequestLine
  size : op.body.length ≤ maxRequestBytes
  known : ∀ job, op = .query job → ∀ record, w.document (.query job.1) = .ok record → record.fields ≠ []
  asked : op.probed = true → ∃ d, w.document (.probe "") = .ok d

section

variable {rt : Runtime} {w : Functions} {lib : Library} {state : ClusterState}

/-! ### Carrying out -/

theorem fixed_plain : ∀ path ∈ ["/v1/probe", "/v1/jobs", "/v1/cleanup-plan", "/v1/gc", "/v1/repair-capability"],
    (path.toList.all fun c => c != '#' && c != '?' && c != ';') = true ∧ path.toList ≠ "/v1/snapshots".toList ∧
      path.toList ≠ "/v1/pair".toList := by
  decide +kernel

/-- A request for an endpoint that has no part of its own in its path. -/
theorem request_fixed (x : Exchange lib) {method path : String} {body : Bytes}
    (hpath : path ∈ ["/v1/probe", "/v1/jobs", "/v1/cleanup-plan", "/v1/gc", "/v1/repair-capability"])
    (hline : method.length + path.toList.length + 12 ≤ maxRequestLine) (hsize : body.length ≤ maxRequestBytes) :
    request rt w state x method path.toList body =
      ((route rt w method path.toList body).calls, response rt (route rt w method path.toList body).reply) := by
  obtain ⟨hplain, hsnapshots, hpair⟩ := fixed_plain path hpath
  have hchars : path.toList.all urlChar = true := by
    apply path_chars
    simp only [List.mem_cons, List.not_mem_nil, or_false] at hpath ⊢
    tauto
  exact request_route x (plainPath_of_all hplain) hsnapshots hpair hchars hline hsize

theorem send_of_request {op : Operation} (x : Exchange lib) {calls : List Call} {outcome : Except Raised Bytes}
    (hstage : ∀ projectKey snapshot sourceRef bundle, op ≠ .stage projectKey snapshot sourceRef bundle)
    (h : request rt w state x op.method op.target op.body = (calls, outcome)) :
    op.send rt w state x = (calls, outcome.bind op.read) := by
  cases op with
  | stage projectKey snapshot sourceRef bundle => exact absurd rfl (hstage projectKey snapshot sourceRef bundle)
  | _ => simp only [Operation.send, h]

theorem send_probe (x : Exchange lib) : Operation.probe.send rt w state x = Operation.probe.carried rt w := by
  have hroute : route rt w "GET" "/v1/probe".toList [] = ⟨[.probe ""], _⟩ := if_pos ⟨rfl, rfl⟩
  have hrequest : request rt w state x "GET" "/v1/probe".toList [] = _ :=
    request_fixed x (by simp) (by decide) (by decide)
  rw [hroute] at hrequest
  refine (send_of_request x (by simp) hrequest).trans ?_
  exact congrArg (Prod.mk _) (readObject_reply rt (w.workerProbe ""))

theorem route_jobs {manifest : Fields} {body : Bytes} (h : loads body = some (.obj manifest)) :
    route rt w "POST" "/v1/jobs".toList body =
      ⟨(w.submit (rt.field manifest "job_id") manifest).1, match (w.submit (rt.field manifest "job_id") manifest).2 with
        | .ok (status, d) => some ⟨status, dumps d.value⟩
        | .error f => f.reply⟩ := by
  unfold route
  rw [if_neg (by decide), if_pos (by decide)]
  generalize loads body = manifest' at h
  subst h
  rfl

/-- Every answer to a submission is read back. -/
theorem submit_status (job : String) (manifest : Fields) {status : Nat} {d : Document}
    (h : (w.submit job manifest).2 = .ok (status, d)) : status < 400 := by
  unfold Functions.submit at h
  split at h
  · cases h
  · split at h
    · cases h
      decide
    · split at h <;> cases h <;> decide

theorem send_submit (x : Exchange lib) (manifest : Document) (hsize : (dumps manifest.value).length ≤ maxRequestBytes) :
    (Operation.submit manifest).send rt w state x = (Operation.submit manifest).carried rt w := by
  have hloads : loads (dumps manifest.value) = some (.obj manifest.sorted.fields) := loads_fields manifest.distinct
  have hrequest : request rt w state x "POST" "/v1/jobs".toList (dumps manifest.value) = _ :=
    request_fixed x (by simp) (by decide) hsize
  rw [route_jobs hloads] at hrequest
  refine (send_of_request x (by simp) hrequest).trans (congrArg (Prod.mk _) ?_)
  cases hstarted : (w.submit (rt.field manifest.sorted.fields "job_id") manifest.sorted.fields).2 with
  | error f =>
      simp only [response_failure]
      rfl
  | ok started =>
      simp only [response_document rt (submit_status _ _ hstarted)]
      exact readObject_document started.2

/-- An endpoint that comes last. -/
theorem route_last {path : String} (hpath : path ∈ ["/v1/cleanup-plan", "/v1/gc", "/v1/repair-capability"]) (body : Bytes) :
    route rt w "POST" path.toList body = lastRoute rt w "POST" path.toList body := by
  have hother : ∀ path ∈ ["/v1/cleanup-plan", "/v1/gc", "/v1/repair-capability"],
      path.toList ≠ "/v1/jobs".toList ∧ "/v1/jobs/".toList.isPrefixOf path.toList = false := by decide +kernel
  obtain ⟨hjobs, hjob⟩ := hother path hpath
  unfold route
  rw [if_neg (by simp), if_neg (fun hand => hjobs hand.2), if_neg (Bool.not_eq_true _ ▸ hjob)]

theorem send_cleanupPlan (x : Exchange lib) (projectKey planId : String)
    (hsize : (Operation.cleanupPlan projectKey planId).body.length ≤ maxRequestBytes) :
    (Operation.cleanupPlan projectKey planId).send rt w state x = (Operation.cleanupPlan projectKey planId).carried rt w := by
  have hloads : loads (Operation.cleanupPlan projectKey planId).body =
      some (.obj (orderedFields [("project_key", .str projectKey), ("plan_id", .str planId)])) := by
    apply loads_fields
    simp [Json.Distinct, DistinctFields]
  have hkey : rt.field (orderedFields [("project_key", .str projectKey), ("plan_id", .str planId)]) "project_key" = projectKey := by
    rw [Runtime.field, lookup_ordered]
    rfl
  have hplan : rt.field (orderedFields [("project_key", .str projectKey), ("plan_id", .str planId)]) "plan_id" = planId := by
    rw [Runtime.field, lookup_ordered]
    rfl
  have hroute : route rt w "POST" "/v1/cleanup-plan".toList (Operation.cleanupPlan projectKey planId).body =
      w.serve (.cleanupPlan projectKey planId) := by
    rw [route_last (by simp), lastRoute, if_pos ⟨rfl, rfl⟩, hloads]
    simp only [hkey, hplan]
  have hrequest : request rt w state x "POST" "/v1/cleanup-plan".toList (Operation.cleanupPlan projectKey planId).body = _ :=
    request_fixed x (by simp) (by decide) hsize
  rw [hroute] at hrequest
  exact (send_of_request x (by simp) hrequest).trans (congrArg (Prod.mk _) (readObject_reply rt _))

theorem send_gc (x : Exchange lib) (age : Seconds) (hsize : (Operation.gc age).body.length ≤ maxRequestBytes) :
    (Operation.gc age).send rt w state x = (Operation.gc age).carried rt w := by
  have hloads : loads (Operation.gc age).body = some (.obj (orderedFields [("max_age_seconds", age.value)])) := by
    apply loads_fields
    cases age <;> simp [Seconds.value, Json.Distinct, DistinctFields]
  have hage : ((orderedFields [("max_age_seconds", age.value)]).lookup "max_age_seconds").getD (.int 86400) = age.value := by
    rw [lookup_ordered]
    cases age <;> rfl
  have hfloat : rt.toFloat age.value = .ok age.value := by cases age <;> rfl
  have hroute : route rt w "POST" "/v1/gc".toList (Operation.gc age).body = w.serve (.gc age.value) := by
    rw [route_last (by simp), lastRoute, if_neg (by decide), if_pos ⟨rfl, rfl⟩, hloads]
    simp only [hage, hfloat]
  have hrequest : request rt w state x "POST" "/v1/gc".toList (Operation.gc age).body = _ :=
    request_fixed x (by simp) (by decide) hsize
  rw [hroute] at hrequest
  exact (send_of_request x (by simp) hrequest).trans (congrArg (Prod.mk _) (readObject_reply rt _))

/-- No endpoint repairs a capability. -/
theorem send_repair {op : Operation} (x : Exchange lib) (hrepairs : op.repairs = true) (hsize : op.body.length ≤ maxRequestBytes) :
    op.send rt w state x = ([], .error (.runtime (.str "worker endpoint not found"))) := by
  cases op with
  | repairCapability capability runId incidentId failureId failedArtifacts allowDownloads maxCandidates =>
      generalize hop : Operation.repairCapability capability runId incidentId failureId failedArtifacts allowDownloads maxCandidates = op
        at hsize ⊢
      have hroute : route rt w "POST" "/v1/repair-capability".toList op.body =
          ⟨[], some (failed 404 "worker endpoint not found")⟩ := by
        rw [route_last (by simp), lastRoute, if_neg (by decide), if_neg (by decide)]
      have hrequest : request rt w state x "POST" "/v1/repair-capability".toList op.body = _ :=
        request_fixed x (by simp) (by decide) hsize
      rw [hroute] at hrequest
      simp only [response_failed rt (show 400 ≤ 404 by decide)] at hrequest
      have hstage : ∀ projectKey snapshot sourceRef bundle, op ≠ .stage projectKey snapshot sourceRef bundle := by
        rw [← hop]
        simp
      have hmethod : op.method = "POST" ∧ op.target = "/v1/repair-capability".toList := by
        rw [← hop]
        exact ⟨rfl, rfl⟩
      rw [← hmethod.1, ← hmethod.2] at hrequest
      exact send_of_request x hstage hrequest
  | _ => cases hrepairs

theorem send_repair_calls {op : Operation} (x : Exchange lib) (hrepairs : op.repairs = true) : (op.send rt w state x).1 = [] := by
  by_cases hsize : op.body.length ≤ maxRequestBytes
  · rw [send_repair x hrepairs hsize]
  · exact op.send_lost x fun hfits => hsize hfits.2.2

theorem send_stage (x : Exchange lib) (projectKey snapshot sourceRef : String) (bundle : Bytes)
    (hline : "POST".length + (Operation.stage projectKey snapshot sourceRef bundle).target.length + 12 ≤ maxRequestLine)
    (hsize : bundle.length ≤ maxRequestBytes) :
    (Operation.stage projectKey snapshot sourceRef bundle).send rt w state x =
      (Operation.stage projectKey snapshot sourceRef bundle).carried rt w := by
  obtain ⟨op, hop⟩ : ∃ op, op = Operation.stage projectKey snapshot sourceRef bundle := ⟨_, rfl⟩
  obtain ⟨query, hquery⟩ : ∃ query, query = urlencode [("project_key", projectKey), ("snapshot", snapshot), ("source_ref", sourceRef)] :=
    ⟨_, rfl⟩
  have htarget : op.target = "/v1/snapshots".toList ++ '?' :: query := by
    rw [hop, hquery]
    rfl
  have hparsed : urlparse (x.arrival state "POST" op.target bundle).path.toList = ("/v1/snapshots".toList, query) := by
    have hplain : plainPath "/v1/snapshots".toList := plainPath_of_all (by decide)
    rw [Exchange.arrival, String.toList_ofList, htarget]
    apply urlparse_query hplain
    rw [hquery]
    exact fun hmem => (urlencode_urlChar hmem).2 rfl
  have hlength : ¬ maxRequestLine < (x.arrival state "POST" op.target bundle).command.length +
      (x.arrival state "POST" op.target bundle).path.length + 12 := by
    rw [← hop] at hline
    simp only [Exchange.arrival, String.length_ofList]
    omega
  have hvalue : ∀ pair ∈ [("project_key", projectKey), ("snapshot", snapshot), ("source_ref", sourceRef)],
      queryValue rt.replace query pair.1 = pair.2 := by
    intro pair hmem
    rw [hquery]
    exact queryValue_urlencode rt.replace (by simp) hmem
  have hkey := hvalue ("project_key", projectKey) (by simp)
  have hsnapshot := hvalue ("snapshot", snapshot) (by simp)
  have href := hvalue ("source_ref", sourceRef) (by simp)
  have hdispatch : dispatch rt w lib state x.nonces (x.arrival state "POST" op.target bundle) =
      w.serve (.stage projectKey snapshot sourceRef bundle) := by
    unfold dispatch
    simp only [hparsed]
    have hbody : (x.arrival state "POST" op.target bundle).body = bundle := rfl
    rw [if_pos ⟨rfl, trivial⟩, hbody, if_neg (Nat.not_lt.mpr hsize), if_pos (x.authenticated state "POST" op.target bundle),
      hkey, hsnapshot, href]
  have hchars : op.target.all urlChar = true := op.target_chars.mpr fun job hjob => by
    rw [hop] at hjob
    cases hjob
  have hrequest : request rt w state x "POST" op.target bundle = ((w.serve (.stage projectKey snapshot sourceRef bundle)).calls,
      response rt (w.serve (.stage projectKey snapshot sourceRef bundle)).reply) := by
    rw [request, if_pos hchars, handle, if_neg hlength, hdispatch]
  rw [hop] at hrequest
  rw [Operation.send, if_neg (Nat.not_lt.mpr hsize)]
  refine (congrArg (fun sent : List Call × Except Raised Bytes => (sent.1, sent.2.bind readObject)) hrequest).trans ?_
  exact congrArg (Prod.mk _) (readObject_reply rt _)

/-- The request for an endpoint of a job that the worker has a function for. -/
theorem send_job {op : Operation} (x : Exchange lib) {job : JobId} {action : String} {handled : Handled} (hbare : job.bare)
    (htarget : op.target = "/v1/jobs/".toList ++ job.1.toList ++ (if action = "" then [] else '/' :: action.toList))
    (haction : action ∈ ["", "cancel", "artifacts", "artifact-ack"])
    (hstage : ∀ projectKey snapshot sourceRef bundle, op ≠ .stage projectKey snapshot sourceRef bundle)
    (hline : op.method.length + op.target.length + 12 ≤ maxRequestLine) (hsize : op.body.length ≤ maxRequestBytes)
    (h : jobRoute rt w op.method job.1 action op.body = some handled) :
    op.send rt w state x = (handled.calls, (response rt handled.reply).bind op.read) := by
  have hactions : ∀ action ∈ ["", "cancel", "artifacts", "artifact-ack"], ((if action = "" then [] else '/' :: action.toList).all fun c =>
      urlChar c && (c != '#' && c != '?' && c != ';')) = true := by decide +kernel
  have hplain : ∀ c ∈ (if action = "" then [] else '/' :: action.toList), urlChar c = true ∧ c ≠ '#' ∧ c ≠ '?' ∧ c ≠ ';' := by
    intro c hc
    simpa [and_assoc] using List.all_eq_true.mp (hactions action haction) c hc
  have hslash : '/' ∉ job.1.toList := fun hmem => (job.bare_toNat hbare hmem).2.2.2.2.2 rfl
  have hpartition : partition (job.1.toList ++ (if action = "" then [] else '/' :: action.toList)) = (job.1, action) := by
    split
    · next hempty => rw [List.append_nil, partition_plain hslash, String.ofList_toList, hempty]
    · rw [partition_action hslash, String.ofList_toList, String.ofList_toList]
  apply send_of_request x hstage
  rw [htarget] at hline ⊢
  apply request_job x hbare hplain hline hsize
  rw [hpartition]
  exact h

theorem send_query (x : Exchange lib) {job : JobId} (hbare : job.bare)
    (hline : (Operation.query job).method.length + (Operation.query job).target.length + 12 ≤ maxRequestLine) :
    (Operation.query job).send rt w state x = ([.query job.1], match w.document (.query job.1) with
      | .error f => .error f.raised
      | .ok record =>
          if record.fields ≠ [] then .ok (.value record.value.sorted)
          else if w.running job.1 = true then .ok (.value (accepted job.1).value.sorted)
          else .error (.runtime (.str "job not found"))) := by
  obtain ⟨reply, hreply⟩ : ∃ reply, reply = (match w.document (.query job.1) with
      | .error f => f.reply
      | .ok record =>
          if record.fields ≠ [] then some ⟨200, dumps record.value⟩
          else if w.running job.1 = true then some ⟨200, dumps (accepted job.1).value⟩
          else some ⟨404, dumps (.obj [("error", .str "job not found")])⟩) := ⟨_, rfl⟩
  have hroute : jobRoute rt w "GET" job.1 "" [] = some ⟨[.query job.1], reply⟩ := by
    rw [hreply]
    exact if_pos ⟨rfl, rfl⟩
  refine (send_job x hbare (List.append_nil _).symm (by simp) (by simp) hline (Nat.zero_le _) hroute).trans (congrArg (Prod.mk _) ?_)
  rw [hreply]
  cases w.document (.query job.1) with
  | error f =>
      simp only [response_failure]
      rfl
  | ok record =>
      have hread : ∀ d : Document, (response rt (some ⟨200, dumps d.value⟩)).bind (Operation.query job).read = .ok (.value d.value.sorted) := by
        intro d
        rw [response_document rt (by decide)]
        exact readObject_document d
      simp only
      split
      · exact hread record
      split
      · exact hread (accepted job.1)
      · have hdetail : errorDetail rt (dumps (.obj [("error", .str "job not found")])) = .str "job not found" := by
          rw [errorDetail, loads_fields (by simp [Json.Distinct, DistinctFields])]
          rfl
        rw [response, if_pos (by decide), hdetail]
        rfl

theorem send_cancel (x : Exchange lib) {job : JobId} (hbare : job.bare)
    (hline : (Operation.cancel job).method.length + (Operation.cancel job).target.length + 12 ≤ maxRequestLine) :
    (Operation.cancel job).send rt w state x = (Operation.cancel job).carried rt w := by
  have hroute : jobRoute rt w "POST" job.1 "cancel" [] = some (w.serve (.cancel job.1)) := by
    rw [jobRoute, if_neg (by decide), if_pos ⟨rfl, rfl⟩]
  exact (send_job x hbare rfl (by simp) (by simp) hline (Nat.zero_le _) hroute).trans (congrArg (Prod.mk _) (readObject_reply rt _))

theorem send_artifacts (x : Exchange lib) {job : JobId} (hbare : job.bare)
    (hline : (Operation.artifacts job).method.length + (Operation.artifacts job).target.length + 12 ≤ maxRequestLine) :
    (Operation.artifacts job).send rt w state x = (Operation.artifacts job).carried rt w := by
  have hroute : jobRoute rt w "GET" job.1 "artifacts" [] = some ⟨[.artifacts job.1], _⟩ :=
    (if_neg (by decide)).trans ((if_neg (by decide)).trans (if_pos ⟨rfl, rfl⟩))
  refine (send_job x hbare rfl (by simp) (by simp) hline (Nat.zero_le _) hroute).trans (congrArg (Prod.mk _) ?_)
  cases w.archive job.1 with
  | ok payload => rfl
  | error f =>
      simp only [response_failure]
      rfl

theorem send_acknowledge (x : Exchange lib) {job : JobId} {archiveSha : String} (hbare : job.bare)
    (hline : (Operation.acknowledgeArtifacts job archiveSha).method.length +
      (Operation.acknowledgeArtifacts job archiveSha).target.length + 12 ≤ maxRequestLine)
    (hsize : (Operation.acknowledgeArtifacts job archiveSha).body.length ≤ maxRequestBytes) :
    (Operation.acknowledgeArtifacts job archiveSha).send rt w state x = (Operation.acknowledgeArtifacts job archiveSha).carried rt w := by
  have hloads : loads (Operation.acknowledgeArtifacts job archiveSha).body = some (.obj (orderedFields [("sha256", .str archiveSha)])) := by
    apply loads_fields
    simp [Json.Distinct, DistinctFields]
  have hsha : rt.field (orderedFields [("sha256", .str archiveSha)]) "sha256" = archiveSha := by
    rw [Runtime.field, lookup_ordered]
    rfl
  have hroute : jobRoute rt w "POST" job.1 "artifact-ack" (Operation.acknowledgeArtifacts job archiveSha).body =
      some (w.serve (.ackArtifacts job.1 archiveSha)) := by
    rw [jobRoute, if_neg (by decide), if_neg (by decide), if_neg (by decide), if_pos ⟨rfl, rfl⟩, hloads]
    simp only [hsha]
  refine (send_job x hbare rfl (by simp) (by simp) hline hsize hroute).trans (congrArg (Prod.mk _) ?_)
  unfold Functions.serve
  cases w.document (.ackArtifacts job.1 archiveSha) with
  | ok d =>
      simp only [response_document rt (show 200 < 400 by decide)]
      have hread : (Operation.acknowledgeArtifacts job archiveSha).read (dumps d.value) = .ok (.value d.value.sorted) := by
        simp only [Operation.read, loads_dumps (show d.value.Distinct from d.distinct)]
      exact hread
  | error f =>
      simp only [response_failure]
      rfl

/-- An operation that has a function, and whose request is sent and taken, is carried out; a query must find its job. -/
theorem Operation.send_carried (op : Operation) (x : Exchange lib) (hrouted : op.repairs = false)
    (hbare : ∀ job, op.job? = some job → job.bare) (hline : op.method.length + op.target.length + 12 ≤ maxRequestLine)
    (hsize : op.body.length ≤ maxRequestBytes)
    (hknown : ∀ job, op = .query job → ∀ record, w.document (.query job.1) = .ok record → record.fields ≠ []) :
    op.send rt w state x = op.carried rt w := by
  cases op with
  | probe => exact send_probe x
  | stage projectKey snapshot sourceRef bundle => exact send_stage x projectKey snapshot sourceRef bundle hline hsize
  | submit manifest => exact send_submit x manifest hsize
  | query job =>
      rw [send_query x (hbare job rfl) hline, Operation.carried]
      cases hrecord : w.document (.query job.1) with
      | error f => rfl
      | ok record =>
          simp only [if_pos (hknown job rfl record hrecord)]
          rfl
  | cancel job => exact send_cancel x (hbare job rfl) hline
  | artifacts job => exact send_artifacts x (hbare job rfl) hline
  | acknowledgeArtifacts job archiveSha => exact send_acknowledge x (hbare job rfl) hline hsize
  | cleanupPlan projectKey planId => exact send_cleanupPlan x projectKey planId hsize
  | gc age => exact send_gc x age hsize
  | repairCapability => cases hrouted

/-- The probe before an operation lets it through exactly if the worker answers it. -/
theorem perform_probed (op : Operation) (before x : Exchange lib) (hprobed : op.probed = true) :
    op.perform rt w state before x = match w.document (.probe "") with
      | .ok _ => (.probe "" :: (op.send rt w state x).1, (op.send rt w state x).2)
      | .error f => ([.probe ""], .error f.raised) := by
  rw [Operation.perform, if_pos hprobed]
  simp only [send_probe before, Operation.carried, Functions.workerProbe]
  cases w.document (.probe "") with
  | error f => rfl
  | ok d =>
      have hset : (orderedFields (d.set "storage_protocol" 1).fields).lookup "storage_protocol" = some (.int 1) := by
        rw [lookup_ordered, Document.set, lookup_setField_self]
        rfl
      have hvalue : (d.set "storage_protocol" 1).value.sorted = .obj (orderedFields (d.set "storage_protocol" 1).fields) := by
        rw [Document.value, Json.sorted, orderedFields]
      simp only [Except.map, reported, hvalue, hset]
      rfl

theorem carried_calls (op : Operation) : (op.carried rt w).1 ≠ [] := by
  cases op with
  | submit manifest =>
      simp only [Operation.carried, Functions.submit]
      split
      · simp
      · split
        · simp
        · split <;> simp
  | _ => simp [Operation.carried]

/-- What the client should do: its request is authenticated, calls the function that the operation is for, and returns what that
returns. -/
def Operation.Implemented (rt : Runtime) (w : Functions) (state : ClusterState) (op : Operation) (before x : Exchange lib) : Prop :=
  (authenticated lib state x.nonces (x.arrival state op.method op.target op.body)).1 = true ∧
    op.perform rt w state before x = op.served rt w

/-- An operation is implemented exactly if it is deliverable. -/
theorem Operation.implemented_iff (rt : Runtime) (w : Functions) (state : ClusterState) (op : Operation) (before x : Exchange lib) :
    op.Implemented rt w state before x ↔ op.Deliverable w := by
  constructor
  · rintro ⟨-, hperform⟩
    have hsend : op.send rt w state x = op.carried rt w ∧ (op.probed = true → ∃ d, w.document (.probe "") = .ok d) := by
      by_cases hprobed : op.probed = true
      · rw [perform_probed op before x hprobed, Operation.served, if_pos hprobed] at hperform
        cases hprobe : w.document (.probe "") with
        | error f =>
            simp only [hprobe, Prod.mk.injEq, List.cons.injEq, true_and] at hperform
            exact absurd hperform.1.symm (carried_calls op)
        | ok d =>
            simp only [hprobe, Prod.mk.injEq, List.cons.injEq, true_and] at hperform
            exact ⟨Prod.ext hperform.1 hperform.2, fun _ => ⟨d, rfl⟩⟩
      · rw [Operation.perform, if_neg hprobed, Operation.served, if_neg hprobed] at hperform
        exact ⟨hperform, fun h => absurd h hprobed⟩
    obtain ⟨hsend, hasked⟩ := hsend
    have hcalls : (op.send rt w state x).1 ≠ [] := by
      rw [hsend]
      exact carried_calls op
    have hrouted : op.repairs = false := by
      by_contra hrepairs
      exact hcalls (send_repair_calls x (by simpa using hrepairs))
    have hfits : op.target.all urlChar = true ∧ op.method.length + op.target.length + 12 ≤ maxRequestLine ∧
        op.body.length ≤ maxRequestBytes := by
      by_contra hlost
      exact hcalls (op.send_lost x hlost)
    obtain ⟨hchars, hline, hsize⟩ := hfits
    have hbare := op.target_chars.mp hchars
    refine ⟨hrouted, hbare, hline, hsize, ?_, hasked⟩
    rintro job rfl record hrecord hempty
    -- an unknown job is answered as accepted or not found, and neither is the empty record
    have hreported : reported (w.document (.query job.1)) = .ok (.value (.obj [])) := by
      rw [hrecord, reported, Document.value, hempty]
      rfl
    rw [send_query x (hbare job rfl) hline, Operation.carried, hreported, hrecord] at hsend
    simp only [hempty, ne_eq, not_true_eq_false, if_false, Prod.mk.injEq, true_and] at hsend
    split at hsend
    · have hvalue := Answer.value.inj (Except.ok.inj hsend)
      rw [Document.value, Json.sorted] at hvalue
      have hlookup := lookup_ordered (accepted job.1).fields "ok"
      rw [orderedFields, Json.obj.inj hvalue] at hlookup
      cases hlookup
    · cases hsend
  · rintro ⟨hrouted, hbare, hline, hsize, hknown, hasked⟩
    have hsend : op.send rt w state x = op.carried rt w := op.send_carried x hrouted hbare hline hsize hknown
    refine ⟨x.authenticated state op.method op.target op.body, ?_⟩
    by_cases hprobed : op.probed = true
    · obtain ⟨d, hd⟩ := hasked hprobed
      rw [perform_probed op before x hprobed, Operation.served, if_pos hprobed, hd, hsend]
    · rw [Operation.perform, if_neg hprobed, Operation.served, if_neg hprobed, hsend]

end

/-! ### A repair -/

def chromeRepair : Operation := .repairCapability "chrome" "run-1" "incident-1" "" [] true 3

/-- A worker whose functions all succeed. -/
def idleWorker : Functions where
  document _ := .ok (accepted "job-1")
  archive _ := .ok []
  running _ := false

def plainRuntime : Runtime where
  str _ := ""
  float v := .ok v
  invalid _ := ""
  replace _ := ""
  page _ := []

/-- A request that is signed and taken at the same time, by a server that has seen no other. -/
def promptExchange : Exchange plainLibrary where
  timestamp := "160.000000"
  nonce := "n"
  clock := 160
  check := 160
  now := 160
  nonces := []
  stamped := aheadRequest.stamped
  nonce_given := aheadRequest.nonce_given
  ordered := le_rfl
  near := by decide +kernel
  fresh := List.not_mem_nil

theorem repair_not_found :
    chromeRepair.perform plainRuntime idleWorker ⟨"c", "s"⟩ promptExchange promptExchange =
        ([], .error (.runtime (.str "worker endpoint not found"))) ∧
      ¬ chromeRepair.Implemented plainRuntime idleWorker ⟨"c", "s"⟩ promptExchange promptExchange := by
  have hperform : chromeRepair.perform plainRuntime idleWorker ⟨"c", "s"⟩ promptExchange promptExchange =
      ([], .error (.runtime (.str "worker endpoint not found"))) := by
    have hsize : chromeRepair.body.length ≤ maxRequestBytes := by decide +kernel
    rw [Operation.perform, if_neg (by decide)]
    exact send_repair promptExchange rfl hsize
  refine ⟨hperform, ?_⟩
  rintro ⟨-, hserved⟩
  have hcalls : (chromeRepair.carried plainRuntime idleWorker).1 ≠ [] := carried_calls chromeRepair
  rw [hperform, Operation.served, if_neg (by decide)] at hserved
  exact hcalls (congrArg Prod.fst hserved).symm

end AutoAgents.Worker
