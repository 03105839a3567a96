import AutoAgents.WorkerRequests

/-! Discovery in a worker cluster: what a node makes of the datagrams that come in, as the one that looks for workers and as the one that
answers. A datagram of nobody in the cluster is to have no effect, and has one only where it makes a check fail with an error that is not
caught. -/

namespace AutoAgents.Worker

open Base

/-! ### The functions of the interpreter -/

/-- An error that ends the call: one that is a `TypeError` or `ValueError`, or another one. -/
inductive ReadError
  | typeOrValue
  | other
  deriving DecidableEq

/-- What discovery takes from its libraries: the conversions of a document to a text, an integer and a `float`, the texts that the reader
of documents gives up on, and the documents that the writer does. -/
structure Reader extends Library where
  text : Value → String
  int : Value → Except ReadError Int
  real : Value → Except ReadError Reading
  tooMuch : String → Bool
  tooDeep : Value → Bool
  stamp : ℚ → FloatLiteral
  lower : String → String
  strip : String → String

/-- What a datagram is read as. -/
inductive Loaded
  | value (v : Value)
  | refused
  | raised

/-- `json.loads(data.decode("utf-8"))`, where the two errors that are caught are told from others. -/
def Reader.loads (r : Reader) (data : Bytes) : Loaded :=
  match readUtf8 data with
  | none => .refused
  | some text =>
      if r.tooMuch text = true then .raised
      else
        match decode text.toList with
        | none => .refused
        | some v => .value v

/-! ### Nodes -/

/-- `DiscoveredWorker` -/
structure Discovered where
  workerId : String
  hostname : String
  host : String
  port : Int
  tlsFingerprint : String
  maxSlots : Int
  capabilities : List String
  lastSeen : Reading

/-- The state of a cluster, as one of its nodes has it: no peer stands twice in it. -/
structure Node extends ClusterState where
  nodeId : String
  hostname : String
  peers : List (String × Fields)
  distinct : (peers.map Prod.fst).Nodup

def clusterProtocolVersion : Int := 2

def workerApiPort : Int := 47322

/-- A datagram as it comes in, with the address it is from and the reading of the clock. -/
structure Datagram where
  data : Bytes
  address : String
  now : ℚ

def field (fields : Fields) (key : String) (missing : Value) : Value := (fields.lookup key).getD missing

/-- `DiscoveredWorker.from_dict` -/
def Discovered.fromDict (r : Reader) (now : ℚ) (fallbackHost : String) (payload : Fields) : Except ReadError Discovered := do
  let port ← r.int (field payload "port" (.int workerApiPort))
  let maxSlots ← r.int (field payload "max_slots" (.int 1))
  let lastSeen ← r.real (field payload "last_seen" (.float (r.stamp now)))
  return {
    workerId := r.text (field payload "worker_id" (.str ""))
    hostname := r.text (field payload "hostname" (.str ""))
    host := r.text (field payload "host" (.str fallbackHost))
    port := port
    tlsFingerprint := r.text (field payload "tls_fingerprint" (.str ""))
    maxSlots := max 1 maxSlots
    capabilities :=
      match field payload "capabilities" (.arr []) with
      | .arr items =>
          ((items.filter fun item => r.strip (r.text item) != "").map fun item => r.lower (r.strip (r.text item))).insertionSort (· ≤ ·)
      | _ => []
    lastSeen := lastSeen }

/-- The worker as a peer of the state, last seen at the given time. -/
def Discovered.seen (r : Reader) (now : ℚ) (worker : Discovered) : Fields := [
  ("worker_id", .str worker.workerId), ("hostname", .str worker.hostname), ("host", .str worker.host), ("port", .int worker.port),
  ("tls_fingerprint", .str worker.tlsFingerprint), ("max_slots", .int worker.maxSlots),
  ("capabilities", .arr (worker.capabilities.map .str)), ("last_seen", .float (r.stamp now))]

def isText (v : Value) (text : String) : Bool :=
  match v with
  | .str s => s == text
  | _ => false

def isAscii (text : String) : Bool := text.toList.all fun c => decide (c.toNat < 128)

/-- `verify_payload` of a document without its signature. Two texts are only compared if both are of ASCII characters. -/
def verifyDocument (r : Reader) (state : Node) (payload : Fields) : Except ReadError Bool :=
  let unsigned : Value := .obj (popField payload "signature")
  let signature := r.text (field payload "signature" (.str ""))
  if r.tooDeep unsigned = true then .error .other
  else if isAscii signature = false ∨ isAscii (signPayload r.toLibrary state.toClusterState unsigned) = false then .error .typeOrValue
  else .ok (verifyPayload r.toLibrary state.toClusterState unsigned signature)

/-- `abs(time.time() - timestamp) <= 30` -/
def near (now : ℚ) : Reading → Bool
  | .number value => decide (|now - value| ≤ 30)
  | .infinite | .nan => false

/-- `abs(time.time() - timestamp) > 30`: what is no number is neither near nor far. -/
def far (now : ℚ) : Reading → Bool
  | .number value => decide (30 < |now - value|)
  | .infinite => true
  | .nan => false

def ofCluster (state : Node) (payload : Fields) : Bool := isText (field payload "cluster_id" .null) state.clusterId

/-- `_valid_advertisement` -/
def validAdvertisement (r : Reader) (state : Node) (now : ℚ) (payload : Fields) : Except ReadError Bool :=
  if ofCluster state payload = false then .ok false
  else do
    let version ← r.int (field payload "protocol_version" (.int 0))
    if version ≠ clusterProtocolVersion then return false
    else do
      let timestamp ← r.real (field payload "timestamp" (.int 0))
      if near now timestamp = false then return false else verifyDocument r state payload

/-! ### Looking for workers -/

/-- What one datagram adds to the workers that were found. -/
def announced (r : Reader) (state : Node) (d : Datagram) : Except ReadError (Option Discovered) :=
  match r.loads d.data with
  | .refused => .ok none
  | .raised => .error .other
  | .value (.obj payload) => do
      let valid ← validAdvertisement r state d.now payload
      if valid = false then return none
      else do
        let worker ← Discovered.fromDict r d.now d.address (setField payload "host" (.str d.address))
        return if worker.workerId = "" ∨ worker.workerId = state.nodeId then none else some worker
  | .value _ => .ok none

abbrev Found := List (String × Discovered)

def Found.add (found : Found) : Option Discovered → Found
  | none => found
  | some worker => setField found worker.workerId worker

/-- The workers that are found, by their names. -/
def hear (r : Reader) (state : Node) (found : Found) : List Datagram → Except ReadError Found
  | [] => .ok found
  | d :: rest => do
      let worker ← announced r state d
      hear r state (found.add worker) rest

/-- The peers that were not heard are kept as they were, if they can be read. -/
def addPeers (r : Reader) (state : Node) (now : ℚ) (found : Found) : List (String × Fields) → Except ReadError Found
  | [] => .ok found
  | (name, peer) :: rest =>
      if name = state.nodeId ∨ (found.lookup name).isSome = true then addPeers r state now found rest
      else
        match Discovered.fromDict r now "" peer with
        | .ok worker => addPeers r state now (setField found name worker) rest
        | .error .typeOrValue => addPeers r state now found rest
        | .error .other => .error .other

/-- What comes of a search: the workers that it returns, and the peers as they are saved. -/
structure Search where
  workers : List Discovered
  peers : List (String × Fields)

/-- `discover_workers`, with what the cache of an earlier search has for it. -/
def discoverWorkers (r : Reader) (state : Node) (cached : Except ReadError (Option (List Discovered))) (now : ℚ)
    (arrivals : List Datagram) : Except ReadError Search := do
  match ← cached with
  | some workers => return ⟨workers, state.peers⟩
  | none => do
      let found ← hear r state [] arrivals
      let found ← addPeers r state now found state.peers
      return ⟨found.map Prod.snd,
        found.foldl (fun peers entry => setField peers entry.2.workerId (entry.2.seen r now)) state.peers⟩

/-! ### Answering -/

/-- What the responder says of its own node. -/
structure Responder where
  host : String
  port : Int
  fingerprint : String
  maxSlots : Int
  capabilities : List String

/-- `worker_advertisement` -/
def workerAdvertisement (r : Reader) (state : Node) (w : Responder) (now : ℚ) : Value :=
  let payload : Fields := [
    ("protocol_version", .int clusterProtocolVersion), ("cluster_id", .str state.clusterId), ("worker_id", .str state.nodeId),
    ("hostname", .str state.hostname), ("host", .str w.host), ("port", .int w.port), ("tls_fingerprint", .str w.fingerprint),
    ("max_slots", .int (max 1 w.maxSlots)), ("capabilities", .arr ((w.capabilities.dedup.insertionSort (· ≤ ·)).map .str)),
    ("timestamp", .float (r.stamp now))]
  .obj (payload ++ [("signature", .str (signPayload r.toLibrary state.toClusterState (.obj payload)))])

/-- An answer: the datagram that is sent, and where to. -/
abbrev SentAnswer := List Char × String

/-- What one datagram is answered. -/
def answered (r : Reader) (state : Node) (w : Responder) (d : Datagram) : Except ReadError (Option SentAnswer) :=
  match r.loads d.data with
  | .refused => .ok none
  | .raised => .error .other
  | .value (.obj query) =>
      if isText (field query "type" .null) "discover" = false then .ok none
      else if ofCluster state query = false then .ok none
      else do
        let timestamp ← r.real (field query "timestamp" (.int 0))
        if far d.now timestamp = true then return none
        else do
          let valid ← verifyDocument r state query
          return if valid = true then some (canonicalJson (workerAdvertisement r state w d.now), d.address) else none
  | .value _ => .ok none

/-- `DiscoveryResponder._serve`: the answers, and if the loop still runs. -/
def serve (r : Reader) (state : Node) (w : Responder) : List Datagram → List SentAnswer × Bool
  | [] => ([], true)
  | d :: rest =>
      match answered r state w d with
      | .error _ => ([], false)
      | .ok answer => (answer.toList ++ (serve r state w rest).1, (serve r state w rest).2)

/-! ### What the checks read -/

/-- The datagram carries a valid signature of the cluster. -/
def signed (r : Reader) (state : Node) (d : Datagram) : Bool :=
  match r.loads d.data with
  | .value (.obj payload) =>
      match verifyDocument r state payload with
      | .ok valid => valid
      | .error _ => false
  | _ => false

/-- Every field of an announcement that is converted can be: the version if it is of the cluster, the time if the version is right, the
text and the signature if the time is near, and the worker's fields if the signature is valid. -/
def Announceable (r : Reader) (state : Node) (now : ℚ) (address : String) (payload : Fields) : Prop :=
  ofCluster state payload = true → ∃ version, r.int (field payload "protocol_version" (.int 0)) = .ok version ∧
    (version = clusterProtocolVersion → ∃ timestamp, r.real (field payload "timestamp" (.int 0)) = .ok timestamp ∧
      (near now timestamp = true → ∃ valid, verifyDocument r state payload = .ok valid ∧
        (valid = true → ∃ worker, Discovered.fromDict r now address (setField payload "host" (.str address)) = .ok worker)))

/-- The same of a query: the time if it is of the cluster, and the text and the signature if the time is not far. -/
def Askable (r : Reader) (state : Node) (now : ℚ) (query : Fields) : Prop :=
  isText (field query "type" .null) "discover" = true → ofCluster state query = true →
    ∃ timestamp, r.real (field query "timestamp" (.int 0)) = .ok timestamp ∧
      (far now timestamp = false → ∃ valid, verifyDocument r state query = .ok valid)

/-- The datagram is no document, or one of which the property holds; reading it does not end in an error that is not caught. -/
def Harmless (r : Reader) (d : Datagram) (P : Fields → Prop) : Prop :=
  match r.loads d.data with
  | .refused => True
  | .raised => False
  | .value (.obj payload) => P payload
  | .value _ => True

section

variable {r : Reader} {state : Node} {w : Responder} {d : Datagram} {found found' : Found}

/-! ### One datagram -/

theorem validAdvertisement_runs {now : ℚ} {payload : Fields} {Q : Prop} :
    (∃ valid, validAdvertisement r state now payload = .ok valid ∧ (valid = true → Q)) ↔
      (ofCluster state payload = true → ∃ version, r.int (field payload "protocol_version" (.int 0)) = .ok version ∧
        (version = clusterProtocolVersion → ∃ timestamp, r.real (field payload "timestamp" (.int 0)) = .ok timestamp ∧
          (near now timestamp = true → ∃ valid, verifyDocument r state payload = .ok valid ∧ (valid = true → Q)))) := by
  unfold validAdvertisement
  by_cases hof : ofCluster state payload = true
  · simp only [hof, Bool.true_eq_false, if_false, forall_const, bind_ok]
    constructor
    · rintro ⟨valid, ⟨version, hversion, hrest⟩, hQ⟩
      refine ⟨version, hversion, fun hsame => ?_⟩
      rw [if_neg (not_not.mpr hsame)] at hrest
      obtain ⟨timestamp, htime, hrest⟩ := bind_ok.mp hrest
      refine ⟨timestamp, htime, fun hnear => ?_⟩
      rw [if_neg (by simp only [hnear, Bool.true_eq_false, not_false_eq_true])] at hrest
      exact ⟨valid, hrest, hQ⟩
    · rintro ⟨version, hversion, hrest⟩
      by_cases hsame : version = clusterProtocolVersion
      · obtain ⟨timestamp, htime, hrest⟩ := hrest hsame
        cases hnear : near now timestamp with
        | false => exact ⟨false, ⟨version, hversion, by simp [hsame, htime, hnear, bind, Except.bind, pure, Except.pure]⟩, by simp⟩
        | true =>
            obtain ⟨valid, hvalid, hQ⟩ := hrest hnear
            exact ⟨valid, ⟨version, hversion, by simp [hsame, htime, hnear, hvalid, bind, Except.bind]⟩, hQ⟩
      · exact ⟨false, ⟨version, hversion, by simp [hsame, pure, Except.pure]⟩, by simp⟩
  · simp [hof]

theorem announced_runs : (∃ worker, announced r state d = .ok worker) ↔ Harmless r d (Announceable r state d.now d.address) := by
  unfold announced Harmless
  split
  · simp
  · simp
  · rename_i payload _
    rw [Announceable, ← validAdvertisement_runs]
    constructor
    · rintro ⟨worker, h⟩
      obtain ⟨valid, hvalid, hrest⟩ := bind_ok.mp h
      refine ⟨valid, hvalid, fun htrue => ?_⟩
      rw [if_neg (by simp [htrue])] at hrest
      obtain ⟨read, hread, -⟩ := bind_ok.mp hrest
      exact ⟨read, hread⟩
    · rintro ⟨valid, hvalid, hrest⟩
      cases valid with
      | false => exact ⟨none, by simp [hvalid, bind, Except.bind, pure, Except.pure]⟩
      | true =>
          obtain ⟨read, hread⟩ := hrest rfl
          simp [hvalid, hread, bind, Except.bind, pure, Except.pure]
  · simp

theorem answered_runs : (∃ answer, answered r state w d = .ok answer) ↔ Harmless r d (Askable r state d.now) := by
  unfold answered Harmless
  split
  · simp
  · simp
  · rename_i query _
    unfold Askable
    by_cases htype : isText (field query "type" .null) "discover" = true
    · by_cases hof : ofCluster state query = true
      · simp only [htype, hof, Bool.true_eq_false, if_false, forall_const]
        constructor
        · rintro ⟨answer, h⟩
          obtain ⟨timestamp, htime, hrest⟩ := bind_ok.mp h
          refine ⟨timestamp, htime, fun hfar => ?_⟩
          rw [if_neg (by simp [hfar])] at hrest
          obtain ⟨valid, hvalid, -⟩ := bind_ok.mp hrest
          exact ⟨valid, hvalid⟩
        · rintro ⟨timestamp, htime, hrest⟩
          cases hfar : far d.now timestamp with
          | true => exact ⟨none, by simp [htime, hfar, bind, Except.bind, pure, Except.pure]⟩
          | false =>
              obtain ⟨valid, hvalid⟩ := hrest hfar
              simp [htime, hfar, hvalid, bind, Except.bind, pure, Except.pure]
      · simp [htype, hof]
    · simp [htype]
  · simp

/-- A worker that a datagram adds is of a valid signature. -/
theorem signed_of_announced {worker : Discovered} (h : announced r state d = .ok (some worker)) : signed r state d = true := by
  unfold announced at h
  split at h
  · cases h
  · cases h
  · rename_i payload hloads
    obtain ⟨valid, hvalid, hrest⟩ := bind_ok.mp h
    cases valid with
    | false => cases hrest
    | true =>
        unfold validAdvertisement at hvalid
        split at hvalid
        · cases hvalid
        · obtain ⟨version, -, hrest⟩ := bind_ok.mp hvalid
          split at hrest
          · cases hrest
          · obtain ⟨timestamp, -, hrest⟩ := bind_ok.mp hrest
            split at hrest
            · cases hrest
            · simp only [signed, hloads, hrest]
  · cases h

/-- What is answered is of a valid signature. -/
theorem signed_of_answered {answer : SentAnswer} (h : answered r state w d = .ok (some answer)) : signed r state d = true := by
  unfold answered at h
  split at h
  · cases h
  · cases h
  · rename_i query hloads
    split at h
    · cases h
    · split at h
      · cases h
      · obtain ⟨timestamp, -, hrest⟩ := bind_ok.mp h
        split at hrest
        · cases hrest
        · obtain ⟨valid, hvalid, hrest⟩ := bind_ok.mp hrest
          cases valid with
          | false => cases hrest
          | true => simp only [signed, hloads, hvalid]
  · cases h

/-! ### The two loops -/

/-- A search that goes through has converted what it read, and of what it read only what is signed counts. -/
theorem hear_ok {ds : List Datagram} :
    hear r state found ds = .ok found' ↔ (∀ d ∈ ds, ∃ worker, announced r state d = .ok worker) ∧
      hear r state found (ds.filter (signed r state)) = .ok found' := by
  induction ds generalizing found with
  | nil => simp
  | cons d rest ih =>
      simp only [hear, bind_ok, List.forall_mem_cons]
      constructor
      · rintro ⟨worker, hworker, hrest⟩
        obtain ⟨hall, hsame⟩ := ih.mp hrest
        refine ⟨⟨⟨worker, hworker⟩, hall⟩, ?_⟩
        cases hsigned : signed r state d with
        | true => simp only [List.filter_cons, hsigned, if_true, hear, bind_ok]; exact ⟨worker, hworker, hsame⟩
        | false =>
            cases worker with
            | none => simpa only [List.filter_cons, hsigned, Bool.false_eq_true, if_false, Found.add] using hsame
            | some worker => rw [signed_of_announced hworker] at hsigned; cases hsigned
      · rintro ⟨⟨⟨worker, hworker⟩, hall⟩, hsame⟩
        refine ⟨worker, hworker, ih.mpr ⟨hall, ?_⟩⟩
        cases hsigned : signed r state d with
        | true =>
            simp only [List.filter_cons, hsigned, if_true, hear, bind_ok] at hsame
            obtain ⟨again, hagain, hsame⟩ := hsame
            rw [hworker] at hagain
            cases hagain
            exact hsame
        | false =>
            cases worker with
            | none => simpa only [List.filter_cons, hsigned, Bool.false_eq_true, if_false, Found.add] using hsame
            | some worker => rw [signed_of_announced hworker] at hsigned; cases hsigned

theorem hear_runs {ds : List Datagram} (h : ∀ d ∈ ds, ∃ worker, announced r state d = .ok worker) :
    ∃ found', hear r state found ds = .ok found' := by
  induction ds generalizing found with
  | nil => exact ⟨found, rfl⟩
  | cons d rest ih =>
      obtain ⟨⟨worker, hworker⟩, hrest⟩ := List.forall_mem_cons.mp h
      simp only [hear, bind_ok]
      obtain ⟨found', hfound⟩ := @ih (found.add worker) hrest
      exact ⟨found', worker, hworker, hfound⟩

/-- The loop goes on as long as no datagram stops it, and answers what is signed. -/
theorem serve_runs {ds : List Datagram} {answers : List SentAnswer} :
    serve r state w ds = (answers, true) ↔ (∀ d ∈ ds, ∃ answer, answered r state w d = .ok answer) ∧
      serve r state w (ds.filter (signed r state)) = (answers, true) := by
  induction ds generalizing answers with
  | nil => simp
  | cons d rest ih =>
      cases hanswer : answered r state w d with
      | error e => simp [serve, hanswer]
      | ok answer =>
          cases hsigned : signed r state d with
          | true =>
              simp only [serve, hanswer, List.filter_cons, hsigned, if_true, List.forall_mem_cons, Prod.mk.injEq]
              constructor
              · rintro ⟨rfl, hrun⟩
                obtain ⟨hall, hsame⟩ := (@ih (serve r state w rest).1).mp (Prod.ext rfl hrun)
                exact ⟨⟨⟨answer, rfl⟩, hall⟩, by simp only [hsame], by simp only [hsame]⟩
              · rintro ⟨⟨-, hall⟩, rfl, hrun⟩
                have hsame := (@ih (serve r state w (rest.filter (signed r state))).1).mpr ⟨hall, Prod.ext rfl hrun⟩
                exact ⟨by simp only [hsame], by simp only [hsame]⟩
          | false =>
              cases answer with
              | none => simp [serve, hanswer, hsigned, ih]
              | some answer => rw [signed_of_answered hanswer] at hsigned; cases hsigned

/-- A name is found that was before, or that a datagram announces. -/
theorem hear_lookup {ds : List Datagram} (h : hear r state found ds = .ok found') (name : String) :
    (found'.lookup name).isSome = true ↔ (found.lookup name).isSome = true ∨
      ∃ d ∈ ds, ∃ worker, announced r state d = .ok (some worker) ∧ worker.workerId = name := by
  induction ds generalizing found with
  | nil =>
      cases h
      simp
  | cons d rest ih =>
      obtain ⟨answer, hanswer, hrest⟩ := bind_ok.mp h
      rw [ih hrest, List.exists_mem_cons_iff, hanswer, ← or_assoc]
      refine or_congr ?_ Iff.rfl
      cases answer with
      | none => simp [Found.add]
      | some worker =>
          by_cases hname : name = worker.workerId
          · simp [Found.add, hname, lookup_setField_self]
          · simp [Found.add, lookup_setField_ne found hname, Ne.symm hname]

/-- The peers are added where none of those that are read, not being found, ends in an error that is not caught. -/
theorem addPeers_runs {now : ℚ} {peers : List (String × Fields)} (hdistinct : (peers.map Prod.fst).Nodup) :
    (∃ found', addPeers r state now found peers = .ok found') ↔
      ∀ entry ∈ peers, entry.1 ≠ state.nodeId → (found.lookup entry.1).isSome = false →
        Discovered.fromDict r now "" entry.2 ≠ .error .other := by
  induction peers generalizing found with
  | nil => simp [addPeers]
  | cons entry rest ih =>
      obtain ⟨name, peer⟩ := entry
      obtain ⟨hnew, hdistinct⟩ := List.nodup_cons.mp hdistinct
      rw [addPeers, List.forall_mem_cons]
      by_cases hskip : name = state.nodeId ∨ (found.lookup name).isSome = true
      · rw [if_pos hskip, ih hdistinct]
        refine ⟨fun h => ⟨fun hown hfound => ?_, h⟩, And.right⟩
        rcases hskip with hsame | hsome
        · exact absurd hsame hown
        · rw [hfound] at hsome
          cases hsome
      · rw [if_neg hskip]
        obtain ⟨hown, hfound⟩ := not_or.mp hskip
        cases hread : Discovered.fromDict r now "" peer with
        | ok worker =>
            rw [ih hdistinct]
            have hlookup : ∀ other ∈ rest, (setField found name worker).lookup other.1 = found.lookup other.1 := by
              intro other hother
              refine lookup_setField_ne found fun hsame => hnew ?_
              exact List.mem_map.mpr ⟨other, hother, hsame⟩
            constructor
            · intro h
              refine ⟨fun _ _ => by simp, fun other hother hown' hfound' => h other hother hown' ?_⟩
              rw [hlookup other hother, hfound']
            · intro h other hother hown' hfound'
              rw [hlookup other hother] at hfound'
              exact h.2 other hother hown' hfound'
        | error e =>
            cases e with
            | typeOrValue => simp [ih hdistinct]
            | other => simp [hown, hfound]

end

/-! ### Datagrams of nobody -/

section

variable (r : Reader) (state : Node)

/-- The two sequences differ in nothing but datagrams without a valid signature. -/
def SameSigned (left right : List Datagram) : Prop := left.filter (signed r state) = right.filter (signed r state)

/-- Both searches return the same workers and save the same peers, and both responders go on and send the same answers. -/
def SameOutcome (cached : Except ReadError (Option (List Discovered))) (w : Responder) (now : ℚ) (left right : List Datagram) : Prop :=
  (∃ search, discoverWorkers r state cached now left = .ok search ∧ discoverWorkers r state cached now right = .ok search) ∧
    ∃ answers, serve r state w left = (answers, true) ∧ serve r state w right = (answers, true)

/-- Of a peer that is kept, reading ends in no error that is not caught; one that is announced is not read. -/
def PeersReadable (now : ℚ) (arrivals : List Datagram) : Prop :=
  ∀ entry ∈ state.peers, entry.1 ≠ state.nodeId →
    (¬ ∃ d ∈ arrivals, ∃ worker, announced r state d = .ok (some worker) ∧ worker.workerId = entry.1) →
    Discovered.fromDict r now "" entry.2 ≠ .error .other

/-- What the two sequences may be: a search that is not answered from the cache converts every field that it comes to, and so does the
responder. -/
def Convertible (cached : Except ReadError (Option (List Discovered))) (now : ℚ) (left right : List Datagram) : Prop :=
  ((∃ workers, cached = .ok (some workers)) ∨ cached = .ok none ∧ PeersReadable r state now left ∧
      ∀ d ∈ left ++ right, Harmless r d (Announceable r state d.now d.address)) ∧
    ∀ d ∈ left ++ right, Harmless r d (Askable r state d.now)

variable {r state} {cached : Except ReadError (Option (List Discovered))} {w : Responder} {now : ℚ} {left right : List Datagram}

theorem discoverWorkers_none {arrivals : List Datagram} {search : Search} :
    discoverWorkers r state (.ok none) now arrivals = .ok search ↔
      ∃ found, hear r state [] arrivals = .ok found ∧ ∃ all, addPeers r state now found state.peers = .ok all ∧
        (⟨all.map Prod.snd, all.foldl (fun peers entry => setField peers entry.2.workerId (entry.2.seen r now)) state.peers⟩ : Search) =
          search := by
  simp only [discoverWorkers, bind_ok, pure_ok, Except.ok.injEq, exists_eq_left']

theorem search_iff (hsame : SameSigned r state left right) :
    (∃ search, discoverWorkers r state (.ok none) now left = .ok search ∧ discoverWorkers r state (.ok none) now right = .ok search) ↔
      PeersReadable r state now left ∧ ∀ d ∈ left ++ right, Harmless r d (Announceable r state d.now d.address) := by
  simp only [discoverWorkers_none, ← announced_runs, List.forall_mem_append]
  constructor
  · rintro ⟨search, ⟨found, hleft, all, hall, -⟩, ⟨found', hright, -⟩⟩
    refine ⟨fun entry hentry hown hunheard => ?_, (hear_ok.mp hleft).1, (hear_ok.mp hright).1⟩
    refine (addPeers_runs state.distinct).mp ⟨all, hall⟩ entry hentry hown ?_
    rw [Bool.eq_false_iff, Ne, hear_lookup hleft]
    simpa using hunheard
  · rintro ⟨hpeers, hleft, hright⟩
    obtain ⟨found, hfound⟩ := @hear_runs r state [] left hleft
    have hfound' : hear r state [] right = .ok found := hear_ok.mpr ⟨hright, hsame ▸ (hear_ok.mp hfound).2⟩
    obtain ⟨all, hall⟩ := (@addPeers_runs r state found now state.peers state.distinct).mpr fun entry hentry hown hnew => by
      refine hpeers entry hentry hown fun hheard => ?_
      rw [(hear_lookup hfound entry.1).mpr (Or.inr hheard)] at hnew
      cases hnew
    exact ⟨_, ⟨found, hfound, all, hall, rfl⟩, found, hfound', all, hall, rfl⟩

theorem serve_iff (hsame : SameSigned r state left right) :
    (∃ answers, serve r state w left = (answers, true) ∧ serve r state w right = (answers, true)) ↔
      ∀ d ∈ left ++ right, Harmless r d (Askable r state d.now) := by
  simp only [← @answered_runs r state w, List.forall_mem_append]
  constructor
  · rintro ⟨answers, hleft, hright⟩
    exact ⟨(serve_runs.mp hleft).1, (serve_runs.mp hright).1⟩
  · rintro ⟨hleft, hright⟩
    have hruns : ∀ ds : List Datagram, (∀ d ∈ ds, ∃ answer, answered r state w d = .ok answer) → (serve r state w ds).2 = true := by
      intro ds
      induction ds with
      | nil => simp [serve]
      | cons d rest ih =>
          intro hds
          obtain ⟨⟨answer, hanswer⟩, hrest⟩ := List.forall_mem_cons.mp hds
          simpa only [serve, hanswer] using ih hrest
    have hrun : serve r state w left = ((serve r state w left).1, true) := Prod.ext rfl (hruns left hleft)
    exact ⟨_, hrun, serve_runs.mpr ⟨hright, hsame ▸ (serve_runs.mp hrun).2⟩⟩

end

/-! ### A field that cannot be converted -/

/-- A document that is sent is read as itself, with its fields in order. -/
theorem loads_dumped {r : Reader} {v : Value} (hlittle : ∀ text, r.tooMuch text = false) (h : v.Distinct) :
    r.loads (dumps v) = .value v.sorted := by
  simp only [Reader.loads, dumps, readUtf8_utf8, hlittle, Bool.false_eq_true, if_false, String.toList_ofList, canonicalJson,
    decode_ensureAscii h.sorted]

/-- A reader that converts what is a number, and a digest that is never empty. -/
def numberReader : Reader where
  sha256 _ := ""
  hmac _ _ := "digest"
  float _ := none
  text v := match v with | .str s => s | _ => ""
  int v := match v with | .int n => .ok n | _ => .error .typeOrValue
  real v := match v with | .int n => .ok (.number n) | _ => .error .typeOrValue
  tooMuch _ := false
  tooDeep _ := false
  stamp _ := ⟨"0.0".toList, by decide⟩
  lower := id
  strip := id

def loneNode : Node where
  clusterId := "c"
  secret := "s"
  nodeId := "n"
  hostname := "h"
  peers := []
  distinct := List.nodup_nil

def loneResponder : Responder := ⟨"192.168.0.1", workerApiPort, "", 1, []⟩

/-- A datagram of anybody who has read the name of the cluster from another one. -/
def strayDatagram : Datagram := ⟨dumps (.obj [("cluster_id", .str "c"), ("protocol_version", .str "x")]), "192.168.0.9", 0⟩

def nullDatagram : Datagram := ⟨dumps .null, "192.168.0.9", 0⟩

theorem strayDatagram_loads : numberReader.loads strayDatagram.data =
    .value (.obj [("cluster_id", .str "c"), ("protocol_version", .str "x")]) :=
  loads_dumped (fun _ => rfl) (by simp [Json.Distinct, DistinctFields])

theorem nullDatagram_loads : numberReader.loads nullDatagram.data = .value .null := loads_dumped (fun _ => rfl) trivial

end AutoAgents.Worker
