import AutoAgents.BaseTable
import AutoAgents.ProofFiles

/-! The cache of the results of gate commands: certificates of success, the index of the inputs that were observed, and
the two ways in which a lookup takes one up again. The clock, the fingerprints, the files and what the folder of artifacts
holds are given with each call. The table that explains a miss is left out, as nothing else reads it. -/

namespace AutoAgents.Proofs

open Base
open Verification (stripLower)

def resultCacheVersion : Nat := 6

def maxRows : Nat := 20000

/-! ### Keys -/

def dumpsFields : List (String × List Char) → List Char
  | [] => []
  | [(name, value)] => encodeString name.toList ++ ':' :: ' ' :: value
  | (name, value) :: rest => encodeString name.toList ++ ':' :: ' ' :: value ++ ',' :: ' ' :: dumpsFields rest

/-- `_stable_hash` of an object, whose fields are given by their names in order and the texts of their values. -/
def stableHash (sha256 : String → String) (fields : List (String × List Char)) : String :=
  sha256 (String.ofList ('\x7b' :: dumpsFields fields ++ ['\x7d']))

/-- `str(command).strip()` -/
def strippedCommand (command : String) : String := String.ofList (Operator.strip command.toList)

/-- `_identity`, with the fingerprint of the policy of execution as it is at the call. -/
def identityKey (sha256 : String → String) (policy command environment metadata : String) : String :=
  stableHash sha256
    [("command", encodeString (strippedCommand command).toList),
     ("environment", encodeString environment.toList),
     ("executor_policy", encodeString policy.toList),
     ("metadata", encodeString metadata.toList),
     ("version", encodeInt resultCacheVersion)]

/-- `_candidate_key` -/
def candidateKey (sha256 : String → String) (identity source context : String) : String :=
  stableHash sha256
    [("context", encodeString context.toList), ("identity", encodeString identity.toList),
     ("source", encodeString source.toList)]

/-! ### Results and rows -/

/-- Values of a result that are kept as they are. -/
abbrev Value := Json FloatLiteral

/-- `CommandResult`, as far as the cache reads and sets it. -/
structure CommandResult where
  command : String
  ok : Bool
  returncode : Int
  stdout : String := ""
  stderr : String := ""
  comparableFailures : Bool := false
  terminationReason : String := ""
  cleanupIncomplete : Bool := false
  infrastructureError : Bool := false
  mutationPaths : List String := []
  artifacts : Artifacts := []
  cached : Bool := false
  observedInputs : Manifest := []
  inputTraceComplete : Bool := false
  networkObserved : Bool := false
  proofRef : String := ""
  executedTests : List String := []
  testResults : Value := .obj []
  collectedTests : Value := .null
  phaseSeconds : Value := .obj []
  backend : String := "local"

/-- What `result_payload` holds. -/
structure Certificate where
  ok : Bool
  returncode : Int
  stdout : String
  stderr : String
  comparableFailures : Bool
  executedTests : List String
  testResults : Value
  proofRef : String
  collectedTests : Value
  phaseSeconds : Value
  artifacts : Artifacts
  artifactModes : Modes
  inputTraceComplete : Bool
  networkObserved : Bool
  observedInputs : Manifest

/-- A row of `gate_proof_certificates`. -/
structure CertificateRow where
  cacheKey : String
  identityKey : String
  command : String
  sourceFingerprint : String
  contextFingerprint : String
  resultPayload : Certificate
  updatedAt : Int

/-- A row of `gate_result_successes`. -/
structure SuccessRow where
  cacheKey : String
  identityKey : String
  command : String
  sourceFingerprint : String
  contextFingerprint : String
  observedInputs : Manifest
  traceComplete : Bool
  networkObserved : Bool
  updatedAt : Int

structure Database where
  certificates : Table CertificateRow.cacheKey
  successes : Table SuccessRow.cacheKey

def Database.empty : Database := ⟨.empty, .empty⟩

/-! ### Calls -/

/-- `GateResultCache`. -/
structure Cache where
  projectRoot : Path
  environmentFingerprint : String := ""
  contextFingerprint : String := ""
  maxAgeSeconds : Int := 14 * 24 * 60 * 60
  manifestValidator : Option (Machine → Manifest → Except Fault Bool) := none
  disabled : Bool := false

/-- What a call finds: the files, the folder of artifacts with whether it takes a blob, the clock, the fingerprint of the
policy of execution, whether the database fails at some statement, and how it orders rows of one second. -/
structure Moment where
  machine : Machine
  blobs : String → Option String
  takesBlob : String → Bool
  now : Int
  policy : String
  databaseFails : Bool := false
  tie : String → Nat := fun _ => 0

/-- The arguments of a call. -/
structure Request where
  command : String
  sourceFingerprint : String
  cacheScope : String
  resultCacheScope : String
  metadataSignature : String

/-- The context that a scope binds a result to. -/
def contextOf (cache : Cache) (request : Request) : String :=
  if stripLower request.cacheScope ≠ "source" then cache.contextFingerprint else ""

def permitsObserved (resultCacheScope : String) : Bool := resultCacheScope == "observed_inputs" || resultCacheScope == "auto"

section

variable (reader : Reader)

def requestIdentity (cache : Cache) (moment : Moment) (request : Request) : String :=
  identityKey reader.sha256 moment.policy request.command cache.environmentFingerprint request.metadataSignature

def requestKey (cache : Cache) (moment : Moment) (request : Request) : String :=
  candidateKey reader.sha256 (requestIdentity reader cache moment request) request.sourceFingerprint (contextOf cache request)

/-- `_manifest_matches` -/
def cacheMatches (cache : Cache) (m : Machine) (manifest : Manifest) : Except Fault Bool :=
  match cache.manifestValidator with
  | some validator => validator m manifest
  | none => manifestMatches reader cache.projectRoot m manifest

/-! ### Lookup -/

/-- `_certificate_result` -/
def certificateResult (command : String) (payload : Certificate) : CommandResult where
  command := command
  ok := payload.ok
  returncode := payload.returncode
  stdout := payload.stdout
  stderr := payload.stderr
  comparableFailures := payload.comparableFailures
  executedTests := payload.executedTests
  testResults := payload.testResults
  proofRef := payload.proofRef
  collectedTests := payload.collectedTests
  phaseSeconds := payload.phaseSeconds
  artifacts := payload.artifacts
  inputTraceComplete := payload.inputTraceComplete
  networkObserved := payload.networkObserved
  observedInputs := payload.observedInputs
  backend := "proof-certificate-candidate"
  cached := true

/-- What a lookup answers, and what it leaves. -/
structure Lookup where
  result : Option CommandResult
  reason : String
  machine : Machine
  disabled : Bool

def Cache.restore (cache : Cache) (moment : Moment) (m : Machine) (payload : Certificate) : Machine × Bool :=
  restoreArtifacts reader.sha256 moment.blobs cache.projectRoot payload.artifactModes m payload.artifacts

/-- The rows from the newest to the oldest. -/
def newestFirst {ρ : Type} (tie : String → Nat) (key : ρ → String) (updatedAt : ρ → Int) (rows : List ρ) : List ρ :=
  rows.insertionSort fun a b => updatedAt b < updatedAt a ∨ updatedAt a = updatedAt b ∧ tie (key a) ≤ tie (key b)

/-- The successes of any source that a lookup may take up by their observed inputs, with their certificates. -/
def candidateRows (cache : Cache) (moment : Moment) (db : Database) (identity : String) : List (SuccessRow × CertificateRow) :=
  (newestFirst moment.tie (fun row => row.1.cacheKey) (fun row => row.1.updatedAt)
    (db.successes.rows.filterMap fun row =>
      if row.identityKey = identity ∧ row.contextFingerprint = "" ∧ row.traceComplete = true ∧ row.networkObserved = false ∧
          moment.now - cache.maxAgeSeconds ≤ row.updatedAt then
        (db.certificates.find row.cacheKey).map (row, ·)
      else none)).take 20

/-- The first of the rows whose inputs match and whose artifacts can be put back. -/
def tryCandidates (cache : Cache) (moment : Moment) (m : Machine) :
    List (SuccessRow × CertificateRow) → Machine × Except Fault (Option Certificate)
  | [] => (m, .ok none)
  | (row, certificate) :: rest =>
      match cacheMatches reader cache m row.observedInputs with
      | .error fault => (m, .error fault)
      | .ok false => tryCandidates cache moment m rest
      | .ok true =>
          match cache.restore reader moment m certificate.resultPayload with
          | (m, true) => (m, .ok (some certificate.resultPayload))
          | (m, false) => tryCandidates cache moment m rest

def lookupObserved (cache : Cache) (moment : Moment) (db : Database) (request : Request) : Lookup :=
  if permitsObserved request.resultCacheScope = false then ⟨none, "candidate_key_miss", moment.machine, false⟩
  else
    let rows := candidateRows cache moment db (requestIdentity reader cache moment request)
    match tryCandidates reader cache moment moment.machine rows with
    | (m, .error _) => ⟨none, "cache_error", m, true⟩
    | (m, .ok (some payload)) =>
        ⟨some { certificateResult request.command payload with backend := "result-cache-observed-inputs" }, "hit", m, false⟩
    | (m, .ok none) => ⟨none, if rows ≠ [] then "observed_inputs_changed" else "not_found", m, false⟩

def lookupExact (cache : Cache) (moment : Moment) (request : Request) (payload : Certificate) : Lookup :=
  let found := if payload.observedInputs = [] then .ok true else cacheMatches reader cache moment.machine payload.observedInputs
  match found with
  | .error _ => ⟨none, "cache_error", moment.machine, true⟩
  | .ok false => ⟨none, "observed_inputs_changed", moment.machine, false⟩
  | .ok true =>
      match cache.restore reader moment moment.machine payload with
      | (m, false) => ⟨none, "artifact_missing_or_conflicting", m, false⟩
      | (m, true) => ⟨some (certificateResult request.command payload), "hit", m, false⟩

def lookupWithReason (cache : Cache) (moment : Moment) (db : Database) (request : Request) : Lookup :=
  if "unavailable:".toList.isPrefixOf cache.environmentFingerprint.toList then
    ⟨none, "environment_identity_unavailable", moment.machine, cache.disabled⟩
  else if cache.disabled then ⟨none, "cache_disabled", moment.machine, true⟩
  else if request.resultCacheScope = "off" then ⟨none, "scope_off", moment.machine, false⟩
  else if moment.databaseFails then ⟨none, "cache_error", moment.machine, true⟩
  else match (db.certificates.find (requestKey reader cache moment request)).filter
      (fun row => decide (moment.now - cache.maxAgeSeconds ≤ row.updatedAt)) with
    | some row => lookupExact reader cache moment request row.resultPayload
    | none => lookupObserved reader cache moment db request

/-! ### Record -/

/-- The results that `record` leaves out. -/
def refusesResult (cache : Cache) (request : Request) (result : CommandResult) : Bool :=
  cache.disabled || "unavailable:".toList.isPrefixOf cache.environmentFingerprint.toList || request.resultCacheScope == "off" ||
    result.terminationReason != "" || result.cleanupIncomplete || result.infrastructureError || result.mutationPaths != [] ||
    result.cached || !result.ok

/-- The content and the mode of an artifact, where it is a file of the project and no link. -/
def artifactFile (m : Machine) (root : Path) (name : String) : Option (String × Nat) :=
  if isAbsolute name ∨ ".." ∈ pathParts name then none
  else match m.lstat (root ++ pathParts name), m.resolve true (root ++ pathParts name), m.stat (root ++ pathParts name) with
    | .ok (.symlink _), _, _ => none
    | _, .ok place, .ok (.file data mode) => if root.isPrefixOf place then some (data, mode) else none
    | _, _, _ => none

/-- `_store_artifacts` -/
def storeArtifacts (cache : Cache) (moment : Moment) (artifacts : Artifacts) : Bool :=
  artifacts.all fun artifact =>
    match artifactFile moment.machine cache.projectRoot artifact.1 with
    | none => false
    | some (data, _) => reader.sha256 data == artifact.2 && moment.takesBlob artifact.2

def artifactModes (cache : Cache) (moment : Moment) (artifacts : Artifacts) : Modes :=
  artifacts.filterMap fun artifact =>
    (artifactFile moment.machine cache.projectRoot artifact.1).map fun found => (artifact.1, found.2 &&& 0o777)

/-- `text[-200_000:]` -/
def lastPart (text : String) : String := String.ofList (text.toList.drop (text.length - 200000))

def certificateOf (cache : Cache) (moment : Moment) (result : CommandResult) : Certificate where
  ok := result.ok
  returncode := result.returncode
  stdout := lastPart result.stdout
  stderr := lastPart result.stderr
  comparableFailures := result.comparableFailures
  executedTests := result.executedTests
  testResults := result.testResults
  proofRef := result.proofRef
  collectedTests := result.collectedTests
  phaseSeconds := result.phaseSeconds
  artifacts := result.artifacts
  artifactModes := artifactModes cache moment result.artifacts
  inputTraceComplete := result.inputTraceComplete
  networkObserved := result.networkObserved
  observedInputs := result.observedInputs

/-- The inputs by which a result may be taken up for another source. -/
def reusableInputs (request : Request) (result : CommandResult) : Manifest :=
  if permitsObserved request.resultCacheScope = true ∧ result.inputTraceComplete = true ∧ result.networkObserved = false then
    result.observedInputs
  else []

def certificateRow (cache : Cache) (moment : Moment) (request : Request) (result : CommandResult) : CertificateRow where
  cacheKey := requestKey reader cache moment request
  identityKey := requestIdentity reader cache moment request
  command := strippedCommand request.command
  sourceFingerprint := request.sourceFingerprint
  contextFingerprint := contextOf cache request
  resultPayload := certificateOf cache moment result
  updatedAt := moment.now

def successRow (cache : Cache) (moment : Moment) (request : Request) (result : CommandResult) : SuccessRow where
  cacheKey := requestKey reader cache moment request
  identityKey := requestIdentity reader cache moment request
  command := strippedCommand request.command
  sourceFingerprint := request.sourceFingerprint
  contextFingerprint := contextOf cache request
  observedInputs := reusableInputs request result
  traceComplete := reusableInputs request result != []
  networkObserved := result.networkObserved
  updatedAt := moment.now

/-- `DELETE` of the rows that are too old, and of all but the newest `MAX_ROWS`. -/
def prune {ρ : Type} {key : ρ → String} (updatedAt : ρ → Int) (tie : String → Nat) (oldest : Int) (rows : Table key) : Table key :=
  let recent := rows.filter fun row => !decide (updatedAt row < oldest)
  recent.filter fun row => !(((newestFirst tie key updatedAt recent.rows).drop maxRows).map key).contains (key row)

/-- The database after `record`. Where a statement fails, the transaction is rolled back. -/
def recordResult (cache : Cache) (moment : Moment) (db : Database) (request : Request) (result : CommandResult) : Database :=
  if refusesResult cache request result then db
  else if storeArtifacts reader cache moment result.artifacts = false then db
  else if moment.databaseFails then db
  else
    let oldest := moment.now - cache.maxAgeSeconds
    { certificates := prune CertificateRow.updatedAt moment.tie oldest
        (db.certificates.insertOrReplace (certificateRow reader cache moment request result))
      successes := prune SuccessRow.updatedAt moment.tie oldest
        (db.successes.insertOrReplace (successRow reader cache moment request result)) }

/-- The calls of a cache, each with the object it is made on and what it finds. -/
inductive Call
  | record (cache : Cache) (moment : Moment) (request : Request) (result : CommandResult)
  | lookup (cache : Cache) (moment : Moment) (request : Request)

def Call.exec (db : Database) : Call → Database
  | .record cache moment request result => recordResult reader cache moment db request result
  | .lookup _ _ _ => db

/-- The database after a sequence of calls, over whatever files, clocks and configurations. -/
def databaseAfter (calls : List Call) : Database := calls.foldl (Call.exec reader) .empty

end

end AutoAgents.Proofs
