import AutoAgents.BaseRun
import AutoAgents.ProofCache

/-! The ledger of verified commands, which several processes share. A call to `execute` looks for the marker of a
revocation, takes the identity of the source, waits for its lock, looks a proof up in two scopes, and runs the command
where it finds none; each of these is a step, and the steps of all calls and revocations may alternate. What a call
finds of the files, of Git and of the clock is given with each step. -/

namespace AutoAgents.Proofs.Certificates

open Base

def ledgerVersion : Int := 3

/-! ### The identity of the source -/

/-- What `git ls-files` and `git rev-parse HEAD` answer, where they succeed, and the files. -/
structure SourceTree where
  listed : Option (List String)
  tracked : Option (List String)
  head : String
  machine : Machine

/-- Folders whose files count only where Git tracks them. -/
def cacheFolders : List String :=
  [".pytest_cache", "__pycache__", ".conda", ".venv", "node_modules", ".auto-agents-gate-runtime", ".auto-agents-gate-tmp",
    ".auto-agents-gate-cache"]

/-- The files that belong to the identity, in order. -/
def sourceNames (listed tracked : List String) : List String :=
  ((listed.dedup.filter (· ≠ "")).insertionSort (· ≤ ·)).filter fun name =>
    tracked.contains name || !(pathParts name).any cacheFolders.contains

def sourceValue (reader : Reader) (m : Machine) (path : Path) : Except Fault String :=
  match m.lstat path with
  | .ok (.symlink target) => .ok ("link:" ++ target)
  | .error (.denied errno) => .error (.denied errno)
  | _ =>
      match m.stat path with
      | .ok (.file data _) => .ok (reader.sha256 data)
      | .error (.denied errno) => .error (.denied errno)
      | _ => .ok "missing"

/-- `digest` of a list, whose items are given by their texts. -/
def digestItems (reader : Reader) (items : List (List Char)) : String :=
  reader.sha256 (String.ofList ('[' :: [',', ' '].intercalate items ++ [']']))

def itemText (item : String × String) : List Char := (dumpsList [item.1, item.2]).toList

/-- `source_identity`. Nothing is left of one that raises. -/
def sourceIdentity (reader : Reader) (root : Path) (c : SourceTree) : Option String := do
  let listed ← c.listed
  let tracked ← c.tracked
  let items ← (sourceNames listed tracked).mapM fun name =>
    (sourceValue reader c.machine (root ++ pathParts name)).toOption.map fun value => (name, value)
  return digestItems reader
    ['[' :: [',', ' '].intercalate (items.map itemText) ++ [']'], encodeString (String.ofList (Operator.strip c.head.toList)).toList]

/-! ### Ledgers and calls -/

/-- `VerificationLedger`. The repository is given by its identity. -/
structure Ledger where
  source : Path
  repository : String
  scope : String := "project"
  environment : String := ""
  context : String := ""
  repairJob : String := ""
  mode : String := "on"
  maxAgeSeconds : Int := 14 * 24 * 60 * 60
  manifestValidator : Option (Machine → Manifest → Except Fault Bool) := none

/-- The arguments of `execute`, without the command's run and what may cancel it. -/
structure Arguments where
  command : String
  source : String := ""
  metadata : String := ""
  fresh : Bool := false
  resultCacheScope : String := "candidate"
  inputMode : String := "observe"

/-- A call, as it goes on after it has looked for the marker and taken the identity of the source. -/
structure Flight where
  ledger : Ledger
  args : Arguments
  resultCacheScope : String
  source : String
  /-- How many revocations were complete when it looked for the marker. -/
  seen : Nat

/-- The directory of a namespace: its certificates, and how many revocations are complete. The marker stands from the first
of them on. -/
structure Store where
  db : Database := .empty
  completed : Nat := 0

def Store.marked (store : Store) : Bool := store.completed != 0

section

variable (reader : Reader)

/-- The directory, by its name. -/
def Ledger.directory (l : Ledger) : String := reader.sha256 (dumpsList [l.scope, l.repository])

def Ledger.contextFingerprint (l : Ledger) : String :=
  if l.context ≠ "" then l.context else reader.sha256 (dumpsList ["/" ++ "/".intercalate l.source, l.repairJob])

/-- The cache of the ledger, which an error may have disabled. -/
def Ledger.cache (l : Ledger) (disabled : Bool) : Cache where
  projectRoot := l.source
  environmentFingerprint := l.environment
  contextFingerprint := l.contextFingerprint reader
  maxAgeSeconds := l.maxAgeSeconds
  manifestValidator := l.manifestValidator
  disabled := disabled

namespace Flight

def directory (f : Flight) : String := f.ledger.directory reader

def metadata (f : Flight) : String := digestItems reader [encodeInt ledgerVersion, encodeString f.args.metadata.toList]

def key (f : Flight) : String :=
  reader.sha256 (dumpsList [f.args.command, f.source, f.metadata reader, f.ledger.environment, f.ledger.contextFingerprint reader,
    f.ledger.scope])

/-- The lock file, one of 4096. -/
def bucket (f : Flight) : String :=
  String.ofList ((reader.sha256 (String.ofList (encodeString (f.key reader).toList))).toList.take 3)

def request (f : Flight) (cacheScope resultCacheScope : String) : Request :=
  ⟨f.args.command, f.source, cacheScope, resultCacheScope, f.metadata reader⟩

/-- Whether proofs may be looked up at all. -/
def looksUp (f : Flight) : Bool := !f.args.fresh && f.ledger.mode != "off"

/-- Whether a second lookup, for no context, follows one that missed. -/
def looksFurther (f : Flight) : Bool := f.looksUp && f.ledger.context == "" && f.args.inputMode != "off"

end Flight

/-- The beginning of `execute`. -/
def Ledger.begin (l : Ledger) (store : Store) (args : Arguments) (c : SourceTree) : Option Flight :=
  (if args.source ≠ "" then some args.source else sourceIdentity reader l.source c).map fun source =>
    { ledger := l, args, resultCacheScope := if store.marked then "candidate" else args.resultCacheScope, source,
      seen := store.completed }

end

/-- What a run came to: the identity of the source when it began, the one after it, and its result. -/
structure Ended where
  began : Option String
  after : String
  result : CommandResult

/-- Where a call stands. -/
inductive Stage
  | waiting
  | holding
  | missed
  | decided (cached : Option CommandResult) (completed : Nat) (found : Moment)
  | running (cached : Option CommandResult) (began : Option String)
  | ran (cached : Option CommandResult) (began : Option String) (result : CommandResult)
  | recording (e : Ended)
  | recordingSource (e : Ended)

/-- A call, or a revocation, which may be the last part of a call. -/
inductive Phase
  | flight (f : Flight) (s : Stage)
  | deleting (directory : String) (rest : Option (Flight × Ended))
  | marking (directory : String) (rest : Option (Flight × Ended))

/-- A record that was written. -/
structure Write where
  flight : Flight
  began : Option String
  after : String
  cache : Cache
  moment : Moment
  request : Request
  result : CommandResult

inductive Event
  | recorded (w : Write)
  | revoked (directory : String)
  /-- A proof was returned without a run. The second lookup or the first found it at a moment. -/
  | reused (f : Flight) (hit : CommandResult) (found : Moment)
  | executed (f : Flight) (e : Ended)

/-- What one step of a call is given. -/
inductive Given
  | lookup (disabled : Bool) (moment : Moment)
  /-- Whether a hit is drawn for an audit, and the source as a run would find it. -/
  | choose (sampled : Bool) (c : SourceTree)
  | finish (result : CommandResult)
  | check (c : SourceTree)
  | write (disabled : Bool) (moment : Moment)

/-- What one step leaves. -/
structure Turn where
  next : Option Phase
  store : Store
  /-- What is added to the history, the newest first. -/
  events : List Event := []

def observedBackend : String := "result-cache-observed-inputs"

def isObserved (hit : CommandResult) : Bool := hit.backend == observedBackend

/-- Whether a hit is tried again by a run. -/
def audits (f : Flight) (hit : CommandResult) (sampled : Bool) : Bool :=
  f.ledger.mode == "observe" || isObserved hit && f.args.inputMode != "on" || sampled

/-- The result of a run after which the source is another one. -/
def sourceChanged (result : CommandResult) : CommandResult :=
  { result with
    ok := false
    returncode := 125
    infrastructureError := true
    stderr := result.stderr ++ "\nverification source changed during execution; proof is invalid" }

def validResult (result : CommandResult) : Bool :=
  result.ok && result.returncode == 0 && !result.cleanupIncomplete && result.terminationReason == "" && !result.infrastructureError

/-- Whether a run that audits a hit speaks against it. -/
def disagrees (cached : Option CommandResult) (valid : Bool) (result : CommandResult) : Bool :=
  match cached with
  | none => false
  | some hit => !valid || hit.executedTests != [] && hit.executedTests != result.executedTests

def auditFailed (result : CommandResult) : CommandResult :=
  { result with ok := false, stderr := result.stderr ++ "\nverification cache audit disagreed; namespace revoked" }

/-- What is left of the lookups. -/
def admitted (f : Flight) (cached : Option CommandResult) : Option CommandResult :=
  cached.filter fun hit => !(isObserved hit && f.args.inputMode == "off")

section

variable (reader : Reader)

/-- A lookup in one of the two scopes. -/
def lookupIn (store : Store) (f : Flight) (cacheScope resultCacheScope : String) (disabled : Bool) (moment : Moment) :
    Option CommandResult :=
  (lookupWithReason reader (f.ledger.cache reader disabled) moment store.db (f.request reader cacheScope resultCacheScope)).result

/-- The record of a result. -/
def writeOf (f : Flight) (e : Ended) (cacheScope : String) (disabled : Bool) (moment : Moment) : Write where
  flight := f
  began := e.began
  after := e.after
  cache := f.ledger.cache reader disabled
  moment := moment
  request := f.request reader cacheScope f.resultCacheScope
  result := e.result

/-- Whether a row is written. -/
def Write.lands (w : Write) : Bool :=
  !refusesResult w.cache w.request w.result && storeArtifacts reader w.cache w.moment w.result.artifacts && !w.moment.databaseFails

def Write.into (w : Write) (store : Store) : Store := { store with db := recordResult reader w.cache w.moment store.db w.request w.result }

def Write.events (w : Write) : List Event := if w.lands reader then [.recorded w] else []

/-- The source after the run is compared with the one that the call goes by. -/
def checkedTurn (store : Store) (f : Flight) (cached : Option CommandResult) (began : Option String) (result : CommandResult)
    (after : String) : Turn :=
  let unchanged := after == f.source
  let result := if unchanged then result else sourceChanged result
  let valid := validResult result && unchanged
  if disagrees cached valid result then ⟨some (.deleting (f.directory reader) (some (f, ⟨began, after, auditFailed result⟩))), store, []⟩
  else if valid && f.ledger.mode != "off" then ⟨some (.flight f (.recording ⟨began, after, result⟩)), store, []⟩
  else ⟨none, store, [.executed f ⟨began, after, result⟩]⟩

/-- The first record, in the scope of the context. -/
def recordedTurn (store : Store) (f : Flight) (e : Ended) (disabled : Bool) (moment : Moment) : Turn :=
  let w := writeOf reader f e "run_context" disabled moment
  if e.result.inputTraceComplete && f.ledger.context == "" then ⟨some (.flight f (.recordingSource e)), w.into reader store, w.events reader⟩
  else ⟨none, w.into reader store, .executed f e :: w.events reader⟩

/-- One step of a call that holds its lock, or of a revocation. -/
def turn (store : Store) : Phase → Given → Option Turn
  | .flight f .holding, .lookup disabled moment =>
      let cached := if f.looksUp then lookupIn reader store f "run_context" "candidate" disabled moment else none
      if cached.isNone && f.looksFurther then some ⟨some (.flight f .missed), store, []⟩
      else some ⟨some (.flight f (.decided (admitted f cached) store.completed moment)), store, []⟩
  | .flight f .missed, .lookup disabled moment =>
      let cached := lookupIn reader store f "source" f.resultCacheScope disabled moment
      some ⟨some (.flight f (.decided (admitted f cached) store.completed moment)), store, []⟩
  | .flight f (.decided (some hit) _ found), .choose sampled c =>
      if audits f hit sampled then some ⟨some (.flight f (.running (some hit) (sourceIdentity reader f.ledger.source c))), store, []⟩
      else some ⟨none, store, [.reused f { hit with proofRef := f.key reader } found]⟩
  | .flight f (.decided none _ _), .choose _ c =>
      some ⟨some (.flight f (.running none (sourceIdentity reader f.ledger.source c))), store, []⟩
  | .flight f (.running cached began), .finish result =>
      some ⟨some (.flight f (.ran cached began { result with proofRef := f.key reader })), store, []⟩
  | .flight f (.ran cached began result), .check c =>
      (sourceIdentity reader f.ledger.source c).map (checkedTurn reader store f cached began result)
  | .flight f (.recording e), .write disabled moment => some (recordedTurn reader store f e disabled moment)
  | .flight f (.recordingSource e), .write disabled moment =>
      let w := writeOf reader f e "source" disabled moment
      some ⟨none, w.into reader store, .executed f e :: w.events reader⟩
  | .deleting directory rest, .write _ moment =>
      -- the rows go in one transaction, and the marker is another file
      if moment.databaseFails then none else some ⟨some (.marking directory rest), { store with db := .empty }, []⟩
  | .marking directory rest, .write _ _ =>
      some ⟨none, { store with completed := store.completed + 1 },
        (rest.map fun r => Event.executed r.1 r.2).toList ++ [.revoked directory]⟩
  | _, _ => none

end

/-! ### All calls together -/

structure World where
  stores : String → Store := fun _ => {}
  phases : Nat → Option Phase := fun _ => none
  /-- Who holds a lock, by the directory and the bucket. -/
  held : String → String → Option Nat := fun _ _ => none
  /-- The newest event first. -/
  history : List Event := []

inductive Act
  | execute (id : Nat) (l : Ledger) (args : Arguments) (c : SourceTree)
  | revoke (id : Nat) (l : Ledger)
  | lock (id : Nat)
  | go (id : Nat) (input : Given)
  /-- The call is cancelled, or an exception ends it, or its process is killed. -/
  | stop (id : Nat)

section

variable (reader : Reader)

/-- The directory that a step works on. -/
def Phase.directory : Phase → String
  | .flight f _ => f.directory reader
  | .deleting directory _ => directory
  | .marking directory _ => directory

def World.put (w : World) (id : Nat) (phase : Option Phase) : World := { w with phases := Function.update w.phases id phase }

/-- The locks without those of a call. -/
def World.released (w : World) (id : Nat) : World :=
  { w with held := fun directory bucket => if w.held directory bucket = some id then none else w.held directory bucket }

def World.take (w : World) (id : Nat) (directory : String) (t : Turn) : World :=
  let w := w.put id t.next
  let w := { w with stores := Function.update w.stores directory t.store, history := t.events ++ w.history }
  if t.next.isSome then w else w.released id

def World.step (w : World) : Act → Option World
  | .execute id l args c =>
      if (w.phases id).isSome then none
      else (l.begin reader (w.stores (l.directory reader)) args c).map fun f => w.put id (some (.flight f .waiting))
  | .revoke id l => if (w.phases id).isSome then none else some (w.put id (some (.deleting (l.directory reader) none)))
  | .lock id =>
      match w.phases id with
      | some (.flight f .waiting) =>
          if (w.held (f.directory reader) (f.bucket reader)).isSome then none
          else some { w.put id (some (.flight f .holding)) with
            held := Function.update w.held (f.directory reader)
              (Function.update (w.held (f.directory reader)) (f.bucket reader) (some id)) }
      | _ => none
  | .go id input => do
      let phase ← w.phases id
      let t ← turn reader (w.stores (phase.directory reader)) phase input
      return w.take id (phase.directory reader) t
  | .stop id => if (w.phases id).isSome then some ((w.put id none).released id) else none

/-- The calls on some repositories, from empty directories on. -/
def calls : System World Act where
  start w := w = {}
  step w a w' := w.step reader a = some w'

end

end AutoAgents.Proofs.Certificates
