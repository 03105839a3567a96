import AutoAgents.ProviderContract

/-! The review of provider references. A round prepares what each reference has to be assessed for, the model writes a lock, and the
round is finished if the lock passes the checks. -/

namespace AutoAgents.Provider

open Base
open Requirements (Host Fields asFields errorIf)

/-- What is read and fetched anew in each round: the time, the time as it is stamped, and what fetching a source gives, if it was seen
before. -/
structure Clock (φ : Type) where
  now : Int
  stamp : String
  source : String → Fields φ → Fields φ

/-- What the review takes from its surroundings: the digest of a value, lower case and the readings of dates. -/
structure Surroundings (φ : Type) extends Host φ, Clock φ where
  digest : Base.Json φ → String
  lower : String → String
  date : Base.Json φ → Option Int

variable {φ : Type}

/-! ### Values -/

/-- `value.get(key)` of an entry. -/
def get (entry : Fields φ) (key : String) : Base.Json φ := Requirements.field entry key .null

def isStr (v : Base.Json φ) (text : String) : Bool :=
  match v with
  | .str s => s == text
  | _ => false

/-- `value in {..}`, which raises for a value that has no hash. -/
def inTexts (texts : List String) : Base.Json φ → Except String Bool
  | .str s => .ok (texts.contains s)
  | .arr _ | .obj _ => .error "TypeError: unhashable type"
  | _ => .ok false

/-- `RESOLVED` -/
def resolvedStatuses : List String := ["verified", "assumption_approved", "deferred"]

def usableStatuses : List String := ["verified", "assumption_approved"]

/-- `lock.get("references", {})` as the review loops over it. -/
def references (lock : Lock φ) : Except String (Fields φ) :=
  match Requirements.field lock "references" (.obj []) with
  | .obj entries => .ok entries
  | _ => .error "AttributeError: no attribute 'values'"

/-- The first entry whose path is the reference. -/
def entryFor (entries : Fields φ) (reference : String) : Option (Fields φ) :=
  (entries.filterMap fun field => asFields field.2).find? fun entry => isStr (get entry "path") reference

section

variable [FloatText φ] (h : Host φ)

/-- The consumers of a reference, with their contracts. -/
def consumers (trace : Fields φ) (reference : String) : Except String (List (String × String)) :=
  ((Requirements.requirementRecords trace).filter fun item =>
      h.text item "status" "active" == "active" && (h.providerReferencePaths item).contains reference).mapM fun item => do
    let hash ← h.requirementContractSha256 item
    return (h.text item "id" "", hash)

/-- `provider_reference_consumer_contract_sha256` -/
def consumerContractSha256 (trace : Fields φ) (reference : String) : Except String String := do
  let found ← consumers h trace reference
  let sorted := found.insertionSort fun a b => a.1 < b.1 ∨ a.1 = b.1 ∧ a.2 ≤ b.2
  let encoded : Base.Json φ := .arr (sorted.map fun (id, hash) => .obj [("contract_sha256", .str hash), ("requirement_id", .str id)])
  return "sha256:" ++ h.sha256 encoded.encode

end

/-! ### Preparation -/

/-- What a reference has to be assessed for. -/
structure Item (φ : Type) where
  reasons : List String
  prior : Fields φ
  evidenceSnapshot : String
  consumerContract : String
  sources : List (Fields φ)
  requirementIds : List String
  reviewId : String

abbrev Context (φ : Type) := List (String × Item φ)

/-- A record of retained evidence: the reference, its entry and the text of its document. -/
structure Evidence (φ : Type) where
  reference : String
  entry : Fields φ
  text : String

def Evidence.value (e : Evidence φ) : Base.Json φ := .obj [("reference", .str e.reference), ("entry", .obj e.entry), ("text", .str e.text)]

/-- The evidence that is retained, by the names of its files. -/
abbrev History (φ : Type) := List (String × Evidence φ)

def historyDirectory : String := ".auto-agents/state/provider-reference-history"

section

variable (s : Surroundings φ)

def Evidence.name (e : Evidence φ) : String := historyDirectory ++ "/" ++ s.digest e.value ++ ".json"

/-- `retain`: the name, and the history with the record under it. -/
def retain (history : History φ) (reference text : String) (entry : Fields φ) : String × History φ :=
  let evidence : Evidence φ := ⟨reference, Base.popField entry "evidence_snapshot", text⟩
  let name := evidence.name s
  (name, if (history.lookup name).isSome = true then history else history ++ [(name, evidence)])

/-- `HISTORY + r"/[a-f0-9]{64}\.json"` -/
def isHistoryName (name : String) : Bool :=
  let stem := (name.toList.drop (historyDirectory.length + 1)).take 64
  decide (name = historyDirectory ++ "/" ++ String.ofList stem ++ ".json") && stem.length == 64 &&
    stem.all fun c => c.isDigit || decide ('a' ≤ c ∧ c ≤ 'f')

/-- `retained` -/
def retained (history : History φ) (reference : String) (entry : Fields φ) : Except String (Option (Evidence φ)) :=
  match Requirements.field entry "evidence_snapshot" (.str "") with
  | .str name =>
      if isHistoryName name = true then
        match history.lookup name with
        | none => .error "FileNotFoundError"
        | some evidence =>
            if evidence.reference ≠ reference ∨ evidence.name s ≠ name then .error "ValueError: provider history identity mismatch"
            else .ok (some evidence)
      else .ok none
  | _ => .ok none

/-- `entry.get("freshness") or {}` -/
def freshnessOf (entry : Fields φ) : Except String (Fields φ) :=
  let v := get entry "freshness"
  if s.truthy v = true then
    match v with
    | .obj fields => .ok fields
    | _ => .error "AttributeError: no attribute 'get'"
  else .ok []

/-- A day, in microseconds. -/
def day : Int := 86400000000

/-- `review_due` -/
def reviewDue (entry : Fields φ) : Except String Bool := do
  let freshness ← freshnessOf s entry
  let attempt := s.date (get freshness "last_attempt_at")
  if isStr (get freshness "outcome") "unavailable" = true ∧ attempt.any (fun last => decide (0 ≤ s.now - last ∧ s.now - last < day)) = true then
    return false
  let last := get freshness "last_checked_at"
  let checked := s.date (if s.truthy last = true then last else get entry "retrieved_at")
  let interval :=
    match Requirements.field entry "review_interval_days" (.int 30) with
    | .int n => if n ≤ 0 then 30 else n
    | _ => 30
  return match checked with
    | none => true
    | some checked => decide (interval * day ≤ s.now - checked ∨ s.now < checked)

/-- `_context_identity` -/
def contextIdentity (reference : String) (item : Item φ) : String :=
  s.digest (.arr [.str reference, .str item.consumerContract, .str item.evidenceSnapshot, .arr (item.reasons.map .str),
    .arr (item.sources.map .obj), .arr (item.requirementIds.map .str)])

variable [FloatText φ]

/-- `reasons` -/
def reasons (trace : Fields φ) (entry : Fields φ) (reference : String) : Except String (List String) := do
  let resolved ← inTexts resolvedStatuses (get entry "status")
  let stale ←
    if s.truthy (get trace "contract_identity_schema_version") = true then do
      let hash ← consumerContractSha256 s.toHost trace reference
      pure (!isStr (get entry "consumer_contract_sha256") hash)
    else pure false
  -- a version that is no number counts as the first
  let version :=
    match s.int (Requirements.field entry "contract_version" (.int 1)) with
    | .ok (some n) => n
    | _ => 1
  let due ← if 2 ≤ version then reviewDue s entry else pure false
  return errorIf (!resolved) "unresolved_protocol" ++ errorIf stale "applicability" ++ errorIf due "freshness"

/-- The evidence that an entry is compared with: what is retained for it, if that was resolved, and else the entry as it is. -/
def priorOf (entry : Fields φ) : Option (Evidence φ) → Except String (Fields φ)
  | none => .ok entry
  | some evidence => do
      let usable ← inTexts resolvedStatuses (get evidence.entry "status")
      return if usable = true then evidence.entry else entry

/-- The name of the evidence of an entry, which is retained if nothing was. -/
def snapshotOf (text : String → Except String String) (history : History φ) (reference : String) (entry : Fields φ) :
    Option (Evidence φ) → Except String (String × History φ)
  | some _ => .ok (s.show (get entry "evidence_snapshot"), history)
  | none => do
      let document ← text reference
      return retain s history reference document entry

/-- What `prepare` makes of one reference before the sources are fetched; `text` reads its document. -/
def prepareOne (text : String → Except String String) (trace entries : Fields φ) (history : History φ) (reference : String) :
    Except String (Option (Item φ) × History φ) := do
  let entry := (entryFor entries reference).getD []
  let why ← reasons s trace entry reference
  if why = [] then return (none, history)
  else do
    let kept ← retained s history reference entry
    let prior ← priorOf entry kept
    let (snapshot, history) ← snapshotOf s text history reference entry kept
    let hash ← consumerContractSha256 s.toHost trace reference
    let ids := Requirements.sortedTexts (((Requirements.requirementRecords trace).filter fun item =>
      isStr (Requirements.field item "status" (.str "active")) "active" && (s.providerReferencePaths item).contains reference).map
        fun item => s.show (get item "id"))
    return (some ⟨why, prior, snapshot, hash, [], ids, ""⟩, history)

def prepareAll (text : String → Except String String) (trace entries : Fields φ) (history : History φ) :
    List String → Except String (Context φ × History φ)
  | [] => .ok ([], history)
  | reference :: rest => do
      let (item, history) ← prepareOne s text trace entries history reference
      let (context, history) ← prepareAll text trace entries history rest
      return ((item.map fun item => (reference, item)).toList ++ context, history)

/-- The urls of an entry whose review is due. -/
def dueUrls (entries : Fields φ) (reference : String) (item : Item φ) : Except String (List String) :=
  if item.reasons.contains "freshness" = true then do
    let urls ← Requirements.iterate (Requirements.field ((entryFor entries reference).getD []) "source_urls" (.arr []))
    return urls.map s.show
  else return []

/-- What is known of the sources of an entry, by their urls. -/
def seenSources (entries : Fields φ) (reference : String) : Except String (List (String × Fields φ)) := do
  let freshness ← freshnessOf s ((entryFor entries reference).getD [])
  let seen ← Requirements.iterate (Requirements.field freshness "sources" (.arr []))
  return Base.objectOf (seen.filterMap fun v => (asFields v).bind fun source =>
    if s.truthy (get source "url") = true then some (s.show (get source "url"), source) else none)

/-- The urls to fetch, each with what is known of it from the first reference that has it. -/
def checksOf (entries : Fields φ) : Context φ → Except String (List (String × Fields φ))
  | [] => .ok []
  | (reference, item) :: rest => do
      let seen ← if item.reasons.contains "freshness" = true then seenSources s entries reference else pure []
      let urls ← dueUrls s entries reference item
      let later ← checksOf entries rest
      return urls.map (fun url => (url, (seen.lookup url).getD [])) ++ later

/-- The item with its sources, and its identity. -/
def withSources (entries : Fields φ) (checks : List (String × Fields φ)) (reference : String) (item : Item φ) : Except String (Item φ) := do
  let urls ← dueUrls s entries reference item
  let item := { item with sources := urls.filterMap fun url => (checks.lookup url).map (s.source url) }
  return { item with reviewId := contextIdentity s reference item }

/-- `prepare` -/
def prepare (text : String → Except String String) (trace lock : Fields φ) (history : History φ) (needed : List String) :
    Except String (Context φ × History φ) := do
  let entries ← references lock
  let (context, history) ← prepareAll s text trace entries history needed
  let checks ← checksOf s entries context
  let context ← context.mapM fun (reference, item) => do
    let item ← withSources s entries checks reference item
    return (reference, item)
  return (context, history)

end

end AutoAgents.Provider
