import AutoAgents.ProviderReview

/-! The checks of a round of provider research, and what the controller stamps on a lock that passes them. -/

namespace AutoAgents.Provider

open Base
open Requirements (Fields asFields errorIf)

variable {φ : Type}

/-! ### The review of one reference -/

def targetKeys : List String := ["provider", "model", "endpoint", "version"]

def freshnessOutcomes : List String := ["not_checked", "unchanged", "changed_unrelated", "changed_relevant", "unavailable"]

/-- The value is a text among these. -/
def textIn (texts : List String) : Base.Json φ → Bool
  | .str s => texts.contains s
  | _ => false

/-- The record of a review has the parts that every review has. -/
def isScoped (review : Fields φ) : Bool :=
  textIn ["covered", "gap", "conflict"] (get review "applicability") && Requirements.isFilled (get review "reason") &&
    (match get review "evidence_refs" with
      | .arr refs => !refs.isEmpty && refs.all Requirements.isFilled
      | _ => false) &&
    (match get review "target" with
      | .obj target => targetKeys.all fun key => Requirements.isFilled (get target key)
      | _ => false) &&
    textIn freshnessOutcomes (get review "freshness")

/-- A fact about one of the requirements. -/
def isFact (ids : List String) : Base.Json φ → Bool
  | .obj fact => textIn ids (get fact "requirement_id") && textIn ["covered", "missing", "contradicted"] (get fact "result") &&
      Requirements.isFilled (get fact "fact") && Requirements.isFilled (get fact "evidence_ref")
  | _ => false

/-- The requirements of the facts that pass a test. -/
def factIds (facts : List (Base.Json φ)) (test : Fields φ → Bool) : List String :=
  facts.filterMap fun v => (asFields v).bind fun fact =>
    if test fact = true then
      match get fact "requirement_id" with
      | .str id => some id
      | _ => none
    else none

def sameTexts (a b : List String) : Bool := a.all b.contains && b.all a.contains

/-- The facts, if they map every requirement. -/
def mappedFacts (review : Fields φ) (ids : List String) : Option (List (Base.Json φ)) :=
  match get review "facts" with
  | .arr facts =>
      if (!facts.isEmpty && facts.all (isFact ids) && sameTexts (factIds facts fun _ => true) ids) = true then some facts else none
  | _ => none

/-- `repr(actual)` of an id that may be shown. -/
def shownReviewId (v : Base.Json φ) : String :=
  match v with
  | .str s =>
      if (decide (1 ≤ s.length ∧ s.length ≤ 64) && s.toList.all fun c => c.isDigit || decide ('a' ≤ c ∧ c ≤ 'f')) = true then "'" ++ s ++ "'"
      else "<missing or invalid>"
  | _ => "<missing or invalid>"

/-- What is wrong with the uncovered facts of a review that says that there are some. -/
def affectedErrors (reference : String) (review entry : Fields φ) (ids uncovered : List String) : Except String (List String) := do
  let affected :=
    match Requirements.field review "affected_requirement_ids" (.arr []) with
    | .arr affected =>
        let texts := affected.filterMap fun | .str s => some s | _ => none
        !affected.isEmpty && affected.all Requirements.isText && texts.all ids.contains && sameTexts texts uncovered
    | _ => false
  let resolved ← inTexts resolvedStatuses (get entry "status")
  return errorIf (!affected) (reference ++ ": identify affected requirements and the concrete uncovered/conflicting fact") ++
    errorIf resolved (reference ++ ": unresolved protocol gaps/conflicts cannot be marked usable")

/-- The value is the same text. -/
def sameStatus (a b : Base.Json φ) : Bool :=
  match a, b with
  | .str s, .str t => s == t
  | _, _ => false

/-- What is wrong with a review that has all its parts. -/
def assessmentErrors (reference : String) (item : Item φ) (entry review : Fields φ) (facts : List (Base.Json φ)) : Except String (List String) := do
  let covered := isStr (get review "applicability") "covered"
  let freshness := get review "freshness"
  let uncovered := factIds facts fun fact => !isStr (get fact "result") "covered"
  let outcome ←
    if covered = true then
      pure (errorIf (!sameStatus (get entry "status") (get item.prior "status"))
        (reference ++ ": covered evidence must retain its prior validity/approval status"))
    else affectedErrors reference review entry item.requirementIds uncovered
  return errorIf (covered && !uncovered.isEmpty) (reference ++ ": uncovered facts cannot be marked covered") ++
    errorIf (!covered && uncovered.isEmpty) (reference ++ ": blocking requires a concrete uncovered or contradicted protocol fact") ++
    outcome ++
    errorIf (item.reasons.contains "freshness" && isStr freshness "not_checked")
      (reference ++ ": source review is due; record a real check or unavailable outcome") ++
    errorIf (!item.sources.isEmpty && item.sources.all (fun source => isStr (get source "outcome") "unavailable") &&
        textIn ["unchanged", "changed_unrelated", "changed_relevant"] freshness)
      (reference ++ ": unavailable source checks cannot establish current protocol changes or unchanged content; retain unavailable freshness " ++
        "and the historical evidence")

section

variable (s : Surroundings φ)

/-- The checks of `validate` on a reference that had usable evidence. -/
def reviewErrors (reference : String) (item : Item φ) (entry : Fields φ) : Except String (List String) :=
  let unscoped := reference ++ ": supply a scoped applicability/freshness review against retained evidence"
  let given := get entry "review"
  match (if s.truthy given = true then given else .obj []) with
  | .obj review =>
      if isStr (get review "review_id") item.reviewId = false then
        .ok [unscoped ++ "; review.review_id mismatch: expected " ++ item.reviewId ++ ", received " ++
          shownReviewId (get review "review_id") ++
          ". Copy context.review_id from the controller-retained input; do not reconstruct it."]
      else if isScoped review = false then .ok [unscoped]
      else
        match mappedFacts review item.requirementIds with
        | none => .ok [reference ++ ": map every current requirement to concrete protocol facts and existing evidence"]
        | some facts => assessmentErrors reference item entry review facts
  | _ => .ok [reference ++ ": review must be an object"]

variable [FloatText φ]

/-- One turn of the loop of `validate`. -/
def validateOne (trace lock : Fields φ) (reference : String) (item : Item φ) : Except String (List String) := do
  let hash ← consumerContractSha256 s.toHost trace reference
  if hash ≠ item.consumerContract then
    return [reference ++ ": requirements changed during review; reassess the current contract"]
  else
    let entries ← references lock
    let usable ← inTexts resolvedStatuses (get item.prior "status")
    if usable = true then reviewErrors s reference item ((entryFor entries reference).getD []) else return []

/-- `validate` -/
def validate (trace lock : Fields φ) : Context φ → Except String (List String)
  | [] => .ok []
  | (reference, item) :: rest => do
      let errors ← validateOne s trace lock reference item
      let more ← validate trace lock rest
      return errors ++ more

/-! ### What is stamped -/

/-- The record of freshness that `finish` writes. -/
def stampedFreshness (item : Item φ) (outcome : Base.Json φ) : Except String (Fields φ) := do
  let freshness ← freshnessOf s item.prior
  if isStr outcome "not_checked" = true then return freshness
  else
    let freshness := Base.setField (Base.setField freshness "last_attempt_at" (.str s.stamp)) "outcome" outcome
    let freshness :=
      if textIn ["unchanged", "changed_unrelated", "changed_relevant"] outcome = true then Base.setField freshness "last_checked_at" (.str s.stamp)
      else freshness
    let seen ← Requirements.iterate (Requirements.field freshness "sources" (.arr []))
    let old := Base.objectOf (seen.filterMap fun v => (asFields v).bind fun source =>
      if s.truthy (get source "url") = true then some (s.show (get source "url"), source) else none)
    let merged := item.sources.foldl (fun old source =>
      let url := s.show (get source "url")
      Base.setField old url (source.foldl (fun kept field => Base.setField kept field.1 field.2) ((old.lookup url).getD []))) old
    return Base.setField freshness "sources" (.arr (merged.map fun source => .obj source.2))

/-- The date of retrieval after a local assessment or a failed fetch, which do not refresh the source. -/
def keepRetrieval (item : Item φ) (outcome : Base.Json φ) (entry : Fields φ) : Fields φ :=
  if (isStr outcome "not_checked" || isStr outcome "unavailable") = true then
    match item.prior.lookup "retrieved_at" with
    | some retrieved => Base.setField entry "retrieved_at" retrieved
    | none => Base.popField entry "retrieved_at"
  else entry

/-- `finish` on an entry of a reference under review. -/
def finishEntry (text : String → Except String String) (history : History φ) (reference : String) (item : Item φ) (entry : Fields φ) :
    Except String (Fields φ × History φ) := do
  let given := get entry "review"
  let entry := Base.setField entry "evidence_snapshot" (.str item.evidenceSnapshot)
  let usable ← inTexts resolvedStatuses (get item.prior "status")
  if usable = false then return (entry, history)
  else
    match (if s.truthy given = true then given else .obj []) with
    | .obj review => do
        let outcome := get review "freshness"
        let freshness ← stampedFreshness s item outcome
        let entry := Base.setField (Base.setField (keepRetrieval item outcome entry) "freshness" (.obj freshness)) "applicability_checked_at"
          (.str s.stamp)
        if isStr (get review "applicability") "covered" = true then do
          let entry := Base.setField entry "consumer_contract_sha256" (.str item.consumerContract)
          let document ← text reference
          let (snapshot, history) := retain s history reference document entry
          return (Base.setField entry "evidence_snapshot" (.str snapshot), history)
        else return (entry, history)
    | _ => .error "AttributeError: no attribute 'get'"

/-- One turn of the loop of `finish`. -/
def finishOne (text : String → Except String String) (context : Context φ) (history : History φ) (entry : Fields φ) :
    Except String (Fields φ × History φ) :=
  match get entry "path" with
  | .str reference =>
      match context.lookup reference with
      | some item => finishEntry s text history reference item entry
      | none => .ok (entry, history)
  | .arr _ | .obj _ => .error "TypeError: unhashable type"
  | _ => .ok (entry, history)

/-- `finish`, over the entries of the lock. -/
def finish (text : String → Except String String) (context : Context φ) (history : History φ) : Fields φ → Except String (Fields φ × History φ)
  | [] => .ok ([], history)
  | (key, .obj entry) :: rest => do
      let (entry', history) ← finishOne s text context history entry
      let (rest', history) ← finish text context history rest
      return ((key, .obj entry') :: rest', history)
  | _ => .error "AttributeError: no attribute 'get'"

/-- The consumer hash that `stamp_provider_reference_consumer_hashes` puts on an entry of one of the references. -/
def stampEntry (trace : Fields φ) (required : List String) (entry : Fields φ) : Except String (Fields φ) := do
  let reference := pathOf s.toHost entry
  if reference ∉ required ∨ reference = "" ∨ s.text entry "status" "" ∉ resolvedStatuses then return entry
  else
    let hash ← consumerContractSha256 s.toHost trace reference
    return if s.text entry "consumer_contract_sha256" "" = hash then entry else Base.setField entry "consumer_contract_sha256" (.str hash)

/-- `stamp_provider_reference_consumer_hashes` -/
def stamp (trace : Fields φ) (required : List String) : Fields φ → Except String (Fields φ)
  | [] => .ok []
  | (key, .obj entry) :: rest => do
      let entry' ← stampEntry s trace required entry
      let rest' ← stamp trace required rest
      return (key, .obj entry') :: rest'
  | field :: rest => do
      let rest' ← stamp trace required rest
      return field :: rest'

/-! ### A round -/

/-- The references that active requirements need, in order. -/
def requiredReferences (trace : Fields φ) : List String :=
  Requirements.sortedTexts (((Requirements.requirementRecords trace).filter fun item =>
    s.text item "status" "active" == "active" && s.truthy (Requirements.field item "external_docs_required" (.bool false))).flatMap
      s.providerReferencePaths).dedup

/-- `provider_reference_status`, of the entry of the reference. -/
def entryStatus (entry : Fields φ) : String :=
  if s.text entry "status" "missing" = "" then "missing" else s.text entry "status" "missing"

/-- `contract_identity_schema_version`, as `provider_reference_effective_status` reads it. -/
def identityMode (trace : Fields φ) : Int :=
  let version := get trace "contract_identity_schema_version"
  match s.int (if s.truthy version = true then version else .int 0) with
  | .ok (some n) => n
  | _ => 0

/-- `provider_reference_effective_status` -/
def effectiveStatus (lock trace : Fields φ) (reference : String) : Except String String :=
  match lockEntry s.toHost lock reference with
  | none => .ok "missing"
  | some entry =>
      let status := entryStatus s entry
      if status ∉ resolvedStatuses ∨ identityMode s trace < Requirements.contractIdentitySchemaVersion then .ok status
      else do
        let hash ← consumerContractSha256 s.toHost trace reference
        return if s.text entry "consumer_contract_sha256" "" = hash then status else "needs_assessment"

/-- The reference is held against the second version of the contract. -/
def isChecked (refreshed : List String) (reference : String) (entry : Option (Fields φ)) : Except String Bool :=
  if refreshed.contains reference = true then .ok true
  else
    match entry with
    | none => .ok true
    | some entry => do
        let version ← s.int (Requirements.field entry "contract_version" (.int 0))
        match version with
        | some n => return decide (2 ≤ n)
        | none => .error "ValueError: invalid literal for int()"

/-- What the loop of `validate_provider_documents` finds wrong with one reference. The document is read if the path may be one. -/
def documentFindings (read : String → Except String (Option (List Char))) (lock trace : Fields φ) (refreshed : List String)
    (reference : String) : Except String (List String) := do
  let entry := lockEntry s.toHost lock reference
  let status ← effectiveStatus s lock trace reference
  let usable ← (entry.map fun entry => inTexts usableStatuses (get entry "status")).getD (.ok false)
  let unresolved := errorIf (decide (status ∉ usableStatuses) && !usable) (reference ++ ": required protocol evidence is unresolved")
  let checked ← isChecked s refreshed reference entry
  if checked = true then do
    let text ← read reference
    return unresolved ++ (validateProviderReferenceV2 s.lower s.toHost text entry).map fun reason => reference ++ ": " ++ reason
  else return unresolved

/-- What the worker replies. -/
structure Proposal where
  artifacts : List String
  notRequired : Bool

/-- How the validation ends when it does not accept. -/
inductive Refusal
  | control (errors : List String)
  | raised (message : String)
  deriving DecidableEq

def caught {α : Type} : Except String α → Except Refusal α
  | .ok a => .ok a
  | .error message => .error (.raised message)

theorem caught_ok {α : Type} {x : Except String α} {a : α} (h : caught x = .ok a) : x = .ok a := by
  cases x with
  | ok b => exact congrArg Except.ok (Except.ok.inj h)
  | error message => cases h

/-- `validate_provider_documents`: the lock that it writes, and the history. -/
def validateProviderDocuments (read : String → Except String (Option (List Char))) (text : String → Except String String) (context : Context φ)
    (history : History φ) (trace lock : Fields φ) (proposal : Proposal) : Except Refusal (Fields φ × History φ) := do
  let errors ← caught (validate s trace lock context)
  let required := requiredReferences s trace
  let findings ← caught (required.mapM (documentFindings s read lock trace proposal.artifacts))
  let skipped := errorIf (proposal.notRequired && !required.isEmpty)
    "Active requirements need provider references; this stage cannot be skipped"
  if errors ++ findings.flatten ++ skipped ≠ [] then .error (.control (errors ++ findings.flatten ++ skipped))
  else if required = [] then return (lock, history)
  else
    let entries ← caught (references lock)
    let (finished, history) ← caught (finish s text context history entries)
    let stamped ← caught (stamp s trace required finished)
    return (Base.setField lock "references" (.obj stamped), history)

/-- What a validation that accepts has found, which is nothing, and what it writes. -/
theorem validateProviderDocuments_ok {s : Surroundings φ} {read : String → Except String (Option (List Char))}
    {text : String → Except String String} {context : Context φ} {history history' : History φ} {trace lock lock' : Fields φ}
    {proposal : Proposal} (hok : validateProviderDocuments s read text context history trace lock proposal = .ok (lock', history')) :
    validate s trace lock context = .ok [] ∧
      (∀ reference ∈ requiredReferences s trace, documentFindings s read lock trace proposal.artifacts reference = .ok []) ∧
      (requiredReferences s trace = [] ∧ lock' = lock ∧ history' = history ∨
        ∃ fields finished stamped, references lock = .ok fields ∧ finish s text context history fields = .ok (finished, history') ∧
          stamp s trace (requiredReferences s trace) finished = .ok stamped ∧ lock' = Base.setField lock "references" (.obj stamped)) := by
  simp only [validateProviderDocuments, bind_ok, guard_ok] at hok
  obtain ⟨errors, herrors, findings, hfindings, hnone, hok⟩ := hok
  simp only [ne_eq, not_not, List.append_eq_nil_iff, List.flatten_eq_nil_iff] at hnone
  obtain ⟨⟨rfl, hempty⟩, _⟩ := hnone
  refine ⟨caught_ok herrors, fun reference hreference => ?_, ?_⟩
  · obtain ⟨found, hmem, hfound⟩ := mapM_mem_of_mem (caught_ok hfindings) reference hreference
    rw [hfound, hempty found hmem]
  · split at hok
    · next hrequired =>
        obtain ⟨rfl, rfl⟩ := Prod.mk.inj (pure_ok.mp hok)
        exact .inl ⟨hrequired, rfl, rfl⟩
    · simp only [bind_ok, pure_ok] at hok
      obtain ⟨fields, hfields, ⟨finished, later⟩, hfinished, stamped, hstamped, heq⟩ := hok
      obtain ⟨rfl, rfl⟩ := Prod.mk.inj heq
      exact .inr ⟨fields, finished, stamped, caught_ok hfields, caught_ok hfinished, caught_ok hstamped, rfl⟩

end

end AutoAgents.Provider
