import AutoAgents.RequirementRecords

/-! Transitions between two traces. An id that is delivered keeps its contract, but for three exceptions that are told by the
links between its record and the records that replace it. -/

namespace AutoAgents.Requirements

open Base
open Operator (stripText)

variable {φ : Type}

section

variable (h : Host φ)

/-- The texts among some values, stripped, that are not blank. -/
def linkNames (values : List (Json φ)) : List String :=
  (values.filterMap fun v => match v with | .str s => some (stripText s) | _ => none).filter (· != "")

/-! ### Delivered work -/

/-- The tasks of the history that are done. -/
def Host.doneTasks (tasks : List (Json φ)) : List (Fields φ) :=
  (tasks.filterMap asFields).filter fun task => h.text task "status" "" == "done"

/-- The proofs of a task that are objects. -/
def proofsOf (task : Fields φ) : List (Fields φ) :=
  match task.lookup "requirement_proofs" with
  | some (.arr proofs) => proofs.filterMap asFields
  | _ => []

/-- `delivered_requirement_ids` -/
def Host.deliveredRequirementIds (tasks : List (Json φ)) : List String :=
  (h.doneTasks tasks).flatMap fun task =>
    (match task.lookup "requirement_ids" with
      | some (.arr ids) => linkNames ids
      | _ => []) ++
    ((proofsOf task).map fun proof => h.text proof "requirement_id" "").filter (· != "")

/-- `_verified_contract_hashes_by_requirement`, of one requirement. -/
def Host.verifiedHashes (tasks : List (Json φ)) (reqId : String) : List String :=
  (((h.doneTasks tasks).flatMap proofsOf).filter fun proof =>
      reqId != "" && h.text proof "status" "" == "verified" && h.text proof "requirement_id" "" == reqId &&
        h.text proof "requirement_contract_sha256" "" != "").map
    (fun proof => h.text proof "requirement_contract_sha256" "") |>.dedup

/-- The proofs of a requirement that `historical_requirement_contract_collision_ids` looks at. -/
def Host.archivedProofs (tasks : List (Json φ)) (reqId : String) : List (Fields φ) :=
  ((h.doneTasks tasks).flatMap proofsOf).filter fun proof =>
    (h.text proof "status" "" == "" || h.text proof "status" "" == "verified") && h.text proof "requirement_id" "" == reqId

/-- A proof conflicts with the contract of the record, or with the oracle that it names. -/
def Host.conflicts (expected : String) (oracles : List String) (proof : Fields φ) : Except String Bool := do
  let proofHash := h.text proof "requirement_contract_sha256" ""
  let exactOracle := h.text proof "acceptance_oracle" ""
  let number ← h.int (field proof "oracle_index" .null)
  let drift :=
    match number with
    | none => false
    | some n => exactOracle != "" && decide (0 ≤ n - 1) && decide ((n - 1).toNat < oracles.length) &&
        exactOracle != oracles.getD (n - 1).toNat ""
  return (proofHash != "" && proofHash != expected) || drift

/-- Some proof conflicts: the first that does ends the search. -/
def Host.anyConflict (expected : String) (oracles : List String) : List (Fields φ) → Except String Bool
  | [] => .ok false
  | proof :: rest => do
      let conflict ← h.conflicts expected oracles proof
      if conflict = true then return true else Host.anyConflict expected oracles rest

/-- `historical_requirement_contract_collision_ids` -/
def Host.collisionIds [FloatText φ] (records : List (Fields φ)) (tasks : List (Json φ)) : Except String (List String) := do
  let found ← records.mapM fun item => do
    let reqId := h.text item "id" ""
    let expected ← h.requirementContractSha256 item
    let oracles ← h.linkTexts item "acceptance_oracles"
    let conflict ← h.anyConflict expected (oracles.filter (· != "")) (if reqId = "" then [] else h.archivedProofs tasks reqId)
    return if conflict = true then [reqId] else []
  return sortedTexts found.flatten.dedup

/-! ### Replacements -/

/-- `_strict_requirement_links` -/
def strictRequirementLinks (item : Fields φ) (key : String) : Option (List String) :=
  match field item key (.arr []) with
  | .arr values =>
      if (linkNames values).length = values.length ∧ (linkNames values).Nodup then some (linkNames values) else none
  | _ => none

/-- `_normalized_requirement_links` -/
def normalizedRequirementLinks (item : Fields φ) (key : String) : List String :=
  match field item key (.arr []) with
  | .arr values => (linkNames values).dedup
  | _ => []

abbrev ById (φ : Type) := List (String × Fields φ)

/-- `edge_is_safe` -/
def edgeIsSafe (previous current : ById φ) (proven : List String) (parentId childId : String) : Bool :=
  match current.lookup parentId, current.lookup childId with
  | some parent, some child =>
      match strictRequirementLinks parent "superseded_by", strictRequirementLinks child "supersedes" with
      | some parentLinks, some childLinks =>
          if childId ∉ parentLinks ∨ parentId ∉ childLinks then false
          else
            match (match previous.lookup parentId with
              | some prior => strictRequirementLinks prior "superseded_by"
              | none => some []) with
            | none => false
            | some priorLinks =>
                priorLinks.all (fun link => parentLinks.contains link) &&
                  (priorLinks.contains childId || !((previous.lookup childId).isSome || proven.contains childId))
      | _, _ => false
  | _, _ => false

theorem edgeIsSafe_known {previous current : ById φ} {proven : List String} {parentId childId : String}
    (hsafe : edgeIsSafe previous current proven parentId childId = true) : childId ∈ current.map Prod.fst := by
  unfold edgeIsSafe at hsafe
  split at hsafe
  · next hchild =>
      by_contra hnot
      rw [lookup_none hnot] at hchild
      cases hchild
  · cases hsafe

/-- The ids of a trace that are not among the ancestors. -/
def unvisited (current : ById φ) (ancestors : List String) : Nat := ((current.map Prod.fst).filter fun id => id ∉ ancestors).length

theorem unvisited_lt {current : ById φ} {ancestors : List String} {id : String} (hid : id ∈ current.map Prod.fst)
    (hnew : id ∉ ancestors) : unvisited current (id :: ancestors) < unvisited current ancestors := by
  have hfilter : (current.map Prod.fst).filter (fun other => other ∉ id :: ancestors) =
      ((current.map Prod.fst).filter fun other => other ∉ ancestors).filter fun other => other != id := by
    rw [List.filter_filter]
    apply List.filter_congr
    intro other _
    by_cases hother : other = id <;> simp [hother]
  rw [unvisited, unvisited, hfilter]
  exact List.length_filter_lt_length_iff_exists.mpr ⟨id, List.mem_filter.mpr ⟨hid, by simpa using hnew⟩, by simp⟩

/-- `branch_reaches_available_descendant`. Each step down adds an id of the trace to the ancestors. -/
def Host.branchReachesAvailableDescendant (previous current : ById φ) (proven : List String) (parentId replacementId : String)
    (ancestors : List String) : Bool :=
  if _hfresh : replacementId ∈ ancestors ∨ edgeIsSafe previous current proven parentId replacementId = false then false
  else
    match current.lookup replacementId with
    | none => false
    | some replacement =>
        match strictRequirementLinks replacement "superseded_by" with
        | none => false
        | some downstream =>
            if h.text replacement "status" "active" ∈ ["active", "deferred"] then downstream.isEmpty
            else if h.text replacement "status" "active" ≠ "superseded" ∨ downstream = [] then false
            else downstream.all fun downstreamId =>
              Host.branchReachesAvailableDescendant previous current proven replacementId downstreamId (replacementId :: ancestors)
termination_by unvisited current ancestors
decreasing_by
  rw [not_or, Bool.not_eq_false] at _hfresh
  exact unvisited_lt (edgeIsSafe_known _hfresh.2) _hfresh.1

/-- `_retained_replacement_chain_reaches_available_descendants` -/
def Host.retainedReplacementChain (previous current : ById φ) (proven : List String) (reqId : String) (replacements : List String) : Bool :=
  !replacements.isEmpty && replacements.all fun replacementId =>
    h.branchReachesAvailableDescendant previous current proven reqId replacementId [reqId]

/-- A replacement that the loop of `_has_reciprocal_unused_replacements` lets pass. -/
def Host.isReciprocalUnused (previous current : ById φ) (proven prior : List String) (reqId replacementId : String) : Except String Bool :=
  if replacementId = reqId ∨ replacementId ∈ proven ∧ replacementId ∉ prior then .ok false
  else
    match current.lookup replacementId with
    | none => .ok false
    | some replacement =>
        if h.text replacement "status" "active" ∉ ["active", "deferred"] then .ok false
        else do
          let values ← h.iterateOr (field replacement "supersedes" (.arr []))
          return (linkNames values).contains reqId && (prior.contains replacementId || (previous.lookup replacementId).isNone)

/-- `_has_reciprocal_unused_replacements` -/
def Host.hasReciprocalUnusedReplacements (reqId : String) (before after : Fields φ) (previous current : ById φ)
    (proven : List String) (requireRetainedLinks : Bool) : Except String Bool :=
  match strictRequirementLinks after "superseded_by", strictRequirementLinks before "superseded_by" with
  | some replacements, some prior =>
      if replacements = [] then .ok false
      else if requireRetainedLinks = true then
        .ok (replacements == prior && h.retainedReplacementChain previous current proven reqId replacements)
      else replacements.allM (h.isReciprocalUnused previous current proven prior reqId)
  | _, _ => .ok false

/-- `_PROOF_BEARING_REQUIREMENT_FIELDS` -/
def proofBearingRequirementFields : List String :=
  ["id", "text", "source", "priority", "acceptance_oracles", "oracle_type", "oracle_strength", "evidence_boundary",
    "forbidden_proxy_oracles", "forbidden_patterns", "external_docs_required", "provider_reference", "provider_references"]

/-- `_preserves_proof_bearing_requirement_bytes` -/
def Host.preservesProofBearingRequirementBytes (before after : Fields φ) : Except String Bool := do
  let old ← h.requirementContractPayload before
  let new ← h.requirementContractPayload after
  let kept (key : String) : Bool :=
    ((before.lookup key).isSome == (after.lookup key).isSome) && h.same (field before key .null) (field after key .null)
  return h.same old new && (proofBearingRequirementFields ++ ["contract_sha256"]).all kept

def sameNames (a b : List String) : Bool := a.all (fun name => b.contains name) && b.all fun name => a.contains name

/-- `_is_terminal_ambiguous_contract_quarantine` -/
def Host.isTerminalAmbiguousContractQuarantine [FloatText φ] (reqId : String) (before after : Fields φ) (previous current : ById φ)
    (proven : List String) : Except String Bool := do
  let beforeStatus := h.text before "status" "active"
  if beforeStatus ∉ ["active", "deferred", "superseded"] ∨ h.text after "status" "active" ≠ "superseded" then return false
  else do
    let preserved ← h.preservesProofBearingRequirementBytes before after
    if preserved = false then return false
    else do
      let expected ← h.requirementContractSha256 before
      let links (item : Fields φ) (key : String) := normalizedRequirementLinks item key
      if h.text before "contract_sha256" "" ≠ expected ∨ sameNames (links before "supersedes") (links after "supersedes") = false then
        return false
      else if beforeStatus = "superseded" then
        if sameNames (links before "superseded_by") (links after "superseded_by") = false then return false
        else h.hasReciprocalUnusedReplacements reqId before after previous current proven true
      else if links before "superseded_by" ≠ [] then return false
      else h.hasReciprocalUnusedReplacements reqId before after previous current proven false

/-! ### Transitions -/

/-- What is wrong with the record that an id of the earlier trace has in the later one. -/
def Host.retainedErrors [FloatText φ] (previous current : ById φ) (tasks : List (Json φ)) (reqId : String) (before : Fields φ) :
    Except String (List String) :=
  match current.lookup reqId with
  | none => .ok ["iteration trace deleted existing requirement " ++ reqId ++ "; preserve it and use status='superseded'"]
  | some after => do
      let beforeStatus := h.text before "status" "active"
      let afterStatus := h.text after "status" "active"
      let proven := h.deliveredRequirementIds tasks
      let archived := h.verifiedHashes tasks reqId
      let beforeHash ← h.requirementContractSha256 before
      let afterHash ← h.requirementContractSha256 after
      -- an archive that was corrupted may be restored, once
      let repairs ←
        if archived.length = 1 ∧ beforeHash ∉ archived ∧ afterHash ∈ archived ∧ beforeStatus = "superseded" ∧
            afterStatus = "superseded" then
          h.hasReciprocalUnusedReplacements reqId before after previous current proven true
        else .ok false
      return errorIf (beforeStatus == "superseded" && afterStatus != "superseded")
          ("superseded requirement " ++ reqId ++ " cannot be reactivated under the same ID") ++
        errorIf (proven.contains reqId && beforeHash != afterHash && !repairs)
          ("requirement contract drift for " ++ reqId ++ ": delivered requirement IDs are immutable; " ++
            "restore the previous contract, mark it superseded with reciprocal supersession links, " ++
            "and append the replacement under a new unused REQ ID") ++
        errorIf (proven.contains reqId && afterStatus == "superseded" && !h.truthy (field after "superseded_by" .null))
          ("proven requirement " ++ reqId ++ " is superseded but has no superseded_by replacement")

/-- An active collided record is marked superseded, with its contract as it was. -/
def Host.quarantinesUnchangedCollision [FloatText φ] (previous current : ById φ) (tasks : List (Json φ)) (reqId : String) :
    Except String Bool :=
  match previous.lookup reqId, current.lookup reqId with
  | some before, some after => do
      if h.text before "status" "active" = "superseded" ∨ h.text after "status" "active" ≠ "superseded" then return false
      else do
        let beforeHash ← h.requirementContractSha256 before
        let afterHash ← h.requirementContractSha256 after
        if beforeHash ≠ afterHash then return false
        else h.hasReciprocalUnusedReplacements reqId before after previous current (h.deliveredRequirementIds tasks) false
  | _, _ => .ok false

/-- What is wrong with an id whose contract conflicts with an archived proof. -/
def Host.collisionErrors [FloatText φ] (previous current : ById φ) (tasks : List (Json φ)) (reqId : String) :
    Except String (List String) :=
  if 1 < (h.verifiedHashes tasks reqId).length then do
    let quarantined ←
      match previous.lookup reqId, current.lookup reqId with
      | some before, some after =>
          h.isTerminalAmbiguousContractQuarantine reqId before after previous current (h.deliveredRequirementIds tasks)
      | _, _ => .ok false
    return errorIf (!quarantined)
      ("requirement contract recovery for " ++ reqId ++ " is ambiguous: archived " ++
        "verified proofs disagree on the delivered contract hash. Preserve " ++
        "the pre-clarify proof-bearing fields and contract_sha256 exactly, " ++
        "keep or mark the record status='superseded', and retain reciprocal " ++
        "replacement links. If a retained replacement is superseded, preserve " ++
        "every existing downstream link and extend its reciprocal chain to " ++
        "active or deferred descendants; do not choose a historical hash " ++ "automatically")
  else do
    let quarantined ← h.quarantinesUnchangedCollision previous current tasks reqId
    return errorIf (!quarantined)
      ("requirement archived-contract mismatch for " ++ reqId ++ ": the current " ++
        "proof-bearing contract conflicts with archived delivered proof. If the " ++
        "entry is active, preserve it as superseded with reciprocal links and " ++
        "append its replacement under the archive-aware next unused REQ ID. If " ++
        "it is already superseded, restore the unique verified archived contract " ++
        "while retaining those lifecycle links")

/-- An id that is delivered may not be introduced again. -/
def Host.introducedErrors (previous current : ById φ) (tasks : List (Json φ)) : List String :=
  (sortedTexts ((current.map Prod.fst).filter fun id => id ∉ previous.map Prod.fst)).flatMap fun reqId =>
    errorIf ((h.deliveredRequirementIds tasks).contains reqId)
      ("requirement ID namespace collision for " ++ reqId ++ ": this newly added ID " ++
        "is permanently reserved by archived delivered work; preserve history " ++
        "and append the requirement under the archive-aware next unused REQ ID")

/-- `validate_requirement_contract_transitions` -/
def Host.validateRequirementContractTransitions [FloatText φ] (tasks : List (Json φ)) : Json φ → Json φ → Except String (List String)
  | .obj before, .obj after => do
      let previous := h.byId (requirementRecords before)
      let current := h.byId (requirementRecords after)
      let retained ← previous.mapM fun entry => h.retainedErrors previous current tasks entry.1 entry.2
      let collisions ← h.collisionIds (requirementRecords after) tasks
      let unresolved ← collisions.mapM (h.collisionErrors previous current tasks)
      return h.introducedErrors previous current tasks ++ retained.flatten ++ unresolved.flatten
  | _, _ => .ok []

/-! ### New ids -/

/-- `reserved_requirement_ids` -/
def Host.reservedRequirementIds (trace : Json φ) (tasks : List (Json φ)) : List String :=
  (match trace with | .obj fields => h.requirementIds fields | _ => []) ++ h.deliveredRequirementIds tasks

/-- The digits of an id that is `REQ-(\d+)`, by their values. -/
def Host.requirementDigits (id : String) : Option (List Nat) :=
  if "REQ-".toList.isPrefixOf id.toList = true ∧ id.toList.drop 4 ≠ [] then (id.toList.drop 4).mapM h.digit else none

def valueOf (digits : List Nat) : Nat := digits.foldl (fun value digit => 10 * value + digit) 0

/-- `f"{number:0{width}d}"` -/
def paddedNumber (width number : Nat) : List Char :=
  List.replicate (width - (Nat.toDigits 10 number).length) '0' ++ Nat.toDigits 10 number

/-- `next_unused_requirement_id` -/
def Host.nextUnusedRequirementId (trace : Json φ) (tasks : List (Json φ)) : String :=
  let taken := (h.reservedRequirementIds trace tasks).filterMap h.requirementDigits
  let number := (taken.map valueOf).foldr max 0 + 1
  String.ofList ("REQ-".toList ++ paddedNumber ((taken.map List.length).foldr max 3) number)

end

end AutoAgents.Requirements
