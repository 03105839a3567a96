import AutoAgents.OperatorStore

/-! The requirements trace: its records as they are read, the contract of each with its hash, and the checks of a whole
trace. What a document holds may be of any type, so that reading it may raise. -/

namespace AutoAgents.Requirements

open Base
open Operator (isSpace strip stripText)

/-- What the checks take of Python and of what it calls: texts of values that are no plain texts or numbers, equality of values,
whole numbers of values (a value error is `none`), the normal form NFC, the digest, what is wrong with a pattern, zeros, and
the values of digits. -/
structure Host (φ : Type) where
  showOther : Json φ → String
  same : Json φ → Json φ → Bool
  int : Json φ → Except String (Option Int)
  nfc : String → String
  sha256 : List Char → String
  patternReason : String → String
  isZero : φ → Bool
  digit : Char → Option Nat
  digit_ascii : ∀ c, c.isDigit = true → digit c = some (c.toNat - '0'.toNat)

abbrev Fields (φ : Type) := List (String × Json φ)

variable {φ : Type}

/-! ### Values -/

section

variable (h : Host φ)

/-- `str` -/
def Host.show : Json φ → String
  | .str s => s
  | .bool true => "True"
  | .bool false => "False"
  | .null => "None"
  | .int n => toString n
  | v => h.showOther v

/-- `bool` -/
def Host.truthy : Json φ → Bool
  | .null => false
  | .bool b => b
  | .int n => n != 0
  | .str s => s != ""
  | .arr items => !items.isEmpty
  | .obj fields => !fields.isEmpty
  | .float x => !h.isZero x
  | .nonFinite _ => true

/-- `str(value or "")` -/
def Host.showOr (v : Json φ) : String := if h.truthy v = true then h.show v else ""

/-- `item.get(key, default)` -/
def field (item : Fields φ) (key : String) (default : Json φ) : Json φ := (item.lookup key).getD default

/-- `str(item.get(key, default)).strip()` -/
def Host.text (item : Fields φ) (key default : String) : String := stripText (h.show (field item key (.str default)))

theorem strip_strip (text : List Char) : strip (strip text) = strip text := by
  have hstrip : ∀ l, strip l = (l.dropWhile isSpace).rdropWhile isSpace := fun _ => rfl
  have hstart := List.rdropWhile_prefix isSpace (text.dropWhile isSpace)
  have hhead : ((text.dropWhile isSpace).rdropWhile isSpace).dropWhile isSpace = (text.dropWhile isSpace).rdropWhile isSpace := by
    refine List.dropWhile_eq_self_iff.mpr fun hlength => ?_
    have hlonger : 0 < (text.dropWhile isSpace).length := hlength.trans_le hstart.length_le
    rw [hstart.getElem hlength]
    exact List.dropWhile_eq_self_iff.mp (List.dropWhile_idempotent isSpace text) hlonger
  rw [hstrip (strip text), hstrip text, hhead, List.rdropWhile_idempotent]

theorem stripText_stripText (text : String) : stripText (stripText text) = stripText text := by
  rw [stripText, stripText, String.toList_ofList, strip_strip]

def isText : Json φ → Bool
  | .str _ => true
  | _ => false

/-- A text that is not blank. -/
def isFilled : Json φ → Bool
  | .str s => stripText s != ""
  | _ => false

/-- `isinstance(value, list) and all(test(item) for item in value)` -/
def isListOf (test : Json φ → Bool) : Json φ → Bool
  | .arr items => items.all test
  | _ => false

/-- What a loop over the value goes through. -/
def iterate : Json φ → Except String (List (Json φ))
  | .arr items => .ok items
  | .str s => .ok (s.toList.map fun c => .str (String.singleton c))
  | .obj fields => .ok (fields.map fun field => .str field.1)
  | _ => .error "TypeError: object is not iterable"

/-- What a loop over `value or []` goes through. -/
def Host.iterateOr (v : Json φ) : Except String (List (Json φ)) := if h.truthy v = true then iterate v else .ok []

/-- `text in (value or [])` -/
def Host.inOr (text : String) (v : Json φ) : Except String Bool :=
  if h.truthy v = true then
    match v with
    | .arr items => .ok (items.any fun | .str s => s == text | _ => false)
    | .str s => .ok (decide (text.toList <:+: s.toList))
    | .obj fields => .ok (fields.any fun field => field.1 == text)
    | _ => .error "TypeError: argument is not iterable"
  else .ok false

/-- `[message]` if the test holds -/
def errorIf (test : Bool) (message : String) : List String := if test = true then [message] else []

/-! ### Records -/

def defaultOracleType : String := "mixed"
def defaultOracleStrength : String := "behavioral"
def defaultEvidenceBoundary : String := "system_boundary"

/-- The field is absent, or null, or a blank text. -/
def isMissing (item : Fields φ) (key : String) : Bool :=
  match item.lookup key with
  | none | some .null => true
  | some (.str s) => stripText s == ""
  | _ => false

def setDefault (item : Fields φ) (key : String) (default : Json φ) : Fields φ :=
  if (item.lookup key).isSome = true then item else setField item key default

/-- `_normalize_requirement_record` -/
def normalizeRequirementRecord (item : Fields φ) : Fields φ :=
  let fill (item : Fields φ) (key default : String) : Fields φ := if isMissing item key = true then setField item key (.str default) else item
  let item := fill item "oracle_type" defaultOracleType
  let item := fill item "oracle_strength" defaultOracleStrength
  let item := fill item "evidence_boundary" defaultEvidenceBoundary
  let item :=
    match item.lookup "forbidden_proxy_oracles" with
    | none | some .null => setField item "forbidden_proxy_oracles" (.arr [])
    | _ => item
  setDefault (setDefault item "supersedes" (.arr [])) "superseded_by" (.arr [])

def asFields : Json φ → Option (Fields φ)
  | .obj fields => some fields
  | _ => none

/-- The records of a trace, as they are stored. -/
def storedRecords (trace : Fields φ) : List (Fields φ) :=
  match trace.lookup "requirements" with
  | some (.arr items) => items.filterMap asFields
  | _ => []

/-- `requirement_records` of a trace that is an object. -/
def requirementRecords (trace : Fields φ) : List (Fields φ) := (storedRecords trace).map normalizeRequirementRecord

/-- The records by their ids, as a dictionary: a later record takes the place of an earlier one. -/
def Host.byId (records : List (Fields φ)) : List (String × Fields φ) :=
  objectOf (records.map fun item => (h.text item "id" "", item))

/-- `requirement_ids` -/
def Host.requirementIds (trace : Fields φ) : List String :=
  ((requirementRecords trace).map fun item => h.text item "id" "").filter (· != "")

/-! ### Contracts -/

/-- `re.sub(r"\s+", " ", text)` -/
def collapseSpace : Bool → List Char → List Char
  | _, [] => []
  | inSpace, c :: rest =>
      if isSpace c = true then (if inSpace = true then collapseSpace true rest else ' ' :: collapseSpace true rest)
      else c :: collapseSpace false rest

/-- `text.replace("\r\n", "\n")` -/
def plainNewlines : List Char → List Char
  | [] => []
  | '\r' :: '\n' :: rest => '\n' :: plainNewlines rest
  | c :: rest => c :: plainNewlines rest

/-- `_normalized_contract_text` -/
def Host.normalizedContractText (v : Json φ) : String :=
  String.ofList (strip (collapseSpace false (plainNewlines (h.nfc (h.showOr v)).toList)))

def sortedTexts (texts : List String) : List String := texts.insertionSort (· ≤ ·)

/-- `_normalized_string_list` -/
def Host.normalizedStringList (ordered : Bool) : Json φ → List String
  | .arr items =>
      let texts := (items.map h.normalizedContractText).filter (· != "")
      if ordered = true then texts else sortedTexts texts.dedup
  | _ => []

/-- `re.split(r"[;\n]+", text)`, without the blank parts. -/
def splitReferences (text : String) : List String :=
  ((text.toList.splitOnP fun c => c == ';' || c == '\n').map fun part => String.ofList (strip part)).filter (· != "")

/-- `provider_reference_paths` -/
def Host.providerReferencePaths (item : Fields φ) : List String :=
  let listed :=
    match item.lookup "provider_references" with
    | some (.arr items) => (items.map fun v => stripText (h.show v)).filter (· != "")
    | _ => []
  let single :=
    match field item "provider_reference" (.str "") with
    | .str s => splitReferences s
    | _ => []
  (listed ++ single).foldl (fun kept path => if path ∈ kept then kept else kept ++ [path]) []

/-- `requirement_contract_payload` -/
def Host.requirementContractPayload (item : Fields φ) : Except String (Json φ) := do
  let patterns ← iterate (field item "forbidden_patterns" (.arr []))
  let text (key : String) : Json φ := .str (h.normalizedContractText (field item key .null))
  let texts (list : List String) : Json φ := .arr (list.map .str)
  return .obj [
    ("id", text "id"),
    ("text", text "text"),
    ("source", text "source"),
    ("priority", .str (h.normalizedContractText (field item "priority" (.str "mandatory")))),
    ("acceptance_oracles", texts (h.normalizedStringList true (field item "acceptance_oracles" .null))),
    ("oracle_type", text "oracle_type"),
    ("oracle_strength", text "oracle_strength"),
    ("evidence_boundary", text "evidence_boundary"),
    ("forbidden_proxy_oracles", texts (h.normalizedStringList false (field item "forbidden_proxy_oracles" .null))),
    ("forbidden_patterns", texts (sortedTexts (patterns.filterMap fun
      | .str s => if stripText s = "" then none else some (String.ofList (strip (plainNewlines s.toList)))
      | _ => none))),
    ("external_docs_required", .bool (h.truthy (field item "external_docs_required" (.bool false)))),
    ("provider_references", texts (sortedTexts (h.providerReferencePaths item)))]

/-- `requirement_contract_sha256` -/
def Host.requirementContractSha256 [FloatText φ] (item : Fields φ) : Except String String := do
  let payload ← h.requirementContractPayload item
  return "sha256:" ++ h.sha256 payload.sorted.encode

end

/-! ### The checks of a trace -/

def allowedRequirementStatuses : List String := ["active", "deferred", "superseded"]
def allowedRequirementPriorities : List String := ["mandatory", "optional"]
def allowedOracleTypes : List String :=
  ["deterministic_test", "integration_test", "runtime_evidence", "human_review", "judge_model", "benchmark", "mixed"]
def allowedOracleStrengths : List String := ["proxy", "behavioral", "semantic", "human"]
def allowedEvidenceBoundaries : List String := ["internal_state", "system_boundary", "external_side_effect"]
def persistenceStrategies : List String := ["none", "initial_schema", "startup_compatible", "clean_break", "external_operator"]
def persistenceStorageTransitions : List String := ["none", "initialize", "migrate_in_place", "rebuild", "external_operator"]
def persistenceCompatibilityPolicies : List String :=
  ["not_applicable", "backward_compatible", "migrate_all", "dual_read", "reject_legacy", "operator_defined"]
def contractIdentitySchemaVersion : Int := 1

/-- `PERSIST-[0-9]{3,}` -/
def isPersistId (id : String) : Bool :=
  "PERSIST-".toList.isPrefixOf id.toList && decide (3 ≤ (id.toList.drop 8).length) && (id.toList.drop 8).all Char.isDigit

/-- `', '.join(sorted(allowed))` -/
def listing (allowed : List String) : String := ", ".intercalate (sortedTexts allowed)

section

variable (h : Host φ)

/-- The errors of one persistence decision, with the ids of those before it. -/
def Host.decisionErrors (seen : List String) (pre : String) (decision : Fields φ) : List String :=
  let id := h.text decision "id" ""
  (if isPersistId id = false then [pre ++ " id must match PERSIST-NNN"]
    else if id ∈ seen then [pre ++ " duplicates id '" ++ id ++ "'"] else []) ++
  (if (decision.lookup "storage_transition").isSome = true ∨ (decision.lookup "compatibility_policy").isSome = true then
    errorIf (!persistenceStorageTransitions.contains (h.show (field decision "storage_transition" (.str ""))))
      (pre ++ " has an invalid storage_transition") ++
    errorIf (!persistenceCompatibilityPolicies.contains (h.show (field decision "compatibility_policy" (.str ""))))
      (pre ++ " has an invalid compatibility_policy")
  else
    errorIf (!(persistenceStrategies.filter (· != "none")).contains (h.show (field decision "strategy" (.str ""))))
      (pre ++ " has an invalid strategy")) ++
  errorIf (match field decision "target_ids" .null with | .arr [] => true | targets => !isListOf isFilled targets)
    (pre ++ " target_ids must be a non-empty list") ++
  errorIf (!(["active", "superseded"].contains (h.show (field decision "status" (.str ""))))) (pre ++ " status must be active or superseded") ++
  errorIf (!isFilled (field decision "source" .null)) (pre ++ " source must be a non-empty string")

def Host.decisionsErrors (seen : List String) (index : Nat) : List (Json φ) → List String
  | [] => []
  | .obj decision :: rest =>
      h.decisionErrors seen ("persistence decision #" ++ toString index) decision ++
        Host.decisionsErrors (h.text decision "id" "" :: seen) (index + 1) rest
  | _ :: rest => ("persistence decision #" ++ toString index ++ " must be an object") :: Host.decisionsErrors seen (index + 1) rest

/-- What is wrong with the definitions of the patterns of a record. -/
def Host.patternErrors (pre : String) (patterns : List (Json φ)) : List String :=
  (patterns.zipIdx.map fun (pattern, index) =>
    let reason := h.patternReason (h.show pattern)
    errorIf (reason != "") (pre ++ " forbidden_patterns[" ++ toString index ++ "] definition is unsafe: " ++ reason)).flatten

/-- The errors of one record, but for those of its identity and of its place among the others. -/
def Host.recordErrors (checkPatterns : Bool) (pre : String) (item : Fields φ) : List String :=
  errorIf (!isFilled (field item "text" .null)) (pre ++ " text must be a non-empty string") ++
  errorIf (!isText (field item "source" .null)) (pre ++ " source must be a string") ++
  errorIf (!allowedRequirementStatuses.contains (h.text item "status" "active"))
    (pre ++ " status must be one of: " ++ listing allowedRequirementStatuses) ++
  errorIf (!allowedRequirementPriorities.contains (h.text item "priority" "mandatory"))
    (pre ++ " priority must be one of: " ++ listing allowedRequirementPriorities) ++
  errorIf (!isListOf isText (field item "acceptance_oracles" .null)) (pre ++ " acceptance_oracles must be a list of strings") ++
  errorIf (!allowedOracleTypes.contains (h.text item "oracle_type" ""))
    (pre ++ " oracle_type must be one of: " ++ listing allowedOracleTypes) ++
  errorIf (!allowedOracleStrengths.contains (h.text item "oracle_strength" ""))
    (pre ++ " oracle_strength must be one of: " ++ listing allowedOracleStrengths) ++
  errorIf (!allowedEvidenceBoundaries.contains (h.text item "evidence_boundary" ""))
    (pre ++ " evidence_boundary must be one of: " ++ listing allowedEvidenceBoundaries) ++
  errorIf (!isListOf isText (field item "forbidden_proxy_oracles" .null)) (pre ++ " forbidden_proxy_oracles must be a list of strings") ++
  (match field item "forbidden_patterns" .null with
    | .arr patterns =>
        if patterns.all isText = false then [pre ++ " forbidden_patterns must be a list of strings"]
        else if checkPatterns = true ∧ h.text item "status" "active" ≠ "superseded" then h.patternErrors pre patterns else []
    | _ => [pre ++ " forbidden_patterns must be a list of strings"]) ++
  errorIf (match field item "external_docs_required" (.bool false) with | .bool _ => false | _ => true)
    (pre ++ " external_docs_required must be a boolean") ++
  errorIf (!isText (field item "provider_reference" (.str ""))) (pre ++ " provider_reference must be a string") ++
  errorIf (!isListOf isText (field item "provider_references" (.arr []))) (pre ++ " provider_references must be a list of strings") ++
  errorIf (h.truthy (field item "external_docs_required" (.bool false)) && (h.providerReferencePaths item).isEmpty)
    (pre ++ " provider_reference or provider_references must be non-empty when external_docs_required is true") ++
  errorIf (!isText (field item "notes" .null)) (pre ++ " notes must be a string") ++
  ["supersedes", "superseded_by"].flatMap fun link =>
    errorIf (!isListOf isFilled (field item link (.arr []))) (pre ++ " " ++ link ++ " must be a list of non-empty strings")

def idErrors (seen : List String) (pre id : String) : List String :=
  if id = "" then [pre ++ " id must be a non-empty string"]
  else if id ∈ seen then [pre ++ " duplicates id '" ++ id ++ "'"]
  else []

/-- What is wrong with the stored identity of a record. -/
def Host.identityErrors [FloatText φ] (mode : Int) (pre : String) (item : Fields φ) : Except String (List String) :=
  if mode < contractIdentitySchemaVersion then .ok []
  else do
    let expected ← h.requirementContractSha256 item
    return errorIf (h.text item "contract_sha256" "" != expected) (pre ++ " contract_sha256 is missing or stale; expected " ++ expected)

/-- The errors of the records one by one. -/
def Host.recordsErrors [FloatText φ] (checkPatterns : Bool) (mode : Int) (seen : List String) (index : Nat) :
    List (Json φ) → Except String (List String)
  | [] => .ok []
  | .obj item :: rest => do
      let pre := "requirement #" ++ toString index
      let id := h.text item "id" ""
      let identity ← h.identityErrors mode pre item
      let others ← Host.recordsErrors checkPatterns mode (id :: seen) (index + 1) rest
      return idErrors seen pre id ++ h.recordErrors checkPatterns pre item ++ identity ++ others
  | _ :: rest => do
      let others ← Host.recordsErrors checkPatterns mode seen (index + 1) rest
      return ("requirement #" ++ toString index ++ " must be an object") :: others

/-- `[str(value).strip() for value in item.get(key, []) or []]` -/
def Host.linkTexts (item : Fields φ) (key : String) : Except String (List String) := do
  let values ← h.iterateOr (field item key (.arr []))
  return values.map fun v => stripText (h.show v)

/-- What is wrong with the links of a record to and from the others. -/
def Host.linkErrors (byId : List (String × Fields φ)) (id : String) (item : Fields φ) : Except String (List String) := do
  let supersedes ← h.linkTexts item "supersedes"
  let supersededBy ← h.linkTexts item "superseded_by"
  let older ← supersedes.mapM fun oldId =>
    match byId.lookup oldId with
    | none => .ok ["requirement " ++ id ++ " supersedes unknown requirement " ++ oldId]
    | some old => do
        let back ← h.inOr id (field old "superseded_by" (.arr []))
        return errorIf (!back)
          ("requirement " ++ id ++ " supersedes " ++ oldId ++ ", but " ++ oldId ++ ".superseded_by is not reciprocal")
  let newer ← supersededBy.mapM fun newId =>
    match byId.lookup newId with
    | none => .ok ["requirement " ++ id ++ " is superseded_by unknown requirement " ++ newId]
    | some new => do
        let back ← h.inOr id (field new "supersedes" (.arr []))
        return errorIf (!back)
          ("requirement " ++ id ++ " is superseded_by " ++ newId ++ ", but " ++ newId ++ ".supersedes is not reciprocal")
  return older.flatten ++ newer.flatten ++
    errorIf (!supersededBy.isEmpty && h.text item "status" "" != "superseded")
      ("requirement " ++ id ++ " with superseded_by must have status='superseded'")

/-- `validate_requirements_trace_payload` -/
def Host.validateRequirementsTracePayload [FloatText φ] (checkPatterns : Bool) : Json φ → Except String (List String)
  | .obj payload => do
      let version := errorIf (match field payload "version" .null with | .int n => n < 1 | .bool b => !b | _ => true)
        "requirements trace version must be an integer >= 1"
      let decisions :=
        match field payload "persistence_decisions" (.arr []) with
        | .arr items => h.decisionsErrors [] 1 items
        | _ => ["requirements trace persistence_decisions must be a list"]
      match payload.lookup "requirements" with
      | some (.arr items) =>
          let stored := field payload "contract_identity_schema_version" (.int 0)
          let mode ← if h.truthy stored = true then h.int stored else .ok (some 0)
          let records ← h.recordsErrors checkPatterns (mode.getD 0) [] 1 items
          let byId := objectOf (((items.filterMap asFields).filter fun item => h.text item "id" "" != "").map
            fun item => (h.text item "id" "", item))
          let links ← byId.mapM fun entry => h.linkErrors byId entry.1 entry.2
          return version ++ decisions ++
            errorIf mode.isNone "contract_identity_schema_version must be an integer when present" ++ records ++ links.flatten
      | _ => return version ++ decisions ++ ["requirements trace must contain a 'requirements' list"]
  | _ => .ok ["requirements trace root must be a JSON object"]

end

end AutoAgents.Requirements
