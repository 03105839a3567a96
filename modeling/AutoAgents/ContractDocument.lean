import AutoAgents.BaseJsonSort
import AutoAgents.BaseTable
import AutoAgents.ControlTypes
import AutoAgents.OperatorSecrets

/-! The documents of business contracts. A contract freezes what it is given, is named by the digest of its
canonical text, and is read back from that text. Texts are sequences of characters that have an encoding, so a
surrogate that stands alone is not among them, as it is not among what can be digested. -/

namespace AutoAgents.Document

open Base

/-! ### Values -/

/-- What the program holds: as JSON, with two kinds of arrays and two kinds of objects. -/
inductive Value (φ : Type)
  | null
  | bool (b : Bool)
  | int (n : Int)
  | float (x : φ)
  | nonFinite (x : NonFinite)
  | str (s : String)
  | list (items : List (Value φ))
  | tuple (items : List (Value φ))
  | dict (fields : List (String × Value φ))
  | frozenDict (fields : List (String × Value φ))

namespace Value

variable {φ : Type}

mutual
/-- `freeze` -/
def freeze : Value φ → Value φ
  | .dict fields => .frozenDict (freezeFields fields)
  | .frozenDict fields => .frozenDict (freezeFields fields)
  | .list items => .tuple (freezeItems items)
  | .tuple items => .tuple (freezeItems items)
  | .null => .null
  | .bool b => .bool b
  | .int n => .int n
  | .float x => .float x
  | .nonFinite x => .nonFinite x
  | .str s => .str s

def freezeItems : List (Value φ) → List (Value φ)
  | [] => []
  | v :: rest => v.freeze :: freezeItems rest

def freezeFields : List (String × Value φ) → List (String × Value φ)
  | [] => []
  | (k, v) :: rest => (k, v.freeze) :: freezeFields rest
end

mutual
/-- `thaw`. A list is returned as it is. -/
def thaw : Value φ → Value φ
  | .dict fields => .dict (thawFields fields)
  | .frozenDict fields => .dict (thawFields fields)
  | .list items => .list items
  | .tuple items => .list (thawItems items)
  | .null => .null
  | .bool b => .bool b
  | .int n => .int n
  | .float x => .float x
  | .nonFinite x => .nonFinite x
  | .str s => .str s

def thawItems : List (Value φ) → List (Value φ)
  | [] => []
  | v :: rest => v.thaw :: thawItems rest

def thawFields : List (String × Value φ) → List (String × Value φ)
  | [] => []
  | (k, v) :: rest => (k, v.thaw) :: thawFields rest
end

mutual
/-- The document that `json.dumps` writes. -/
def toJson : Value φ → Json φ
  | .dict fields => .obj (jsonFields fields)
  | .frozenDict fields => .obj (jsonFields fields)
  | .list items => .arr (jsonItems items)
  | .tuple items => .arr (jsonItems items)
  | .null => .null
  | .bool b => .bool b
  | .int n => .int n
  | .float x => .float x
  | .nonFinite x => .nonFinite x
  | .str s => .str s

def jsonItems : List (Value φ) → List (Json φ)
  | [] => []
  | v :: rest => v.toJson :: jsonItems rest

def jsonFields : List (String × Value φ) → List (String × Json φ)
  | [] => []
  | (k, v) :: rest => (k, v.toJson) :: jsonFields rest
end

mutual
/-- What `json.loads` makes of a document. A dict has a key once. -/
def ofJson : Json φ → Value φ
  | .obj fields => .dict (objectOf (ofFields fields))
  | .arr items => .list (ofItems items)
  | .null => .null
  | .bool b => .bool b
  | .int n => .int n
  | .float x => .float x
  | .nonFinite x => .nonFinite x
  | .str s => .str s

def ofItems : List (Json φ) → List (Value φ)
  | [] => []
  | v :: rest => ofJson v :: ofItems rest

def ofFields : List (String × Json φ) → List (String × Value φ)
  | [] => []
  | (k, v) :: rest => (k, ofJson v) :: ofFields rest
end

/-- A value that `json.loads` can give. -/
def Plain (v : Value φ) : Prop := ∃ document, v = ofJson document

/-- A frozen dict. -/
def Frozen (v : Value φ) : Prop := ∃ fields, v = (ofJson (.obj fields)).freeze

/-- Equality, for values of one kind: the fields of an object may stand in any order. -/
def Same (v w : Value φ) : Prop := v.toJson.sorted = w.toJson.sorted

end Value

/-! ### Texts -/

/-- How a call is refused. -/
inductive Refusal
  | control (error : ControlError)
  | python (exception : String)

variable {φ : Type}

mutual
/-- `allow_nan=False` lets the document through. -/
def finite : Json φ → Bool
  | .arr items => finiteItems items
  | .obj fields => finiteFields fields
  | .nonFinite _ => false
  | _ => true

def finiteItems : List (Json φ) → Bool
  | [] => true
  | v :: rest => finite v && finiteItems rest

def finiteFields : List (String × Json φ) → Bool
  | [] => true
  | (_, v) :: rest => finite v && finiteFields rest
end

section

variable [FloatText φ]

def canonical (value : Value φ) : Except Refusal (List Char) :=
  if finite value.toJson = true then .ok value.toJson.sorted.encode
  else .error (.python "ValueError: Out of range float values are not JSON compliant")

def digest (sha256 : List Char → String) (value : Value φ) : Except Refusal String := (canonical value).map sha256

end

/-! ### Reading -/

/-- `value[key]` -/
def item (fields : List (String × Json φ)) (key : String) : Except Refusal (Json φ) :=
  match fields.lookup key with
  | some v => .ok v
  | none => .error (.python ("KeyError: " ++ key))

/-- `value.get(key, default)` -/
def get (fields : List (String × Json φ)) (key : String) (default : Json φ) : Json φ := (fields.lookup key).getD default

/-- `tuple(value)` -/
def tupleOf : Json φ → Except Refusal (List (Json φ))
  | .arr items => .ok items
  | .str s => .ok (s.toList.map fun c => .str (String.singleton c))
  | .obj fields => .ok (fields.map fun field => .str field.1)
  | _ => .error (.python "TypeError: object is not iterable")

/-- A key with its value, as `dict` takes them. Keys that are no strings are refused here. -/
def pairOf : Json φ → Except Refusal (String × Json φ)
  | .arr [.str key, v] => .ok (key, v)
  | .str s =>
      match s.toList with
      | [key, c] => .ok (String.singleton key, .str (String.singleton c))
      | _ => .error (.python "ValueError: dictionary update sequence element has wrong length")
  | _ => .error (.python "TypeError: cannot convert dictionary update sequence element")

/-- `dict(value)` -/
def dictOf : Json φ → Except Refusal (List (String × Json φ))
  | .obj fields => .ok fields
  | v => do
      let items ← tupleOf v
      items.mapM pairOf

/-! ### Verification specifications -/

inductive CacheScope
  | candidate
  | runContext
  | source
  | off
  deriving DecidableEq, Repr

def CacheScope.name : CacheScope → String
  | candidate => "candidate"
  | runContext => "run_context"
  | source => "source"
  | off => "off"

inductive ResultCacheScope
  | candidate
  | observedInputs
  | auto
  | off
  deriving DecidableEq, Repr

def ResultCacheScope.name : ResultCacheScope → String
  | candidate => "candidate"
  | observedInputs => "observed_inputs"
  | auto => "auto"
  | off => "off"

def purposeName : Purpose → String
  | .behavior => "behavior"
  | .environment => "environment"
  | .artifact => "artifact"

def purposes : List Purpose := [.behavior, .environment, .artifact]

def cacheScopes : List CacheScope := [.candidate, .runContext, .source, .off]

def resultCacheScopes : List ResultCacheScope := [.candidate, .observedInputs, .auto, .off]

/-- The member of an enumeration that a value names. -/
def named {α : Type} (members : List α) (name : α → String) : Json φ → Option α
  | .str s => members.find? fun member => name member = s
  | _ => none

/-- The outputs may be any values, for the constructor does not look at them. -/
structure VerificationSpec (φ : Type) where
  command : String
  targets : List String
  purpose : Purpose
  required : Bool
  timeout : Int
  outputs : List (Value φ)
  cacheScope : CacheScope
  resultCacheScope : ResultCacheScope
  command_given : Operator.strip command.toList ≠ []
  timeout_positive : 0 < timeout
  outputs_plain : ∀ v ∈ outputs, v.Plain

namespace VerificationSpec

/-- The texts of a list of texts. -/
def textsOf : List (Json φ) → Option (List String)
  | [] => some []
  | .str s :: rest => (textsOf rest).map (s :: ·)
  | _ => none

def refused (message : String) : Except Refusal (VerificationSpec φ) := .error (.control ⟨"verification_spec", message, .state⟩)

/-- The constructor, with the checks of `__post_init__` in their order. -/
def build (command : Json φ) (targets : List (Json φ)) (purpose required timeout : Json φ) (outputs : List (Json φ))
    (cacheScope resultCacheScope : Json φ) : Except Refusal (VerificationSpec φ) :=
  match command with
  | .str command =>
      if hcommand : Operator.strip command.toList ≠ [] then
        match named purposes purposeName purpose with
        | none => refused "Unknown verification purpose"
        | some purpose =>
            match timeout with
            | .int timeout =>
                if htimeout : 0 < timeout then
                  match required, textsOf targets with
                  | .bool required, some targets =>
                      match named cacheScopes CacheScope.name cacheScope,
                        named resultCacheScopes ResultCacheScope.name resultCacheScope with
                      | some cacheScope, some resultCacheScope =>
                          .ok {
                            command, targets, purpose, required, timeout, cacheScope, resultCacheScope
                            outputs := Value.ofItems outputs
                            command_given := hcommand
                            timeout_positive := htimeout
                            outputs_plain := by
                              intro v hv
                              induction outputs with
                              | nil => simp [Value.ofItems] at hv
                              | cons document rest ih =>
                                  rcases List.mem_cons.mp hv with rfl | hv
                                  · exact ⟨document, rfl⟩
                                  · exact ih hv }
                      | _, _ => refused "Invalid verification cache policy"
                  | _, _ => refused "Invalid verification flags or targets"
                else refused "Invalid verification timeout"
            | _ => refused "Invalid verification timeout"
      else refused "A verification command is required"
  | _ => refused "A verification command is required"

/-- The fields of `to_dict`. Outputs and scopes are left out where they say what is said without them. -/
def dictFields (spec : VerificationSpec φ) : List (String × Value φ) :=
  [("command", .str spec.command), ("targets", .list (spec.targets.map .str)), ("purpose", .str (purposeName spec.purpose)),
      ("required", .bool spec.required), ("timeout", .int spec.timeout)] ++
    (if spec.outputs = [] then [] else [("outputs", .list spec.outputs)]) ++
    (if spec.cacheScope = .candidate then [] else [("cache_scope", .str spec.cacheScope.name)]) ++
    if spec.resultCacheScope = .candidate then [] else [("result_cache_scope", .str spec.resultCacheScope.name)]

def toDict (spec : VerificationSpec φ) : Value φ := .dict spec.dictFields

def read : Json φ → Except Refusal (VerificationSpec φ)
  | .obj fields => do
      let command ← item fields "command"
      let targets ← tupleOf (get fields "targets" (.arr []))
      let outputs ← tupleOf (get fields "outputs" (.arr []))
      build command targets (get fields "purpose" (.str "behavior")) (get fields "required" (.bool true))
        (get fields "timeout" (.int 600)) outputs (get fields "cache_scope" (.str "candidate"))
        (get fields "result_cache_scope" (.str "candidate"))
  | _ => .error (.python "TypeError: indices must be integers")

/-- Equality of specifications. -/
structure Same (spec other : VerificationSpec φ) : Prop where
  command : spec.command = other.command
  targets : spec.targets = other.targets
  purpose : spec.purpose = other.purpose
  required : spec.required = other.required
  timeout : spec.timeout = other.timeout
  outputs : List.Forall₂ Value.Same spec.outputs other.outputs
  cacheScope : spec.cacheScope = other.cacheScope
  resultCacheScope : spec.resultCacheScope = other.resultCacheScope

end VerificationSpec

/-! ### Contracts -/

def modeName : Mode → String
  | .run => "run"
  | .fix => "fix"
  | .collab => "collab"
  | .providerResolve => "provider_resolve"
  | .upgrade => "upgrade"

/-- `MODES`. -/
def modes : List Mode := [.run, .fix, .collab, .providerResolve, .upgrade]

/-- `SCHEMA`. -/
def schema : Int := 2

/-- `x and not x.startswith("/") and ".." not in Path(x).parts` -/
def relativeText (x : String) : Bool :=
  x != "" && x.toList.head? != some '/' && !(x.toList.splitOn '/').contains ['.', '.']

/-- What a contract holds. The constructor does not look at the fields that name things. -/
structure ContractFields (φ : Type) where
  workflowId : Value φ
  workId : Value φ
  mode : Mode
  goal : String
  source : Value φ
  authorization : Value φ
  scope : List String
  checks : List (VerificationSpec φ)
  inputs : Value φ
  parentContract : Value φ

/-- The fields of `to_dict`. -/
def ContractFields.dictFields (c : ContractFields φ) : List (String × Value φ) :=
  [("schema", .int schema), ("workflow_id", c.workflowId), ("work_id", c.workId), ("mode", .str (modeName c.mode)),
    ("goal", .str c.goal), ("source", c.source), ("authorization", c.authorization.thaw),
    ("scope", .list (c.scope.map .str)), ("checks", .list (c.checks.map VerificationSpec.toDict)),
    ("inputs", c.inputs.thaw), ("parent_contract", c.parentContract)]

def ContractFields.toDict (c : ContractFields φ) : Value φ := .dict c.dictFields

/-- Equality of contracts. -/
structure ContractFields.Same (c d : ContractFields φ) : Prop where
  workflowId : c.workflowId.Same d.workflowId
  workId : c.workId.Same d.workId
  mode : c.mode = d.mode
  goal : c.goal = d.goal
  source : c.source.Same d.source
  authorization : c.authorization.Same d.authorization
  scope : c.scope = d.scope
  checks : List.Forall₂ VerificationSpec.Same c.checks d.checks
  inputs : c.inputs.Same d.inputs
  parentContract : c.parentContract.Same d.parentContract

structure Contract (φ : Type) extends ContractFields φ where
  goal_given : Operator.strip goal.toList ≠ []
  scope_relative : scope.all relativeText = true
  workflowId_plain : workflowId.Plain
  workId_plain : workId.Plain
  source_plain : source.Plain
  parentContract_plain : parentContract.Plain
  authorization_frozen : authorization.Frozen
  inputs_frozen : inputs.Frozen
  canonical_passes : finite toContractFields.toDict.toJson = true

namespace Contract

/-- The constructor, with the checks of `__post_init__` in their order. -/
def build (workflowId workId mode goal source : Json φ) (authorization : List (String × Json φ)) (scope : List (Json φ))
    (checks : List (VerificationSpec φ)) (inputs : List (String × Json φ)) (parentContract version : Json φ) :
    Except Refusal (Contract φ) :=
  match version, named modes modeName mode, goal with
  | .int version, some mode, .str goal =>
      if hgoal : version = schema ∧ Operator.strip goal.toList ≠ [] then
        let fields (scope : List String) : ContractFields φ := {
          workflowId := Value.ofJson workflowId
          workId := Value.ofJson workId
          mode, goal
          source := Value.ofJson source
          authorization := (Value.ofJson (.obj authorization)).freeze
          scope, checks
          inputs := (Value.ofJson (.obj inputs)).freeze
          parentContract := Value.ofJson parentContract }
        match VerificationSpec.textsOf scope with
        | none => .error (.control ⟨"scope", "Contract paths must remain relative to their workspace", .state⟩)
        | some scope =>
            if hfinite : finite (fields scope).toDict.toJson = true then
              if hscope : scope.all relativeText = true then
                .ok {
                  toContractFields := fields scope
                  goal_given := hgoal.2
                  scope_relative := hscope
                  workflowId_plain := ⟨_, rfl⟩
                  workId_plain := ⟨_, rfl⟩
                  source_plain := ⟨_, rfl⟩
                  parentContract_plain := ⟨_, rfl⟩
                  authorization_frozen := ⟨_, rfl⟩
                  inputs_frozen := ⟨_, rfl⟩
                  canonical_passes := hfinite }
              else .error (.control ⟨"scope", "Contract paths must remain relative to their workspace", .state⟩)
            else .error (.python "ValueError: Out of range float values are not JSON compliant")
      else .error (.control ⟨"contract", "Invalid business contract", .state⟩)
  | _, _, _ => .error (.control ⟨"contract", "Invalid business contract", .state⟩)

def read : Json φ → Except Refusal (Contract φ)
  | .obj fields => do
      let workflowId ← item fields "workflow_id"
      let workId ← item fields "work_id"
      let mode ← item fields "mode"
      let goal ← item fields "goal"
      let source ← item fields "source"
      let authorization ← dictOf (get fields "authorization" (.obj []))
      let scope ← tupleOf (get fields "scope" (.arr []))
      let checks ← tupleOf (get fields "checks" (.arr []))
      let checks ← checks.mapM VerificationSpec.read
      let inputs ← dictOf (get fields "inputs" (.obj []))
      build workflowId workId mode goal source authorization scope checks inputs (get fields "parent_contract" (.str ""))
        (get fields "schema" (.int 0))
  | _ => .error (.python "TypeError: indices must be integers")

variable [FloatText φ]

def identity (sha256 : List Char → String) (c : Contract φ) : Except Refusal String := digest sha256 c.toDict

end Contract

/-! ### The table of contracts -/

structure ContractRow where
  id : String
  payload : List Char

abbrev Contracts := Table ContractRow.id

section

variable [FloatText φ] (sha256 : List Char → String)

/-- `INSERT OR IGNORE INTO contracts VALUES(?,?)`, as `_insert_work` and `bind_contract` execute it. -/
def Contracts.store (contracts : Contracts) (c : Contract φ) : Except Refusal Contracts := do
  let id ← c.identity sha256
  let payload ← canonical c.toDict
  return contracts.insertOrIgnore ⟨id, payload⟩

variable (φ)

/-- `Store.contract`. -/
def Contracts.contract (contracts : Contracts) (identity : String) : Except Refusal (Contract φ) :=
  match contracts.find identity with
  | none => .error (.control ⟨"contract", "Missing contract", .state⟩)
  | some row =>
      match (decode row.payload : Option (Json φ)) with
      | none => .error (.python "JSONDecodeError")
      | some value => do
          let c ← Contract.read value
          let current ← c.identity sha256
          if current ≠ identity then .error (.control ⟨"integrity", "Contract checksum changed", .state⟩) else pure c

end

end AutoAgents.Document
