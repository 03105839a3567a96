import AutoAgents.BaseJsonSort
import AutoAgents.OperatorSecrets

/-! The store of operator inputs: a document of records, the file of secrets, and the attestations. What the
code takes from the standard library beyond texts, and what paths name, is a parameter. A failed write of a
file is not modelled, and neither is a link. -/

namespace AutoAgents.Operator

open Base

/-! ### Requests -/

/-- `INPUT_KINDS`. -/
inductive Kind
  | boolean
  | choice
  | text
  | url
  | path
  | secret
  | attestation
  | installApproval
  deriving DecidableEq, Repr

def Kind.name : Kind → String
  | boolean => "boolean"
  | choice => "choice"
  | text => "text"
  | url => "url"
  | path => "path"
  | secret => "secret"
  | attestation => "attestation"
  | installApproval => "install_approval"

/-- `PERSISTENCE_SCOPES`. -/
inductive Persistence
  | oneTime
  | run
  | project
  deriving DecidableEq, Repr

def Persistence.name : Persistence → String
  | oneTime => "one_time"
  | run => "run"
  | project => "project"

/-- `SENSITIVITY_LEVELS`. -/
inductive Sensitivity
  | publicly
  | privately
  | secret
  deriving DecidableEq, Repr

def Sensitivity.name : Sensitivity → String
  | publicly => "public"
  | privately => "private"
  | secret => "secret"

/-- `PROJECTIONS`. -/
inductive Projection
  | value
  | artifactPath
  | runtimePath
  | version
  | sha256
  deriving DecidableEq, Repr

/-- `^[a-z][a-z0-9_.-]{2,127}$` -/
def inputKey (key : String) : Bool :=
  match key.toList with
  | [] => false
  | c :: rest =>
      c.isLower && rest.all (fun d => d.isLower || d.isDigit || d == '_' || d == '.' || d == '-') &&
        decide (2 ≤ rest.length ∧ rest.length ≤ 127)

/-- The entries of `validation` that are read. `subjectInputs` are the keys that its subject refers to. -/
structure Validation where
  choices : List String := []
  httpsOnly : Bool := false
  hosts : List String := []
  mustExist : Bool := false
  subjectInputs : List String := []
  deriving DecidableEq, Repr

/-- `UserInputRequest`, as far as it is read. -/
structure Request where
  requestId : String
  key : String
  kind : Kind := .text
  persistence : Persistence := .project
  sensitivity : Sensitivity := .privately
  validation : Validation := {}
  subjectFingerprint : String := ""
  questionVersion : Nat := 1
  key_valid : inputKey key = true

def Request.isSecret (request : Request) : Bool := request.sensitivity == .secret || request.kind == .secret

/-- `_secret_env_key`. -/
def secretEnvKey (key : String) : String :=
  "AUTO_AGENTS_INPUT_" ++ String.ofList (key.toList.map fun c => if c.isAlphanum = true then c.toUpper else '_')

/-! ### The store -/

/-- What a path names. -/
inductive Place
  | inputs
  | secrets
  | gitignore
  | attestations
  | folder
  | file (name : String)
  deriving DecidableEq, Repr

/-- What is taken from the standard library and from the machine: `str` of floats, lists and dicts, `int` of a
value, `urlparse` with its scheme and host name, `str.lower`, the resolved form of a path, the path of an
attestation, whether a path lies below the folder of the store, and what a path names. -/
structure World (φ : Type) where
  showOther : Json φ → String
  int : Json φ → Except String Int
  urlparse : String → Except String (String × Option String)
  lower : String → String
  resolve : String → String
  attestationPath : String → String
  inRoot : String → Bool
  place : String → Place

/-- A file that holds a document. -/
inductive Document (φ : Type)
  | missing
  | unreadable
  | holds (v : Json φ)

abbrev Fields (φ : Type) := List (String × Json φ)

structure Store (φ : Type) where
  inputs : Document φ
  secrets : Option (List Char)
  gitignore : Bool
  attestations : Bool
  files : List String

variable {φ : Type} (w : World φ)

def Store.isFile (s : Store φ) : Place → Bool
  | .inputs => match s.inputs with
    | .missing => false
    | _ => true
  | .secrets => s.secrets.isSome
  | .gitignore => s.gitignore
  | .attestations => false
  | .folder => false
  | .file name => s.files.contains name

def Store.exists (s : Store φ) (place : Place) : Bool :=
  s.isFile place || (place == .attestations && s.attestations) || place == .folder

/-- The record, with the fields that are objects themselves kept as they are. -/
def asRecord : String × Json φ → Option (String × Fields φ)
  | (key, .obj fields) => some (key, fields)
  | _ => none

/-- `records`. -/
def Store.records (s : Store φ) : Except String (List (String × Fields φ)) :=
  match s.inputs with
  | .missing => .ok []
  | .unreadable => .error "inputs.json is no document"
  | .holds (.obj payload) =>
      match payload.lookup "records" with
      | some (.obj records) => .ok (records.filterMap asRecord)
      | _ => .ok []
  | .holds _ => .ok []

def Store.get (s : Store φ) (key : String) : Except String (Option (Fields φ)) := do
  let records ← s.records
  return records.lookup key

/-- `_write_records`: what is read back of the text that is written. -/
def Store.writeRecords (s : Store φ) (records : List (String × Fields φ)) : Store φ :=
  { s with
    gitignore := true
    inputs := .holds (Json.obj
      [("version", .int 1), ("records", .obj (records.map fun record => (record.1, Json.obj record.2)))]).sorted }

def Store.writeSecrets (s : Store φ) (secrets : Secrets) : Store φ :=
  { s with gitignore := true, secrets := some (Operator.writeSecrets secrets) }

/-- A file other than the records is written. -/
def Store.writeFile (s : Store φ) : Place → Store φ
  | .file name => { s with gitignore := true, files := if s.files.contains name then s.files else name :: s.files }
  | .secrets => { s with gitignore := true, secrets := some [] }
  | _ => { s with gitignore := true }

def Store.unlink (s : Store φ) : Place → Store φ
  | .inputs => { s with inputs := .missing }
  | .secrets => { s with secrets := none }
  | .gitignore => { s with gitignore := false }
  | .file name => { s with files := s.files.filter (· != name) }
  | _ => s

/-! ### Values -/

/-- `str`. -/
def World.show : Json φ → String
  | .str s => s
  | .bool true => "True"
  | .bool false => "False"
  | .null => "None"
  | .int n => toString n
  | v => w.showOther v

def truthy : Json φ → Bool
  | .null => false
  | .bool b => b
  | .int n => n != 0
  | .str s => s != ""
  | .arr items => !items.isEmpty
  | .obj fields => !fields.isEmpty
  | _ => true

/-- `int(record.get(name, 0) or 0)` -/
def World.number (record : Fields φ) (name : String) : Except String Int :=
  match record.lookup name with
  | none => .ok 0
  | some v => if truthy v = true then w.int v else .ok 0

/-- `str(record.get(name, ""))` -/
def World.field (record : Fields φ) (name : String) : String :=
  match record.lookup name with
  | none => ""
  | some v => w.show v

def stripText (text : String) : String := String.ofList (strip text.toList)

/-- `parse_boolean`. -/
def World.parseBoolean : Json φ → Option Bool
  | .bool b => some b
  | v =>
      let normalized := w.lower (stripText (w.show v))
      if normalized ∈ ["y", "yes", "true", "1"] then some true
      else if normalized ∈ ["n", "no", "false", "0", ""] then some false
      else none

/-- `validate_answer`: the normalized answer, and what is wrong with it. -/
def World.validateAnswer (s : Store φ) (request : Request) (value : Json φ) : Except String (Json φ × String) :=
  if request.kind = .boolean ∨ request.kind = .attestation ∨ request.kind = .installApproval then
    match w.parseBoolean value with
    | none => .ok (value, "please answer y or n")
    | some parsed => .ok (.bool parsed, "")
  else
    let text := stripText (w.show value)
    if text = "" then .ok (.str text, "an answer is required")
    else if '\x00' ∈ text.toList then .ok (.str text, "answers must not contain NUL bytes")
    else
      match request.kind with
      | .choice =>
          let choices := request.validation.choices
          if choices ≠ [] ∧ text ∉ choices then .ok (.str text, "choose one of: " ++ ", ".intercalate choices)
          else .ok (.str text, "")
      | .url => do
          let (scheme, hostname) ← w.urlparse text
          match hostname with
          | none => return (.str text, "provide a valid HTTP(S) URL")
          | some hostname =>
              if hostname = "" ∨ (scheme ≠ "https" ∧ scheme ≠ "http") then
                return (.str text, "provide a valid HTTP(S) URL")
              else if request.validation.httpsOnly = true ∧ scheme ≠ "https" then
                return (.str text, "the URL must use HTTPS")
              else if request.validation.hosts ≠ [] ∧ w.lower hostname ∉ request.validation.hosts.map w.lower then
                return (.str text, "the URL host is not in the approved list")
              else return (.str text, "")
      | .path =>
          if request.validation.mustExist = true ∧ s.exists (w.place text) = false then
            .ok (.str text, "the path does not exist")
          else .ok (.str (w.resolve text), "")
      | _ => .ok (.str text, "")

variable [FloatText φ]

/-- `str(value) if value not in (None, "") else None` -/
def World.shown : Json φ → Option String
  | .null => none
  | .str "" => none
  | v => some (w.show v)

/-- What `value_for` makes of a record. -/
def World.valueOf (s : Store φ) (record : Fields φ) : Projection → Except String (Option String)
  | .artifactPath =>
      let path := w.field record "artifact_path"
      .ok (if path = "" then none else some path)
  | .runtimePath =>
      match record.lookup "runtime_path" with
      | none => .ok none
      | some v =>
          if truthy v = true ∧ s.isFile (w.place (w.show v)) = false then .ok none
          else .ok (w.shown v)
  | .version => .ok ((record.lookup "version").bind w.shown)
  | .sha256 => .ok ((record.lookup "sha256").bind w.shown)
  | .value =>
      let secretEnv := stripText (w.field record "secret_env")
      if secretEnv ≠ "" then do
        let secrets ← readSecrets φ s.secrets
        return secrets.lookup secretEnv
      else
        match record.lookup "value" with
        | none => .ok none
        | some (.bool b) => .ok (some (if b = true then "true" else "false"))
        | some v => .ok (w.shown v)

/-- `value_for`. -/
def World.valueFor (s : Store φ) (key : String) (projection : Projection) : Except String (Option String) :=
  match s.get key with
  | .error error => .error error
  | .ok none => .ok none
  | .ok (some record) => w.valueOf s record projection

/-- `value is True` -/
def isTrue : Json φ → Bool
  | .bool true => true
  | _ => false

/-- What `is_valid` says of a record. -/
def World.validRecord (s : Store φ) (request : Request) (record : Fields φ) : Except String (Bool × String) := do
  let version ← w.number record "question_version"
  if version ≠ request.questionVersion then return (false, "the question contract changed")
  else if w.field record "subject_fingerprint" ≠ request.subjectFingerprint then
    return (false, "the bound subject changed")
  else if request.isSecret = true then
    let envKey := w.field record "secret_env"
    if envKey = "" then return (false, "the stored secret is unavailable")
    else
      let secrets ← readSecrets φ s.secrets
      if (secrets.lookup envKey).getD "" = "" then return (false, "the stored secret is unavailable")
      else return (true, "")
  else
    let value := (record.lookup "value").getD .null
    if request.kind = .attestation ∧ isTrue value = false then return (false, "authorization was not attested")
    else
      let (_, error) ← w.validateAnswer s request value
      if error ≠ "" then return (false, error)
      else
        let artifact := stripText (w.field record "artifact_path")
        if artifact ≠ "" ∧ s.isFile (w.place artifact) = false then
          return (false, "the generated input artifact is missing")
        else if request.kind = .path ∧ request.validation.mustExist = true ∧
            s.exists (w.place (w.show value)) = false then
          return (false, "the configured path no longer exists")
        else return (true, "")

/-- `is_valid`. -/
def World.isValid (s : Store φ) (request : Request) : Except String (Bool × String) :=
  match s.get request.key with
  | .error error => .error error
  | .ok none => .ok (false, "answer is missing")
  | .ok (some record) => w.validRecord s request record

/-! ### Changes -/

/-- What stands in every record of an answer. -/
def recordOf (request : Request) (source now : String) (revision : Int) : Fields φ :=
  [("key", .str request.key), ("kind", .str request.kind.name), ("persistence", .str request.persistence.name),
    ("sensitivity", .str request.sensitivity.name), ("subject_fingerprint", .str request.subjectFingerprint),
    ("question_version", .int request.questionVersion), ("answered_at", .str now), ("source", .str source),
    ("revision", .int revision)]

/-- `_write_attestation`: the subject is looked up after the folder was made. -/
def World.writeAttestation (s : Store φ) (request : Request) : Except String String × Store φ :=
  let path := w.attestationPath request.requestId
  let s := { s with attestations := true }
  match request.validation.subjectInputs.mapM fun key => w.valueFor s key .value with
  | .error error => (.error error, s)
  | .ok _ => (.ok path, s.writeFile (w.place path))

/-- `save_answer`. -/
def World.saveAnswer (request : Request) (value : Json φ) (source now : String) (s : Store φ) :
    Except String (Fields φ) × Store φ :=
  let prepared : Except String (Json φ × List (String × Fields φ) × Fields φ) := do
    let (normalized, error) ← w.validateAnswer s request value
    if error ≠ "" then .error error
    else
      let records ← s.records
      let revision ← w.number ((records.lookup request.key).getD []) "revision"
      return (normalized, records, recordOf request source now (revision + 1))
  match prepared with
  | .error error => (.error error, s)
  | .ok (normalized, records, record) =>
      if request.isSecret = true then
        match normalized with
        | .str text =>
            match readSecrets φ s.secrets with
            | .error error => (.error error, s)
            | .ok secrets =>
                let envKey := secretEnvKey request.key
                let record := record ++ [("secret_env", .str envKey), ("present", .bool true)]
                (.ok record, (s.writeSecrets (setField secrets envKey text)).writeRecords
                  (setField records request.key record))
        | _ => (.error "secret answer must be text", s)
      else
        let record := record ++ [("value", normalized)]
        if request.kind = .attestation ∧ isTrue normalized = true then
          match w.writeAttestation s request with
          | (.error error, s) => (.error error, s)
          | (.ok path, s) =>
              let record := record ++ [("artifact_path", .str path),
                ("rights_basis", .str "ownership_or_explicit_permission_attested")]
              (.ok record, s.writeRecords (setField records request.key record))
        else (.ok record, s.writeRecords (setField records request.key record))

/-- `remove`. -/
def World.remove (key : String) (s : Store φ) : Except String Bool × Store φ :=
  match s.records with
  | .error error => (.error error, s)
  | .ok records =>
      match records.lookup key with
      | none => (.ok false, s)
      | some record =>
          let secretEnv := stripText (w.field record "secret_env")
          let withoutSecret : Except String (Store φ) :=
            if secretEnv ≠ "" then do
              let secrets ← readSecrets φ s.secrets
              return s.writeSecrets (popField secrets secretEnv)
            else .ok s
          match withoutSecret with
          | .error error => (.error error, s)
          | .ok s =>
              let artifact := stripText (w.field record "artifact_path")
              let s :=
                if artifact ≠ "" ∧ w.inRoot artifact = true ∧ s.isFile (w.place artifact) = true then
                  s.unlink (w.place artifact)
                else s
              (.ok true, s.writeRecords (popField records key))

end AutoAgents.Operator
