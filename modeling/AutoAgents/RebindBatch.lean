import AutoAgents.BaseOutcome

/-! The replacement of a batch of documents. Each is staged beside its path, what is there is moved away, the staged files take
their places, and the records among them are written to the store and once more to their paths. One step of all may fail. -/

namespace AutoAgents.Rebind

open Base

/-- How documents are written and read. -/
structure Codec (τ δ : Type) where
  loads : τ → Option δ
  jsonBytes : δ → τ
  canonical : δ → τ
  loads_jsonBytes : ∀ v, loads (jsonBytes v) = some v
  loads_canonical : ∀ v, loads (canonical v) = some v

/-- What `read_projection` finds for the path of a record: a row of the business store or none, the view of the control store
where that owns the records, or an error. -/
inductive Projection (τ δ : Type)
  | notManaged
  | record (text : τ)
  | view (value : Option δ)
  | refused

/-- A path of the batch, and the files with the token of the call beside it. -/
inductive File (ρ : Type)
  | target (path : ρ)
  | staged (path : ρ)
  | backup (path : ρ)
  deriving DecidableEq

/-- What may fail: the first look at a path, staging, the second look, the move to the backup, the move of the staged file, the
row in the store, the file of the record, the rollback of a path, the look of its handler, the removal of a temporary file. -/
inductive Step (ρ : Type)
  | look (path : ρ)
  | stage (path : ρ)
  | probe (path : ρ)
  | backup (path : ρ)
  | commit (path : ρ)
  | save (path : ρ)
  | publish (path : ρ)
  | recover (path : ρ)
  | check (path : ρ)
  | discard (file : File ρ)
  deriving DecidableEq

/-- The step that fails. A write that fails may have left something in the file. -/
structure Fault (ρ τ : Type) where
  step : Step ρ
  left : Option τ

/-- The files, the records, and the variables of the call. -/
structure State (ρ τ δ : Type) where
  files : File ρ → Option τ
  records : ρ → Projection τ δ
  staged : List ρ
  backups : List ρ
  preserved : List ρ
  named : List ρ

structure Env (ρ τ δ : Type) where
  codec : Codec τ δ
  /-- `record_location` -/
  managed : ρ → Bool
  fault : Option (Fault ρ τ)

/-- The payloads by their paths. -/
structure Batch (ρ δ : Type) where
  entries : List (ρ × δ)
  apart : (entries.map Prod.fst).Nodup

def Batch.paths {ρ δ : Type} (batch : Batch ρ δ) : List ρ := batch.entries.map Prod.fst

variable {ρ τ δ : Type} [DecidableEq ρ]

/-- Steps that raise the paths that their error names. -/
abbrev Act (ρ τ δ α : Type) := EStateM (List ρ) (State ρ τ δ) α

def State.write (s : State ρ τ δ) (file : File ρ) (text : Option τ) : State ρ τ δ := { s with files := Function.update s.files file text }

/-- `os.replace` -/
def State.move (s : State ρ τ δ) (source target : File ρ) : State ρ τ δ := (s.write target (s.files source)).write source none

namespace Env

variable (e : Env ρ τ δ)

def fails (step : Step ρ) : Bool := decide (e.fault.map Fault.step = some step)

/-- What a write that fails leaves. -/
def torn (file : File ρ) (s : State ρ τ δ) : State ρ τ δ :=
  match e.fault.bind Fault.left with
  | some text => s.write file (some text)
  | none => s

def attempt (step : Step ρ) (torn act : State ρ τ δ → State ρ τ δ) : Act ρ τ δ Unit :=
  if e.fails step = true then do
    modify torn
    throw []
  else modify act

/-! ### The batch -/

def stageOne (entry : ρ × δ) : Act ρ τ δ Unit :=
  e.attempt (.stage entry.1) (e.torn (.staged entry.1)) fun s =>
    { s.write (.staged entry.1) (some (e.codec.jsonBytes entry.2)) with staged := s.staged ++ [entry.1] }

def backupOne (path : ρ) : Act ρ τ δ Unit := do
  e.attempt (.probe path) id id
  let s ← get
  if (s.files (.target path)).isSome = true then
    e.attempt (.backup path) id fun s => { s.move (.target path) (.backup path) with backups := s.backups ++ [path] }

def commitOne (path : ρ) : Act ρ τ δ Unit := e.attempt (.commit path) id fun s => s.move (.staged path) (.target path)

/-- `write_projection`, of a path that has a record. -/
def writeProjection (entry : ρ × δ) : Act ρ τ δ Unit := do
  if e.managed entry.1 = true then
    e.attempt (.save entry.1) id fun s =>
      { s with records := Function.update s.records entry.1 (.record (e.codec.canonical entry.2)) }
    e.attempt (.publish entry.1) (e.torn (.target entry.1)) fun s => s.write (.target entry.1) (some (e.codec.canonical entry.2))

def body (batch : Batch ρ δ) : Act ρ τ δ Unit := do
  batch.entries.forM e.stageOne
  batch.paths.forM e.backupOne
  let s ← get
  s.staged.forM e.commitOne
  batch.entries.forM e.writeProjection

/-! ### The rollback -/

/-- A path gets its backup back, or is removed if it was not there. -/
def recoverOne (present : ρ → Bool) (path : ρ) : Act ρ τ δ Unit := do
  let s ← get
  if path ∈ s.backups ∨ present path = false then
    e.attempt (.recover path) id fun s =>
      if path ∈ s.backups ∧ (s.files (.backup path)).isSome = true then s.move (.backup path) (.target path)
      else if present path = false then s.write (.target path) none
      else s

/-- The handler of a path that could not be rolled back. -/
def keepBackup (path : ρ) : Act ρ τ δ Unit := do
  let s ← get
  if path ∈ s.backups then e.attempt (.check path) id id
  if path ∈ s.backups ∧ (s.files (.backup path)).isSome = true then
    modify fun s => { s with preserved := s.preserved ++ [path] }
  modify fun s => { s with named := s.named ++ [path] }

def rollback (present : ρ → Bool) (batch : Batch ρ δ) : Act ρ τ δ Unit := do
  batch.paths.reverse.forM fun path => tryCatch (e.recoverOne present path) fun _ => e.keepBackup path
  let s ← get
  throw s.named

/-! ### The end -/

def discardOne (file : File ρ) : Act ρ τ δ Unit := do
  let s ← get
  if ∀ path ∈ s.preserved, file ≠ .backup path then
    tryCatch (e.attempt (.discard file) id fun s => s.write file none) fun _ => pure ()

def cleanup : Act ρ τ δ Unit := do
  let s ← get
  (s.staged.map File.staged ++ s.backups.map File.backup).forM e.discardOne

/-- `try: … finally: …` -/
def finallyDo (act last : Act ρ τ δ Unit) : Act ρ τ δ Unit := do
  let raised ← tryCatch (do act; return none) fun named => return some named
  last
  match raised with
  | none => return
  | some named => throw named

/-- `_replace_json_batch` -/
def replaceJsonBatch (batch : Batch ρ δ) : Act ρ τ δ Unit := do
  batch.paths.forM fun path => e.attempt (.look path) id id
  let s ← get
  finallyDo (tryCatch (e.body batch) fun _ => e.rollback (fun path => (s.files (.target path)).isSome) batch) e.cleanup

/-! ### Reading -/

/-- `read_json`, where no value stands for the default. -/
def readJson (s : State ρ τ δ) (path : ρ) : Except Unit (Option δ) :=
  let parse (text : τ) : Except Unit (Option δ) :=
    match e.codec.loads text with
    | some v => .ok (some v)
    | none => .error ()
  let file : Except Unit (Option δ) :=
    match s.files (.target path) with
    | none => .ok none
    | some text => parse text
  if e.managed path = true then
    match s.records path with
    | .notManaged => file
    | .record text => parse text
    | .view value => .ok value
    | .refused => .error ()
  else file

end Env

/-- Before the call: nothing has its token yet. -/
def start (files : ρ → Option τ) (records : ρ → Projection τ δ) : State ρ τ δ where
  files
    | .target path => files path
    | _ => none
  records := records
  staged := []
  backups := []
  preserved := []
  named := []

end AutoAgents.Rebind
