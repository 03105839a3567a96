import AutoAgents.BaseRun
import AutoAgents.BaseJsonSort
import AutoAgents.BaseJsonText
import AutoAgents.OperatorSecrets

/-! The calls of the Antigravity adapter that choose a model by its settings file. The calls share one
home: each keeps the text it read, writes its own model, runs the CLI and writes back what it kept. -/

namespace AutoAgents.Antigravity

open Base (Json FloatText setField decode)
open Operator (universalNewlines)

variable {φ : Type} [FloatText φ]

/-! ### Texts -/

abbrev Text := List Char

abbrev Bytes := List UInt8

def utf8 (text : Text) : Bytes := (String.ofList text).toByteArray.data.toList

/-- The text of a file, unless its bytes are none. -/
def readText (data : Bytes) : Option Text :=
  (String.fromUTF8? ⟨data.toArray⟩).map fun s => universalNewlines s.toList

theorem readText_utf8 {text : Text} (h : '\r' ∉ text) : readText (utf8 text) = some text := by
  have hvalid : String.fromUTF8? ⟨(utf8 text).toArray⟩ = some (String.ofList text) :=
    dif_pos (String.ofList text).isValidUTF8
  rw [readText, hvalid, Option.map_some, String.toList_ofList, Operator.universalNewlines_eq h]

variable (φ) in
/-- `json.dumps(value, indent=2, ensure_ascii=False)`, of an object. -/
def dumps (fields : List (String × Json φ)) : Text := (Json.obj fields).pretty 0

/-! ### Calls -/

/-- The value that an option has last, as `--option value` or as `--option=value`. -/
def lastOption (name : String) : List String → String → String
  | [], value => value
  | item :: rest, value =>
      let value := if item = name then rest.head?.getD value else value
      let assigned := name.toList ++ ['=']
      lastOption name rest
        (if assigned.isPrefixOf item.toList = true then String.ofList (item.toList.drop assigned.length) else value)

/-- What a provider is configured with, and the options that the help of its binary names. -/
structure Provider where
  extraArgs : List String
  profileMap : List (String × String)
  capabilities : List String

def Provider.modelOption (p : Provider) : String := lastOption "--model" p.extraArgs ""

def Provider.usesNativeModelFlag (p : Provider) : Bool := p.modelOption ≠ "" || p.capabilities.contains "--model"

def Provider.targetModel (p : Provider) (effort : String) : Option String :=
  if p.modelOption ≠ "" then some p.modelOption else p.profileMap.lookup effort

/-- A call that selects a model, and whose CLI has no flag for it. -/
structure Call where
  provider : Provider
  effort : String
  model : String
  selected : provider.targetModel effort = some model
  named : model ≠ ""
  noFlag : provider.usesNativeModelFlag = false

/-- Where a call is, with the text it kept. -/
inductive Phase
  | idle
  | writing (original : Option Text) (text : Text)
  | ready (original : Option Text)
  | running (original : Option Text)
  | restoring (original : Option Text)
  | ended

def Phase.original : Phase → Option Text
  | .writing original _ | .ready original | .running original | .restoring original => original
  | .idle | .ended => none

/-- The call has begun, and has not ended. -/
def Phase.underway : Phase → Bool
  | .idle | .ended => false
  | _ => true

/-- `settings_data["model"] = target_model`, as it is written. -/
def updated (fields : List (String × Json φ)) (model : String) : Text := dumps φ (setField fields "model" (.str model))

variable (φ) in
/-- What a call makes of the settings file before its CLI. Bytes that are no text are not kept; a document that
has no fields is kept, and cannot be updated. -/
def prepared (model : String) : Option Bytes → Phase
  | none => .writing none (updated ([] : List (String × Json φ)) model)
  | some data =>
      match readText data with
      | none => .ready none
      | some text =>
          match (decode text : Option (Json φ)) with
          | none => .writing (some text) (updated ([] : List (String × Json φ)) model)
          | some (.obj fields) => .writing (some text) (updated fields model)
          | some _ => .ready (some text)

variable (φ) in
/-- The file is a document other than an object. -/
def otherJson (file : Option Bytes) : Bool :=
  match file.bind readText with
  | none => false
  | some text =>
      match (decode text : Option (Json φ)) with
      | none | some (.obj _) => false
      | some _ => true

/-! ### Runs -/

inductive Act (ι : Type)
  | reads (i : ι)
  | writes (i : ι)
  | starts (i : ι)
  | ends (i : ι)
  | restores (i : ι)

/-- The file, the calls, and for each CLI that was started the file it found. What follows is bookkeeping, and no
call looks at it: the call whose settings the file shows, none for those of the beginning, and whose
settings each call read. -/
structure State (ι : Type) where
  file : Option Bytes
  phase : ι → Phase
  seen : List (ι × Option Bytes)
  shown : Option ι
  origin : ι → Option ι

variable {ι : Type} [DecidableEq ι]

def State.enter (s : State ι) (i : ι) (phase : Phase) : State ι := { s with phase := Function.update s.phase i phase }

variable (φ) in
def step (calls : ι → Call) (s : State ι) : Act ι → Option (State ι)
  | .reads i =>
      match s.phase i with
      | .idle => some { s.enter i (prepared φ (calls i).model s.file) with origin := Function.update s.origin i s.shown }
      | _ => none
  | .writes i =>
      match s.phase i with
      | .writing original text => some { s.enter i (.ready original) with file := some (utf8 text), shown := some i }
      | _ => none
  | .starts i =>
      match s.phase i with
      | .ready original => some { s.enter i (.running original) with seen := (i, s.file) :: s.seen }
      | _ => none
  | .ends i =>
      match s.phase i with
      | .running original => some (s.enter i (.restoring original))
      | _ => none
  | .restores i =>
      match s.phase i with
      | .restoring none => some (s.enter i .ended)
      | .restoring (some text) =>
          some { s.enter i .ended with file := some (utf8 text), shown := s.origin i }
      | _ => none

def begun (initial : Option Bytes) : State ι := ⟨initial, fun _ => .idle, [], none, fun _ => none⟩

variable (φ) in
/-- Any overlap of the calls, from any settings file. -/
def overlapping (calls : ι → Call) (initial : Option Bytes) : Base.System (State ι) (Act ι) where
  start := (· = begun initial)
  step s a t := step φ calls s a = some t

/-- The step of one call from one phase to another. -/
theorem step_cases {calls : ι → Call} {s t : State ι} {a : Act ι} (h : step φ calls s a = some t) :
    (∃ i, a = .reads i ∧ s.phase i = .idle ∧
      t = { s.enter i (prepared φ (calls i).model s.file) with origin := Function.update s.origin i s.shown }) ∨
    (∃ i original text, a = .writes i ∧ s.phase i = .writing original text ∧
      t = { s.enter i (.ready original) with file := some (utf8 text), shown := some i }) ∨
    (∃ i original, a = .starts i ∧ s.phase i = .ready original ∧
      t = { s.enter i (.running original) with seen := (i, s.file) :: s.seen }) ∨
    (∃ i original, a = .ends i ∧ s.phase i = .running original ∧ t = s.enter i (.restoring original)) ∨
    (∃ i, a = .restores i ∧ s.phase i = .restoring none ∧ t = s.enter i .ended) ∨
    (∃ i text, a = .restores i ∧ s.phase i = .restoring (some text) ∧
      t = { s.enter i .ended with file := some (utf8 text), shown := s.origin i }) := by
  cases a with
  | reads i =>
      refine Or.inl ⟨i, rfl, ?_⟩
      simp only [step] at h
      split at h
      · next hphase => exact ⟨hphase, (Option.some.inj h).symm⟩
      · cases h
  | writes i =>
      simp only [step] at h
      split at h
      · next original text hphase => exact Or.inr (Or.inl ⟨i, original, text, rfl, hphase, (Option.some.inj h).symm⟩)
      · cases h
  | starts i =>
      simp only [step] at h
      split at h
      · next original hphase =>
          exact Or.inr (Or.inr (Or.inl ⟨i, original, rfl, hphase, (Option.some.inj h).symm⟩))
      · cases h
  | ends i =>
      simp only [step] at h
      split at h
      · next original hphase =>
          exact Or.inr (Or.inr (Or.inr (Or.inl ⟨i, original, rfl, hphase, (Option.some.inj h).symm⟩)))
      · cases h
  | restores i =>
      simp only [step] at h
      split at h
      · next hphase =>
          exact Or.inr (Or.inr (Or.inr (Or.inr (Or.inl ⟨i, rfl, hphase, (Option.some.inj h).symm⟩))))
      · next text hphase =>
          exact Or.inr (Or.inr (Or.inr (Or.inr (Or.inr ⟨i, text, rfl, hphase, (Option.some.inj h).symm⟩))))
      · cases h

end AutoAgents.Antigravity
