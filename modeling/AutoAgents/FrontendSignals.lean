import AutoAgents.BaseJsonEqual
import AutoAgents.OperatorStore

/-! What marks a requirement as a contract of frontend fidelity, and as one that only preserves what is there. -/

namespace AutoAgents.Fidelity

open Base
open Operator (stripText)

abbrev Text := List Char

abbrev Fields (φ : Type) := List (String × Json φ)

/-! ### Terms -/

def frontendTerms : List String :=
  ["frontend", "front-end", "ui", "web", "page", "route", "browser", "前端", "页面", "界面", "首页"]

def prototypeTerms : List String :=
  ["prototype", "mockup", "wireframe", "figma", "screenshot", ".html", ".htm", ".png", ".jpg", ".jpeg", ".webp", "原型", "截图",
    "视觉稿", "设计稿"]

def visualEvidenceTerms : List String :=
  ["playwright", "prototype", "screenshot", "snapshot", "visual", "vision", "judge", "pixel", "css", "dom", "e2e", "storybook",
    ".png", ".jpg", ".jpeg", ".webp", "截图", "视觉", "样式", "布局"]

def preservationMarkers : List String :=
  ["preserve", "remain unchanged", "must not change", "do not change", "without changing", "no redesign", "保持", "保留",
    "不得改变", "不改变", "不得修改或重设计", "不修改或重设计", "不得修改", "不修改", "不得引入", "不引入", "不新增", "不得新增",
    "不重设计", "不得重设计", "不回退"]

def negatedChangeMarkers : List String :=
  ["must not change", "do not change", "without changing", "no redesign", "不得改变", "不改变", "不得修改或重设计",
    "不修改或重设计", "不得修改", "不修改", "不得引入", "不引入", "不新增", "不得新增", "不重设计", "不得重设计"]

def changeWords : List String := ["新增", "添加", "引入", "重设计", "改版", "修改", "改变", "替换"]

def positiveChangeMarkers : List String :=
  ["add ", "introduce ", "new interaction", "new ui", "redesign", "modify the ui", "modify the design", "modify the layout",
    "change the ui", "change the design", "change the layout", "replace "] ++ changeWords

def contains (text : Text) (term : String) : Bool := decide (term.toList <:+: text)

/-- `[a-z0-9]` -/
def isWordChar (c : Char) : Bool := ('a' ≤ c && c ≤ 'z') || ('0' ≤ c && c ≤ '9')

def beginsWord : Text → Bool
  | [] => false
  | c :: _ => isWordChar c

/-- What is behind a word at the front of a text. -/
def behind (word text : Text) : Option Text := if word.isPrefixOf text = true then some (text.drop word.length) else none

/-- The test holds of the text from some place on that no letter or digit stands before. -/
def searchFrom (test : Text → Bool) : Option Char → Text → Bool
  | before, [] => !before.any isWordChar && test []
  | before, c :: rest => (!before.any isWordChar && test (c :: rest)) || searchFrom test (some c) rest

def wholeWord (word text : Text) : Bool := (behind word text).any fun rest => !beginsWord rest

/-- `[a-z0-9-]+` -/
def isPlainTerm (term : String) : Bool := !term.toList.isEmpty && term.toList.all fun c => isWordChar c || c == '-'

/-- `_term_pattern(term).search(text)` -/
def termFound (text : Text) (term : String) : Bool :=
  if isPlainTerm term = true then searchFrom (wholeWord term.toList) none text else contains text term

def isJoint (c : Char) : Bool := c == ' ' || c == '_' || c == '-'

/-- `head[ _-]+snapshots?`, and no letter or digit behind it. -/
def snapshotOf (head text : Text) : Bool :=
  match behind head text with
  | none => false
  | some rest =>
      (rest.head?.any isJoint) &&
        match behind "snapshot".toList (rest.dropWhile isJoint) with
        | none => false
        | some ('s' :: rest) => !beginsWord rest
        | some rest => !beginsWord rest

def contextualPatterns : List (String × (Text → Bool)) :=
  [("dom snapshot", searchFrom (snapshotOf "dom".toList) none), ("ui snapshot", searchFrom (snapshotOf "ui".toList) none),
    ("page snapshot", searchFrom (snapshotOf "page".toList) none), ("browser snapshot", searchFrom (snapshotOf "browser".toList) none),
    ("rendered snapshot", searchFrom (snapshotOf "rendered".toList) none), ("页面快照", (contains · "页面快照")),
    ("界面快照", (contains · "界面快照")), ("渲染快照", (contains · "渲染快照"))]

/-! ### Documents -/

/-- How a document is read: the values of floating point numbers, `str` of what is no text, and `str.lower`. -/
structure Reader (φ : Type) where
  value : φ → ℚ
  str : Json φ → String
  lower : String → String

/-- A value is iterated that has no items. -/
inductive Raised
  | typeError
  deriving DecidableEq, Repr

variable {φ : Type} (r : Reader φ)

def Reader.text : Json φ → String
  | .str s => s
  | v => r.str v

/-- `str(fields.get(key, ""))` -/
def Reader.field (fields : Fields φ) (key : String) : String := (fields.lookup key).elim "" r.text

/-- `str(fields.get("id", "")).strip()` -/
def Reader.id (fields : Fields φ) : String := stripText (r.field fields "id")

def Reader.truthy : Json φ → Bool
  | .null => false
  | .bool b => b
  | .int n => n ≠ 0
  | .float x => r.value x ≠ 0
  | .nonFinite _ => true
  | .str s => s ≠ ""
  | .arr items => !items.isEmpty
  | .obj fields => !fields.isEmpty

/-- The items of `fields.get(key) or []` -/
def Reader.items (fields : Fields φ) (key : String) : Except Raised (List (Json φ)) :=
  match fields.lookup key with
  | none => .ok []
  | some v =>
      if r.truthy v = true then
        match v with
        | .arr items => .ok items
        | .str s => .ok (s.toList.map fun c => .str (String.singleton c))
        | .obj entries => .ok (entries.map fun entry => .str entry.1)
        | _ => .error .typeError
      else .ok []

def asMapping : Json φ → Option (Fields φ)
  | .obj fields => some fields
  | _ => none

def isText (fields : Fields φ) (key text : String) : Bool :=
  match fields.lookup key with
  | some (.str s) => s == text
  | _ => false

def isActive (fields : Fields φ) : Bool := isText fields "status" "active"

def isMandatory (fields : Fields φ) : Bool := isText fields "priority" "mandatory"

def isBool (fields : Fields φ) (key : String) (b : Bool) : Bool :=
  match fields.lookup key with
  | some (.bool c) => b == c
  | _ => false

/-! ### Classification -/

def Reader.matchingTerms (text : String) (terms : List String) : List String :=
  terms.filter (termFound (r.lower text).toList)

def Reader.matchingPrototypeTerms (text : String) : List String :=
  let lowered := r.lower text
  let terms := r.matchingTerms lowered prototypeTerms
  terms ++ (contextualPatterns.filter fun pattern => pattern.2 lowered.toList && !terms.contains pattern.1).map Prod.fst

/-- The details of a classification, by their kind; none of them is no classification. -/
structure Signals where
  explicit : List String := []
  frontend : List String := []
  prototype : List String := []

def Signals.found (s : Signals) : Bool := !(s.explicit.isEmpty && s.frontend.isEmpty && s.prototype.isEmpty)

/-- The surface is tagged, by a field or in the notes. -/
def Reader.explicitSignals (requirement : Fields φ) : List String :=
  (if isBool requirement "frontend_surface" true = true then ["frontend_surface=true"] else []) ++
    (if contains (r.lower (r.field requirement "notes")).toList "frontend_surface" = true then ["notes:frontend_surface"] else [])

def fidelityFields : List String := ["text", "source", "oracle_type", "oracle_strength", "evidence_boundary", "notes"]

def oracleName (index : Nat) : String := "acceptance_oracles[" ++ toString index ++ "]"

/-- `_requirement_fidelity_signal_details` -/
def Reader.signals (requirement : Fields φ) : Except Raised Signals := do
  let explicit := r.explicitSignals requirement
  if explicit ≠ [] then
    return { explicit }
  let oracles ← r.items requirement "acceptance_oracles"
  let fields := fidelityFields.map (fun key => (key, r.field requirement key)) ++
    oracles.zipIdx.map fun oracle => (oracleName (oracle.2 + 1), r.text oracle.1)
  let frontend := fields.flatMap fun field => (r.matchingTerms field.2 frontendTerms).map (field.1 ++ ":" ++ ·)
  let prototype := fields.flatMap fun field => (r.matchingPrototypeTerms field.2).map (field.1 ++ ":" ++ ·)
  if frontend = [] ∨ prototype = [] then
    return { }
  return { frontend := frontend.eraseDups, prototype := prototype.eraseDups }

def signalGroup (kind : String) (details : List String) : List String :=
  let found := details.filter (· ≠ "")
  if found = [] then [] else [kind ++ "=[" ++ ", ".intercalate found ++ "]"]

/-- `_format_fidelity_signal_details` -/
def Signals.format (s : Signals) : String :=
  "; ".intercalate (signalGroup "explicit" s.explicit ++ signalGroup "frontend" s.frontend ++ signalGroup "prototype" s.prototype)

/-- `requirement_is_frontend_fidelity` -/
def Reader.isFidelity (requirement : Fields φ) : Except Raised Bool := do
  return (← r.signals requirement).found

/-- The first signals of a text, at most eight. -/
def Reader.signalsFromText (text : String) : List String :=
  let lowered := r.lower text
  let frontend := r.matchingTerms lowered frontendTerms
  let prototype := r.matchingPrototypeTerms lowered
  if frontend = [] ∨ prototype = [] then [] else (frontend ++ prototype).eraseDups.take 8

/-! ### Preservation -/

/-- The text without what the matcher finds in it, from the left; the matcher gives the length of a match at the
front, and what is skipped is the rest of the last one. -/
def without (found : Text → Option Nat) : Nat → Text → Text
  | _, [] => []
  | n + 1, _ :: rest => without found n rest
  | 0, c :: rest =>
      match found (c :: rest) with
      | some (n + 1) => without found n rest
      | _ => c :: without found 0 rest

def markerLength (marker text : Text) : Option Nat := if marker.isPrefixOf text = true then some marker.length else none

def isStop (c : Char) : Bool := c == '，' || c == '。' || c == '；' || c == '.' || c == '!' || c == '?'

/-- The longest way over at most twelve characters of one sentence to the word and over it. -/
def overGap (word text : Text) : Option Nat :=
  let gap := ((text.take 12).takeWhile fun c => !isStop c).length
  ((List.range (gap + 1)).reverse.find? fun n => word.isPrefixOf (text.drop n)).map (· + word.length)

/-- A negation before the word: with one character, or else with two. -/
def negatedLength (word : Text) : Text → Option Nat
  | '不' :: rest =>
      ((overGap word rest).map (· + 1)).or
        (match rest with
        | '得' :: rest => (overGap word rest).map (· + 2)
        | _ => none)
  | _ => none

/-- `requirement_is_frontend_preservation_only` -/
def Reader.isPreservationOnly (requirement : Fields φ) : Except Raised Bool := do
  let oracles ← r.items requirement "acceptance_oracles"
  let fields := r.field requirement "text" :: r.field requirement "notes" :: oracles.map r.text
  let combined := (r.lower (" ".intercalate fields)).toList
  let scan := negatedChangeMarkers.foldl (fun text marker => without (markerLength marker.toList) 0 text) combined
  let scan := changeWords.foldl (fun text word => without (negatedLength word.toList) 0 text) scan
  return preservationMarkers.any (contains combined) && !positiveChangeMarkers.any (contains scan)

end AutoAgents.Fidelity
