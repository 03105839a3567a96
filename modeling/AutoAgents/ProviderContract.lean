import AutoAgents.BaseRegex
import AutoAgents.RequirementRecords

/-! The second version of the contract of a provider reference: which sections its document has to have, and which of its rules have to
say where they come from. -/

namespace AutoAgents.Provider

open Base
open Operator (isSpace strip splitlines)
open Requirements (Host Fields)

variable {φ : Type}

/-! ### Lock entries -/

abbrev Lock (φ : Type) := Fields φ

/-- `str(value.get("path", "")).strip()` -/
def pathOf (h : Host φ) (entry : Fields φ) : String := h.text entry "path" ""

/-- `provider_reference_lock_entry` -/
def lockEntry (h : Host φ) (lock : Lock φ) (reference : String) : Option (Fields φ) :=
  match lock.lookup "references" with
  | some (.obj references) => (references.filterMap fun field => Requirements.asFields field.2).find? fun entry => pathOf h entry == reference
  | _ => none

/-- `provider_reference_contract_version` -/
def contractVersion (h : Host φ) (entry : Fields φ) : Int :=
  match h.int (Requirements.field entry "contract_version" .null) with
  | .ok (some n) => n
  | _ => 0

/-! ### Headings -/

def contractHeadings : List String :=
  ["Status", "Retrieved at", "Official sources", "Authentication", "Request", "Response", "Prompt / Content Construction",
    "Safety / Content Policy", "Semantic Error Routing", "Retry / Recovery Matrix", "Contract Test Requirements", "Unknowns / Ambiguities"]

def provenanceSections : List String :=
  ["Prompt / Content Construction", "Safety / Content Policy", "Semantic Error Routing", "Retry / Recovery Matrix"]

/-- `^` of a line, where the text begins or behind a newline. -/
def atLineStart (s : Spot) : Bool := s.before.isNone || s.before == some '\n'

/-- `$` of a line. -/
def atLineEnd (s : Spot) : Bool := s.rest.isEmpty || s.rest.head? == some '\n'

/-- `^##\s+` -/
def headingStart : Regex :=
  .seq (.look atLineStart) (.seq (.one (· == '#')) (.seq (.one (· == '#')) (.seq (.one isSpace) (.many isSpace))))

/-- `\s*#*\s*$` -/
def headingEnd : Regex := .seq (.many isSpace) (.seq (.many (· == '#')) (.seq (.many isSpace) (.look atLineEnd)))

/-- `(.+?)` up to the first place where the heading can end. -/
def headingName (name : List Char) : List Char → Option (List Char × Spot)
  | [] => none
  | c :: rest =>
      if c = '\n' then none
      else
        match (headingEnd.ends ⟨some c, rest⟩).head? with
        | some stop => some (name ++ [c], stop)
        | none => headingName (name ++ [c]) rest

/-- The name of a heading that begins here, and the place behind it. -/
def headingAt (s : Spot) : Option (List Char × Spot) := (headingStart.ends s).findSome? fun place => headingName [] place.rest

/-- The headings of a text, from the first to the last: the name of each, and the text from where it begins and from where it ends. -/
def headingsFrom : Nat → Spot → List (List Char × List Char × List Char)
  | 0, _ => []
  | fuel + 1, s =>
      match headingAt s with
      | some (name, stop) => (name, s.rest, stop.rest) :: headingsFrom fuel stop
      | none =>
          match s.rest with
          | [] => []
          | c :: rest => headingsFrom fuel ⟨some c, rest⟩

section

-- `str.lower`
variable (lower : String → String)

/-- `_normalize_heading` -/
def normalizeHeading (value : List Char) : String :=
  String.ofList (Requirements.collapseSpace false (lower (String.ofList (strip value))).toList)

/-- The sections by their names. Each goes up to where the next heading begins. -/
def sectionsOf : List (List Char × List Char × List Char) → List (String × List Char)
  | [] => []
  | [(name, _, text)] => [(normalizeHeading lower name, strip text)]
  | (name, _, text) :: (next, start, rest) :: later =>
      (normalizeHeading lower name, strip (text.take (text.length - start.length))) :: sectionsOf ((next, start, rest) :: later)

def documentSections (text : List Char) : List (String × List Char) := Base.objectOf (sectionsOf lower (headingsFrom (text.length + 1) ⟨none, text⟩))

/-! ### Provenance -/

/-- What follows the word, in either case of its letters. -/
def dropWord (word text : List Char) : Option (List Char) :=
  if text.length < word.length then none
  else if (text.take word.length).map Char.toLower = word then some (text.drop word.length)
  else none

/-- `\[([^\]]+)\]\*\*`: the label, and what follows. -/
def labelAt : List Char → Option (List Char × List Char)
  | '[' :: rest =>
      let label := rest.takeWhile (· != ']')
      match rest.dropWhile (· != ']') with
      | ']' :: '*' :: '*' :: later => if label = [] then none else some (label, later)
      | _ => none
  | _ => none

/-- `\*\*\[([^\]]+)\]\*\*` -/
def provenanceAt : List Char → Option (List Char × List Char)
  | '*' :: '*' :: rest => labelAt rest
  | _ => none

/-- `\*\*(?:Provenance|Source)\s*:\s*\[([^\]]+)\]\*\*` -/
def malformedAt : List Char → Option (List Char × List Char)
  | '*' :: '*' :: rest =>
      match (dropWord "provenance".toList rest).or (dropWord "source".toList rest) with
      | none => none
      | some later =>
          match later.dropWhile isSpace with
          | ':' :: later => labelAt (later.dropWhile isSpace)
          | _ => none
  | _ => none

/-- `findall` -/
def labelsFrom (read : List Char → Option (List Char × List Char)) : Nat → List Char → List (List Char)
  | 0, _ => []
  | _, [] => []
  | fuel + 1, c :: text =>
      match read (c :: text) with
      | some (label, rest) => label :: labelsFrom read fuel rest
      | none => labelsFrom read fuel text

def labels (read : List Char → Option (List Char × List Char)) (text : List Char) : List (List Char) := labelsFrom read (text.length + 1) text

/-- One of the kinds of `_provenance_kinds` is named. The other two that it looks for contain these. -/
def hasProvenance (text : List Char) : Bool :=
  (labels provenanceAt text).any fun label =>
    let name := (lower (String.ofList (strip label))).toList
    ["official", "observed", "assumption", "unknown", "policy"].any fun word => decide (word.toList <:+: name)

/-- `_malformed_provenance_labels` -/
def malformedLabels (text : List Char) : List String :=
  ((labels malformedAt text).map fun label => String.ofList (strip label)).filter (· != "")

/-- `_malformed_provenance_error` -/
def malformedProvenanceError (location : String) (names : List String) : String :=
  let label := names.headD "label"
  location ++ " uses unsupported provenance syntax '**Provenance: [" ++ label ++ "]**'; use canonical '**[" ++ label ++ "]**'"

/-- `" ".join(section.split())` -/
def joinedWords (text : List Char) : List Char := strip (Requirements.collapseSpace false text)

/-- `_is_explained_not_applicable` -/
def isExplainedNotApplicable (text : List Char) : Bool :=
  match dropWord "not applicable".toList (joinedWords text) with
  | none => false
  | some rest =>
      match rest.dropWhile isSpace with
      | c :: reason => (c == ':' || c == '\u2014' || c == '-') && decide (8 ≤ (strip reason).length)
      | [] => false

/-- `line.strip("|").split("|")` -/
def tableCells (line : List Char) : List (List Char) :=
  (((line.dropWhile (· == '|')).reverse.dropWhile (· == '|')).reverse.splitOn '|').map strip

/-- `:?-{3,}:?` -/
def isSeparatorCell (cell : List Char) : Bool :=
  let dashes := if cell.head? = some ':' then cell.drop 1 else cell
  let dashes := if dashes.getLast? = some ':' then dashes.dropLast else dashes
  decide (3 ≤ dashes.length) && dashes.all (· == '-')

/-- `_is_table_separator` -/
def isTableSeparator (line : List Char) : Bool := line.head? == some '|' && (tableCells line).all isSeparatorCell

/-- `^\d+[.)]\s+` -/
def isNumberedRule (line : List Char) : Bool :=
  line.head?.any Char.isDigit &&
    match line.dropWhile Char.isDigit with
    | c :: d :: _ => (c == '.' || c == ')') && isSpace d
    | _ => false

/-- One line of a section whose rules name their sources. -/
def ruleErrors (heading : String) (number : Nat) (raw : List Char) : List String :=
  let line := strip raw
  let location := heading ++ " line " ++ toString number
  let lowered := (lower (String.ofList line)).toList
  if line = [] ∨ isTableSeparator line = true then []
  else if malformedLabels line ≠ [] then [malformedProvenanceError location (malformedLabels line)]
  else if line.head? = some '|' ∧ ["official", "provenance", "source"].any (fun word => decide (word.toList <:+: lowered)) = true then []
  else
    let isRule := "- ".toList.isPrefixOf line || isNumberedRule line
    let isProse := line.head? != some '|'
    if (isRule || isProse) = true ∧ hasProvenance lower line = false then [location ++ " lacks direct provenance"] else []

/-- `_validate_rule_provenance` -/
def validateRuleProvenance (heading : String) (text : List Char) : List String :=
  ((splitlines text).zipIdx 1).flatMap fun (raw, number) => ruleErrors lower heading number raw

/-- One data row of the recovery matrix, where the sources stand in the column of this index. -/
def rowErrors (width column number : Nat) (row : List Char) : List String :=
  let cells := tableCells row
  let location := "Retry / Recovery Matrix row " ++ toString number
  if cells.length ≠ width then [location ++ " has an inconsistent column count"]
  else
    let cell := cells.getD column []
    if malformedLabels cell ≠ [] then [malformedProvenanceError location (malformedLabels cell)]
    else if hasProvenance lower cell = true then []
    else [location ++ " lacks provenance"]

/-- One line of the recovery matrix outside its table. -/
def narrativeErrors (number : Nat) (raw : List Char) : List String :=
  let line := strip raw
  let location := "Retry / Recovery Matrix narrative line " ++ toString number
  if line = [] ∨ line.head? = some '|' then []
  else if malformedLabels line ≠ [] then [malformedProvenanceError location (malformedLabels line)]
  else if hasProvenance lower line = true then []
  else [location ++ " lacks direct provenance"]

/-- `_validate_recovery_provenance` -/
def validateRecoveryProvenance (text : List Char) : List String :=
  match ((splitlines text).map strip).filter (fun line => line.head? == some '|') with
  | [] => ["Retry / Recovery Matrix must contain a sourced table"]
  | header :: rows =>
      let cells := tableCells header
      let column := cells.findIdx? fun cell => ["source", "provenance", "source or provenance"].contains (normalizeHeading lower cell)
      (match column with
        | none => ["Retry / Recovery Matrix must include a Source or Provenance column"]
        | some column => ((rows.drop 1).zipIdx 3).flatMap fun (row, number) => rowErrors lower cells.length column number row) ++
      ((splitlines text).zipIdx 1).flatMap fun (raw, number) => narrativeErrors lower number raw

/-! ### The document -/

/-- What the text of a reference misses. -/
def documentErrors (text : List Char) : List String :=
  let sections := documentSections lower text
  (contractHeadings.flatMap fun heading =>
    match sections.lookup (normalizeHeading lower heading.toList) with
    | none => ["missing required section: " ++ heading]
    | some body => if body = [] then ["required section is empty: " ++ heading] else []) ++
  provenanceSections.flatMap fun heading =>
    let body := (sections.lookup (normalizeHeading lower heading.toList)).getD []
    if body = [] ∨ isExplainedNotApplicable body = true then []
    else if heading = "Retry / Recovery Matrix" then validateRecoveryProvenance lower body
    else validateRuleProvenance lower heading body

/-- `validate_provider_reference_v2`, on the text of the reference if its file is there. -/
def validateProviderReferenceV2 (h : Host φ) (text : Option (List Char)) : Option (Fields φ) → List String
  | none => ["missing provider-reference lock entry"]
  | some entry =>
      (if contractVersion h entry < 2 then ["lock entry contract_version must be at least 2"] else []) ++
        match text with
        | none => ["provider reference file is missing"]
        | some text => documentErrors lower text

end

end AutoAgents.Provider
