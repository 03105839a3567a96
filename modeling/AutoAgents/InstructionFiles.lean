import AutoAgents.BaseCut
import AutoAgents.OperatorSecrets

/-! The instruction files of a project. The rules are rendered into six files, in each of which the rendered text stands
in a block between two markers; what the author wrote around the block is to stay. Two of the files begin with a front
matter. The lock keeps the digest of each file as the last sync wrote it. How the rules are read, and the legacy file
that a sync removes, are left out. -/

namespace AutoAgents.Instructions

open Base
open Operator (isSpace strip splitlines universalNewlines)

abbrev Text := List Char

def managedBegin : Text := "<!-- auto_agents:instructions:start -->".toList

def managedEnd : Text := "<!-- auto_agents:instructions:end -->".toList

def rstrip (text : Text) : Text := (text.reverse.dropWhile isSpace).reverse

/-! ### Rendering -/

/-- The rules, by `NORMALIZED_RULE_KEYS`. -/
structure Rules where
  hardRules : List Text := []
  workflowContracts : List Text := []
  engineeringValidation : List Text := []
  testingContracts : List Text := []

def defaultEngineeringRules : Text :=
  (["# Project Agent Instructions\n\n",
    "- Treat this repository as the editable project unless explicitly authorized otherwise.\n",
    "- Prefer small, directly verifiable changes; inspect nearby code and tests first.\n",
    "- Preserve user changes and unrelated work.\n",
    "- Keep runtime data under ignored temp/data directories.\n",
    "- Prove changed behavior with focused tests; reuse sufficient existing coverage.\n",
    "- auto_agents owns managed verification_refs and broad suites. Outside managed stages, run focused verification first.\n",
    "- Resolve disagreements between tests and behavior from the approved product contract.\n",
    "- Additional path-specific rules may exist in `.github/instructions/`.\n"] : List String).flatMap String.toList

def productContractHeader : Text := "---\napplyTo: \"**\"\n---\n\n# Product Contract Rules\n".toList

def completeRulesPath : String := ".auto-agents/project-rules.agent.md"

def maxCopilotRootChars : Nat := 1800

/-- What is added where the frontend is approved. -/
def frontendRules : List Text :=
  ["Frontend appearance and interactions must follow the approved DESIGN.md and .auto-agents/docs/frontend_prototype/manifest.json artifacts.".toList,
    "Do not modify DESIGN.md, the approved frontend prototype artifacts, or .auto-agents/state/frontend_design.lock.json during implementation; use an explicit prototype redesign workflow instead.".toList,
    "DESIGN.md governs visual appearance only; behavioral scope remains governed by the product spec and requirements trace.".toList]

/-- `_append_unique` -/
def appendUnique (values : List Text) (value : Text) : List Text :=
  if value ≠ [] ∧ value ∉ values then values ++ [value] else values

/-- `_merge_unique`, for the groups one behind the other. -/
def mergeUnique (limit : Nat) : List Text → List Text → List Text
  | merged, [] => merged
  | merged, value :: rest =>
      let merged := appendUnique merged value
      if limit ≤ merged.length then merged else mergeUnique limit merged rest

/-- `_rule_section`, without a footer. -/
def ruleSection (title : Text) (rules : List Text) : Text :=
  if rules = [] then [] else title ++ "\n\n".toList ++ "\n".toList.intercalate (rules.map ("- ".toList ++ ·))

/-- `_join_sections` -/
def joinSections (sections : List Text) : Text :=
  "\n\n".toList.intercalate ((sections.filter (strip · ≠ [])).map rstrip) ++ ['\n']

/-- The lines of a text that fit, with what they take. -/
def fittingLines (limit : Nat) : Nat → List Text → List Text
  | _, [] => []
  | current, line :: rest =>
      let projected := current + line.length + 1
      if limit < projected then [] else line :: fittingLines limit projected rest

/-- `_limit_markdown` -/
def limitMarkdown (content : Text) (maxChars : Nat) : Text :=
  if content.length ≤ maxChars then content
  else rstrip ("\n".toList.intercalate (fittingLines (maxChars - 80) 0 (splitlines content) ++
    [[], "Content trimmed by auto_agents to keep provider instruction files concise.".toList])) ++ ['\n']

section

variable (lower : Text → Text)

def highPriorityMarkers : List Text :=
  (["default", "direct", "transition", "state", "mode", "must", "only", "never", "do not", "enum", "result", "test", "assert", "->",
    "默认", "直接", "状态", "模式", "必须", "只能", "不要", "不能", "不再", "结果", "测试", "断言"] : List String).map String.toList

/-- `_high_priority_rule` -/
def highPriorityRule (rule : Text) : Bool :=
  highPriorityMarkers.any fun marker => (cut marker (lower rule)).isSome || (cut marker rule).isSome

/-- `_priority_rules` -/
def priorityRules (rules : List Text) (limit : Nat) : List Text :=
  mergeUnique limit [] (rules.filter (highPriorityRule lower) ++ rules)

/-- `_agents_project_summary` -/
def agentsProjectSummary (rules : Rules) : Text :=
  let bullets := mergeUnique 10 [] (priorityRules lower rules.hardRules 7 ++ priorityRules lower rules.workflowContracts 4 ++
    priorityRules lower rules.testingContracts 3 ++ rules.hardRules)
  if bullets = [] then "# Project-Specific Rules\n\nNo project-specific rules are currently defined.".toList
  else ruleSection "# Project-Specific Rules".toList bullets

def reference : Text :=
  (["Full project contract: read .auto-agents/project-rules.agent.md when working on this project. ",
    "The complete rules retain priority over abbreviated summaries. ",
    "Current stage instructions specify artifact ownership and managed verification responsibilities."] : List String).flatMap String.toList

def renderedRoot (rules : Rules) : Text :=
  joinSections [limitMarkdown (joinSections [strip defaultEngineeringRules, agentsProjectSummary lower rules]) (maxCopilotRootChars - 500),
    reference]

def renderedContract (rules : Rules) : Text :=
  joinSections ["# Complete Project Contract".toList, ruleSection "## Hard Rules".toList rules.hardRules,
    ruleSection "## Workflow Contracts".toList rules.workflowContracts,
    ruleSection "## Engineering Validation".toList rules.engineeringValidation,
    ruleSection "## Testing Contracts".toList rules.testingContracts]

/-- `_render_generated_files` -/
def renderGeneratedFiles (rules : Rules) : List (String × Text) :=
  let root := renderedRoot lower rules
  [("AGENTS.md", root), ("CLAUDE.md", root), (".github/copilot-instructions.md", root),
    (".github/instructions/product-contract.instructions.md", joinSections [strip productContractHeader, reference]),
    (".agents/rules/auto-agents.md", "---\ntrigger: always_on\n---\n\n".toList ++ root),
    (completeRulesPath, renderedContract rules)]

/-- The rules of a call, with those of an approved frontend. -/
def Rules.withFrontend (rules : Rules) (approved : Bool) : Rules :=
  if approved then { rules with workflowContracts := rules.workflowContracts ++ frontendRules } else rules

end

/-! ### One file -/

def ruler : Text := "---\n".toList

def rulerLine : Text := "\n---\n".toList

/-- The front matter of a text, and what follows it. -/
def frontMatter (text : Text) : Option (Text × Text) :=
  if ruler.isPrefixOf text then
    (cut rulerLine (text.drop 4)).map fun found => (ruler ++ found.1 ++ rulerLine, found.2)
  else none

def managedBlock (generated : Text) : Text := managedBegin ++ '\n' :: strip generated ++ '\n' :: managedEnd ++ ['\n']

/-- What follows a block, without the end of its last line. -/
def dropNewline : Text → Text
  | '\n' :: rest => rest
  | text => text

section

variable (sha256 : Text → String)

/-- `_merge_managed_content` -/
def mergeManagedContent (existing generated : Text) (expectedHash : String) : Except String Text :=
  let block := managedBlock generated
  if existing = [] ∨ expectedHash ≠ "" ∧ sha256 existing = expectedHash ∧ cut managedBegin existing = none then .ok block
  else match cut managedBegin existing, cut managedEnd existing with
    | none, none => .ok (rstrip existing ++ ['\n', '\n'] ++ block)
    | first, last =>
        if count managedBegin existing ≠ 1 ∨ count managedEnd existing ≠ 1 then
          .error "Ambiguous auto_agents instruction boundaries; preserve the file and repair its managed markers"
        else match first, last with
          | some (before, _), some (upToEnd, behind) =>
              if upToEnd.length < before.length then .error "Invalid auto_agents instruction boundary order"
              else .ok (before ++ block ++ dropNewline behind)
          | _, _ => .error "substring not found"

/-- What a sync makes of a file, whose digest the last sync may have noted. -/
def syncFile (previous : String) (existing content : Text) : Except String Text :=
  if ruler.isPrefixOf content then
    match frontMatter content with
    | none => .error "substring not found"
    | some (front, body) =>
        if ruler.isPrefixOf existing then
          match frontMatter existing with
          | some (oldFront, rest) =>
              let owned := sha256 existing == previous
              (mergeManagedContent sha256 rest body (if owned then sha256 rest else "")).map ((if owned then front else oldFront) ++ ·)
          | none => (mergeManagedContent sha256 existing body "").map (front ++ ·)
        else (mergeManagedContent sha256 existing body previous).map (front ++ ·)
  else mergeManagedContent sha256 existing content previous

/-! ### All files -/

/-- The files as they are on the disk, and `generated_sha256` of the lock, with no text where it has none. -/
@[ext]
structure Project where
  files : String → Option Text
  hashes : String → String

/-- A file as `read_text` reads it; one that is not there is empty. -/
def Project.read (p : Project) (path : String) : Text := universalNewlines ((p.files path).getD [])

def Project.synced (p : Project) (file : String × Text) : Except String (String × Text) :=
  (syncFile sha256 (p.hashes file.1) (p.read file.1) file.2).map fun content => (file.1, content)

/-- Files are written only where they are other ones; the lock is always written. -/
def Project.written (p : Project) (contents : List (String × Text)) : Project where
  files path := match contents.lookup path with
    | some content => if p.read path = content then p.files path else some content
    | none => p.files path
  hashes path := match contents.lookup path with
    | some content => sha256 content
    | none => ""

/-- `sync_agent_instructions`, for rules that are given. A sync that raises writes nothing. -/
def syncAgentInstructions (lower : Text → Text) (p : Project) (rules : Rules) (approved : Bool) : Except String Project :=
  ((renderGeneratedFiles lower (rules.withFrontend approved)).mapM (p.synced sha256)).map (p.written sha256)

end

end AutoAgents.Instructions
