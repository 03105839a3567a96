import AutoAgents.BaseJsonSort
import AutoAgents.OperatorSecrets

/-! Verification steps and what they are matched by: names of files, patterns of the shell, and the static
dependencies of a project. What a project's files say (their imports, and which symbols have changed) is a
parameter, and so are digests. -/

namespace AutoAgents.Verification

open Base

/-! ### Texts -/

/-- `path.replace("\\", "/").strip().lstrip("./")` -/
def normalized (path : String) : String :=
  let text := path.toList.map fun c => if c = '\\' then '/' else c
  String.ofList ((Operator.strip text).dropWhile fun c => c == '.' || c == '/')

/-- `text.split("::", 1)[0]` -/
def beforeColons : List Char → List Char
  | [] => []
  | ':' :: ':' :: _ => []
  | c :: rest => c :: beforeColons rest

/-- `text.split("::", 1)[1]`, where there is one. -/
def afterColons : List Char → Option (List Char)
  | [] => none
  | ':' :: ':' :: rest => some rest
  | _ :: rest => afterColons rest

/-- `"::" in text` -/
def hasColons (text : String) : Bool := (afterColons text.toList).isSome

/-- `_target_file` -/
def targetFile (target : String) : String := normalized (String.ofList (beforeColons target.toList))

/-- `text.strip().lower()` -/
def stripLower (text : String) : String := (String.ofList (Operator.strip text.toList)).toLower

/-- `dict.fromkeys`: each once, in the order of first appearance. -/
def fromKeys (texts : List String) : List String := texts.reverse.dedup.reverse

/-! ### Patterns -/

/-- What stands between brackets, and what follows them. -/
def bracket (pattern : List Char) : Option (List Char × List Char) :=
  let (bang, rest) := match pattern with
    | '!' :: rest => (['!'], rest)
    | rest => ([], rest)
  let (first, rest) := match rest with
    | ']' :: rest => ([']'], rest)
    | rest => ([], rest)
  match rest.dropWhile (· != ']') with
  | ']' :: after => some (bang ++ first ++ rest.takeWhile (· != ']'), after)
  | _ => none

def inMembers : List Char → Char → Bool
  | a :: '-' :: b :: rest, c => (decide (a ≤ c) && decide (c ≤ b)) || inMembers rest c
  | a :: rest, c => a == c || inMembers rest c
  | [], _ => false

def inBracket : List Char → Char → Bool
  | '!' :: members, c => !inMembers members c
  | members, c => inMembers members c

/-- The pattern matches the whole name. Each step takes a character of the pattern or of the name. -/
def fnmatchFrom : Nat → List Char → List Char → Bool
  | 0, _, _ => false
  | _ + 1, [], name => name.isEmpty
  | n + 1, '*' :: pattern, name =>
      fnmatchFrom n pattern name ||
        match name with
        | [] => false
        | _ :: name => fnmatchFrom n ('*' :: pattern) name
  | _ + 1, _, [] => false
  | n + 1, '?' :: pattern, _ :: name => fnmatchFrom n pattern name
  | n + 1, '[' :: pattern, c :: name =>
      match bracket pattern with
      | some (members, after) => inBracket members c && fnmatchFrom n after name
      | none => c == '[' && fnmatchFrom n pattern name
  | n + 1, p :: pattern, c :: name => p == c && fnmatchFrom n pattern name

/-- `fnmatch.fnmatchcase` -/
def fnmatchcase (name pattern : String) : Bool :=
  fnmatchFrom (name.toList.length + pattern.toList.length + 1) pattern.toList name.toList

/-- `_matches` -/
def pathMatches (path pattern : String) : Bool :=
  let path := normalized path
  let pattern := normalized pattern
  if path = "" ∨ pattern = "" then false
  else if pattern.toList.getLast? = some '/' then pattern.toList.isPrefixOf path.toList
  else
    fnmatchcase path pattern ||
      (['*', '*', '/'].isPrefixOf pattern.toList && fnmatchcase path (String.ofList (pattern.toList.drop 3)))

/-! ### Steps -/

structure VerificationStep where
  proofId : String := ""
  kind : String := "test"
  runner : String := ""
  purpose : String := ""
  targets : List String := []
  args : List String := []
  command : String := ""
  parallelSafe : Bool := false
  maxBatches : Int := 0
  serialReason : String := ""
  cadence : String := "implement_and_final"
  levels : List String := []
  impactPaths : List String := []
  impactSymbols : List String := []
  releaseTrigger : Bool := false
  coalesceSafe : Bool := false
  nodeReplaySafe : Bool := false
  dependsOnProofs : List String := []
  risk : String := "medium"
  cacheScope : String := "run_context"
  resultCacheScope : String := "auto"
  resourceClass : String := "normal"
  cpuSlots : Int := 0
  memoryMb : Int := 0
  memoryReserveMb : Int := 0
  memoryGuard : String := "off"
  requires : List String := []
  exclusiveResources : List String := []
  dynamicPorts : List String := []
  artifactGlobs : List String := []
  operatorInputBindings : List (List (String × String)) := []
  deriving DecidableEq

/-- The part of the configuration that the selection and the release read. -/
structure GateConfig where
  commands : List String := []
  verificationPolicyVersion : Nat := 1
  unmappedChangePolicy : String := "fallback"
  fallbackProofIds : List String := []
  releaseBlockingPaths : List String := []

/-- `gate_config.verification_policy_version >= 5` -/
def GateConfig.optimized (gates : GateConfig) : Bool := decide (5 ≤ gates.verificationPolicyVersion)

/-- `_step_levels` -/
def stepLevels (step : VerificationStep) : List String :=
  if step.levels = [] then
    if stripLower step.cadence = "final_only" then ["release"] else ["affected", "release"]
  else step.levels.map stripLower

/-- `Path(path).name` -/
def pathName (path : String) : List Char :=
  let parts := (path.toList.splitOn '/').filter fun part => part != [] && part != ['.']
  parts.getLast?.getD []

/-- `part in text` -/
def containsText (part : List Char) : List Char → Bool
  | [] => part.isEmpty
  | c :: rest => part.isPrefixOf (c :: rest) || containsText part rest

/-- `_is_test_path` -/
def isTestPath (path : String) : Bool :=
  let name := (String.ofList (pathName path)).toLower.toList
  (["tests/", "test/", "workbench/src/"].any fun folder => folder.toList.isPrefixOf path.toList) &&
    ("test_".toList.isPrefixOf name || containsText ".test.".toList name || containsText ".spec.".toList name)

/-! ### Projects -/

/-- A project as verification sees it: its source files with the files each depends on, the symbols that have
changed in a file where that is known, and the digests by which steps are named. -/
structure Project where
  files : List String := []
  fileDependencies : String → List String := fun _ => []
  changedSymbols : String → Option (List String) := fun _ => none
  pathDigest : String → String
  remainingDigest : List String → List String → String

/-- The loop of `closure_for_targets`: files that are pending, and files seen. -/
def closureFrom (project : Project) : Nat → List String → List String → List String
  | 0, _, seen => seen
  | _, [], seen => seen
  | n + 1, relative :: pending, seen =>
      if relative = "" ∨ relative ∈ seen ∨ relative ∉ project.files then closureFrom project n pending seen
      else
        closureFrom project n
          (((project.fileDependencies relative).filter fun file => !(relative :: seen).contains file).reverse ++ pending)
          (relative :: seen)

/-- `closure_for_targets`. Every file is expanded once. -/
def closureForTargets (project : Project) (targets : List String) : List String :=
  closureFrom project (targets.length + (project.files.map fun file => (project.fileDependencies file).length).sum)
    (targets.map targetFile).reverse []

/-- `symbol_impact`: `none` where the file itself decides. -/
def symbolImpact (step : VerificationStep) (path : String) (symbols : Option (List String)) : Option Bool :=
  let patterns := step.impactSymbols.filterMap fun entry =>
    if String.ofList (beforeColons entry.toList) = path then (afterColons entry.toList).map String.ofList else none
  match symbols with
  | none => none
  | some symbols =>
      if patterns = [] then none else some (symbols.any fun symbol => patterns.any fun pattern => fnmatchcase symbol pattern)

end AutoAgents.Verification
