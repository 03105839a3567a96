import AutoAgents.PrototypeApproval
import AutoAgents.RequirementIds

/-! One attempt of a model phase. The workspace is observed before the worker starts and after it has ended; an attempt is
accepted if what lies between the two observations is allowed, and an attempt that raises is not compared at all. -/

namespace AutoAgents.Stage

open Base
open Git (Path Entry Tree Commit sortNames)

local instance lawfulPath : LawfulBEq Path := inferInstance

/-! ### The guard -/

/-- The directories that `workspace_guard` does not enter. -/
def caches : List String :=
  [".git", ".conda", ".venv", "node_modules", "__pycache__", ".pytest_cache", ".mypy_cache", ".ruff_cache", ".vite", ".next"]

/-- The walk comes to the name: no directory above it is a cache, and neither is the name itself if it leads to a directory. -/
def walked (links : Links) (ws : Workspace) (p : Path) : Bool :=
  p.dropLast.all (fun part => !caches.contains part) &&
    !(ws.isSymlink p && links.directory ws.files p && p.getLast?.any caches.contains)

/-- What the guard records: the commit, the index and, by its name, every file and link it comes to. -/
structure Guard where
  head : Commit
  index : Tree
  names : List Path
  mark : Path → Option Entry

/-- `workspace_guard` -/
def workspaceGuard (links : Links) (ws : Workspace) : Guard where
  head := ws.head
  index := ws.index
  names := ws.files.keys
  mark p := if walked links ws p = true then ws.files.lookup p else none

def headName : Path := ["<HEAD>"]
def indexName : Path := ["<index>"]

/-- `changed_guard_paths` -/
def changedGuardPaths (before after : Guard) : List Path :=
  (sortNames (before.names ++ after.names)).filter (fun p => before.mark p != after.mark p) ++
    (if before.head ≠ after.head then [headName] else []) ++ (if before.index ≠ after.index then [indexName] else [])

/-! ### The paths of a phase -/

/-- `STAGE_PATHS` -/
def stagePaths : Phase → Option (List Path)
  | .clarify => some [[".auto-agents", "docs", "project_brief.md"], [".auto-agents", "docs", "requirements.md"],
      [".auto-agents", "docs", "requirements_trace.json"], [".auto-agents", "project-rules.md"]]
  | .prototype => some [[".auto-agents", "docs", "frontend_prototype", ""], [".auto-agents", "docs", "frontend_design", ""],
      ["DESIGN.md"]]
  | .design => some [[".auto-agents", "docs", "architecture.md"], ["DESIGN.md"]]
  | .plan => some [[".auto-agents", "docs", "task_plan.json"]]
  | .providerResearch | .research => some [[".auto-agents", "docs", "provider_references.md"],
      [".auto-agents", "docs", "provider_references", ""], [".auto-agents", "docs", "provider_references.lock.json"]]
  | .readme => some [["README.md"]]
  | .acceptance => some [[".auto-agents", "docs", "acceptance", ""]]
  | _ => none

/-- `scope or STAGE_PATHS.get(phase)` -/
def allowedPaths (phase : Phase) (scope : List Path) : Option (List Path) := if scope = [] then stagePaths phase else some scope

/-- The phase may change the path. -/
def allows (allowed : Option (List Path)) (p : Path) : Bool :=
  match allowed with
  | none => true
  | some names => inStage names p

/-- `stage_writes` -/
def stageWrites (before after : Guard) (phase : Phase) (scope : List Path) : Except ControlError Unit :=
  let changes := changedGuardPaths before after
  if headName ∈ changes ∨ indexName ∈ changes then
    .error ⟨"worker_git", "Only the controller may change Git checkpoints or indexes", .model⟩
  else if (changes.any fun p => !productPath p) = true then
    .error ⟨"stage_scope", "Worker changed protected runtime or operator paths", .model⟩
  else if (changes.any fun p => productPath p && !allows (allowedPaths phase scope) p) = true then
    .error ⟨"stage_scope", "Worker changed paths outside the current phase", .model⟩
  else pure ()

section

variable {links : Links} {before after : Guard}

theorem mem_changed {p : Path} : p ∈ changedGuardPaths before after ↔
    p ∈ before.names ++ after.names ∧ before.mark p ≠ after.mark p ∨ before.head ≠ after.head ∧ p = headName ∨
      before.index ≠ after.index ∧ p = indexName := by
  simp only [changedGuardPaths, List.mem_append, List.mem_filter, Git.mem_sortNames, bne_iff_ne, List.mem_ite_nil_right,
    List.mem_singleton, or_assoc]

/-- What two observations have apart is the name of one of the two. -/
theorem mem_names {ws ws' : Workspace} {p : Path} (hmark : (workspaceGuard links ws).mark p ≠ (workspaceGuard links ws').mark p) :
    p ∈ (workspaceGuard links ws).names ++ (workspaceGuard links ws').names := by
  by_contra hnot
  rw [List.mem_append, not_or] at hnot
  have hnone : ws.files.lookup p = none := AList.lookup_eq_none.mpr hnot.1
  have hnone' : ws'.files.lookup p = none := AList.lookup_eq_none.mpr hnot.2
  apply hmark
  simp only [workspaceGuard, hnone, hnone', ite_self]

/-- The changes that are accepted are changes of the product that the phase may make. -/
theorem stageWrites_ok {phase : Phase} {scope : List Path} : stageWrites before after phase scope = .ok () ↔
    (headName ∉ changedGuardPaths before after ∧ indexName ∉ changedGuardPaths before after) ∧
      ∀ p ∈ changedGuardPaths before after, productPath p = true ∧ allows (allowedPaths phase scope) p = true := by
  simp only [stageWrites, guard_ok, pure_ok, not_or, List.any_eq_true, not_exists, not_and, Bool.not_eq_true']
  constructor
  · rintro ⟨hgit, hprotected, houtside, _⟩
    refine ⟨hgit, fun p hp => ?_⟩
    have hproduct : productPath p = true := by simpa using hprotected p hp
    exact ⟨hproduct, by simpa [hproduct] using houtside p hp⟩
  · rintro ⟨hgit, hallowed⟩
    refine ⟨hgit, fun p hp => ?_, fun p hp => ?_, trivial⟩
    · simp [hallowed p hp]
    · simp [hallowed p hp]

end

end AutoAgents.Stage
