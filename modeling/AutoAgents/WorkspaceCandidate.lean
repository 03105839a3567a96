import AutoAgents.DeliveryEffects

/-! The candidate of a work item. The names it delivers are listed by comparing the worktree with the
source; the revision is whatever the index holds once these names are staged. -/

namespace AutoAgents

open Base
open Git

local instance lawfulWorkspacePath : LawfulBEq Path := inferInstance

/-- The worktree of a work item: its commit, its index, its files and links, and the names its ignore
rules match. -/
structure Workspace where
  head : Commit
  index : Tree
  files : Tree
  ignored : Path → Bool

namespace Workspace

/-- The files on disk that the index tracks. -/
def tracked (ws : Workspace) : View := fun p =>
  if (ws.index.lookup p).isSome then ws.files.lookup p else none

/-- `git diff --name-only source`. -/
def diffNames (tool : Tool) (ws : Workspace) (source : Commit) : List Path :=
  (source.tree.keys ++ ws.index.keys).filter (tool.differs source.at ws.tracked)

/-- `git ls-files --others --exclude-standard`. -/
def others (ws : Workspace) : List Path :=
  ws.files.keys.filter fun p => (ws.index.lookup p).isNone && !ws.ignored p

/-- A regular file stands at the name. -/
def isFile (ws : Workspace) (p : Path) : Bool := (ws.files.lookup p).any (·.mode != .symlink)

def isSymlink (ws : Workspace) (p : Path) : Bool := (ws.files.lookup p).any (·.mode == .symlink)

/-- The files below `.auto-agents/docs` that the source does not have, ignored or not. -/
def docs (ws : Workspace) (source : Commit) : List Path :=
  ws.files.keys.filter fun p =>
    [".auto-agents", "docs"] ∈ ancestors p && ws.isFile p &&
      (source.at p).isNone && !source.directory p

def changed (tool : Tool) (ws : Workspace) (source : Commit) : List Path :=
  sortNames ((ws.diffNames tool source ++ ws.others ++ ws.docs source).filter productPath)

/-- The names of a candidate: what has changed, and the declared outputs that are there. -/
def listed (tool : Tool) (ws : Workspace) (source : Commit) (outputs : List Path) : List Path :=
  sortNames (ws.changed tool source ++ outputs.filter fun p => productPath p && ws.isFile p)

theorem listed_product {tool : Tool} {ws : Workspace} {source : Commit} {outputs : List Path} {p : Path}
    (h : p ∈ ws.listed tool source outputs) : productPath p = true := by
  rcases List.mem_append.mp (mem_sortNames.mp h) with hchanged | houtput
  · exact (List.mem_filter.mp (mem_sortNames.mp hchanged)).2
  · have hboth := (List.mem_filter.mp houtput).2
    rw [Bool.and_eq_true] at hboth
    exact hboth.1

theorem listed_listed (tool : Tool) (ws : Workspace) (source : Commit) (outputs : List Path) :
    Git.Listed (ws.listed tool source outputs) := by
  refine sortNames_listed fun p hp => ?_
  rintro rfl
  have hproduct := listed_product (mem_sortNames.mpr hp)
  exact absurd hproduct (by decide)

/-! ### Staging -/

/-- A staged file stands in a directory of the name. -/
def shadowed (ws : Workspace) (names : List Path) (p : Path) : Bool :=
  ws.files.keys.any fun q => covers names q && p ∈ ancestors q

/-- The index after `git add -f -- names`. -/
def staged (ws : Workspace) (names : List Path) : View := fun p =>
  if covers names p then ws.files.lookup p
  else if ws.shadowed names p then none
  else ws.index.lookup p

/-- Every name matches a file or an entry of the index. -/
def matched (ws : Workspace) (names : List Path) : Bool :=
  names.all fun q => (ws.index.keys ++ ws.files.keys).any fun p => q.isPrefixOf p

def stage (ws : Workspace) (names : List Path) : Workspace :=
  { ws with index := treeOf (ws.staged names) (ws.index.keys ++ ws.files.keys) }

/-- `git diff --cached`. -/
def pending (ws : Workspace) : Bool :=
  (ws.head.tree.keys ++ ws.index.keys).any fun p => ws.head.at p != ws.index.lookup p

def commit (ws : Workspace) (note : String) : Workspace :=
  { ws with head := .after ws.head ws.index note }

/-- The versions that the revision of a candidate has: those staged, if there is a name to stage. -/
def recorded (ws : Workspace) (names : List Path) : View :=
  if names = [] then ws.head.at else ws.staged names

theorem lookup_stage (ws : Workspace) (names : List Path) (p : Path) :
    (ws.stage names).index.lookup p = ws.staged names p := by
  show (treeOf _ _).lookup p = _
  rw [lookup_treeOf]
  split
  · rfl
  · next hmem =>
      rw [List.mem_append, not_or] at hmem
      have hindex : ws.index.lookup p = none := AList.lookup_eq_none.mpr hmem.1
      have hfiles : ws.files.lookup p = none := AList.lookup_eq_none.mpr hmem.2
      simp only [staged, hindex, hfiles, ite_self]

theorem lookup_of_not_pending {ws : Workspace} (h : ws.pending = false) (p : Path) :
    ws.head.at p = ws.index.lookup p := by
  by_cases hmem : p ∈ ws.head.tree.keys ++ ws.index.keys
  · have := List.any_eq_false.mp h p hmem
    simpa using this
  · rw [List.mem_append, not_or] at hmem
    have hhead : ws.head.at p = none := AList.lookup_eq_none.mpr hmem.1
    rw [hhead, AList.lookup_eq_none.mpr hmem.2]

/-- `git add`, and `git commit` of what the index then holds, if that is not the commit already. -/
def record (ws : Workspace) (names : List Path) (note : String) : Workspace :=
  if names = [] then ws
  else if (ws.stage names).pending then (ws.stage names).commit note
  else ws.stage names

theorem record_at (ws : Workspace) (names : List Path) (note : String) :
    (ws.record names note).head.at = ws.recorded names := by
  unfold record recorded
  split
  · rfl
  · split
    · funext p
      exact ws.lookup_stage names p
    · next hpending =>
        funext p
        rw [lookup_of_not_pending (by simpa using hpending), lookup_stage]

/-! ### `candidate` -/

/-- The names a worker may not have written, which the listings show. -/
def forbidden (tool : Tool) (ws : Workspace) (source : Commit) : List Path :=
  (ws.others.filter fun p => !productPath p && !below [".auto-agents", "state"] p &&
      ! [[".conda"], [".venv"], ["node_modules"], ["workbench", "node_modules"]].contains p &&
      !(parts p).any fun part =>
        ["__pycache__", ".pytest_cache", ".mypy_cache", ".ruff_cache", ".vite"].contains part) ++
    (ws.diffNames tool source).filter fun p => !productPath p && p != [".auto-agents", ".gitignore"]

/-- `safe_file`. -/
def safeFile (ws : Workspace) (p : Path) : Except ControlError Unit :=
  if (!productPath p || (p :: ancestors p).any ws.isSymlink) = true then
    .error ⟨"artifact_path", "Artifact leaves its owned workspace", .state⟩
  else pure ()

/-- `git diff --quiet revision -- names`. -/
def unchanged (ws : Workspace) (revision : Commit) (names : List Path) : Bool :=
  (revision.tree.keys ++ ws.index.keys).all fun p => !covers names p || revision.at p == ws.tracked p

/-- The listed names that are neither outputs, nor in scope, nor documents retained from an adopted
candidate. -/
def outside (ws : Workspace) (names outputs scope : List Path) (retained : Option Candidate) : List Path :=
  let outside := names.filter fun p => !outputs.contains p && !inScope scope p
  match retained with
  | none => outside
  | some candidate =>
      let imported := outside.filter fun p =>
        below [".auto-agents", "docs"] p && candidate.paths.contains p
      if imported ≠ [] ∧ ws.unchanged candidate.revision imported = true then
        outside.filter fun p => !imported.contains p
      else outside

end Workspace

open Workspace

/-- `Workspaces.candidate`, and the worktree it leaves. -/
def candidate (tool : Tool) (ws : Workspace) (source : Commit) (outputs scope : List Path)
    (retained : Option Candidate) (note : String) : Except ControlError (Candidate × Workspace) :=
  if ws.forbidden tool source ≠ [] then .error ⟨"scope", "Worker wrote protected paths", .state⟩
  else do
    outputs.forM ws.safeFile
    let paths := ws.listed tool source outputs
    if scope ≠ [] ∧ ws.outside paths outputs scope retained ≠ [] then
      .error ⟨"scope", "Candidate exceeds its declared source scope", .state⟩
    else if ws.matched paths = false then .error ⟨"git", "git add -f", .environment⟩
    else
      let ws' := ws.record paths note
      pure ({ source, revision := ws'.head, paths, listed := ws.listed_listed tool source outputs }, ws')

section

variable {tool : Tool} {ws ws' : Workspace} {source : Commit} {outputs scope : List Path}
  {retained : Option Candidate} {note : String} {c : Candidate}

theorem candidate_ok (h : candidate tool ws source outputs scope retained note = .ok (c, ws')) :
    ws.forbidden tool source = [] ∧ (∀ p ∈ outputs, ws.safeFile p = .ok ()) ∧
      (scope ≠ [] → ws.outside (ws.listed tool source outputs) outputs scope retained = []) ∧
      c.source = source ∧ c.paths = ws.listed tool source outputs ∧
      c.revision.at = ws.recorded (ws.listed tool source outputs) ∧
      ws' = ws.record (ws.listed tool source outputs) note ∧ c.revision = ws'.head := by
  unfold candidate at h
  simp only [guard_ok, bind_ok, pure_ok, Prod.mk.injEq] at h
  obtain ⟨hforbidden, _, houtputs, hscope, -, rfl, rfl⟩ := h
  refine ⟨not_not.mp hforbidden, forM_ok.mp houtputs, fun hne => ?_, rfl, rfl, record_at _ _ _, rfl, rfl⟩
  by_contra hout
  exact hscope ⟨hne, hout⟩

/-- A worktree without protected writes has the candidate of its listed names, if they are in scope. -/
theorem candidate_of_inside (hforbidden : ws.forbidden tool source = [])
    (hsafe : outputs.forM ws.safeFile = .ok ())
    (hinside : ws.outside (ws.listed tool source outputs) outputs scope retained = [])
    (hmatched : ws.matched (ws.listed tool source outputs) = true) :
    candidate tool ws source outputs scope retained note =
      .ok (⟨source, (ws.record (ws.listed tool source outputs) note).head, _,
        ws.listed_listed tool source outputs⟩, ws.record (ws.listed tool source outputs) note) := by
  unfold candidate
  simp only [hforbidden, hsafe, hinside, hmatched, bind, Except.bind, ne_eq, not_true_eq_false, and_false,
    if_false, Bool.true_eq_false]
  rfl

end

end AutoAgents
