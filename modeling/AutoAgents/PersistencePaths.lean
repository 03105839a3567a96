import AutoAgents.PersistenceTargets

/-! The paths that a rebuild removes: the configured path of a target, or that of its environment variable, with the files
beside it and the associated paths, each resolved through the file system and checked. -/

namespace AutoAgents.Persistence

open Operator (stripText)
open Proofs (Path Machine pathParts slashParts isAbsolute)

local instance lawfulPath : LawfulBEq Path := inferInstance

/-! ### Resolving -/

/-- `_joinrealpath`: a name that is not a link is taken as it is, whether something stands there or not. A link that is
met again while it is being followed is left, with all that comes after it. -/
def realFrom (m : Machine) (active : List Path) (follow : List Path → Path → List String → Path × Bool) :
    Path → List String → Path × Bool
  | place, [] => (place, true)
  | place, part :: rest =>
      if part = "" ∨ part = "." then realFrom m active follow place rest
      else if part = ".." then realFrom m active follow place.dropLast rest
      else match m.node (place ++ [part]) with
        | some (.symlink target) =>
            if place ++ [part] ∈ active then (place ++ part :: rest, false)
            else
              match follow ((place ++ [part]) :: active) (if isAbsolute target then [] else place) (slashParts target) with
              | (reached, true) => realFrom m active follow reached rest
              | (reached, false) => (reached ++ rest, false)
        | _ => realFrom m active follow (place ++ [part]) rest

/-- Every link that is being followed is another one, so that their number bounds the depth. -/
def realWithin (m : Machine) : Nat → List Path → Path → List String → Path × Bool
  | 0, _ => fun place parts => (place ++ parts, false)
  | links + 1, active => realFrom m active (realWithin m links)

/-- `Path.resolve()`, which raises where links go round. -/
def resolvePath (m : Machine) (path : Path) : Option Path :=
  match realWithin m (m.entries.length + 1) [] [] path with
  | (place, true) => some place
  | (_, false) => none

/-- No component of the path is a link. -/
def Plain (m : Machine) (path : Path) : Prop := ∀ place, place <+: path → ∀ target, m.node place ≠ some (.symlink target)

theorem plain_nil (m : Machine) : Plain m [] := by
  intro place habove target hlink
  rw [List.prefix_nil.mp habove] at hlink
  simp [Machine.node] at hlink

theorem Plain.dropLast {m : Machine} {path : Path} (h : Plain m path) : Plain m path.dropLast :=
  fun place habove => h place (habove.trans (List.dropLast_prefix path))

theorem Plain.snoc {m : Machine} {path : Path} {part : String} (h : Plain m path)
    (hpart : ∀ target, m.node (path ++ [part]) ≠ some (.symlink target)) : Plain m (path ++ [part]) := by
  intro place habove
  rcases List.prefix_concat_iff.mp habove with rfl | hbefore
  · exact hpart
  · exact h place hbefore

/-- What is resolved has no links in it, as long as what the links lead to has none. -/
theorem realFrom_plain {m : Machine} {active : List Path} {follow : List Path → Path → List String → Path × Bool}
    (hfollow : ∀ active place parts reached, Plain m place → follow active place parts = (reached, true) → Plain m reached)
    {parts : List String} {place reached : Path} (hplace : Plain m place)
    (h : realFrom m active follow place parts = (reached, true)) : Plain m reached := by
  induction parts generalizing place with
  | nil =>
      rw [realFrom] at h
      cases h
      exact hplace
  | cons part rest ih =>
      rw [realFrom] at h
      split at h
      · exact ih hplace h
      split at h
      · exact ih hplace.dropLast h
      split at h
      · next target hlink =>
          split at h
          · simp at h
          split at h
          · next link hreached =>
              refine ih (hfollow _ _ _ _ ?_ hreached) h
              split
              · exact plain_nil m
              · exact hplace
          · simp at h
      · next hnode => exact ih (hplace.snoc hnode) h

theorem resolvePath_plain {m : Machine} {path place : Path} (h : resolvePath m path = some place) : Plain m place := by
  suffices hwithin : ∀ links active from' parts reached, Plain m from' →
      realWithin m links active from' parts = (reached, true) → Plain m reached by
    unfold resolvePath at h
    split at h
    · next reached hreached =>
        cases h
        exact hwithin _ _ _ _ _ (plain_nil m) hreached
    · cases h
  intro links
  induction links with
  | zero =>
      intro active from' parts reached _ hreached
      simp [realWithin] at hreached
  | succ links ih =>
      intro active from' parts reached hfrom hreached
      exact realFrom_plain (fun active place parts reached hplain hstep => ih active place parts reached hplain hstep) hfrom hreached

/-! ### The project and its machine -/

/-- The files of the machine, and the places of the files that git tracks. -/
structure World where
  files : Machine
  tracked : List Path
  deriving DecidableEq

/-- `/` and the parts. -/
def showPath (path : Path) : String := "/" ++ String.ofList (['/'].intercalate (path.map String.toList))

/-- `Path(text)` of an absolute text, or below a directory. -/
def joinText (root : Path) (text : String) : Path := if isAbsolute text then pathParts text else root ++ pathParts text

/-- `Path(f"{candidate}{suffix}")` -/
def withSuffix (candidate : Path) (suffix : String) : Path :=
  match candidate.getLast? with
  | none => [suffix]
  | some name => candidate.dropLast ++ [name ++ suffix]

/-- `Path.is_symlink` -/
def isSymlink (m : Machine) (path : Path) : Except Raised Bool :=
  match m.lstat path with
  | .ok (.symlink _) => .ok true
  | .ok _ => .ok false
  | .error (.denied errno) => .error (.other ("PermissionError: " ++ toString errno))
  | .error _ => .ok false

def refused {α : Type} (message : String) : Except Raised α := .error (.contract { message })

/-- `Path.resolve()` -/
def resolve (m : Machine) (path : Path) : Except Raised Path :=
  match resolvePath m path with
  | some place => .ok place
  | none => .error (.other "RuntimeError: Symlink loop")

/-- `git check-ignore --no-index --quiet` below a root: whether a relative name is matched by the ignore patterns. -/
abbrev Ignored := World → Path → Path → Bool

section

variable (ignored : Ignored) (environ : String → Option String)

/-- `_validated_destructive_path` -/
def validatedDestructivePath (w : World) (root candidate : Path) : Except Raised Path := do
  if candidate = root ∨ candidate.dropLast = root.dropLast ∧ candidate.getLast? = root.getLast? then
    refused "persistence cleanup cannot target the project root"
  else if ← isSymlink w.files candidate then
    refused ("persistence cleanup refuses symlink: " ++ showPath candidate)
  else
    let resolved ← resolve w.files candidate
    if root.isPrefixOf resolved = false then
      refused ("persistence cleanup target is outside the project: " ++ showPath candidate)
    else if resolved.drop root.length = [] then
      refused "persistence cleanup cannot target the project root"
    else if ignored w root (resolved.drop root.length) = false then
      refused ("persistence cleanup target must be git-ignored: " ++
        String.ofList (['/'].intercalate ((resolved.drop root.length).map String.toList)))
    else
      return resolved

/-- The path of a target as it is configured. -/
def rawPath (target : Target) : Except Raised String :=
  let pathEnv := stripText ((target.locator.lookup "path_env").getD "")
  if pathEnv ≠ "" then
    let value := stripText ((environ pathEnv).getD "")
    if value = "" then refused ("persistence path environment variable is unset: " ++ pathEnv) else .ok value
  else
    let path := stripText ((target.locator.lookup "path").getD "")
    if path = "" then refused ("local_file persistence target " ++ target.targetId ++ " has no path") else .ok path

/-- `_local_target_paths` -/
def localTargetPaths (w : World) (projectRoot : Path) (target : Target) : Except Raised (List Path) := do
  let root ← resolve w.files projectRoot
  let raw ← rawPath environ target
  let candidate := joinText root raw
  let first ← validatedDestructivePath ignored w root candidate
  let beside ← (if 2 ≤ target.interfaceVersion then ["-wal", "-shm", "-journal"] else []).mapM fun suffix =>
    validatedDestructivePath ignored w root (withSuffix candidate suffix)
  let associated ← target.associatedPaths.mapM fun text => validatedDestructivePath ignored w root (joinText root text)
  return (first :: (beside ++ associated)).reverse.dedup.reverse

/-- `_destructive_target_paths` -/
def destructiveTargetPaths (w : World) (projectRoot : Path) (target : Target) : Except Raised (List Path) := do
  if target.kind = "local_file" then localTargetPaths ignored environ w projectRoot target
  else
    let root ← resolve w.files projectRoot
    target.associatedPaths.mapM fun text => validatedDestructivePath ignored w root (joinText root text)

end

end AutoAgents.Persistence
