import AutoAgents.GitObjects

/-! A bare repository as far as it keeps commits: its references, and the worktrees that are registered with it. What the
history of neither has is pruned. The names of references and the places of worktrees are parameters. -/

namespace Git

/-- A commit with all commits before it. -/
def Commit.history : Commit → List Commit
  | .initial tree note => [.initial tree note]
  | .after parent tree note => .after parent tree note :: parent.history

theorem Commit.mem_history (c : Commit) : c ∈ c.history := by
  cases c <;> exact List.mem_cons_self

variable {ν π : Type}

structure Ref (ν : Type) where
  name : ν
  revision : Commit

/-- A registered worktree. Its folder may be gone. -/
structure Worktree (π : Type) where
  place : π
  head : Commit
  present : Bool := true

structure Archive (ν π : Type) where
  refs : List (Ref ν) := []
  worktrees : List (Worktree π) := []

namespace Archive

/-- The commit is kept by a reference or by a worktree. -/
def Holds (a : Archive ν π) (c : Commit) : Prop :=
  (∃ ref ∈ a.refs, c ∈ ref.revision.history) ∨ ∃ worktree ∈ a.worktrees, c ∈ worktree.head.history

theorem Holds.mono {a b : Archive ν π} {c : Commit} (h : a.Holds c) (hrefs : a.refs ⊆ b.refs)
    (hworktrees : a.worktrees ⊆ b.worktrees) : b.Holds c := by
  rcases h with ⟨ref, href, hc⟩ | ⟨worktree, hworktree, hc⟩
  · exact .inl ⟨ref, hrefs href, hc⟩
  · exact .inr ⟨worktree, hworktrees hworktree, hc⟩

/-- `update-ref name revision` -/
def updateRef [DecidableEq ν] (a : Archive ν π) (name : ν) (revision : Commit) : Archive ν π :=
  { a with refs := ⟨name, revision⟩ :: a.refs.filter fun ref => ref.name ≠ name }

/-- `worktree prune` -/
def prune (a : Archive ν π) : Archive ν π := { a with worktrees := a.worktrees.filter (·.present) }

/-- `worktree add --detach place revision` -/
def addWorktree [DecidableEq π] (a : Archive ν π) (place : π) (revision : Commit) : Archive ν π :=
  { a with worktrees := ⟨place, revision, true⟩ :: a.worktrees.filter fun worktree => worktree.place ≠ place }

/-- `worktree remove --force place` -/
def removeWorktree [DecidableEq π] (a : Archive ν π) (place : π) : Archive ν π :=
  { a with worktrees := a.worktrees.filter fun worktree => worktree.place ≠ place }

/-- The folder of a worktree goes, and its registration stays. -/
def loseFolder [DecidableEq π] (a : Archive ν π) (place : π) : Archive ν π :=
  { a with
    worktrees := a.worktrees.map fun worktree =>
      if worktree.place = place then { worktree with present := false } else worktree }

/-- References are deleted one after the other, up to the one at which git fails. -/
def deleteRefs (a : Archive ν π) (drop : Ref ν → Bool) : Option Nat → Archive ν π
  | none => { a with refs := a.refs.filter fun ref => !drop ref }
  | some n => { a with refs := (a.refs.take n).filter (fun ref => !drop ref) ++ a.refs.drop n }

theorem deleteRefs_subset (a : Archive ν π) (drop : Ref ν → Bool) (fails : Option Nat) :
    (a.deleteRefs drop none).refs ⊆ (a.deleteRefs drop fails).refs := by
  cases fails with
  | none => exact List.Subset.refl _
  | some n =>
      intro ref href
      obtain ⟨hmem, hkept⟩ := List.mem_filter.mp href
      rw [← List.take_append_drop n a.refs] at hmem
      rcases List.mem_append.mp hmem with hfirst | hrest
      · exact List.mem_append_left _ (List.mem_filter.mpr ⟨hfirst, hkept⟩)
      · exact List.mem_append_right _ hrest

/-- What is left after references were deleted and worktrees pruned. -/
theorem holds_deleted_pruned {a : Archive ν π} {drop : Ref ν → Bool} {c : Commit} :
    (a.deleteRefs drop none).prune.Holds c ↔
      (∃ ref ∈ a.refs, drop ref = false ∧ c ∈ ref.revision.history) ∨
        ∃ worktree ∈ a.worktrees, worktree.present = true ∧ c ∈ worktree.head.history := by
  unfold Holds prune deleteRefs
  simp only [List.mem_filter, Bool.not_eq_true', and_assoc]

end Archive
end Git
