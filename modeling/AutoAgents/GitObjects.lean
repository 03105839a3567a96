import Mathlib

/-! Git's objects, as values: a blob with its file mode, a tree, a commit with its history. A hash is
taken as injective, so an object is represented by what it hashes and a commit name by the commit. -/

namespace Git

/-- A repository path: the components of the name between the slashes. -/
abbrev Path := List String

abbrev Bytes := List UInt8

/-- The three modes git records for a blob: 100644, 100755 and 120000. -/
inductive EntryMode
  | regular
  | executable
  | symlink
  deriving DecidableEq, Repr

structure Entry where
  mode : EntryMode
  data : Bytes
  deriving DecidableEq, Repr

/-- A tree, flattened to its blobs. -/
abbrev Tree := AList fun _ : Path => Entry

/-- Equality of trees, by a test that evaluates. -/
instance (priority := high) treeDecidableEq : DecidableEq Tree := fun a b =>
  match (inferInstance : Decidable (a.entries = b.entries)) with
  | .isTrue h => .isTrue (AList.ext h)
  | .isFalse h => .isFalse fun heq => h (congrArg AList.entries heq)

/-- A commit: its tree, its history, and what else enters its hash (message, author, time). -/
inductive Commit
  | initial (tree : Tree) (note : String)
  | after (parent : Commit) (tree : Tree) (note : String)
  deriving DecidableEq

namespace Commit

def tree : Commit → Tree
  | initial tree _ => tree
  | after _ tree _ => tree

end Commit

end Git
