import AutoAgents.GitFiles

/-! Names of files under the control of a work item. A name is the list of its components, so that
`name.startswith(prefix + "/")` is a proper prefix of lists. -/

namespace AutoAgents

open Git (Path)

/-- `part.startswith(stem)`. -/
def textStarts (stem part : String) : Bool := stem.toList.isPrefixOf part.toList

/-- `s.rstrip("/")`. -/
def rstrip (s : Path) : Path :=
  match (s.reverse.dropWhile (· == "")).reverse with
  | [] => [""]
  | t => t

/-- `name.startswith(s.rstrip("/") + "/")`. -/
def below (s name : Path) : Bool := (rstrip s).isPrefixOf name && rstrip s != name

/-- The entries of `EXCLUDED` that end in a slash. -/
def excludedDirectories : List Path :=
  [[".auto-agents", "state"], [".auto-agents", "runs"], [".auto-agents", "operator"], [".conda"],
    [".venv"], ["node_modules"], ["workbench", "node_modules"], [".data"], [".next"]]

/-- The entries of `EXCLUDED` that do not: every name that starts with one of these texts. -/
def excludedTexts : List (Path × String) :=
  [([".auto-agents"], "config.json"), ([".auto-agents"], ".gitignore")]

def excludedParts : List String :=
  [".git", ".aws", ".codex", ".claude", "__pycache__", ".pytest_cache", ".mypy_cache", ".ruff_cache",
    ".vite"]

def startsWithText (name : Path) : Path × String → Bool
  | (parent, stem) =>
      parent.isPrefixOf name &&
        match name.drop parent.length with
        | part :: _ => textStarts stem part
        | [] => false

/-- `Path(name).parts` of a relative name. -/
def parts (name : Path) : List String := name.filter fun part => part != "" && part != "."

/-- A file of the product: relative, and neither runtime state, nor an operator's file, nor a cache,
nor an environment file. -/
def productPath (name : Path) : Bool :=
  name != [] && name != [""] && name.head? != some "" && !(name.contains "..") &&
    !(excludedDirectories.any fun dir => dir.isPrefixOf name) &&
    !(excludedTexts.any (startsWithText name)) &&
    !((parts name).any fun part =>
        excludedParts.contains part || part == ".env" || textStarts ".env." part)

/-- `p == s or p.startswith(s.rstrip("/") + "/")`, the test of a candidate against its scope. -/
def inScope (scope : List Path) (p : Path) : Bool := scope.any fun s => p == s || below s p

/-- The test of `stage_writes`, which also strips the slash before comparing whole names. -/
def inStage (allowed : List Path) (p : Path) : Bool := allowed.any fun s => p == rstrip s || below s p

/-- `x.startswith("/") or ".." in Path(x).parts` does not hold, and the name is not empty. -/
def relative (name : Path) : Bool :=
  name != [] && name != [""] && name.head? != some "" && !(name.contains "..")

theorem productPath_relative {name : Path} (h : productPath name = true) : relative name = true := by
  simp only [productPath, Bool.and_eq_true] at h
  simp only [relative, Bool.and_eq_true]
  exact h.1.1.1

end AutoAgents
