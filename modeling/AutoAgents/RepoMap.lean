import AutoAgents.OperatorSecrets

/-! The repository map: the summaries of the ranked files, written under a budget of tokens. -/

namespace AutoAgents.RepoMap

open Operator (isSpace)

/-! ### Summaries -/

/-- A class, a function or a method. -/
inductive Symbol
  | mk (kind : String) (name signature docstring : List Char) (lineno : Int) (children : List Symbol)

def Symbol.kind : Symbol → String
  | .mk kind _ _ _ _ _ => kind

def Symbol.name : Symbol → List Char
  | .mk _ name _ _ _ _ => name

def Symbol.signature : Symbol → List Char
  | .mk _ _ signature _ _ _ => signature

def Symbol.docstring : Symbol → List Char
  | .mk _ _ _ docstring _ _ => docstring

def Symbol.children : Symbol → List Symbol
  | .mk _ _ _ _ _ children => children

structure FileSummary where
  path : List Char
  symbols : List Symbol := []
  parseError : Option (List Char) := none

structure RankedFile where
  isAnchor : Bool
  summary : FileSummary

/-! ### Blocks -/

def header : List Char :=
  ("## Repo Map (partial, ranked by relevance to current task)\n" ++
    "This is a token-budgeted view of the repository structure. " ++
    "If you need a symbol that is not listed here, use grep/view to look it up.\n").toList

/-- Roughly a token for four characters. -/
def estimateTokens (text : List Char) : Nat := if text = [] then 0 else max 1 (text.length / 4)

/-- `"\n".join(lines) + "\n"` -/
def joinLines (lines : List (List Char)) : List Char := ['\n'].intercalate lines ++ ['\n']

def indent : List Char := [' ', ' ']

def renderSymbol (sym : Symbol) : List (List Char) :=
  let doc := if sym.docstring = [] then [] else [indent ++ "  # ".toList ++ sym.docstring]
  if sym.kind = "class" then
    (indent ++ sym.signature) :: (doc ++ sym.children.map fun child => indent ++ "    ".toList ++ child.signature)
  else (indent ++ sym.signature) :: doc

/-- An error that is empty is none. -/
def failure (summary : FileSummary) : Option (List Char) := summary.parseError.filter (· ≠ [])

def renderFile (summary : FileSummary) : List Char :=
  match failure summary with
  | some error => joinLines [summary.path, "  # parse_error: ".toList ++ error]
  | none =>
    if summary.symbols.isEmpty = true then joinLines [summary.path, "  # (no top-level symbols)".toList]
    else joinLines (summary.path :: summary.symbols.flatMap renderSymbol)

/-- The path with at most six names. -/
def renderFileCompact (summary : FileSummary) : List Char :=
  match failure summary with
  | some _ => summary.path ++ "  # parse_error\n".toList
  | none =>
    if summary.symbols.isEmpty = true then summary.path ++ ['\n']
    else summary.path ++ "  # ".toList ++ ", ".toList.intercalate ((summary.symbols.take 6).map Symbol.name) ++ ['\n']

/-- A file in the map, with its full block or the compact one. -/
structure Block where
  summary : FileSummary
  full : Bool

def Block.text (b : Block) : List Char := if b.full = true then renderFile b.summary else renderFileCompact b.summary

def Block.cost (b : Block) : Nat := estimateTokens b.text

/-! ### Filling the budget -/

/-- The blocks so far, what they cost with the header, and their number. -/
structure Filling where
  blocks : List Block
  used : Nat
  included : Nat

def Filling.add (f : Filling) (b : Block) : Filling := ⟨f.blocks ++ [b], f.used + b.cost, f.included + 1⟩

def anchors (ranked : List RankedFile) : List FileSummary :=
  (ranked.filter fun file => file.isAnchor).map RankedFile.summary

def remaining (ranked : List RankedFile) : List FileSummary :=
  (ranked.filter fun file => !file.isAnchor).map RankedFile.summary

/-- The anchors, whatever they cost. -/
def anchored (ranked : List RankedFile) : Filling :=
  (anchors ranked).foldl (fun f summary => f.add ⟨summary, true⟩) ⟨[], estimateTokens header, 0⟩

/-- The full blocks that fit, each where it comes. -/
def fillFull (budget : Int) : Filling → List FileSummary → Filling
  | f, [] => f
  | f, summary :: rest =>
    if budget < (f.used + (⟨summary, true⟩ : Block).cost : Nat) then fillFull budget f rest
    else fillFull budget (f.add ⟨summary, true⟩) rest

/-- A block begins with the path and the end of its line, or a space. -/
def listed (path : List Char) (blocks : List Block) : Bool :=
  blocks.any fun b => (path ++ ['\n']).isPrefixOf b.text || (path ++ [' ']).isPrefixOf b.text

/-- Compact lines for the files that are not listed, up to the first that does not fit. -/
def fillCompact (budget : Int) : Filling → List FileSummary → Filling
  | f, [] => f
  | f, summary :: rest =>
    if listed summary.path f.blocks = true then fillCompact budget f rest
    else if budget < (f.used + (⟨summary, false⟩ : Block).cost : Nat) then f
    else fillCompact budget (f.add ⟨summary, false⟩) rest

def filled (ranked : List RankedFile) (budget : Int) : Filling :=
  fillCompact budget (fillFull budget (anchored ranked) (remaining ranked)) (remaining ranked)

/-- The header, an empty line, and the blocks. -/
def bodyText (blocks : List Block) : List Char := header ++ '\n' :: blocks.flatMap Block.text

def rstrip (text : List Char) : List Char := (text.reverse.dropWhile isSpace).reverse

/-- `text.rstrip() + "\n"` -/
def finish (blocks : List Block) : List Char := rstrip (bodyText blocks) ++ ['\n']

/-- `_fit_budget`: the text, the number of files in it, and the tokens counted. -/
def fitBudget (ranked : List RankedFile) (budget : Int) : List Char × Nat × Nat :=
  if ranked.isEmpty = true then ([], 0, 0)
  else
    let f := filled ranked budget
    (finish f.blocks, f.included, f.used)

end AutoAgents.RepoMap
