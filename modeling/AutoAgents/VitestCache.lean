import AutoAgents.BaseShell
import AutoAgents.OperatorSecrets

/-! The simple commands of a shell command, the test invocations among them, and the option that switches the cache
of Vitest off. -/

namespace AutoAgents.Commands

open Base.Shell
open Operator (isSpace strip)

local instance lawfulText : LawfulBEq (List Char) := inferInstance

/-! ### Simple commands -/

/-- The text of one simple command, what separates it from the next, and what follows. -/
structure Cut where
  piece : List Char
  separator : List Char
  rest : Option (List Char)
  deriving DecidableEq, Repr

def Cut.cons (c : Char) (cut : Cut) : Cut := { cut with piece := c :: cut.piece }

/-- `before` is the character in front, where there is one. -/
def opensComment (before : Option Char) (c : Char) : Bool := c == '#' && before.all isSpace

def separates (before : Option Char) (c : Char) : Bool :=
  (c == ';' || c == '|' || c == '&' || c == '\n') && !(c == '&' && (before == some '<' || before == some '>'))

/-- The comment with the end of its line; nothing follows a comment at the end of the command. -/
def cutComment (text : List Char) : Cut :=
  match text.dropWhile (· != '\n') with
  | [] => ⟨[], text, none⟩
  | newline :: rest => ⟨[], text.takeWhile (· != '\n') ++ [newline], some rest⟩

/-- The separator with its repetitions. -/
def cutSeparator (c : Char) (text : List Char) : Cut :=
  ⟨[], c :: text.takeWhile (· == c), some (text.dropWhile (· == c))⟩

/-- The first simple command; `none` where the syntax is nested, or a quotation stays open. -/
def firstSpan (before : Option Char) (s : Quoting) : List Char → Option Cut
  | [] => if s = .plain ∨ s = .escaped none then some ⟨[], [], none⟩ else none
  | c :: rest =>
    match s with
    | .plain =>
      if c = '(' ∨ c = ')' ∨ c = '\x60' then none
      else if opensComment before c = true then some (cutComment (c :: rest))
      else if separates before c = true then some (cutSeparator c rest)
      else (firstSpan (some c) (s.step c) rest).map (Cut.cons c)
    | .quoted q =>
      if q = '"' ∧ (c = '\x60' ∨ c = '$' ∧ rest.head? = some '(') then none
      else (firstSpan (some c) (s.step c) rest).map (Cut.cons c)
    | .escaped _ => (firstSpan (some c) (s.step c) rest).map (Cut.cons c)

/-- The simple commands with their separators, from behind the character `before`; `fuel` bounds their number. -/
def spansFrom : Nat → Option Char → List Char → Option (List (List Char × List Char))
  | 0, _, _ => none
  | fuel + 1, before, text =>
    match firstSpan before .plain text with
    | none => none
    | some ⟨piece, separator, none⟩ => some [(piece, separator)]
    | some ⟨piece, separator, some rest⟩ =>
      (spansFrom fuel separator.getLast? rest).map ((piece, separator) :: ·)

/-- `command_spans`, with the texts for the places. -/
def commandSpans (command : List Char) : Option (List (List Char × List Char)) :=
  spansFrom (command.length + 1) none command

/-! ### The executable -/

/-- `[A-Za-z_][A-Za-z0-9_]*=` at the start of a text. -/
def assigns (word : List Char) : Bool :=
  let letter := fun c : Char => c.isAlpha || c == '_'
  word.head?.any letter && (word.dropWhile fun c => letter c || c.isDigit).head? == some '='

/-- `Path(word).name` -/
def baseName (word : List Char) : List Char :=
  ((word.splitOn '/').filter fun part => part != [] && part != ['.']).getLast?.getD []

def dashed (word : List Char) : Bool := word.head? == some '-'

/-- The options of `conda run`. -/
def condaOptions : List (List Char) → List (List Char)
  | [] => []
  | option :: rest =>
    if dashed option = false then option :: rest
    else if option = "--".toList then rest
    else if option ∈ ["-p", "--prefix", "-n", "--name", "--cwd"].map String.toList then
      match rest with
      | [] => []
      | _ :: rest => condaOptions rest
    else condaOptions rest

/-- `executable_tokens` on the words; `fuel` bounds the launch wrappers. -/
def executableFrom : Nat → List (List Char) → List (List Char)
  | 0, tokens => tokens
  | _, [] => []
  | fuel + 1, token :: rest =>
    if assigns token = true then executableFrom fuel rest
    else if token ∈ ["exec", "env"].map String.toList then executableFrom fuel rest
    else if baseName token = "conda".toList ∧ rest.head? = some "run".toList then
      executableFrom fuel (condaOptions (rest.drop 1))
    else token :: rest

def executableTokens (tokens : List (List Char)) : List (List Char) := executableFrom tokens.length tokens

/-- What stands behind the package runners. -/
def behindLauncher (args : List (List Char)) : List (List Char) :=
  let name := args.head?.elim [] baseName
  if name ∈ ["npm", "pnpm", "yarn"].map String.toList ∧ (args.drop 1).head? ∈ [some "exec".toList, some "dlx".toList] then
    if (args.drop 2).head? = some "--".toList then args.drop 3 else args.drop 2
  else if name = "npx".toList then
    (args.drop 1).dropWhile fun arg => decide (arg ∈ ["--yes", "-y", "--no-install", "--"].map String.toList)
  else if name ∈ ["pnpm", "yarn"].map String.toList then args.drop 1
  else args

/-- The arguments of a Vitest launch, with the executable. -/
def vitestArgs (args : List (List Char)) : Option (List (List Char)) :=
  match behindLauncher args with
  | [] => none
  | executable :: rest => if baseName executable = "vitest".toList then some (executable :: rest) else none

/-! ### Test invocations -/

inductive Runner
  | pytest
  | vitest
  deriving DecidableEq, Repr

def values : Runner → List (List Char)
  | .pytest => ["-c", "--inifilename", "--config-file", "-o", "--override-ini", "-k", "-m", "-p", "--confcutdir",
      "--durations", "--durations-min", "--ignore", "--ignore-glob", "--deselect", "--junitxml", "--junit-xml",
      "--junit-prefix", "--log-file", "--maxfail", "--rootdir", "--basetemp", "--import-mode", "--assert", "--tb",
      "--capture", "--color", "--code-highlight", "--show-capture", "--verbosity", "--log-level", "--log-format",
      "--log-date-format", "--log-cli-level", "--log-cli-format", "--log-cli-date-format", "--log-file-level",
      "--log-auto-indent", "--log-file-format", "--log-file-date-format", "--log-file-mode", "--log-disable",
      "--override-toml", "-W", "--pythonwarnings", "--doctest-glob", "--doctest-report", "--pastebin", "-r",
      "--debug"].map String.toList
  | .vitest => ["-t", "--testNamePattern", "--test-name-pattern", "-c", "--config", "-r", "--root", "--dir", "--reporter",
      "--outputFile", "--maxWorkers", "--minWorkers", "--pool", "--environment", "--exclude", "--project",
      "--testTimeout", "--hookTimeout", "--retry", "--bail", "--shard"].map String.toList

def flags : Runner → List (List Char)
  | .pytest => ["-q", "--quiet", "-v", "--verbose", "-s", "-x", "--exitfirst", "-l", "--showlocals", "--no-showlocals",
      "--collect-only", "--co", "--continue-on-collection-errors", "--pyargs", "--noconftest", "--keep-duplicates",
      "--keepduplicates", "--collect-in-virtualenv", "--doctest-modules", "--doctest-ignore-import-errors",
      "--doctest-continue-on-failure", "--strict", "--strict-config", "--strict-markers", "--disable-warnings",
      "--disable-pytest-warnings", "--no-header", "--no-summary", "--full-trace", "--pdb", "--trace", "--runxfail",
      "--stepwise", "--sw", "--stepwise-skip", "--sw-skip", "--lf", "--last-failed", "--ff", "--failed-first", "--nf",
      "--new-first", "--cache-clear", "--setup-only", "--setup-show", "--setup-plan", "--fixtures",
      "--fixtures-per-test", "--funcargs", "--version", "--help", "-h", "--trace-config"].map String.toList
  | .vitest => ["--run", "--no-cache", "--no-file-parallelism", "--passWithNoTests"].map String.toList

/-- `\d*(?:[<>]|>>|<>|>&|<&)` as a whole word. -/
def operator (word : List Char) : Bool :=
  (["<", ">", ">>", "<>", ">&", "<&"].map String.toList).contains (word.dropWhile Char.isDigit)

/-- `\d*[<>]` at the start of a word as it is written. -/
def redirects (raw : List Char) : Bool := (raw.dropWhile Char.isDigit).head?.any fun c => c == '<' || c == '>'

/-- An argument, and whether it is written as a redirection. -/
abbrev Argument := List Char × Bool

/-- The arguments that reach the runner; `none` where a redirection has no destination. -/
def positionalArgs : List Argument → Option (List (List Char))
  | [] => some []
  | (arg, true) :: rest =>
    if operator arg = true then
      match rest with
      | [] => none
      | _ :: rest => positionalArgs rest
    else positionalArgs rest
  | (arg, false) :: rest => (positionalArgs rest).map (arg :: ·)

/-- Options of pytest that stand in one word with their values. -/
def attached (arg : List Char) : Bool :=
  decide (2 < arg.length ∧ arg.take 2 ∈ ["-k", "-m", "-o", "-c", "-p", "-W"].map String.toList) ||
    (dashed arg && decide (arg.drop 1 ≠ []) && (arg.drop 1).all fun c => "qvsxl".toList.contains c) ||
    ("-r".toList.isPrefixOf arg && !"--".toList.isPrefixOf arg)

def takesValue (runner : Runner) (option : List Char) : Bool :=
  (values runner).contains option || runner == .vitest && "--outputFile.".toList.isPrefixOf option

/-- The targets among the arguments; `none` where an option is not known, or lacks its value. -/
def targetsOf (runner : Runner) : List (List Char) → Option (List (List Char))
  | [] => some []
  | arg :: rest =>
    let option := arg.takeWhile (· != '=')
    if arg = "--".toList then some rest
    else if dashed arg = false then (targetsOf runner rest).map (arg :: ·)
    else if runner = .pytest ∧ option ∈ ["-r", "--debug", "--cache-show"].map String.toList then
      match rest with
      | [] => some []
      | value :: later =>
        if '=' ∉ arg ∧ dashed value = false then targetsOf runner later else targetsOf runner (value :: later)
    else if takesValue runner option = true then
      match rest with
      | [] => if '=' ∈ arg then some [] else none
      | value :: later => if '=' ∈ arg then targetsOf runner (value :: later) else targetsOf runner later
    else if runner = .pytest ∧ attached arg = true then targetsOf runner rest
    else if option ∈ flags runner then targetsOf runner rest
    else none

/-- `_runner_targets` -/
def runnerTargets (runner : Runner) (args : List Argument) : Option (List (List Char)) :=
  (positionalArgs args).bind (targetsOf runner)

/-- `posixpath.join` of two paths. -/
def joinPath (a b : List Char) : List Char :=
  if b.head? = some '/' then b
  else if a = [] ∨ a.getLast? = some '/' then a ++ b
  else a ++ '/' :: b

/-- `posixpath.normpath` -/
def normPath (path : List Char) : List Char :=
  let slashes := path.takeWhile (· == '/')
  let root := if slashes.length = 2 then slashes else slashes.take 1
  let parts := (path.splitOn '/').foldl (fun kept part =>
    if part = [] ∨ part = ['.'] then kept
    else if part ≠ ['.', '.'] ∨ (root = [] ∧ kept = []) ∨ kept.getLast? = some ['.', '.'] then kept ++ [part]
    else kept.dropLast) []
  let normal := root ++ ['/'].intercalate parts
  if normal = [] then ['.'] else normal

/-- `python(?:\d+(?:\.\d+)*)?(?:\.exe)?` -/
def pythonName (name : List Char) : Bool :=
  let numbered := fun parts : List (List Char) =>
    decide (parts = [[]]) || parts.all fun part => !part.isEmpty && part.all Char.isDigit
  let parts := (name.drop 6).splitOn '.'
  "python".toList.isPrefixOf name &&
    (numbered parts || decide (2 ≤ parts.length ∧ parts.getLast? = some "exe".toList) && numbered parts.dropLast)

/-- The runner of a launch, with its options. -/
def launch (args : List (List Char)) : Option (Runner × List (List Char)) :=
  let name := args.head?.elim [] baseName
  if name ∈ ["pytest", "py.test"].map String.toList then some (.pytest, args.drop 1)
  else if pythonName name = true ∧ (args.drop 1).take 2 = ["-m".toList, "pytest".toList] then some (.pytest, args.drop 3)
  else
    (vitestArgs args).map fun args =>
      (.vitest, if (args.drop 1).head? = some "run".toList then args.drop 2 else args.drop 1)

/-- The target of a change of the working directory. -/
def changesFolder (args : List (List Char)) : Option (List Char) :=
  match args with
  | [command, path] => if command = "cd".toList then some path else none
  | _ => none

/-- The working directory that the words before the executable set. -/
def launchFolder (cwd : List Char) : List Char → List (List Char) → List Char
  | here, [] => here
  | here, word :: rest =>
    if word = "--cwd".toList ∧ rest ≠ [] then launchFolder cwd (normPath (joinPath cwd (rest.headD []))) rest
    else if "--cwd=".toList.isPrefixOf word = true then launchFolder cwd (normPath (joinPath cwd (word.drop 6))) rest
    else launchFolder cwd here rest

/-- The options that the last assignment of `PYTEST_ADDOPTS` gives. -/
def addedOptions (front : List (List Char)) : List Char :=
  (front.filter fun word => "PYTEST_ADDOPTS=".toList.isPrefixOf word).getLast?.elim [] fun word => word.drop 15

structure TestInvocation where
  runner : Runner
  targets : Option (List (List Char))
  cwd : List Char
  deriving DecidableEq, Repr

/-- The options as they are written, from the last `count` words. -/
def written (read : List Word) (count : Nat) : List Argument :=
  (read.drop (read.length - count)).map fun word => (word.text, redirects (strip word.raw))

/-- What the words of a simple command make of the working directory, and the invocation in them. -/
def readWords (cwd : List Char) (read : List Word) : Option (List Char × List TestInvocation) :=
  let tokens := read.map Word.text
  let args := executableTokens tokens
  match changesFolder args with
  | some path => some (normPath (joinPath cwd path), [])
  | none =>
    match launch args with
    | none => some (cwd, [])
    | some (runner, options) =>
      let here := launchFolder cwd cwd (tokens.take (tokens.length - args.length))
      match runner with
      | .vitest => some (cwd, [⟨.vitest, runnerTargets .vitest (written read options.length), here⟩])
      | .pytest =>
        (words (addedOptions (tokens.take (tokens.length - args.length)))).map fun added =>
          let inherited := added.map fun word => (word.text, false)
          (cwd, [⟨.pytest, runnerTargets .pytest (inherited ++ written read options.length), here⟩])

def readCommand (cwd piece : List Char) : Option (List Char × List TestInvocation) :=
  (words (strip piece)).bind (readWords cwd)

def readCommands (cwd : List Char) : List (List Char × List Char) → Option (List TestInvocation)
  | [] => some []
  | span :: spans =>
    (readCommand cwd span.1).bind fun found => (readCommands found.1 spans).map (found.2 ++ ·)

/-- `test_invocations`; `none` where it raises. -/
def testInvocations (command : List Char) : Option (List TestInvocation) := (commandSpans command).bind (readCommands ['.'])

/-! ### The option -/

def noCache : List Char := "--no-cache".toList

def rstrip (text : List Char) : List Char := (text.reverse.dropWhile isSpace).reverse

def trailing (text : List Char) : List Char := (text.reverse.takeWhile isSpace).reverse

/-- Whether the arguments name the cache already. -/
def namesCache (args : List (List Char)) : Bool :=
  args.any fun arg => decide (arg ∈ ["--cache", "--no-cache"].map String.toList) || "--cache=".toList.isPrefixOf arg

def transform (raw : List Char) : Option (List Char) :=
  (words raw).map fun read =>
    match vitestArgs (executableTokens (read.map Word.text)) with
    | none => raw
    | some args => if namesCache (args.drop 1) = true then raw else raw ++ ' ' :: noCache

def rewritePiece (piece : List Char) : Option (List Char) := (transform (rstrip piece)).map (· ++ trailing piece)

/-- `disable_vitest_cache` -/
def disableVitestCache (command : List Char) : List Char :=
  match commandSpans command with
  | none => command
  | some spans =>
    match spans.mapM fun span => (rewritePiece span.1).map fun piece => (piece, span.2) with
    | none => command
    | some spans => spans.flatMap fun span => span.1 ++ span.2

end AutoAgents.Commands
