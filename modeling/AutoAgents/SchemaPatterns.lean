import AutoAgents.BaseRegex
import AutoAgents.OperatorSecrets

/-! The patterns by which schema changes are told in a diff: names of files that hold a schema, statements that
change one, and columns declared in the files that define it. -/

namespace AutoAgents

open Base (Regex)
open Operator (isSpace strip splitlines)

abbrev Text := List Char

/-- The letters and digits of Unicode, those of ASCII among them. -/
structure Unicode where
  alnum : Char → Bool
  ascii : ∀ c : Char, c.toNat < 128 → alnum c = c.isAlphanum

def asciiOnly : Unicode := ⟨Char.isAlphanum, fun _ _ => rfl⟩

/-- `\w` -/
def Unicode.word (φ : Unicode) (c : Char) : Bool := φ.alnum c || c == '_'

/-- `\b` -/
def Unicode.edge (φ : Unicode) : Regex := .boundary φ.word

namespace Persistence

open Base.Regex

/-- `(?:^|/)` -/
def partStart : Regex := anyOf [start, exactly "/"]

/-- The first branch of `SCHEMA_PATH_PATTERN`: a directory of migrations, in each of the layouts. -/
def migrationPattern : Regex :=
  inOrder [partStart,
    anyOf [.seq (anyCase "migration") (maybe (anyCase "s")), anyCase "alembic/versions", anyCase "prisma", anyCase "db/migrate"],
    anyOf [exactly "/", stop]]

/-- `SCHEMA_PATH_PATTERN` -/
def schemaPathPattern : Regex :=
  anyOf [migrationPattern,
    inOrder [partStart, anyOf [anyCase "schema.prisma", anyCase "schema.rb"], stop],
    inOrder [anyCase ".sql", stop]]

/-- `SCHEMA_DIFF_PATTERN` -/
def schemaDiffPattern (φ : Unicode) : Regex :=
  anyOf [
    inOrder [φ.edge, anyOf (["create", "alter", "drop"].map anyCase), oneOrMore isSpace,
      anyOf (["table", "index", "schema"].map anyCase), φ.edge],
    inOrder [φ.edge, anyOf (["add", "drop", "rename"].map anyCase), oneOrMore isSpace, anyCase "column", φ.edge],
    inOrder [φ.edge, anyCase "op.",
      anyOf (["create_table", "drop_table", "add_column", "drop_column", "alter_column", "rename_table"].map anyCase),
      φ.edge],
    inOrder [φ.edge, anyOf (["createtable", "droptable", "addcolumn", "removecolumn", "renamecolumn"].map anyCase),
      .many isSpace, exactly "("],
    inOrder [φ.edge, anyCase "migrations.",
      anyOf (["createmodel", "deletemodel", "addfield", "removefield", "alterfield"].map anyCase), φ.edge]]

/-- `SCHEMA_CODE_PATH_PATTERN` -/
def schemaCodePathPattern : Regex :=
  inOrder [partStart,
    anyOf [anyCase "db", anyCase "database", anyCase "sqlite", anyCase "repository",
      .seq (anyCase "model") (maybe (anyCase "s")), anyCase "storage"],
    .many (· != '/'), exactly ".", anyOf (["py", "rb", "js", "ts", "go", "rs", "java"].map anyCase), stop]

/-- The words that begin a statement of code, not a column. -/
def statementWords : List String :=
  ["if", "elif", "else", "for", "while", "return", "yield", "raise", "assert", "with", "from", "import", "class", "def",
    "async", "await", "try", "except", "finally", "match", "case"]

def columnTypes : List String :=
  ["integer", "int", "text", "real", "blob", "boolean", "bool", "varchar", "char", "timestamp", "datetime", "json", "uuid"]

def columnClauses : List String :=
  ["not", "null", "primary", "unique", "default", "references", "check", "collate", "generated", "autoincrement"]

def nameHead (c : Char) : Bool := (folded c).isLower || c == '_'

def nameTail (c : Char) : Bool := nameHead c || c.isDigit

def nameQuote (c : Char) : Bool := c == '\x60' || c == '"' || c == '\''

/-- `SCHEMA_COLUMN_PATTERN` -/
def schemaColumnPattern (φ : Unicode) : Regex :=
  inOrder [start, notAhead (.seq (anyOf (statementWords.map anyCase)) φ.edge),
    maybe (.one nameQuote), .one nameHead, .many nameTail, maybe (.one nameQuote), oneOrMore isSpace,
    anyOf (columnTypes.map anyCase), φ.edge,
    ahead (inOrder [.many isSpace,
      maybe (inOrder [exactly "(", .many (· != ')'), exactly ")", .many isSpace]),
      anyOf ([exactly ",", stop] ++ columnClauses.map fun word => .seq (anyCase word) φ.edge)])]

/-! ### Ignored files -/

/-- `_IGNORED_DETECTION_PREFIXES` -/
def ignoredDirectories : List String := [".auto-agents/", "docs/", "specs/", "tests/", "test/"]

def scriptTestPattern : Regex :=
  inOrder [partStart, oneOrMore (· != '/'), exactly ".", anyOf [exactly "test", exactly "spec"], exactly ".",
    maybe (.one fun c => c == 'c' || c == 'm'), .one fun c => c == 'j' || c == 't', exactly "s", maybe (exactly "x"), stop]

def pythonTestPattern : Regex := inOrder [partStart, exactly "test_", oneOrMore (· != '/'), exactly ".py", stop]

def dropHere : Text → Text
  | '.' :: '/' :: rest => dropHere rest
  | path => path

/-- `_path_is_detection_ignored` -/
def pathIsDetectionIgnored (path : Text) : Bool :=
  let normalized := dropHere (path.map fun c => if c = '\\' then '/' else c)
  ["README.md".toList, "DESIGN.md".toList].contains normalized ||
    ignoredDirectories.any (fun directory => directory.toList.isPrefixOf normalized) ||
    scriptTestPattern.search normalized || pythonTestPattern.search normalized

/-! ### The scanner -/

/-- `PersistenceFinding` -/
structure Finding where
  path : Text
  kind : String
  evidence : Text
  deriving DecidableEq, Repr

/-- The line names a file of the new side of a diff. -/
def namesFile (line : Text) : Bool := "+++ b/".toList.isPrefixOf line

def namedFile (line : Text) : Text := strip (line.drop 6)

/-- The line adds or removes something, and does not look like a header. -/
def changesLine (line : Text) : Bool :=
  (line.head? == some '+' || line.head? == some '-') &&
    !("+++".toList.isPrefixOf line || "---".toList.isPrefixOf line)

/-- The content of a line in the file changes the schema. -/
def changesSchema (φ : Unicode) (path content : Text) : Bool :=
  (schemaDiffPattern φ).search content ||
    schemaCodePathPattern.search path &&
      (schemaColumnPattern φ).search ((content.reverse.dropWhile (· == ',')).reverse)

structure Scan where
  currentPath : Text := []
  findings : List Finding := []

def Scan.record (s : Scan) (finding : Finding) : Scan :=
  if finding ∈ s.findings then s else { s with findings := s.findings ++ [finding] }

def Scan.line (φ : Unicode) (s : Scan) (line : Text) : Scan :=
  if namesFile line = true then
    { currentPath := namedFile line
      findings :=
        if pathIsDetectionIgnored (namedFile line) = false ∧ schemaPathPattern.search (namedFile line) = true then
          s.findings ++ [⟨namedFile line, "schema_path", namedFile line⟩]
        else s.findings }
  else if s.currentPath = [] ∨ pathIsDetectionIgnored s.currentPath = true ∨ changesLine line = false then s
  else if changesSchema φ s.currentPath (strip (line.drop 1)) = true then
    s.record ⟨s.currentPath, "schema_ddl", (strip (line.drop 1)).take 240⟩
  else s

def scan (φ : Unicode) (lines : List Text) : Scan := lines.foldl (Scan.line φ) {}

/-- `detect_persistence_schema_changes`, of the text of a diff. -/
def detectSchemaChanges (φ : Unicode) (diffText : Text) : List Finding := (scan φ (splitlines diffText)).findings

end Persistence

end AutoAgents
