import AutoAgents.BaseExcept
import AutoAgents.BaseRun

/-! The cache of the repository map: a document with one entry for each file, which is served while the fingerprint of
the file is that of the entry. -/

namespace AutoAgents.RepoCache

open Base (System)

/-! ### Texts and documents -/

/-- The code points of a text. Half of a pair of surrogates is one, and has no encoding in UTF-8. -/
abbrev Text := List Nat

local instance lawfulText : LawfulBEq Text := inferInstance

def literal (s : String) : Text := s.toList.map Char.toNat

def isSurrogate (c : Nat) : Bool := 0xD800 ≤ c && c ≤ 0xDFFF

def encodableText (text : Text) : Bool := text.all fun c => !isSurrogate c

/-- A document of the cache file, with its floating point numbers. -/
inductive Doc (φ : Type)
  | null
  | bool (b : Bool)
  | int (n : Int)
  | float (x : φ)
  | str (text : Text)
  | arr (items : List (Doc φ))
  | obj (fields : List (Text × Doc φ))

abbrev Fields (φ : Type) := List (Text × Doc φ)

variable {φ : Type}

mutual
/-- All texts of a document can be written as UTF-8. -/
def Doc.encodable : Doc φ → Bool
  | .str text => encodableText text
  | .arr items => encodableItems items
  | .obj fields => encodableFields fields
  | _ => true

def encodableItems : List (Doc φ) → Bool
  | [] => true
  | v :: rest => v.encodable && encodableItems rest

def encodableFields : Fields φ → Bool
  | [] => true
  | (key, v) :: rest => encodableText key && v.encodable && encodableFields rest
end

def textBefore : Text → Text → Bool
  | [], _ => true
  | _ :: _, [] => false
  | a :: s, b :: t => a < b || a == b && textBefore s t

def insertField (field : Text × Doc φ) : Fields φ → Fields φ
  | [] => [field]
  | x :: rest => if textBefore field.1 x.1 = true then field :: x :: rest else x :: insertField field rest

mutual
/-- The document with the fields of its records in the order of their keys. -/
def Doc.sorted : Doc φ → Doc φ
  | .arr items => .arr (sortedItems items)
  | .obj fields => .obj (sortedFields fields)
  | v => v

def sortedItems : List (Doc φ) → List (Doc φ)
  | [] => []
  | v :: rest => v.sorted :: sortedItems rest

def sortedFields : Fields φ → Fields φ
  | [] => []
  | (key, v) :: rest => insertField (key, v.sorted) (sortedFields rest)
end

def fieldOf (fields : Fields φ) (key : String) : Option (Doc φ) := fields.lookup (literal key)

theorem literal_inj {a b : String} : literal a = literal b ↔ a = b := by
  constructor
  · intro h
    have hchars : a.toList = b.toList := List.map_injective_iff.mpr (fun _ _ hc => Char.toNat_inj.mp hc) h
    exact String.toList_inj.mp hchars
  · rintro rfl
    rfl

@[simp] theorem fieldOf_cons (name key : String) (v : Doc φ) (rest : Fields φ) :
    fieldOf ((literal name, v) :: rest) key = if key = name then some v else fieldOf rest key := by
  unfold fieldOf
  rw [List.lookup_cons]
  by_cases h : key = name
  · simp [h]
  · have hne : (literal key == literal name) = false := by simpa [literal_inj] using h
    simp [h, hne]

/-! ### Summaries -/

inductive Symbol
  | mk (kind name signature docstring : Text) (lineno : Int) (children : List Symbol)

structure FileSummary (φ : Type) where
  path : Text
  language : Text := literal "python"
  symbols : List Symbol := []
  imports : List Text := []
  parseError : Option (Doc φ) := none
  sloc : Int := 0

/-- A class or function of a syntax tree, with its rendered signature and its docstring. -/
structure Definition where
  name : Text
  signature : Text
  docstring : Text
  lineno : Int

/-- A statement at the top of a file; a class with the functions of its body. -/
inductive Statement
  | classDef (head : Definition) (body : List Definition)
  | functionDef (f : Definition)
  | imports (names : List Text)
  | importFrom (name : Text)
  | other

/-- What the parser of the language makes of a text. -/
inductive Parsed
  | tree (body : List Statement)
  | syntaxError (lineno message : Text)
  | raises

/-- What stands at a path: a file, or the error that reading it gives. A name can be refused on every lookup, or be no
name at all. -/
inductive Node
  | file (data : List UInt8)
  | absent (error : Text)
  | unreadable (error : Text)
  | refused (error : Text)
  | malformed

abbrev Disk := Text → Node

/-- SHA-256 in hexadecimal digits, the text of a file with replacements, the syntax trees, `str` and `int` of what is no
text and no integer, the floating point numbers that are this integer, and the documents that are nested too deep to be
written. -/
structure Host (φ : Type) where
  sha256 : List UInt8 → Text
  decode : List UInt8 → Text
  parse : Text → Parsed
  str : Doc φ → Text
  int : Doc φ → Option Int
  isInt : φ → Int → Bool
  tooDeep : Doc φ → Bool

inductive Raised
  | value
  | parser
  | os
  | read
  | write
  deriving DecidableEq, Repr

variable (h : Host φ)

/-! ### The parser -/

def isSpace (c : Nat) : Bool :=
  (9 ≤ c && c ≤ 13) || (28 ≤ c && c ≤ 32) || (0x2000 ≤ c && c ≤ 0x200A) ||
    [0x85, 0xA0, 0x1680, 0x2028, 0x2029, 0x202F, 0x205F, 0x3000].contains c

def isLineEnd (c : Nat) : Bool := (10 ≤ c && c ≤ 13) || (28 ≤ c && c ≤ 30) || c == 0x85 || c == 0x2028 || c == 0x2029

def strip (text : Text) : Text := ((text.dropWhile isSpace).reverse.dropWhile isSpace).reverse

/-- `_first_doc_line` -/
def firstDocLine (docstring : Text) : Text := (strip (docstring.takeWhile fun c => !isLineEnd c)).take 160

def isPrivate (name : Text) : Bool := name.head? == some 95

def functionSymbol (kind : String) (f : Definition) : Symbol :=
  .mk (literal kind) f.name f.signature (firstDocLine f.docstring) f.lineno []

def statementSymbol : Statement → Option Symbol
  | .classDef head body =>
      some (.mk (literal "class") head.name head.signature (firstDocLine head.docstring) head.lineno
        ((body.filter fun f => !isPrivate f.name || f.name == literal "__init__").map (functionSymbol "method")))
  | .functionDef f => if isPrivate f.name = true then none else some (functionSymbol "function" f)
  | _ => none

def statementImports : Statement → List Text
  | .imports names => names
  | .importFrom name => if name = [] then [] else [name]
  | _ => []

def readError (path error : Text) : FileSummary φ :=
  { path := path, parseError := some (.str (literal "read_error: " ++ error)) }

def syntaxError (path : Text) (sloc : Int) (lineno message : Text) : FileSummary φ :=
  { path := path, sloc := sloc
    parseError := some (.str (literal "syntax_error: line " ++ (lineno ++ (literal ": " ++ message)))) }

/-- `PythonAstParser.parse` -/
def Host.parseFile (path : Text) : Node → Except Raised (FileSummary φ)
  | .file data =>
      let text := h.decode data
      let sloc : Int := text.count 10 + 1
      match h.parse text with
      | .raises => .error .parser
      | .syntaxError lineno message => .ok (syntaxError path sloc lineno message)
      | .tree body =>
          .ok { path := path, sloc := sloc
                imports := body.flatMap statementImports, symbols := body.filterMap statementSymbol }
  | .absent error | .unreadable error | .refused error => .ok (readError path error)
  | .malformed => .error .value

/-! ### Entries -/

/-- The fields of a symbol in a class. Records stand in the order of their keys, as they are written. -/
def childDoc : Symbol → Doc φ
  | .mk kind name signature docstring lineno _ =>
      .obj [(literal "docstring", .str docstring), (literal "kind", .str kind), (literal "lineno", .int lineno),
        (literal "name", .str name), (literal "signature", .str signature)]

def symbolDoc : Symbol → Doc φ
  | .mk kind name signature docstring lineno children =>
      .obj [(literal "children", .arr (children.map childDoc)), (literal "docstring", .str docstring),
        (literal "kind", .str kind), (literal "lineno", .int lineno), (literal "name", .str name),
        (literal "signature", .str signature)]

/-- `_summary_to_json` -/
def summaryFields (summary : FileSummary φ) : Fields φ :=
  [(literal "imports", .arr (summary.imports.map .str)), (literal "language", .str summary.language),
    (literal "parse_error", summary.parseError.getD .null), (literal "path", .str summary.path),
    (literal "sloc", .int summary.sloc), (literal "symbols", .arr (summary.symbols.map symbolDoc))]

def Host.truthy : Doc φ → Bool
  | .null => false
  | .bool b => b
  | .int n => n ≠ 0
  | .float x => !h.isInt x 0
  | .str text => !text.isEmpty
  | .arr items => !items.isEmpty
  | .obj fields => !fields.isEmpty

def Host.textOf : Doc φ → Text
  | .str text => text
  | v => h.str v

/-- `str(fields.get(key, default))` -/
def Host.textField (fields : Fields φ) (key default : String) : Text :=
  ((fieldOf fields key).map h.textOf).getD (literal default)

/-- `int(v or 0)`, unless it raises. -/
def Host.intOf : Doc φ → Option Int
  | .int n => some n
  | v => if h.truthy v = true then h.int v else some 0

/-- `int(fields.get(key, 0) or 0)`, unless it raises. -/
def Host.intField (fields : Fields φ) (key : String) : Option Int := ((fieldOf fields key).map h.intOf).getD (some 0)

/-- The items of `v or []`, unless it has none. -/
def Host.itemsOf : Doc φ → Option (List (Doc φ))
  | .arr items => some items
  | .str text => some (text.map fun c => .str [c])
  | .obj fields => some (fields.map fun field => .str field.1)
  | v => if h.truthy v = true then none else some []

/-- The items of `fields.get(key, []) or []`, unless it has none. -/
def Host.itemsField (fields : Fields φ) (key : String) : Option (List (Doc φ)) :=
  ((fieldOf fields key).map h.itemsOf).getD (some [])

/-- A child; what is no record has no fields. -/
def Host.childOf : Doc φ → Option Symbol
  | .obj fields => do
      let lineno ← h.intField fields "lineno"
      return .mk (h.textField fields "kind" "") (h.textField fields "name" "") (h.textField fields "signature" "")
        (h.textField fields "docstring" "") lineno []
  | _ => none

def Host.symbolOf : Doc φ → Option Symbol
  | .obj fields => do
      let raw ← h.itemsField fields "children"
      let children ← raw.mapM h.childOf
      let lineno ← h.intField fields "lineno"
      return .mk (h.textField fields "kind" "") (h.textField fields "name" "") (h.textField fields "signature" "")
        (h.textField fields "docstring" "") lineno children
  | _ => none

/-- `_summary_from_json`, unless it raises what the cache takes for a miss. -/
def Host.summaryOf (fields : Fields φ) : Option (FileSummary φ) := do
  let raw ← h.itemsField fields "symbols"
  let symbols ← raw.mapM h.symbolOf
  let imports ← h.itemsField fields "imports"
  let sloc ← h.intField fields "sloc"
  return ⟨h.textField fields "path" "", h.textField fields "language" "python", symbols, imports.map h.textOf,
    (fieldOf fields "parse_error").filter h.truthy, sloc⟩

/-! ### The cache -/

/-- `_file_content_hash`, unless it raises for a name that is none. -/
def Host.contentHash : Node → Option Text
  | .file data => some (h.sha256 data)
  | .malformed => none
  | _ => some (literal "missing")

/-- `_fingerprint` of a file with this hash. -/
def fingerprint (content : Text) : Fields φ :=
  [(literal "cache_version", .int 1), (literal "content_sha256", .str content),
    (literal "parser", .str (literal "PythonAstParser"))]

def Host.isNumber (n : Int) : Doc φ → Bool
  | .int m => m == n
  | .float x => h.isInt x n
  | .bool b => n == (if b = true then 1 else 0)
  | _ => false

def isStr (text : Text) : Doc φ → Bool
  | .str t => t == text
  | _ => false

/-- `cached_entry.get("fingerprint") == fingerprint` -/
def Host.matches (content : Text) : Doc φ → Bool
  | .obj fields =>
      fields.length == 3 && (fieldOf fields "cache_version").any (h.isNumber 1) &&
        (fieldOf fields "parser").any (isStr (literal "PythonAstParser")) &&
        (fieldOf fields "content_sha256").any (isStr content)
  | _ => false

/-- The entry is a record with this fingerprint. -/
def Host.fits (content : Text) : Doc φ → Bool
  | .obj entry => (fieldOf entry "fingerprint").any (h.matches content)
  | _ => false

/-- What an entry that fits gives for a path: a summary that is read back, and is of this path. -/
def Host.served (path : Text) : Doc φ → Option (FileSummary φ)
  | .obj entry =>
      match fieldOf entry "summary" with
      | some (.obj fields) => (h.summaryOf fields).filter fun summary => summary.path == path
      | _ => none
  | _ => none

def entryDoc (content : Text) (summary : FileSummary φ) : Doc φ :=
  .obj [(literal "fingerprint", .obj (fingerprint content)), (literal "summary", .obj (summaryFields summary))]

/-- What the cache file holds: nothing that is read, a document, or one that is nested too deep to be read. -/
inductive CacheFile (φ : Type)
  | unread
  | document (doc : Doc φ)
  | tooDeep

/-- The entries of a document, where it is a cache of this version. -/
def Host.entriesOf : Doc φ → Fields φ
  | .obj fields =>
      match (fieldOf fields "version").any (h.isNumber 2), fieldOf fields "entries" with
      | true, some (.obj entries) => entries
      | _, _ => []
  | _ => []

/-- `_read` -/
def Host.entries : CacheFile φ → Except Raised (Fields φ)
  | .unread => .ok []
  | .document doc => .ok (h.entriesOf doc)
  | .tooDeep => .error .read

structure Progress (φ : Type) where
  summaries : List (FileSummary φ) := []
  next : Fields φ := []
  dirty : Bool := false

def put (fields : Fields φ) (key : Text) (v : Doc φ) : Fields φ := fields.filter (fun field => field.1 != key) ++ [(key, v)]

/-- The summary and entry of a path that is served. -/
def Host.hit (disk : Disk) (entries : Fields φ) (path : Text) : Option (FileSummary φ × Doc φ) := do
  let content ← h.contentHash (disk path)
  let entry ← entries.lookup path
  guard (h.fits content entry)
  let summary ← h.served path entry
  return (summary, entry)

/-- The summary and entry of a path that is parsed. -/
def Host.miss (disk : Disk) (path : Text) : Except Raised (FileSummary φ × Doc φ) :=
  match h.contentHash (disk path) with
  | none => .error .value
  | some content => do
      let summary ← h.parseFile path (disk path)
      return (summary, entryDoc content summary)

/-- One path of a call. -/
def Host.visit (disk : Disk) (entries : Fields φ) (p : Progress φ) (path : Text) : Except Raised (Progress φ) :=
  match h.hit disk entries path with
  | some (summary, entry) => .ok ⟨p.summaries ++ [summary], put p.next path entry, p.dirty⟩
  | none => do
      let (summary, entry) ← h.miss disk path
      return ⟨p.summaries ++ [summary], put p.next path entry, true⟩

/-- One entry of the cache that may be carried over. -/
def keepEntry (disk : Disk) (p : Progress φ) (entry : Text × Doc φ) : Except Raised (Progress φ) :=
  if entry.1 ∈ p.next.map Prod.fst then .ok p
  else
    match disk entry.1 with
    | .refused _ => .error .os
    | .absent _ | .malformed => .ok { p with dirty := true }
    | .file _ | .unreadable _ => .ok { p with next := p.next ++ [entry] }

def payload (entries : Fields φ) : Doc φ := .obj [(literal "version", .int 2), (literal "entries", .obj entries)]

/-- `_write`; the cache file stays where it cannot be written. -/
def Host.write (writable : Bool) (cache : CacheFile φ) (entries : Fields φ) : Except Raised (CacheFile φ) :=
  if writable = false then .ok cache
  else if (payload entries).encodable = true ∧ ∀ entry ∈ entries, h.tooDeep entry.2 = false then
    .ok (.document (payload entries).sorted)
  else .error .write

def sameKeys (a b : Fields φ) : Bool := a.all (fun x => b.any fun y => y.1 == x.1) && b.all fun y => a.any fun x => x.1 == y.1

/-- `get_or_build` -/
def Host.getOrBuild (disk : Disk) (cache : CacheFile φ) (writable : Bool) (paths : List Text) :
    Except Raised (List (FileSummary φ) × CacheFile φ) := do
  let entries ← h.entries cache
  let visited ← paths.foldlM (h.visit disk entries) { }
  let kept ← entries.foldlM (keepEntry disk) visited
  if kept.dirty = true ∨ sameKeys kept.next entries = false then
    let cache' ← h.write writable cache kept.next
    return (kept.summaries, cache')
  return (kept.summaries, cache)

/-! ### Runs -/

/-- The files, the cache file, and every entry that a call has for a path that it does not find. -/
structure State (φ : Type) where
  disk : Disk
  cache : CacheFile φ
  made : Fields φ

inductive Label (φ : Type)
  | edit
  | replace
  | call (paths : List Text) (writable : Bool) (result : Except Raised (List (FileSummary φ)))

/-- The entry that a call makes for a path that is not served. -/
def Host.making (disk : Disk) (cache : CacheFile φ) (path : Text) : Option (Text × Doc φ) :=
  match h.entries cache with
  | .ok entries =>
      match h.hit disk entries path, h.miss disk path with
      | none, .ok (_, entry) => some (path, entry)
      | _, _ => none
  | .error _ => none

/-- The state after a call. The cache file stays where the call raises. -/
def Host.called (s : State φ) (paths : List Text) (writable : Bool) : State φ :=
  { s with
    cache := match h.getOrBuild s.disk s.cache writable paths with
      | .ok (_, cache) => cache
      | .error _ => s.cache
    made := s.made ++ paths.filterMap (h.making s.disk s.cache) }

def Host.step (s : State φ) (label : Label φ) (t : State φ) : Prop :=
  match label with
  | .edit => t = { s with disk := t.disk }
  | .replace => t = { s with cache := t.cache }
  | .call paths writable result =>
      result = (h.getOrBuild s.disk s.cache writable paths).map Prod.fst ∧ t = h.called s paths writable

/-- The cache with the files of a project, from any files and any cache file. -/
def Host.system : System (State φ) (Label φ) where
  start s := s.made = []
  step := h.step

end AutoAgents.RepoCache
