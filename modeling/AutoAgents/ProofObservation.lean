import AutoAgents.ProofFiles

/-! The inputs that a command was observed to read: the paths in the trace of the command, where each of them leads in the files that the
command ran on, and the manifest of these places. -/

namespace AutoAgents.Proofs

open Operator (isSpace)

/-! ### Where an observed path leads -/

/-- The text is the name of an entry of a directory. -/
def isName (part : String) : Bool := part != "" && part != "." && part != ".." && !part.toList.contains '/'

/-- The checkout that a command ran in: the links that its executor has made there, by their names with what they lead to, the folders
that are not inputs, and the records of its own with their identities. -/
structure Checkout where
  sandbox : Path
  names : ∀ part ∈ sandbox, isName part = true
  dependencyLinks : List (String × String)
  runtimeRoots : List Path
  bookkeeping : List (Path × List Nat)
  identity : Machine → Path → List Nat

/-- The text of a path below a folder. -/
def joined (parts : Path) : String := String.ofList (['/'].intercalate (parts.map String.toList))

namespace Checkout

variable (c : Checkout)

/-- `name_of` -/
def nameOf (place : Path) : String :=
  if c.sandbox.isPrefixOf place = true then
    if place.drop c.sandbox.length = [] then "." else joined (place.drop c.sandbox.length)
  else "@/" ++ joined place

/-- A link may be followed if it stands outside of the checkout, or is one that the executor has made. -/
def admits (m : Machine) (candidate : Path) (target : String) : Bool :=
  !c.sandbox.isPrefixOf candidate ||
    match c.dependencyLinks.lookup (c.nameOf candidate) with
    | none => false
    | some registered =>
        isAbsolute registered && target == registered && m.resolve true (pathParts registered) == .ok (pathParts registered) &&
          m.node (pathParts registered) == some .directory

end Checkout

/-- Where a path leads: the place, the links on the way with their targets, and the first place on the way that is not there. -/
structure Found where
  place : Path
  links : List (Path × String)
  missing : Option Path
  deriving DecidableEq

section

variable (c : Checkout) (m : Machine)

/-- The loop of `_resolve_observed_path`, up to the next link. -/
def follow (restart : List (Path × String) → Path → List String → Option Found) :
    List (Path × String) → Path → List String → Option Found
  | links, current, [] => some ⟨current, links, none⟩
  | links, current, part :: pending =>
      if part = ".." then follow restart links current.dropLast pending
      else
        let candidate := current ++ [part]
        match m.lstat candidate with
        | .error .missing => if ".." ∈ pending then none else some ⟨candidate ++ pending, links, some candidate⟩
        | .error (.denied _) => if pending = [] then some ⟨candidate, links, none⟩ else none
        | .error _ => none
        | .ok (.symlink target) =>
            if c.admits m candidate target = true then
              restart (links ++ [(candidate, target)]) (if isAbsolute target then [] else current) (pathParts target ++ pending)
            else none
        | .ok .directory => follow restart links candidate pending
        | .ok _ => if pending = [] then some ⟨candidate, links, none⟩ else none

/-- `_resolve_observed_path`, with a bound on the links that are followed. -/
def resolveObserved : Nat → List (Path × String) → Path → List String → Option Found
  | 0 => fun _ _ _ => none
  | links + 1 => follow c m (resolveObserved links)

/-- `classify`: where the path leads, and if that is no input. -/
def classify (raw : String) : Option (Found × Bool) :=
  -- a path with a NUL is refused by every call
  match (if '\x00' ∈ raw.toList then none else resolveObserved c m 41 [] [] (if isAbsolute raw then pathParts raw else c.sandbox ++ pathParts raw)) with
  | none => none
  | some found =>
      match c.bookkeeping.lookup found.place with
      | some expected =>
          if (m.lstat found.place).isOk = true ∧ c.identity m found.place = expected then some (found, true) else none
      | none => some (found, c.runtimeRoots.any fun root => root.isPrefixOf found.place)

end

/-! ### Inputs -/

/-- An input of the command. -/
inductive Input
  | denied (place : Path) (errno : Nat)
  | link (place : Path) (target : String)
  | missing (place : Path)
  | seen (place : Path) (digest : String)
  deriving DecidableEq

/-- The name of the input in the manifest. -/
def Input.key (c : Checkout) : Input → String
  | .denied place _ => "?" ++ c.nameOf place
  | .link place _ => c.nameOf place
  | .missing place => "!" ++ c.nameOf place
  | .seen place _ => c.nameOf place

def Input.value : Input → String
  | .denied _ errno => toString errno
  | .link _ target => "link:" ++ target
  | .missing _ => "missing"
  | .seen _ digest => digest

def Found.linkInputs (found : Found) : List Input := found.links.map fun link => .link link.1 link.2

def ignoredNames : List String := [".git", ".auto-agents-gate-runtime", ".auto-agents-gate-tmp", ".auto-agents-gate-cache"]

def isIgnored (relative : String) : Bool :=
  ignoredNames.any fun name => relative == name || (name ++ "/").toList.isPrefixOf relative.toList

def isSkipped (raw : String) : Bool :=
  raw == "" || ["/dev/", "/proc/", "/sys/"].any fun start => start.toList.isPrefixOf raw.toList

section

variable (reader : Reader) (c : Checkout) (m : Machine)

/-- The folder is one whose names are inputs. -/
def Checkout.covers (parent : Path) : Bool :=
  c.sandbox.isPrefixOf parent || c.dependencyLinks.any fun link => (pathParts link.2).isPrefixOf parent

/-- The folder in which the path gets lost. -/
def Found.parent (found : Found) : Path := (found.missing.getD found.place).dropLast

/-- The inputs of a path that is one. There are none to give if something cannot be read. -/
def pathInputs (found : Found) : Except Fault (Option (List Input)) := do
  let there ← m.exists? found.place
  if there = true then return (pathDigest reader m found.place).map fun digest => [.seen found.place digest]
  else do
    let lost := .missing found.place :: (found.missing.map .missing).toList
    if c.covers found.parent = false then return some lost
    else do
      let there ← m.exists? found.parent
      if there = true ∧ found.parent ≠ c.sandbox then
        return (pathDigest reader m found.parent).map fun digest => lost ++ [.seen found.parent digest]
      else return some lost

/-- The path is no input: it leads to a folder that is not, out of the checkout in a trace that says only paths, or to a name of the gate's own. -/
def Checkout.leavesOut (enriched : Bool) (found : Found) (excluded : Bool) : Bool :=
  excluded || (!enriched && !c.sandbox.isPrefixOf found.place) || isIgnored (c.nameOf found.place)

def ownInputs (enriched : Bool) (found : Found) (excluded : Bool) : Except Fault (Option (List Input)) :=
  if c.leavesOut enriched found excluded = true then .ok (some []) else pathInputs reader c m found

/-- The inputs of the paths that the command was denied. -/
def deniedInputs : List (Option String × Nat) → Option (List Input × List Input)
  | [] => some ([], [])
  | (none, _) :: _ => none
  | (some raw, errno) :: rest => do
      let (found, excluded) ← classify c m raw
      let (denied, links) ← deniedInputs rest
      return ((if excluded = true then denied else .denied found.place errno :: denied), found.linkInputs ++ links)

/-- The inputs of the other paths. `links` are those of the links that were followed before. -/
def observedInputs (enriched : Bool) (links : List Input) : List String → Except Fault (Option (List Input))
  | [] => .ok (some [])
  | raw :: rest =>
      if isSkipped raw = true then observedInputs enriched links rest
      else
        match classify c m raw with
        | none => .ok none
        | some (found, excluded) => do
            let links := links ++ found.linkInputs
            let own ← ownInputs reader c m enriched found excluded
            let later ← observedInputs enriched links rest
            return match own, later with
              | some own, some later => some (links ++ own ++ later)
              | _, _ => none

end

/-! ### The text of a trace -/

/-- What reads the traces of the two kinds that say more than paths (`resolved_trace`, `resolve_file_trace`), and the classes of the
characters. -/
structure TraceHost where
  resolvedTrace : List Char → Option (List Char)
  resolveFileTrace : Path → List Char → Option (List Char)
  digit : Char → Bool
  word : Char → Bool

/-- `"(?:[^"\\]|\\.)*"` from behind its first quote: what stands between the quotes, and what follows. -/
def quotedRest : List Char → Option (List Char × List Char)
  | [] => none
  | '\x22' :: rest => some ([], rest)
  | '\\' :: c :: rest => if c = '\n' then none else (quotedRest rest).map fun (text, rest) => ('\\' :: c :: text, rest)
  | '\\' :: [] => none
  | c :: rest => (quotedRest rest).map fun (text, rest) => (c :: text, rest)

def quotedAt : List Char → Option (List Char × List Char)
  | '\x22' :: rest => quotedRest rest
  | _ => none

/-- `json.loads` of a string between quotes. -/
def loadsQuoted (text : List Char) : Option String :=
  match Base.scanString (text ++ ['\x22']) with
  | some (value, []) => some (String.ofList value)
  | _ => none

def dropText (start text : List Char) : Option (List Char) := if start.isPrefixOf text = true then some (text.drop start.length) else none

def isText (part text : List Char) : Bool := decide (part <:+: text)

def lineRest (text : List Char) : List Char × List Char := (text.takeWhile (· != '\n'), text.dropWhile (· != '\n'))

/-- `stat\(("..")\) = -1 (EACCES|EPERM)[^\n]*` at this place. -/
def deniedAt (text : List Char) : Option ((Option String × Nat) × List Char) := do
  let rest ← dropText "stat(".toList text
  let (raw, rest) ← quotedAt rest
  let rest ← dropText ") = -1 ".toList rest
  match dropText "EACCES".toList rest with
  | some rest => return ((loadsQuoted raw, 13), (lineRest rest).2)
  | none => do
      let rest ← dropText "EPERM".toList rest
      return ((loadsQuoted raw, 1), (lineRest rest).2)

/-- The denied paths, and the text without them. -/
def takeDenied : Nat → List Char → List (Option String × Nat) × List Char
  | 0, text => ([], text)
  | _, [] => ([], [])
  | fuel + 1, c :: text =>
      match deniedAt (c :: text) with
      | some (denied, rest) =>
          let (later, text) := takeDenied fuel rest
          (denied :: later, text)
      | none =>
          let (later, text) := takeDenied fuel text
          (later, c :: text)

section

variable (h : TraceHost)

/-- `(?m)^(?:\[pid\s+)?\d+\]?\s+` at the start of a line. -/
def pidAt (text : List Char) : Bool :=
  let text :=
    match dropText "[pid".toList text with
    | some rest => if rest.head?.any isSpace = true then rest.dropWhile isSpace else text
    | none => text
  text.head?.any h.digit &&
    match text.dropWhile h.digit with
    | ']' :: rest => rest.head?.any isSpace
    | rest => rest.head?.any isSpace

def isEnriched (text : List Char) : Bool := pidAt h text || text.tails.any fun rest => rest.head? == some '\n' && pidAt h (rest.drop 1)

/-- `\b` before a word. -/
def wordStarts (before : Option Char) : Bool := !before.any h.word

/-- `pipe:\[\d+\]` -/
def isPipe (target : List Char) : Bool :=
  match dropText "pipe:[".toList target with
  | some rest => rest.head?.any h.digit && rest.dropWhile h.digit == [']']
  | none => false

/-- One of the names with its bracket. -/
def callAt (names : List String) (text : List Char) : Option (List Char) := names.findSome? fun name => dropText (name ++ "(").toList text

/-- A call that looks at a descriptor itself: what the descriptor is, the arguments that follow, and the rest of the text. -/
def descriptorAt (text : List Char) : Option (List Char × List Char × List Char) := do
  let rest ← callAt ["newfstatat", "fstatat64", "statx"] text
  if rest.head?.any h.digit = false then none
  else
    match rest.dropWhile h.digit with
    | '<' :: rest =>
        let target := rest.takeWhile fun c => c != '>' && c != '\n'
        match rest.drop target.length with
        | '>' :: ',' :: rest => do
            let rest ← dropText "\x22\x22,".toList (rest.dropWhile isSpace)
            if target = [] then none else return (target, (lineRest rest).1, (lineRest rest).2)
        | _ => none
    | _ => none

/-- The paths of descriptors, and the text without the calls that give them or look at a pipe. -/
def takeDescriptors : Nat → Option Char → List Char → List String × List Char
  | 0, _, text => ([], text)
  | _, _, [] => ([], [])
  | fuel + 1, before, c :: text =>
      match (if wordStarts h before = true then descriptorAt h (c :: text) else none) with
      | none =>
          let (later, text) := takeDescriptors fuel (some c) text
          (later, c :: text)
      | some (target, arguments, rest) =>
          let call := (c :: text).take ((c :: text).length - rest.length)
          let (later, text) := takeDescriptors fuel call.getLast? rest
          if isText "AT_EMPTY_PATH".toList arguments = false ∨ '\\' ∈ target ∨ " (deleted)".toList.isSuffixOf target = true then
            (later, call ++ text)
          else if ['/'].isPrefixOf target = true then (String.ofList target :: later, text)
          else if isPipe h target = true then (later, text)
          else (later, call ++ text)

/-- A call whose path hangs on a working directory or on a descriptor. -/
def unresolvedAt (text : List Char) : Bool :=
  (callAt ["chdir", "fchdir"] text).isSome ||
    match callAt ["openat", "openat2", "newfstatat", "fstatat64", "faccessat", "faccessat2", "readlinkat", "statx"] text with
    | none => false
    | some rest =>
        match dropText "AT_FDCWD".toList (rest.dropWhile isSpace) with
        | none => true
        | some later => later.head?.any h.word

def isUnresolved : Option Char → List Char → Bool
  | _, [] => false
  | before, c :: text => wordStarts h before && unresolvedAt h (c :: text) || isUnresolved (some c) text

/-- The strings of a text. -/
def quotedTexts : Nat → List Char → List String
  | 0, _ => []
  | _, [] => []
  | fuel + 1, c :: text =>
      match quotedAt (c :: text) with
      | some (raw, rest) => (loadsQuoted raw).toList ++ quotedTexts fuel rest
      | none => quotedTexts fuel text

/-- What a trace says of paths. -/
structure Traced where
  enriched : Bool
  denied : List (Option String × Nat)
  paths : List String
  deriving DecidableEq

def networkIn (text : List Char) : Bool := isText "connect(".toList text || isText "sendto(".toList text

/-- The reading of the text, with the mark of a use of the network. There is none if the text cannot say what the inputs were. -/
def readTraced (sandbox : Path) (text : List Char) : Option Traced × Bool :=
  match (if (text.dropWhile isSpace).head? = some '\x7b' then h.resolvedTrace text else some text) with
  | none => (none, false)
  | some text =>
      let network := networkIn text
      let enriched := isEnriched h text
      match (if enriched = true then h.resolveFileTrace sandbox text else some text) with
      | none => (none, network)
      | some resolved =>
          let network := network || enriched && isText "connect(".toList resolved
          let (denied, text) := if enriched = true then takeDenied (resolved.length + 1) resolved else ([], resolved)
          let (descriptors, guarded) := takeDescriptors h (text.length + 1) none text
          if isUnresolved h none guarded = true then (none, network)
          else (some ⟨enriched, denied, (descriptors ++ quotedTexts (text.length + 1) text).reverse.dedup.reverse⟩, network)

end

/-! ### The manifest -/

def manifestOf (c : Checkout) (inputs : List Input) : Manifest := Base.objectOf (inputs.map fun input => (input.key c, input.value))

/-- All the inputs that a trace tells. -/
def tracedInputs (reader : Reader) (c : Checkout) (m : Machine) (traced : Traced) : Except Fault (Option (List Input)) :=
  match deniedInputs c m traced.denied with
  | none => .ok none
  | some (denied, links) => do
      let observed ← observedInputs reader c m traced.enriched links traced.paths
      return observed.map fun observed => denied ++ links ++ observed

/-- `_observed_input_manifest`, on the text of the trace if it could be read. -/
def observedInputManifest (h : TraceHost) (reader : Reader) (c : Checkout) (m : Machine) : Option (List Char) → Except Fault (Manifest × Bool)
  | none => .ok ([], false)
  | some text =>
      match readTraced h c.sandbox text with
      | (none, network) => .ok ([], network)
      | (some traced, network) => do
          let inputs ← tracedInputs reader c m traced
          return (manifestOf c (inputs.getD []), network)

end AutoAgents.Proofs
