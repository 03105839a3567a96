import AutoAgents.VerificationSteps

/-! The files that a proof of a gate was made on: what stands at a path, what a path leads to, the manifest of the inputs
that a command was observed to read, and the artifacts that are put back. Each call sees the files as they are then. -/

namespace AutoAgents.Proofs


/-! ### Paths -/

abbrev Path := List String

/-- The parts of a text at the slashes. -/
def slashParts (text : String) : List String := (text.toList.splitOn '/').map String.ofList

/-- `Path(text).parts`, without the root. -/
def pathParts (text : String) : List String := (slashParts text).filter fun part => part != "" && part != "."

def isAbsolute (text : String) : Bool := ['/'].isPrefixOf text.toList

/-- What stands at a path. The process may not look at a place that is `denied`, with `EPERM` or `EACCES`. -/
inductive Node
  | file (data : String) (mode : Nat)
  | directory
  | symlink (target : String)
  | denied (errno : Nat)
  deriving DecidableEq, Repr

/-- The files of the machine, by their paths from its root. -/
structure Machine where
  entries : List (Path × Node)
  deriving DecidableEq

/-- The errors of a look at a path. -/
inductive Fault
  | missing
  | notDirectory
  | loop
  | denied (errno : Nat)
  deriving DecidableEq, Repr

namespace Machine

def node (m : Machine) (path : Path) : Option Node := if path = [] then some .directory else m.entries.lookup path

def put (m : Machine) (path : Path) (node : Node) : Machine := ⟨(path, node) :: m.entries⟩

/-- The names in a directory. -/
def names (m : Machine) (path : Path) : List String :=
  (m.entries.filterMap fun entry => if entry.1.dropLast = path then entry.1.getLast? else none).dedup

/-- Where a path leads. A link starts again at its target, and the last link is followed only where asked. -/
def walkFrom (m : Machine) (follow : Bool) (restart : Path → List String → Except Fault Path) :
    Path → List String → Except Fault Path
  | place, [] => .ok place
  | place, part :: rest =>
      if part = "" ∨ part = "." then m.walkFrom follow restart place rest
      else if part = ".." then m.walkFrom follow restart place.dropLast rest
      else match m.node (place ++ [part]) with
        | some .directory => m.walkFrom follow restart (place ++ [part]) rest
        | some (.symlink target) =>
            if rest = [] ∧ follow = false then .ok (place ++ [part])
            else restart (if isAbsolute target then [] else place) (slashParts target ++ rest)
        | some (.file _ _) => if rest = [] then .ok (place ++ [part]) else .error .notDirectory
        | some (.denied errno) => .error (.denied errno)
        | none => .error .missing

/-- With a bound on the links that are followed. -/
def walk (m : Machine) (follow : Bool) : Nat → Path → List String → Except Fault Path
  | 0 => fun _ _ => .error .loop
  | links + 1 => m.walkFrom follow (m.walk follow links)

def resolve (m : Machine) (follow : Bool) (path : Path) : Except Fault Path := m.walk follow 41 [] path

def look (m : Machine) (follow : Bool) (path : Path) : Except Fault Node := do
  let place ← m.resolve follow path
  match m.node place with
  | some node => return node
  | none => .error .missing

def lstat (m : Machine) (path : Path) : Except Fault Node := m.look false path

def stat (m : Machine) (path : Path) : Except Fault Node := m.look true path

/-- `Path.exists`: an error other than that nothing is there is raised. -/
def exists? (m : Machine) (path : Path) : Except Fault Bool :=
  match m.stat path with
  | .ok _ => .ok true
  | .error (.denied errno) => .error (.denied errno)
  | .error _ => .ok false

end Machine

/-! ### Manifests -/

/-- The digest of contents, and the replay of a metadata read (`verification_probes.matches`): what `os.stat` and
`os.access` say is not part of the machine. -/
structure Reader where
  sha256 : String → String
  probe : Machine → Path → String → String → Bool

/-- `json.dumps` of a list of texts. -/
def dumpsList (texts : List String) : String :=
  String.ofList (['['] ++ [',', ' '].intercalate (texts.map fun text => Base.encodeString text.toList) ++ [']'])

/-- `path_digest`. An error of a look gives no digest. -/
def pathDigest (reader : Reader) (m : Machine) (path : Path) : Option String :=
  match m.lstat path with
  | .ok (.symlink target) => some ("link:" ++ target)
  | _ =>
      match m.stat path with
      | .ok .directory =>
          match m.resolve true path with
          | .ok place => some ("dir:" ++ reader.sha256 (dumpsList ((m.names place).insertionSort (· ≤ ·))))
          | .error _ => none
      | .ok (.file data _) => some ("file:" ++ reader.sha256 data)
      | _ => none

/-- The inputs of a command, each with what was observed. -/
abbrev Manifest := List (String × String)

def probePrefix : List Char := '\x00' :: "filesystem-probe:".toList

/-- `raw_path.replace("\\", "/").strip()` -/
def manifestPath (rawPath : String) : List Char :=
  Operator.strip (rawPath.toList.map fun c => if c = '\\' then '/' else c)

/-- One turn of the loop of `manifest_matches`. -/
def inputMatches (reader : Reader) (root : Path) (m : Machine) (rawPath expected : String) : Except Fault Bool :=
  if probePrefix.isPrefixOf rawPath.toList then .ok (reader.probe m root rawPath expected)
  else
    let relative := manifestPath rawPath
    let denied := ['?'].isPrefixOf relative
    let relative := if denied then relative.drop 1 else relative
    let missing := ['!'].isPrefixOf relative
    let relative := if missing then relative.drop 1 else relative
    let external := ['@', '/'].isPrefixOf relative
    if relative = [] ∨ ['/'].isPrefixOf relative ∨ ".." ∈ pathParts (String.ofList relative) then .ok false
    else
      let path := if external then pathParts (String.ofList (relative.drop 1)) else root ++ pathParts (String.ofList relative)
      if denied then
        -- what the process may not see is not read
        match m.stat path with
        | .error (.denied errno) => .ok (toString errno == expected)
        | _ => .ok false
      else if missing then (m.exists? path).map (!·)
      else .ok (pathDigest reader m path == some expected)

def allMatch (reader : Reader) (root : Path) (m : Machine) : Manifest → Except Fault Bool
  | [] => .ok true
  | (rawPath, expected) :: rest => do
      if ← inputMatches reader root m rawPath expected then allMatch reader root m rest else return false

def manifestMatches (reader : Reader) (root : Path) (m : Machine) (manifest : Manifest) : Except Fault Bool :=
  if manifest = [] then .ok false else allMatch reader root m manifest

theorem allMatch_ok {reader : Reader} {root : Path} {m : Machine} {manifest : Manifest} :
    allMatch reader root m manifest = .ok true ↔
      ∀ input ∈ manifest, inputMatches reader root m input.1 input.2 = .ok true := by
  induction manifest with
  | nil => simp [allMatch]
  | cons input rest ih =>
      obtain ⟨rawPath, expected⟩ := input
      rw [List.forall_mem_cons, ← ih, allMatch]
      cases h : inputMatches reader root m rawPath expected with
      | error fault => simp [bind, Except.bind]
      | ok found => cases found <;> simp [bind, Except.bind, pure, Except.pure]

/-- A manifest matches where it has inputs and each is as it was observed. -/
theorem manifestMatches_ok {reader : Reader} {root : Path} {m : Machine} {manifest : Manifest} :
    manifestMatches reader root m manifest = .ok true ↔
      manifest ≠ [] ∧ ∀ input ∈ manifest, inputMatches reader root m input.1 input.2 = .ok true := by
  unfold manifestMatches
  split
  · next h => simp [h]
  · next h => rw [allMatch_ok]; simp [h]

/-! ### Artifacts -/

/-- `re_full_digest` -/
def fullDigest (text : String) : Bool :=
  text.toList.length == 64 && text.toList.all fun c => c.isDigit || ('a' ≤ c && c ≤ 'f')

/-- The artifacts of a command by their names below the root, with the digests of their contents. -/
abbrev Artifacts := List (String × String)

abbrev Modes := List (String × Nat)

/-- `int((modes or {}).get(relative, 0o600)) & 0o777` -/
def modeOf (modes : Modes) (name : String) : Nat := (modes.lookup name).getD 0o600 &&& 0o777

/-- Opens directory after directory, without following a link, and makes those that are missing. -/
def openDirectories (m : Machine) (place : Path) : List String → Machine × Option Path
  | [] => (m, some place)
  | part :: rest =>
      match m.node (place ++ [part]) with
      | none => openDirectories (m.put (place ++ [part]) .directory) (place ++ [part]) rest
      | some .directory => openDirectories m (place ++ [part]) rest
      | some _ => (m, none)

/-- One turn of `_restore_artifacts`: the artifact is put back where it is missing, and has to be the same where it is
not. `blobs` is what the folder of artifacts holds under each digest, no link. -/
def restoreArtifact (sha256 : String → String) (blobs : String → Option String) (root : Path) (modes : Modes) (m : Machine)
    (name expected : String) : Machine × Bool :=
  let mode := modeOf modes name
  if pathParts name = [] ∨ isAbsolute name ∨ ".." ∈ pathParts name then (m, false)
  else if fullDigest expected = false then (m, false)
  else match blobs expected with
    | none => (m, false)
    | some data =>
        if sha256 data ≠ expected then (m, false)
        else if m.node root ≠ some .directory then (m, false)
        else match openDirectories m root (pathParts name).dropLast with
          | (m, none) => (m, false)
          | (m, some parent) =>
              let path := parent ++ (pathParts name).getLast?.toList
              match m.node path with
              | none => (m.put path (.file data mode), true)
              | some (.file existing current) => (m, sha256 existing == expected && current &&& 0o777 == mode)
              | some _ => (m, false)

/-- `_restore_artifacts` -/
def restoreArtifacts (sha256 : String → String) (blobs : String → Option String) (root : Path) (modes : Modes) (m : Machine) :
    Artifacts → Machine × Bool
  | [] => (m, true)
  | (name, expected) :: rest =>
      match restoreArtifact sha256 blobs root modes m name expected with
      | (m, true) => restoreArtifacts sha256 blobs root modes m rest
      | (m, false) => (m, false)

/-! ### What putting back does -/

/-- Nothing that was there has changed. -/
def Machine.Kept (before after : Machine) : Prop := ∀ path node, before.node path = some node → after.node path = some node

theorem Machine.Kept.refl (m : Machine) : m.Kept m := fun _ _ h => h

theorem Machine.Kept.trans {a b c : Machine} (h : a.Kept b) (h' : b.Kept c) : a.Kept c :=
  fun path node hnode => h' path node (h path node hnode)

theorem Machine.node_put_self {m : Machine} {path : Path} {node : Node} (h : path ≠ []) :
    (m.put path node).node path = some node := by
  simp [Machine.node, Machine.put, h]

theorem Machine.Kept.put {m : Machine} {path : Path} (node : Node) (h : m.node path = none) : m.Kept (m.put path node) := by
  intro other found hfound
  have hne : other ≠ path := by
    rintro rfl
    rw [h] at hfound
    cases hfound
  unfold Machine.node Machine.put at *
  split at hfound
  · next hroot => rw [if_pos hroot]; exact hfound
  · next hroot => rw [if_neg hroot, List.lookup_cons, beq_eq_false_iff_ne.mpr hne]; exact hfound

variable {sha256 : String → String} {blobs : String → Option String} {root : Path} {modes : Modes}

theorem openDirectories_kept (m : Machine) (place : Path) (parts : List String) :
    m.Kept (openDirectories m place parts).1 := by
  induction parts generalizing m place with
  | nil => exact .refl m
  | cons part rest ih =>
      unfold openDirectories
      split
      · next hnone => exact (Machine.Kept.put .directory hnone).trans (ih _ _)
      · exact ih _ _
      · exact .refl m

theorem openDirectories_place {m m' : Machine} {place parent : Path} {parts : List String}
    (h : openDirectories m place parts = (m', some parent)) : parent = place ++ parts := by
  induction parts generalizing m place with
  | nil =>
      simp only [openDirectories, Prod.mk.injEq, Option.some.injEq] at h
      rw [← h.2, List.append_nil]
  | cons part rest ih =>
      unfold openDirectories at h
      split at h
      · rw [ih h, List.append_assoc, List.singleton_append]
      · rw [ih h, List.append_assoc, List.singleton_append]
      · cases h

/-- The artifact is there, with its content and its mode. -/
def Machine.Holds (sha256 : String → String) (root : Path) (modes : Modes) (m : Machine) (name expected : String) : Prop :=
  ∃ data mode, m.node (root ++ pathParts name) = some (.file data mode) ∧ sha256 data = expected ∧
    mode &&& 0o777 = modeOf modes name

theorem modeOf_masked (modes : Modes) (name : String) : modeOf modes name &&& 0o777 = modeOf modes name := by
  unfold modeOf
  rw [Nat.and_assoc, Nat.and_self]

theorem restoreArtifact_spec (m : Machine) (name expected : String) :
    m.Kept (restoreArtifact sha256 blobs root modes m name expected).1 ∧
      ((restoreArtifact sha256 blobs root modes m name expected).2 = true →
        (restoreArtifact sha256 blobs root modes m name expected).1.Holds sha256 root modes name expected) := by
  have hrefused : m.Kept (m, false).1 ∧ ((m, false).2 = true → (m, false).1.Holds sha256 root modes name expected) :=
    ⟨.refl m, by simp⟩
  unfold restoreArtifact
  split
  · exact hrefused
  next hname =>
  split
  · exact hrefused
  split
  · exact hrefused
  next data hblob =>
  split
  · exact hrefused
  next hdata =>
  split
  · exact hrefused
  have hkept := openDirectories_kept m root (pathParts name).dropLast
  split
  · next hopen =>
      rw [hopen] at hkept
      exact ⟨hkept, by simp⟩
  next m' parent hopen =>
  rw [hopen] at hkept
  -- the path that is opened is the one below the root
  have hparts : pathParts name ≠ [] := fun h => hname (.inl h)
  have hpath : parent ++ (pathParts name).getLast?.toList = root ++ pathParts name := by
    rw [openDirectories_place hopen, List.append_assoc, List.getLast?_eq_getLast_of_ne_nil hparts]
    exact congrArg (root ++ ·) (List.dropLast_append_getLast hparts)
  simp only
  rw [hpath]
  have hne : root ++ pathParts name ≠ [] := by simp [hparts]
  split
  · next hnone =>
      refine ⟨hkept.trans (Machine.Kept.put _ hnone), fun _ => ⟨data, _, Machine.node_put_self hne, ?_, modeOf_masked _ _⟩⟩
      simpa using hdata
  · next existing current hfile =>
      refine ⟨hkept, fun hsame => ⟨existing, current, hfile, ?_⟩⟩
      simpa using hsame
  · exact ⟨hkept, by simp⟩

theorem Machine.Kept.holds {m m' : Machine} {name expected : String} (h : m.Kept m')
    (hholds : m.Holds sha256 root modes name expected) : m'.Holds sha256 root modes name expected := by
  obtain ⟨data, mode, hnode, hdata, hmode⟩ := hholds
  exact ⟨data, mode, h _ _ hnode, hdata, hmode⟩

/-- Artifacts are put back without a change of what was there; where that goes through, all of them are there. -/
theorem restoreArtifacts_spec (m : Machine) (artifacts : Artifacts) :
    m.Kept (restoreArtifacts sha256 blobs root modes m artifacts).1 ∧
      ((restoreArtifacts sha256 blobs root modes m artifacts).2 = true → ∀ artifact ∈ artifacts,
        (restoreArtifacts sha256 blobs root modes m artifacts).1.Holds sha256 root modes artifact.1 artifact.2) := by
  induction artifacts generalizing m with
  | nil => exact ⟨.refl m, fun _ _ h => absurd h List.not_mem_nil⟩
  | cons artifact rest ih =>
      obtain ⟨name, expected⟩ := artifact
      obtain ⟨hkept, hholds⟩ := @restoreArtifact_spec sha256 blobs root modes m name expected
      unfold restoreArtifacts
      split
      · next m' hturn =>
          rw [hturn] at hkept hholds
          obtain ⟨hrest, hall⟩ := ih m'
          refine ⟨hkept.trans hrest, fun hdone other hother => ?_⟩
          rcases List.mem_cons.mp hother with rfl | hother
          · exact hrest.holds (hholds rfl)
          · exact hall hdone other hother
      · next m' hturn =>
          rw [hturn] at hkept
          exact ⟨hkept, by simp⟩

end AutoAgents.Proofs
