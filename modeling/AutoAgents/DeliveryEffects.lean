import AutoAgents.BaseExcept
import AutoAgents.ControlRecords

/-! Delivery of a candidate into the shared checkout. The commit is built in a private index and kept in
a journal; the branch, the files and the index then follow by a sequence of effects, each atomic, and
an interrupted sequence is taken up again from the journal. -/

namespace AutoAgents

open Base
open Git

local instance lawfulEffectPath : LawfulBEq Path := inferInstance

theorem listed_singleton (p : Path) : Listed [p] := List.pairwise_singleton _ _

/-! ### The shared checkout -/

/-- `file_identity`: the digest of a file, represented by its bytes, and its executable bit. -/
inductive Identity
  | missing
  | file (data : Bytes) (executable : Bool)
  deriving DecidableEq, Repr

/-- What stands at a delivered name: nothing, or a file. -/
def Identity.node : Identity → Option Node
  | missing => none
  | file data executable => some (.file data executable)

def fileIdentity (files : Files) (p : Path) : Except ControlError Identity :=
  match files p with
  | some (.symlink _) => .error ⟨"delivery_conflict", "Delivery path became a symlink", .state⟩
  | some .directory => .error ⟨"delivery_conflict", "Delivery path is not a file", .state⟩
  | some (.file data executable) => .ok (.file data executable)
  | none => .ok .missing

theorem fileIdentity_ok {files : Files} {p : Path} {identity : Identity} :
    fileIdentity files p = .ok identity ↔ files p = identity.node := by
  unfold fileIdentity
  cases h : files p with
  | none => cases identity <;> simp [Identity.node]
  | some node => cases node <;> cases identity <;> simp [Identity.node]

/-- The journal of a delivery. -/
structure Journal where
  base : Commit
  revision : Commit
  before : Path → Identity
  candidate : Candidate
  materialized : Bool := false

def Journal.paths (j : Journal) : List Path := j.candidate.paths

/-- The shared checkout: its branch, its index, its files, and the journal of the delivery. -/
structure Shared where
  ref : Commit
  index : View
  files : Files
  journal : Option Journal := none

/-- What `git` itself decides: whether and how the patch between two commits applies, which removed
names it shows as renamed, and the text it shows for a directory. -/
structure Tool where
  applies : (source revision : Commit) → View → Bool
  applyCached : (source revision base : Commit) → Option Tree
  renamed : View → View → Path → Bool
  listing : Commit → Path → Bytes

namespace Tool

/-- A name of `git diff --name-only`: it differs, and is not the old name of a rename. -/
def differs (tool : Tool) (old new : View) (p : Path) : Bool :=
  old p != new p && !tool.renamed old new p

/-- `git show commit:name`, with whether `git ls-tree` gives the name the mode 100755. -/
def shown (tool : Tool) (c : Commit) (p : Path) : Identity :=
  match c.at p with
  | some entry => .file entry.data (entry.mode == .executable)
  | none => if c.directory p then .file (tool.listing c p) false else .missing

end Tool

/-- The names at which two commits may differ. -/
def touched (source revision : Commit) : List Path :=
  (source.tree.keys ++ revision.tree.keys).filter fun p => source.at p != revision.at p

/-- Each changed name has the source's version, and there is one: the patch applies as it was made. -/
def fits (source revision : Commit) (target : View) : Bool :=
  touched source revision != [] && (touched source revision).all fun p => target p == source.at p

/-- `git` with patches that apply as they were made, and without renames. -/
def plainTool : Tool where
  applies := fits
  applyCached source revision base :=
    if fits source revision base.at then
      some (treeOf (fun p => if p ∈ touched source revision then revision.at p else base.at p)
        (base.tree.keys ++ touched source revision))
    else none
  renamed _ _ _ := false
  listing _ _ := []

/-- The working files that the index tracks. -/
def tracked (index : View) (files : Files) : View := fun p =>
  if (index p).isSome then files.view p else none

/-! ### Effects -/

inductive Effect
  | updateRef (c : Commit)
  | unlink (p : Path)
  | mkdir (p : Path)
  | writeBytes (p : Path) (data : Bytes)
  | chmod (p : Path) (executable : Bool)
  | reset (c : Commit) (paths : List Path)
  | journal (j : Journal)

/-- Something that is no directory stands where the name has a directory. -/
def blocked (files : Files) (p : Path) : Bool :=
  (ancestors p).any fun q => (files q).any (· != .directory)

/-- `mkdir(parents=True, exist_ok=True)` of the directory a name lies in. -/
def withParents (files : Files) (p : Path) : Files := fun q =>
  if q ∈ ancestors p ∧ files q = none then some .directory else files q

theorem withParents_self (files : Files) (p : Path) : withParents files p p = files p :=
  if_neg fun hboth => not_mem_ancestors_self p hboth.1

/-- `write_bytes`: a new file is not executable, an old one keeps its mode. -/
def written (data : Bytes) : Option Node → Option Node
  | none => some (.file data false)
  | some (.file _ executable) => some (.file data executable)
  | some _ => none

/-- `chmod`. -/
def moded (executable : Bool) : Option Node → Option Node
  | some (.file data _) => some (.file data executable)
  | _ => none

namespace Effect

/-- One effect, or the exception it raises. A delivered name is no link when its effects start. -/
def apply (s : Shared) : Effect → Option Shared
  | updateRef c => some { s with ref := c }
  | unlink p =>
      if blocked s.files p ∨ s.files p = some .directory then none
      else some { s with files := Function.update s.files p none }
  | mkdir p =>
      if blocked s.files p then none
      else some { s with files := withParents s.files p }
  | writeBytes p data =>
      (written data (s.files p)).map fun node => { s with files := Function.update s.files p (some node) }
  | chmod p executable =>
      (moded executable (s.files p)).map fun node =>
        { s with files := Function.update s.files p (some node) }
  | reset c paths =>
      some { s with index := fun p => if covers paths p then c.at p else s.index p }
  | journal j => some { s with journal := some j }

/-- A sequence of effects, up to the first exception. -/
def run (s : Shared) (effects : List Effect) : Option Shared := effects.foldlM apply s

theorem run_append {s : Shared} {first second : List Effect} :
    run s (first ++ second) = (run s first).bind fun mid => run mid second := List.foldlM_append

theorem run_cons {s : Shared} {e : Effect} {effects : List Effect} :
    run s (e :: effects) = (e.apply s).bind fun mid => run mid effects := rfl

/-- The effects that make one delivered name what the commit shows. -/
def place (p : Path) : Identity → List Effect
  | .missing => [unlink p]
  | .file data executable => [mkdir p, writeBytes p data, chmod p executable]

/-- The effects that place all delivered names. -/
def placeAll (shown : Path → Identity) (names : List Path) : List Effect :=
  names.flatMap fun p => place p (shown p)

end Effect

/-! ### `finish_delivery` and `deliver` -/

/-- `p.is_symlink()`. -/
def linked (files : Files) (p : Path) : Bool := (files p).any fun node =>
  match node with
  | .symlink _ => true
  | _ => false

/-- A name that `finish_delivery` accepts: a product file below no link, which is still what it was
before the delivery or already what the commit shows. -/
def checkDelivered (tool : Tool) (s : Shared) (j : Journal) (p : Path) : Except ControlError Unit :=
  if (!productPath p || (ancestors p).any (linked s.files)) = true then
    .error ⟨"delivery_conflict", "Delivery path ownership changed", .reconciliation⟩
  else do
    let current ← fileIdentity s.files p
    if current ≠ j.before p ∧ current ≠ tool.shown j.revision p then
      .error ⟨"delivery_conflict", "Product changed during interrupted delivery", .reconciliation⟩
    else pure ()

/-- The effects of a delivery, from where its branch stands. -/
def deliveryEffects (tool : Tool) (s : Shared) (j : Journal) : List Effect :=
  (if s.ref = j.base then [.updateRef j.revision] else []) ++
    Effect.placeAll (tool.shown j.revision) j.paths ++
      [.reset j.revision j.paths, .journal { j with materialized := true }]

/-- The effects of `finish_delivery`, after all its checks. -/
def finishEffects (tool : Tool) (s : Shared) (j : Journal) : Except ControlError (List Effect) :=
  if s.ref ≠ j.base ∧ s.ref ≠ j.revision then
    .error ⟨"delivery_conflict",
      "Delivery reference advanced; retained commit needs merge validation", .reconciliation⟩
  else do
    j.paths.forM (checkDelivered tool s j)
    pure (deliveryEffects tool s j)

def finishDelivery (tool : Tool) (s : Shared) (j : Journal) :
    Except ControlError (Shared × Delivery) := do
  let effects ← finishEffects tool s j
  match Effect.run s effects with
  | some final => pure (final, ⟨j.revision, j.paths⟩)
  | none => .error ⟨"engine_exception", "OSError", .engine⟩

/-- What `snapshot` has recorded of a source revision. -/
structure SourceRecord where
  head : Option Commit
  dirty : List Path
  deriving DecidableEq

/-- The checks of `deliver`, and the journal of the commit it builds on the delivery parent. -/
def admitDelivery (tool : Tool) (s : Shared) (base : SourceRecord) (deliveryHead : Option Commit)
    (note : String) (candidate : Candidate) : Except ControlError Journal :=
  if deliveryHead.or base.head ≠ some s.ref then
    .error ⟨"delivery_conflict", "Shared repository advanced; validate a merge before delivery", .state⟩
  else if candidate.paths.any (fun p =>
      tool.differs s.ref.at (tracked s.index s.files) p || tool.differs s.ref.at s.index p ||
        base.dirty.contains p) = true then
    .error ⟨"delivery_conflict", "Candidate overlaps pre-existing product or index changes", .state⟩
  else if tool.applies candidate.source candidate.revision s.files.view = false then
    .error ⟨"git", "git apply --check", .environment⟩
  else do
    candidate.paths.forM fun p => (fileIdentity s.files p).map fun _ => ()
    match tool.applyCached candidate.source candidate.revision s.ref with
    | none => .error ⟨"delivery", "git apply --cached", .environment⟩
    | some tree =>
      pure { base := s.ref, revision := .after s.ref tree note, candidate,
             before := fun p => ((fileIdentity s.files p).toOption).getD .missing }

def deliver (tool : Tool) (s : Shared) (base : SourceRecord) (deliveryHead : Option Commit)
    (note : String) (candidate : Candidate) : Except ControlError (Shared × Delivery) :=
  match s.journal with
  | some j => finishDelivery tool s j
  | none =>
    if candidate.paths = [] then .ok (s, ⟨s.ref, []⟩)
    else do
      let j ← admitDelivery tool s base deliveryHead note candidate
      finishDelivery tool { s with journal := some j } j

/-! ### What the checks have seen -/

theorem forM_ok {α : Type} {f : α → Except ControlError Unit} {l : List α} :
    l.forM f = .ok () ↔ ∀ a ∈ l, f a = .ok () := by
  induction l with
  | nil => simp [pure, Except.pure]
  | cons a l ih =>
      change (f a >>= fun _ => l.forM f) = .ok () ↔ _
      rw [bind_ok]
      constructor
      · rintro ⟨_, ha, hl⟩ b hb
        rcases List.mem_cons.mp hb with rfl | hmem
        · exact ha
        · exact ih.mp hl b hmem
      · intro h
        exact ⟨(), h a List.mem_cons_self, ih.mpr fun b hb => h b (List.mem_cons_of_mem _ hb)⟩

theorem checkDelivered_ok {tool : Tool} {s : Shared} {j : Journal} {p : Path} :
    checkDelivered tool s j p = .ok () ↔ productPath p = true ∧
      (∀ q ∈ ancestors p, linked s.files q = false) ∧
      (s.files p = (j.before p).node ∨ s.files p = (tool.shown j.revision p).node) := by
  have hlinks : (ancestors p).any (linked s.files) = false ↔ ∀ q ∈ ancestors p, linked s.files q = false := by
    simp only [List.any_eq_false, Bool.not_eq_true]
  simp only [checkDelivered, guard_ok, bind_ok, pure_ok, Bool.or_eq_true, Bool.not_eq_true', not_or,
    Bool.not_eq_false, Bool.not_eq_true, hlinks, fileIdentity_ok, not_and, not_not, and_true]
  constructor
  · rintro ⟨⟨hproduct, hancestors⟩, current, hcurrent, hknown⟩
    refine ⟨hproduct, hancestors, ?_⟩
    by_cases hbefore : current = j.before p
    · exact Or.inl (hbefore ▸ hcurrent)
    · exact Or.inr (hknown hbefore ▸ hcurrent)
  · rintro ⟨hproduct, hancestors, hknown⟩
    rcases hknown with hbefore | hshown
    · exact ⟨⟨hproduct, hancestors⟩, j.before p, hbefore, fun hne => absurd rfl hne⟩
    · exact ⟨⟨hproduct, hancestors⟩, tool.shown j.revision p, hshown, fun _ => rfl⟩

theorem finishEffects_ok {tool : Tool} {s : Shared} {j : Journal} {effects : List Effect} :
    finishEffects tool s j = .ok effects ↔ (s.ref = j.base ∨ s.ref = j.revision) ∧
      (∀ p ∈ j.paths, checkDelivered tool s j p = .ok ()) ∧ effects = deliveryEffects tool s j := by
  unfold finishEffects
  rw [guard_ok, bind_ok, Decidable.not_and_iff_not_or_not, not_not, not_not]
  constructor
  · rintro ⟨href, _, hchecks, heffects⟩
    exact ⟨href, forM_ok.mp hchecks, (pure_ok.mp heffects).symm⟩
  · rintro ⟨href, hchecks, rfl⟩
    exact ⟨href, (), forM_ok.mpr hchecks, rfl⟩

/-- What `deliver` has established when it writes its journal. -/
theorem admitDelivery_ok {tool : Tool} {s : Shared} {base : SourceRecord}
    {deliveryHead : Option Commit} {note : String} {candidate : Candidate} {j : Journal}
    (h : admitDelivery tool s base deliveryHead note candidate = .ok j) :
    j.base = s.ref ∧ j.candidate = candidate ∧
      (∃ tree, tool.applyCached candidate.source candidate.revision s.ref = some tree ∧
        j.revision = .after s.ref tree note) ∧
      ∀ p ∈ candidate.paths, s.files p = (j.before p).node := by
  unfold admitDelivery at h
  simp only [guard_ok, bind_ok] at h
  obtain ⟨-, -, -, _, hidentities, h⟩ := h
  split at h
  · cases h
  · next tree htree =>
      rw [pure_ok] at h
      subst h
      refine ⟨rfl, rfl, ⟨tree, htree, rfl⟩, fun p hp => ?_⟩
      have hp := forM_ok.mp hidentities p hp
      cases hid : fileIdentity s.files p with
      | error e =>
          rw [hid] at hp
          cases hp
      | ok identity =>
          simp only [hid, Except.toOption, Option.getD_some]
          exact fileIdentity_ok.mp hid

end AutoAgents
