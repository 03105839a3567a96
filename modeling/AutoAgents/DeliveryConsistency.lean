import AutoAgents.DeliveryRecovery
import AutoAgents.WorkspaceCandidate

/-! What a completed delivery leaves in the shared checkout. The commit comes from a patch between two
trees, the files and the index from a list of names; they agree exactly when the list has every name
that the patch changes, and the checkout was already what the list leaves out. -/

namespace AutoAgents

open Base
open Git

/-- The shared checkout holds the revision's version of every changed name, in its commit, its index and
its files, and what it held of every other name. -/
structure Delivered (source revision : View) (s final : Shared) : Prop where
  changed : ∀ p, source p ≠ revision p →
    final.ref.at p = revision p ∧ final.index p = revision p ∧ final.files.view p = revision p
  kept : ∀ p, source p = revision p →
    final.ref.at p = s.ref.at p ∧ final.index p = s.index p ∧ final.files.view p = s.files.view p

/-- The version that a listed name has in the files after a delivery: a link has become a file with the
link's text. -/
def Tool.left (tool : Tool) (c : Commit) : View := fun p => (tool.shown c p).node.bind Node.entry

/-- A patch changes nothing but the names at which its two commits differ. -/
def Tool.Local (tool : Tool) : Prop :=
  ∀ source revision base tree, tool.applyCached source revision base = some tree →
    ∀ p, source.at p = revision.at p → tree.lookup p = base.at p

/-- The parent of a delivery with the candidate's patch applied. -/
def patched (tool : Tool) (s : Shared) (c : Candidate) (note : String) : Commit :=
  if c.paths = [] then s.ref
  else match tool.applyCached c.source c.revision s.ref with
    | some tree => .after s.ref tree note
    | none => s.ref

/-- When the names of a delivery fit its patch and the checkout. -/
structure Deliverable (tool : Tool) (s : Shared) (parent : Commit) (source revision : View)
    (names : List Path) : Prop where
  /-- The patch gives every changed name its new version. -/
  merged : ∀ p, source p ≠ revision p → parent.at p = revision p
  /-- A changed name that is not listed is in the checkout what it becomes in the commit. -/
  covered : ∀ p, source p ≠ revision p → p ∉ names →
    s.files.view p = revision p ∧ (covers names p = false → s.index p = revision p)
  /-- No listed name becomes a link, and none that goes is a directory of the commit. -/
  plain : ∀ p ∈ names, source p ≠ revision p → (∀ entry, revision p = some entry → entry.mode ≠ .symlink) ∧
    (revision p = none → parent.directory p = false)
  /-- What the names cover and the patch leaves alone holds no change of the user. -/
  idle : ∀ p, source p = revision p → (covers names p = true → s.index p = s.ref.at p) ∧
    (p ∈ names → s.files.view p = tool.left parent p)

variable {tool : Tool} {s final : Shared} {base : SourceRecord} {deliveryHead : Option Commit}
  {note : String} {c : Candidate} {receipt : Delivery}

/-- A delivery that completed is finished, from the journal it has written. -/
theorem deliver_ok (hjournal : s.journal = none) (hne : c.paths ≠ [])
    (h : deliver tool s base deliveryHead note c = .ok (final, receipt)) :
    ∃ j, j.candidate = c ∧ j.revision = patched tool s c note ∧
      (∃ tree, tool.applyCached c.source c.revision s.ref = some tree ∧ j.revision.tree = tree) ∧
      Finished tool s j final := by
  unfold deliver at h
  rw [hjournal] at h
  simp only [hne, if_false, bind_ok] at h
  obtain ⟨j, hallowed, hfinish⟩ := h
  obtain ⟨href, hcandidate, ⟨tree, htree, hrevision⟩, hbefore⟩ := admitDelivery_ok hallowed
  obtain ⟨heffects, hrun, -⟩ := finishDelivery_ok.mp hfinish
  have hproduct : ∀ p ∈ j.paths, productPath p = true :=
    fun p hp => (checkDelivered_ok.mp ((finishEffects_ok.mp heffects).2.1 p hp)).1
  have hclear : Effect.Clear s.files (tool.shown j.revision) j.paths :=
    clear_of_run (s := { s with journal := some j }) hrun
  have hstart : Underway tool s j { s with journal := some j } :=
    Underway.start href.symm (by rwa [Journal.paths, hcandidate])
  obtain ⟨-, final', hrun', hfinished⟩ := hstart.finish hproduct hclear
  obtain rfl : final' = final := Option.some.inj (hrun'.symm.trans hrun)
  refine ⟨j, hcandidate, ?_, ⟨tree, htree, by rw [hrevision]; rfl⟩, hfinished⟩
  rw [patched, if_neg hne, htree, hrevision]

theorem Finished.view_listed {j : Journal} (h : Finished tool s j final) {p : Path} (hp : p ∈ j.paths) :
    final.files.view p = tool.left j.revision p := by
  rw [Files.view, h.files.listed p hp, Tool.left]

/-- Outside the listed names, placing makes directories at most, which git does not see. -/
theorem Finished.view_other {j : Journal} (h : Finished tool s j final) {p : Path} (hp : p ∉ j.paths) :
    final.files.view p = s.files.view p := by
  by_cases hmade : s.files p = none ∧
      ∃ q ∈ j.paths, tool.shown j.revision q ≠ .missing ∧ p ∈ ancestors q
  · rw [Files.view, Files.view, h.files.made p hp hmade.1 hmade.2, hmade.1]
    rfl
  · rw [Files.view, Files.view, h.files.kept p hp hmade]

/-- What `finish_delivery` leaves at a name is the version of the commit, unless that is a link, or the
name is a directory of the commit. -/
theorem left_eq_iff (tool : Tool) (c : Commit) (p : Path) : tool.left c p = c.at p ↔
    (∀ entry, c.at p = some entry → entry.mode ≠ .symlink) ∧ (c.at p = none → c.directory p = false) := by
  cases hat : c.at p with
  | none =>
      cases hdirectory : c.directory p <;>
        simp [Tool.left, Tool.shown, hat, hdirectory, Identity.node, Node.entry]
  | some entry =>
      obtain ⟨mode, data⟩ := entry
      cases mode <;> simp [Tool.left, Tool.shown, hat, Identity.node, Node.entry]

/-- **A delivery is consistent exactly when its names fit its patch.** -/
theorem delivered_iff (hlocal : tool.Local) (hjournal : s.journal = none)
    (h : deliver tool s base deliveryHead note c = .ok (final, receipt)) :
    Delivered c.source.at c.revision.at s final ↔
      Deliverable tool s (patched tool s c note) c.source.at c.revision.at c.paths := by
  by_cases hne : c.paths = []
  · have hfinal : final = s := by
      unfold deliver at h
      simp only [hjournal, hne, if_true, Except.ok.injEq, Prod.mk.injEq] at h
      exact h.1.symm
    have hpatched : patched tool s c note = s.ref := if_pos hne
    subst hfinal
    rw [hpatched, hne]
    constructor
    · rintro ⟨hchanged, -⟩
      exact ⟨fun p hp => (hchanged p hp).1, fun p hp _ => ⟨(hchanged p hp).2.2, fun _ => (hchanged p hp).2.1⟩,
        fun p hp => absurd hp List.not_mem_nil,
        fun p _ => ⟨fun hcovers => absurd hcovers (by simp [covers]), fun hp => absurd hp List.not_mem_nil⟩⟩
    · rintro ⟨hmerged, hcovered, -, -⟩
      refine ⟨fun p hp => ?_, fun p _ => ⟨rfl, rfl, rfl⟩⟩
      obtain ⟨hview, hindex⟩ := hcovered p hp List.not_mem_nil
      exact ⟨hmerged p hp, hindex rfl, hview⟩
  · obtain ⟨j, hcandidate, hrevision, ⟨tree, htree, htreej⟩, hfinished⟩ := deliver_ok hjournal hne h
    have hpaths : j.paths = c.paths := congrArg Candidate.paths hcandidate
    have href : final.ref = patched tool s c note := hfinished.ref.trans hrevision
    have hsame : ∀ p, c.source.at p = c.revision.at p → (patched tool s c note).at p = s.ref.at p := by
      intro p hp
      rw [← hrevision, Commit.at, htreej]
      exact hlocal _ _ _ _ htree p hp
    have hindex : ∀ p, final.index p =
        if covers c.paths p then (patched tool s c note).at p else s.index p := by
      intro p
      rw [hfinished.index p, hpaths, hrevision]
    have hlisted : ∀ p ∈ c.paths, final.files.view p = tool.left (patched tool s c note) p := by
      intro p hp
      rw [hfinished.view_listed (hpaths ▸ hp), hrevision]
    have hother : ∀ p ∉ c.paths, final.files.view p = s.files.view p :=
      fun p hp => hfinished.view_other (hpaths ▸ hp)
    constructor
    · rintro ⟨hchanged, hkept⟩
      have hmerged : ∀ p, c.source.at p ≠ c.revision.at p →
          (patched tool s c note).at p = c.revision.at p := fun p hp => href ▸ (hchanged p hp).1
      refine ⟨hmerged, fun p hp hnot => ⟨?_, fun hcovers => ?_⟩, fun p hmem hp => ?_,
        fun p hp => ⟨fun hcovers => ?_, fun hmem => ?_⟩⟩
      · rw [← hother p hnot]
        exact (hchanged p hp).2.2
      · have hentry := (hchanged p hp).2.1
        rwa [hindex p, hcovers, if_neg Bool.false_ne_true] at hentry
      · have hview : tool.left (patched tool s c note) p = (patched tool s c note).at p := by
          rw [← hlisted p hmem, (hchanged p hp).2.2, hmerged p hp]
        have hplain := (left_eq_iff _ _ _).mp hview
        rwa [hmerged p hp] at hplain
      · have hentry := (hkept p hp).2.1
        rw [hindex p, hcovers, if_pos rfl, hsame p hp] at hentry
        exact hentry.symm
      · rw [← hlisted p hmem]
        exact (hkept p hp).2.2.symm
    · rintro ⟨hmerged, hcovered, hplain, hidle⟩
      refine ⟨fun p hp => ⟨href ▸ hmerged p hp, ?_, ?_⟩, fun p hp => ⟨href ▸ hsame p hp, ?_, ?_⟩⟩
      · rw [hindex p]
        split
        · exact hmerged p hp
        · next hcovers =>
            exact (hcovered p hp fun hmem => hcovers (covers_of_mem hmem)).2 (by simpa using hcovers)
      · by_cases hmem : p ∈ c.paths
        · have hleft := (left_eq_iff tool (patched tool s c note) p).mpr
            (by rw [hmerged p hp]; exact hplain p hmem hp)
          rw [hlisted p hmem, hleft, hmerged p hp]
        · rw [hother p hmem]
          exact (hcovered p hp hmem).1
      · rw [hindex p]
        split
        · next hcovers => rw [hsame p hp, (hidle p hp).1 hcovers]
        · rfl
      · by_cases hmem : p ∈ c.paths
        · rw [hlisted p hmem, (hidle p hp).2 hmem]
        · exact hother p hmem

/-! ### Deliveries of candidates -/

theorem plainTool_local : plainTool.Local := by
  intro source revision base tree htree p hp
  simp only [plainTool, Option.ite_none_right_eq_some, Option.some.injEq] at htree
  have hmem : p ∉ touched source revision := fun h => by simpa [hp] using (List.mem_filter.mp h).2
  rw [← htree.2, lookup_treeOf, if_neg hmem]
  split
  · rfl
  · next hnot =>
      rw [List.mem_append, not_or] at hnot
      exact (AList.lookup_eq_none.mpr hnot.1).symm

/-- `git` with renames detected between names whose files have the same bytes. -/
def renameTool (names : List Path) : Tool :=
  { plainTool with
    renamed := fun old new p => (old p).isSome && (new p).isNone &&
      names.any fun q => (old q).isNone && new q == old p }

/-- A source with one file. -/
def oneFile (p : Path) (data : Bytes) : Commit := .initial (AList.singleton p ⟨.regular, data⟩) "source"

/-- The worktree of the source with one file, which a worker has replaced by another. -/
def movedFile (p q : Path) (data data' : Bytes) : Workspace where
  head := oneFile p data
  index := (oneFile p data).tree
  files := AList.singleton q ⟨.regular, data'⟩
  ignored _ := false

/-- The checkout of the source with one file. -/
def oneFileCheckout (p : Path) (data : Bytes) : Shared where
  ref := oneFile p data
  index := (oneFile p data).at
  files q := if q = p then some (.file data false) else none

/-- The candidate of a worktree whose one file has new bytes. -/
def editedFile (p : Path) (data data' : Bytes) : Candidate where
  source := oneFile p data
  revision := .after (oneFile p data) (AList.singleton p ⟨.regular, data'⟩) "candidate"
  paths := [p]
  listed := listed_singleton p

end AutoAgents
