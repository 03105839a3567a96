import AutoAgents.BaseOverlay
import AutoAgents.BaseRun
import AutoAgents.DeliveryConsistency

/-! Adoption of the candidates of children. A parent applies the patch of each child to its index and files
and commits it; a child whose names already stand as in its revision is not applied again. An integration
that was stopped is started again from the first child. -/

namespace AutoAgents

open Base
open Git

/-- `git apply --index`: the index and the files with the patch between two commits, where it applies. -/
abbrev GitApply := (source revision : Commit) → (index files : Tree) → Option (Tree × Tree)

/-- No file stands at a directory of another. -/
def TreeLike (view : View) : Prop := ∀ p q, q ∈ ancestors p → (view p).isSome = true → view q = none

/-- A listing, with the version of a revision at the names that it changes. -/
def patchedView (source revision : Commit) (view : View) : View := fun p =>
  if revision.at p = source.at p then view p else revision.at p

/-- A patch whose names all stand as in its source applies, where the result is a tree. -/
def GitApply.Exact (apply : GitApply) : Prop := ∀ source revision (index files : Tree),
  (∀ p, revision.at p ≠ source.at p → index.lookup p = source.at p ∧ files.lookup p = source.at p) →
  TreeLike (patchedView source revision fun p => index.lookup p) →
  TreeLike (patchedView source revision fun p => files.lookup p) →
  ∃ index' files', apply source revision index files = some (index', files') ∧
    (∀ p, index'.lookup p = patchedView source revision (fun p => index.lookup p) p) ∧
    ∀ p, files'.lookup p = patchedView source revision (fun p => files.lookup p) p

/-- Where two listings differ, some name is shown: a rename is shown under its new name. -/
def Tool.Shows (tool : Tool) : Prop := ∀ old new : View, old ≠ new → ∃ p, tool.differs old new p = true

/-! ### `adopt` -/

namespace Workspace

/-- `git diff --cached --name-only`. -/
def pendingNames (tool : Tool) (ws : Workspace) : List Path :=
  (ws.head.tree.keys ++ ws.index.keys).filter (tool.differs ws.head.at fun p => ws.index.lookup p)

/-- The candidate is there already. -/
def matchesCandidate (ws : Workspace) (c : Candidate) : Bool := c.paths != [] && ws.unchanged c.revision c.paths

/-- `git apply --index`. -/
def applied (apply : GitApply) (ws : Workspace) (c : Candidate) : Except ControlError Workspace :=
  match apply c.source c.revision ws.index ws.files with
  | none => .error ⟨"git", "git apply --index", .environment⟩
  | some (index, files) => .ok { ws with index, files }

/-- `git commit`. -/
def committed (ws : Workspace) (note : String) : Except ControlError Workspace :=
  if ws.pending = true then .ok (ws.commit note) else .error ⟨"git", "git commit", .environment⟩

end Workspace

open Workspace

/-- `Workspaces.adopt`. -/
def adopt (tool : Tool) (apply : GitApply) (ws : Workspace) (c : Candidate) : Except ControlError Workspace :=
  if ws.matchesCandidate c = true then
    if ((ws.pendingNames tool).any fun name => !c.paths.contains name) = true then
      .error ⟨"integration_conflict", "Integration index contains unrelated paths", .state⟩
    else if ws.pendingNames tool = [] then .ok ws
    else ws.committed "integrate"
  else if touched c.source c.revision = [] then .ok ws
  else do
    let ws ← ws.applied apply c
    ws.committed "integrate"

/-- The candidates of a list, one after the other. -/
def integrate (tool : Tool) (apply : GitApply) (ws : Workspace) (order : List Candidate) :
    Except ControlError Workspace := order.foldlM (adopt tool apply) ws

/-- The first candidate of the list that has names is there, while the index holds names that are not its
own. -/
def Blocked (tool : Tool) (ws : Workspace) (order : List Candidate) : Prop :=
  ∃ c, order.find? (·.paths != []) = some c ∧ ws.unchanged c.revision c.paths = true ∧
    ∃ name ∈ ws.pendingNames tool, name ∉ c.paths

/-! ### Integrations that are stopped -/

/-- The parent's workspace, with the candidates that the integration under way has left. -/
structure Integration where
  workspace : Workspace
  todo : Option (List Candidate) := none

/-- The whole list is started again, in any order; the next candidate is adopted; or the integration is
stopped between applying and committing it. -/
inductive Adopting
  | restart (order : List Candidate)
  | adopt
  | apply

/-- A workspace holds a listing in its commit, its index and its files. -/
structure Holds (ws : Workspace) (view : View) : Prop where
  head : ws.head.at = view
  index : (fun p => ws.index.lookup p) = view
  files : (fun p => ws.files.lookup p) = view

inductive Integration.Step (tool : Tool) (apply : GitApply) (children : List Candidate) :
    Integration → Adopting → Integration → Prop
  | restart {s order} : order.Perm children → Step tool apply children s (.restart order) ⟨s.workspace, some order⟩
  | adopt {ws ws' c rest} : AutoAgents.adopt tool apply ws c = .ok ws' →
      Step tool apply children ⟨ws, some (c :: rest)⟩ .adopt ⟨ws', some rest⟩
  | apply {ws ws' c rest} : ws.matchesCandidate c = false → touched c.source c.revision ≠ [] →
      ws.applied apply c = .ok ws' → Step tool apply children ⟨ws, some (c :: rest)⟩ .apply ⟨ws', none⟩

def integrations (tool : Tool) (apply : GitApply) (source : Commit) (children : List Candidate) :
    System Integration Adopting where
  start s := Holds s.workspace source.at ∧ s.todo = none
  step := Integration.Step tool apply children

/-- Candidates made from one source. Each lists what it changes, and no name that one lists is, or lies
above, a name that another changes. -/
structure Separate (source : Commit) (children : List Candidate) : Prop where
  tree : TreeLike source.at
  trees : ∀ c ∈ children, TreeLike c.revision.at
  sources : ∀ c ∈ children, c.source = source
  listed : ∀ c ∈ children, ∀ p, c.revision.at p ≠ source.at p → p ∈ c.paths
  apart : ∀ c ∈ children, ∀ c' ∈ children, c ≠ c' → ∀ q ∈ c.paths, ∀ p, c'.revision.at p ≠ source.at p → ¬ q <+: p

/-- The source, overlaid with the changes of candidates. -/
def stacked (source : Commit) (cs : List Candidate) : View := overlay source.at (cs.map fun c => c.revision.at)

section

variable {tool : Tool} {apply : GitApply} {source : Commit} {children cs : List Candidate} {c h : Candidate}
  {ws ws' : Workspace} {p : Path}

theorem Separate.agree (hsep : Separate source children) (hcs : ∀ c ∈ cs, c ∈ children) :
    Agree source.at (cs.map fun c => c.revision.at) := by
  intro l hl l' hl' a hchanges hchanges'
  obtain ⟨c, hc, rfl⟩ := List.mem_map.mp hl
  obtain ⟨c', hc', rfl⟩ := List.mem_map.mp hl'
  by_cases heq : c = c'
  · rw [heq]
  · have hlisted := hsep.listed c (hcs c hc) a hchanges
    exact absurd List.prefix_rfl (hsep.apart c (hcs c hc) c' (hcs c' hc') heq a hlisted a hchanges')

/-- Below the names of one candidate, only that candidate decides. -/
theorem Separate.stacked_covered (hsep : Separate source children) (hcs : ∀ c ∈ cs, c ∈ children) (hc : c ∈ children)
    (hcovers : covers c.paths p = true) :
    stacked source cs p = if c ∈ cs then c.revision.at p else source.at p := by
  obtain ⟨q, hq, hbelow⟩ := covers_iff.mp hcovers
  have hothers : ∀ c' ∈ cs, c ≠ c' → c'.revision.at p = source.at p := by
    intro c' hc' hne
    by_contra hchanges
    exact hsep.apart c hc c' (hcs c' hc') hne q hq p hchanges hbelow
  by_cases hmem : c ∈ cs
  · rw [if_pos hmem]
    by_cases hchanges : c.revision.at p = source.at p
    · rw [hchanges]
      refine overlay_base fun l hl => ?_
      obtain ⟨c', hc', rfl⟩ := List.mem_map.mp hl
      by_cases heq : c = c'
      · rw [← heq]
        exact hchanges
      · exact hothers c' hc' heq
    · exact overlay_of_mem (hsep.agree hcs) (List.mem_map_of_mem hmem) hchanges
  · rw [if_neg hmem]
    refine overlay_base fun l hl => ?_
    obtain ⟨c', hc', rfl⟩ := List.mem_map.mp hl
    exact hothers c' hc' fun heq => hmem (heq ▸ hc')

theorem Separate.stacked_changed (hsep : Separate source children) (hcs : ∀ c ∈ cs, c ∈ children) (hc : c ∈ children)
    (hchanges : c.revision.at p ≠ source.at p) :
    stacked source cs p = if c ∈ cs then c.revision.at p else source.at p :=
  hsep.stacked_covered hcs hc (covers_of_mem (hsep.listed c hc p hchanges))

/-- What several candidates make of the source is a tree. -/
theorem Separate.stacked_treeLike (hsep : Separate source children) (hcs : ∀ c ∈ cs, c ∈ children) :
    TreeLike (stacked source cs) := by
  intro p q hq hsome
  have hbelow := (mem_ancestors.mp hq).1
  by_contra hstands
  rcases @overlay_cases _ _ _ source.at (cs.map fun c => c.revision.at) p with ⟨hnone, hp⟩ | ⟨l, hl, hchanges, hp⟩
  · rcases @overlay_cases _ _ _ source.at (cs.map fun c => c.revision.at) q with ⟨-, hqat⟩ | ⟨l', hl', hchanges', hqat⟩
    · rw [stacked, hp] at hsome
      rw [stacked, hqat] at hstands
      exact hstands (hsep.tree p q hq hsome)
    · -- The directory is a file of one candidate, which has the name below it too.
      obtain ⟨c, hc, rfl⟩ := List.mem_map.mp hl'
      rw [stacked, hp, ← hnone _ hl'] at hsome
      rw [stacked, hqat] at hstands
      exact hstands (hsep.trees c (hcs c hc) p q hq hsome)
  · obtain ⟨c, hc, rfl⟩ := List.mem_map.mp hl
    rw [stacked, hp] at hsome
    rcases @overlay_cases _ _ _ source.at (cs.map fun c => c.revision.at) q with ⟨hnone', hqat⟩ | ⟨l', hl', hchanges', hqat⟩
    · rw [stacked, hqat, ← hnone' _ hl] at hstands
      exact hstands (hsep.trees c (hcs c hc) p q hq hsome)
    · obtain ⟨c', hc', rfl⟩ := List.mem_map.mp hl'
      rw [stacked, hqat] at hstands
      by_cases heq : c' = c
      · subst heq
        exact hstands (hsep.trees c' (hcs c' hc') p q hq hsome)
      · have hlisted := hsep.listed c' (hcs c' hc') q hchanges'
        exact hsep.apart c' (hcs c' hc') c (hcs c hc) heq q hlisted p hchanges hbelow

/-! ### The states that are reached -/

/-- The candidates that are adopted, and those that are applied but not committed. -/
structure Reached (source : Commit) (children : List Candidate) (ws : Workspace) (done half : List Candidate) :
    Prop where
  known : ∀ c ∈ half ++ done, c ∈ children
  fresh : ∀ c ∈ half, c ∉ done ∧ ∃ p, c.revision.at p ≠ source.at p
  head : ws.head.at = stacked source done
  index : (fun p => ws.index.lookup p) = stacked source (half ++ done)
  files : (fun p => ws.files.lookup p) = stacked source (half ++ done)

/-- The patch of a candidate is empty when it changes nothing. -/
theorem touched_eq_nil {source revision : Commit} :
    touched source revision = [] ↔ ∀ p, revision.at p = source.at p := by
  rw [touched, List.filter_eq_nil_iff]
  constructor
  · intro h p
    by_cases hkey : p ∈ source.tree.keys ++ revision.tree.keys
    · exact (by simpa using h p hkey : source.at p = revision.at p).symm
    · obtain ⟨hsource, hrevision⟩ := not_or.mp (mt List.mem_append.mpr hkey)
      exact (AList.lookup_eq_none.mpr hrevision).trans (AList.lookup_eq_none.mpr hsource).symm
  · intro h p _
    simp [h p]

/-- A candidate without names changes nothing. -/
theorem Separate.idle (hsep : Separate source children) (hc : c ∈ children) (hpaths : c.paths = []) (p : Path) :
    c.revision.at p = source.at p := by
  by_contra hchanges
  have hlisted := hsep.listed c hc p hchanges
  rw [hpaths] at hlisted
  cases hlisted

namespace Reached

variable {done half : List Candidate}

theorem at_index (hr : Reached source children ws done half) (p : Path) :
    ws.index.lookup p = stacked source (half ++ done) p := congrFun hr.index p

theorem at_files (hr : Reached source children ws done half) (p : Path) :
    ws.files.lookup p = stacked source (half ++ done) p := congrFun hr.files p

theorem at_tracked (hr : Reached source children ws done half) (p : Path) :
    ws.tracked p = stacked source (half ++ done) p := by
  rw [Workspace.tracked, hr.at_index, hr.at_files]
  cases stacked source (half ++ done) p <;> rfl

/-- A candidate stands as in its revision when it is there, or changes nothing. -/
theorem unchanged_iff (hsep : Separate source children) (hr : Reached source children ws done half)
    (hc : c ∈ children) : ws.unchanged c.revision c.paths = true ↔
      c ∈ half ++ done ∨ ∀ p, c.revision.at p = source.at p := by
  rw [unchanged, List.all_eq_true]
  constructor
  · intro hall
    by_contra hneither
    obtain ⟨hmem, hchanges⟩ := not_or.mp hneither
    obtain ⟨p, hp⟩ := not_forall.mp hchanges
    have hcovers := covers_of_mem (hsep.listed c hc p hp)
    have htracked : ws.tracked p = source.at p := by
      rw [hr.at_tracked, hsep.stacked_covered hr.known hc hcovers, if_neg hmem]
    have hkey : p ∈ c.revision.tree.keys ++ ws.index.keys := by
      by_contra hout
      obtain ⟨hrevision, hindex⟩ := not_or.mp (mt List.mem_append.mpr hout)
      have hnone : ws.index.lookup p = none := AList.lookup_eq_none.mpr hindex
      have hrevision : c.revision.at p = none := AList.lookup_eq_none.mpr hrevision
      rw [Workspace.tracked, hnone] at htracked
      exact hp (hrevision.trans htracked)
    have hsame := hall p hkey
    rw [hcovers, htracked] at hsame
    exact hp (by simpa using hsame)
  · intro hthere p _
    by_cases hcovers : covers c.paths p = true
    · have htracked := hr.at_tracked p
      rw [hsep.stacked_covered hr.known hc hcovers] at htracked
      rw [htracked, hcovers]
      split
      · simp
      · next hmem => simp [hthere.resolve_left hmem p]
    · simp [hcovers]

/-- Where something is applied and not committed, the index shows it. -/
theorem pending_ne_nil (hshows : tool.Shows) (hsep : Separate source children)
    (hr : Reached source children ws done half) (hhalf : half ≠ []) : ws.pendingNames tool ≠ [] := by
  obtain ⟨h, hh⟩ := List.exists_mem_of_ne_nil half hhalf
  obtain ⟨hnot, p, hchanges⟩ := hr.fresh h hh
  have hmem := hr.known h (List.mem_append_left done hh)
  have hdone : ∀ c ∈ done, c ∈ children := fun c hc => hr.known c (List.mem_append_right half hc)
  have hne : ws.head.at ≠ fun p => ws.index.lookup p := by
    intro heq
    have hhead := congrFun hr.head p
    rw [hsep.stacked_changed hdone hmem hchanges, if_neg hnot] at hhead
    have hindex := hr.at_index p
    rw [hsep.stacked_changed hr.known hmem hchanges, if_pos (List.mem_append_left done hh)] at hindex
    exact hchanges (hindex.symm.trans ((congrFun heq p).symm.trans hhead))
  obtain ⟨name, hdiffers⟩ := hshows _ _ hne
  refine List.ne_nil_of_mem (List.mem_filter.mpr ⟨?_, hdiffers⟩)
  by_contra hout
  obtain ⟨hhead, hindex⟩ := not_or.mp (mt List.mem_append.mpr hout)
  have hhead : ws.head.at name = none := AList.lookup_eq_none.mpr hhead
  have hindex : ws.index.lookup name = none := AList.lookup_eq_none.mpr hindex
  simp [Tool.differs, hhead, hindex] at hdiffers

/-- With nothing left to commit, the index is that of the commit. -/
theorem pending_nil (hr : Reached source children ws done []) : ws.pendingNames tool = [] := by
  refine List.filter_eq_nil_iff.mpr fun name _ => ?_
  have hhead := congrFun hr.head name
  have hindex := hr.at_index name
  rw [List.nil_append] at hindex
  simp [Tool.differs, hhead, hindex]

/-- The index is committed as it is. -/
theorem committed_ok (hpending : ws.pendingNames tool ≠ []) (hr : Reached source children ws done half)
    (note : String) : ∃ ws', ws.committed note = .ok ws' ∧ Reached source children ws' (half ++ done) [] := by
  obtain ⟨name, hname⟩ := List.exists_mem_of_ne_nil _ hpending
  obtain ⟨hkey, hdiffers⟩ := List.mem_filter.mp hname
  simp only [Tool.differs, Bool.and_eq_true] at hdiffers
  have hcommits : ws.pending = true := List.any_eq_true.mpr ⟨name, hkey, hdiffers.1⟩
  exact ⟨ws.commit note, if_pos hcommits, hr.known, fun _ hc => absurd hc List.not_mem_nil, hr.index, hr.index, hr.files⟩

/-- A candidate that changes something and is not there applies. -/
theorem applied_ok (hexact : apply.Exact) (hsep : Separate source children)
    (hr : Reached source children ws done half) (hc : c ∈ children) (hnot : c ∉ half ++ done)
    (hchanges : ∃ p, c.revision.at p ≠ source.at p) :
    ∃ ws', ws.applied apply c = .ok ws' ∧ Reached source children ws' done (c :: half) := by
  have hcons : ∀ x ∈ c :: (half ++ done), x ∈ children := List.forall_mem_cons.mpr ⟨hc, hr.known⟩
  have hpatched : patchedView source c.revision (stacked source (half ++ done)) =
      stacked source (c :: (half ++ done)) := rfl
  have htree := hsep.stacked_treeLike hcons
  have hbase : ∀ p, c.revision.at p ≠ source.at p → stacked source (half ++ done) p = source.at p := by
    intro p hp
    rw [hsep.stacked_changed hr.known hc hp, if_neg hnot]
  obtain ⟨index', files', happly, hindex, hfiles⟩ := hexact source c.revision ws.index ws.files
    (fun p hp => ⟨(hr.at_index p).trans (hbase p hp), (hr.at_files p).trans (hbase p hp)⟩)
    (by rw [hr.index, hpatched]; exact htree) (by rw [hr.files, hpatched]; exact htree)
  rw [hr.index] at hindex
  rw [hr.files] at hfiles
  refine ⟨{ ws with index := index', files := files' }, ?_, hcons, ?_, hr.head, funext hindex, funext hfiles⟩
  · rw [applied, hsep.sources c hc, happly]
  · exact List.forall_mem_cons.mpr ⟨⟨fun hmem => hnot (List.mem_append_right half hmem), hchanges⟩, hr.fresh⟩

/-- Adoption of one candidate, where a candidate that matches finds no names of others in the index. -/
theorem adopt_ok (hexact : apply.Exact) (hshows : tool.Shows) (hsep : Separate source children)
    (hr : Reached source children ws done half) (hc : c ∈ children)
    (hfree : ws.matchesCandidate c = true → ∀ name ∈ ws.pendingNames tool, name ∈ c.paths) :
    ∃ ws' done' half', adopt tool apply ws c = .ok ws' ∧ Reached source children ws' done' half' ∧
      (∀ x ∈ half ++ done, x ∈ half' ++ done') ∧
      (c ∈ half' ++ done' ∨ ∀ p, c.revision.at p = source.at p) ∧
      (half' = [] ∨ c.paths = [] ∧ ws' = ws ∧ half' = half) := by
  by_cases hmatches : ws.matchesCandidate c = true
  · have hthere : c ∈ half ++ done ∨ ∀ p, c.revision.at p = source.at p := by
      simp only [matchesCandidate, Bool.and_eq_true] at hmatches
      exact (hr.unchanged_iff hsep hc).mp hmatches.2
    have hforeign : ((ws.pendingNames tool).any fun name => !c.paths.contains name) = false := by
      simpa using hfree hmatches
    rw [adopt, if_pos hmatches, hforeign, if_neg Bool.false_ne_true]
    by_cases hpending : ws.pendingNames tool = []
    · have hhalf : half = [] := by
        by_contra hne
        exact hr.pending_ne_nil hshows hsep hne hpending
      exact ⟨ws, done, half, if_pos hpending, hr, fun _ hx => hx, hthere, Or.inl hhalf⟩
    · obtain ⟨ws', hcommit, hr'⟩ := hr.committed_ok hpending "integrate"
      exact ⟨ws', half ++ done, [], by rw [if_neg hpending, hcommit], hr', fun _ hx => hx, hthere, Or.inl rfl⟩
  · rw [adopt, if_neg hmatches, hsep.sources c hc]
    by_cases hidle : ∀ p, c.revision.at p = source.at p
    · have hpaths : c.paths = [] := by
        by_contra hne
        have hunchanged := (hr.unchanged_iff hsep hc).mpr (Or.inr hidle)
        exact hmatches (by simp [matchesCandidate, hne, hunchanged])
      exact ⟨ws, done, half, if_pos (touched_eq_nil.mpr hidle), hr, fun _ hx => hx, Or.inr hidle, Or.inr ⟨hpaths, rfl, rfl⟩⟩
    · have hnot : c ∉ half ++ done := by
        intro hmem
        have hunchanged := (hr.unchanged_iff hsep hc).mpr (Or.inl hmem)
        have hpaths : c.paths ≠ [] := fun hnil => hidle (hsep.idle hc hnil)
        exact hmatches (by simp [matchesCandidate, hpaths, hunchanged])
      obtain ⟨ws₁, happlied, hr₁⟩ := hr.applied_ok hexact hsep hc hnot (not_forall.mp hidle)
      obtain ⟨ws', hcommit, hr'⟩ :=
        hr₁.committed_ok (hr₁.pending_ne_nil hshows hsep (List.cons_ne_nil c half)) "integrate"
      refine ⟨ws', c :: half ++ done, [], ?_, hr', fun x hx => List.mem_cons_of_mem c hx,
        Or.inl List.mem_cons_self, Or.inl rfl⟩
      rw [if_neg (mt touched_eq_nil.mp hidle), happlied]
      exact hcommit

end Reached

/-! ### A whole list -/

/-- An adoption that succeeds has met no names of others. -/
theorem adopt_free (h : adopt tool apply ws c = .ok ws') (hmatches : ws.matchesCandidate c = true) :
    ∀ name ∈ ws.pendingNames tool, name ∈ c.paths := by
  rw [adopt, if_pos hmatches, guard_ok] at h
  simpa using h.1

theorem adopt_conflict {name : Path} (hmatches : ws.matchesCandidate c = true)
    (hname : name ∈ ws.pendingNames tool) (hforeign : name ∉ c.paths) :
    adopt tool apply ws c =
      .error ⟨"integration_conflict", "Integration index contains unrelated paths", .state⟩ := by
  rw [adopt, if_pos hmatches, if_pos]
  exact List.any_eq_true.mpr ⟨name, hname, by simpa using hforeign⟩

section

variable {done half order : List Candidate}

theorem integrate_ok (hexact : apply.Exact) (hshows : tool.Shows) (hsep : Separate source children)
    (hr : Reached source children ws done half) (horder : ∀ c ∈ order, c ∈ children)
    (hfree : ¬ Blocked tool ws order) :
    ∃ ws' done' half', integrate tool apply ws order = .ok ws' ∧ Reached source children ws' done' half' ∧
      (∀ x ∈ half ++ done, x ∈ half' ++ done') ∧
      (∀ c ∈ order, c ∈ half' ++ done' ∨ ∀ p, c.revision.at p = source.at p) ∧
      (half' = [] ∨ half' = half ∧ ∀ c ∈ order, c.paths = []) := by
  induction order generalizing ws done half with
  | nil =>
      exact ⟨ws, done, half, rfl, hr, fun _ hx => hx, fun _ hc => absurd hc List.not_mem_nil,
        Or.inr ⟨rfl, fun _ hc => absurd hc List.not_mem_nil⟩⟩
  | cons c rest ih =>
      obtain ⟨hc, hrest⟩ := List.forall_mem_cons.mp horder
      have hfirst : ws.matchesCandidate c = true → ∀ name ∈ ws.pendingNames tool, name ∈ c.paths := by
        intro hmatches name hname
        by_contra hforeign
        rw [matchesCandidate, Bool.and_eq_true] at hmatches
        exact hfree ⟨c, List.find?_cons_of_pos hmatches.1, hmatches.2, name, hname, hforeign⟩
      obtain ⟨ws₁, done₁, half₁, hadopt, hr₁, hsub, hthere, hhalf⟩ := hr.adopt_ok hexact hshows hsep hc hfirst
      have hfree₁ : ¬ Blocked tool ws₁ rest := by
        rcases hhalf with rfl | ⟨hpaths, rfl, -⟩
        · rintro ⟨x, -, -, name, hname, -⟩
          rw [hr₁.pending_nil] at hname
          cases hname
        · rintro ⟨x, hfind, hblocked⟩
          exact hfree ⟨x, by rw [List.find?_cons_of_neg (by simp [hpaths]), hfind], hblocked⟩
      obtain ⟨ws', done', half', hfold, hr', hsub', hthere', hhalf'⟩ := ih hr₁ hrest hfree₁
      refine ⟨ws', done', half', ?_, hr', fun x hx => hsub' x (hsub x hx), ?_, ?_⟩
      · rw [integrate, List.foldlM_cons, hadopt]
        exact hfold
      · exact List.forall_mem_cons.mpr ⟨hthere.imp_left (hsub' c), hthere'⟩
      · rcases hhalf' with rfl | ⟨rfl, hall⟩
        · exact Or.inl rfl
        · rcases hhalf with rfl | ⟨hpaths, -, rfl⟩
          · exact Or.inl rfl
          · exact Or.inr ⟨rfl, List.forall_mem_cons.mpr ⟨hpaths, hall⟩⟩

/-- A blocked list fails at its first candidate that has names. -/
theorem integrate_blocked (hsep : Separate source children) (horder : ∀ c ∈ order, c ∈ children)
    (h : Blocked tool ws order) : integrate tool apply ws order =
      .error ⟨"integration_conflict", "Integration index contains unrelated paths", .state⟩ := by
  induction order with
  | nil =>
      obtain ⟨c, hfind, -⟩ := h
      cases hfind
  | cons c rest ih =>
      obtain ⟨hc, hrest⟩ := List.forall_mem_cons.mp horder
      obtain ⟨x, hfind, hthere, name, hname, hforeign⟩ := h
      rw [integrate, List.foldlM_cons]
      by_cases hpaths : c.paths = []
      · have hskip : adopt tool apply ws c = .ok ws := by
          have hmatches : ws.matchesCandidate c = false := by simp [matchesCandidate, hpaths]
          rw [adopt, hmatches, if_neg Bool.false_ne_true, hsep.sources c hc,
            if_pos (touched_eq_nil.mpr (hsep.idle hc hpaths))]
        rw [List.find?_cons_of_neg (by simp [hpaths])] at hfind
        rw [hskip]
        exact ih hrest ⟨x, hfind, hthere, name, hname, hforeign⟩
      · have hnames : (c.paths != []) = true := by simpa using hpaths
        have hhead : (c :: rest).find? (·.paths != []) = some c := List.find?_cons_of_pos hnames
        obtain rfl := Option.some.inj (hhead.symm.trans hfind)
        rw [adopt_conflict (by rw [matchesCandidate, hnames, hthere]; rfl) hname hforeign]
        rfl

/-- A whole list ends with the source overlaid with all changes, unless it is blocked. -/
theorem Reached.integrate_iff (hexact : apply.Exact) (hshows : tool.Shows) (hsep : Separate source children)
    (hr : Reached source children ws done half) (horder : order.Perm children) :
    (∃ ws', integrate tool apply ws order = .ok ws' ∧ Holds ws' (stacked source children)) ↔
      ¬ Blocked tool ws order := by
  have hmem : ∀ c ∈ order, c ∈ children := fun c hc => horder.mem_iff.mp hc
  constructor
  · rintro ⟨ws', hok, -⟩ hblocked
    rw [integrate_blocked hsep hmem hblocked] at hok
    cases hok
  · intro hfree
    obtain ⟨ws', done', half', hok, hr', -, hthere, hhalf⟩ := integrate_ok hexact hshows hsep hr hmem hfree
    have hnone : half' = [] := by
      rcases hhalf with hnil | ⟨-, hall⟩
      · exact hnil
      · refine List.eq_nil_iff_forall_not_mem.mpr fun c hc => ?_
        have hchild := hr'.known c (List.mem_append_left _ hc)
        obtain ⟨p, hp⟩ := (hr'.fresh c hc).2
        exact hp (hsep.idle hchild (hall c (horder.mem_iff.mpr hchild)) p)
    subst hnone
    have hall : stacked source done' = stacked source children := by
      refine overlay_congr (hsep.agree fun _ h => h) (fun l hl => ?_) fun l hl => ?_
      · obtain ⟨c, hc, rfl⟩ := List.mem_map.mp hl
        exact List.mem_map_of_mem (hr'.known c hc)
      · obtain ⟨c, hc, rfl⟩ := List.mem_map.mp hl
        exact (hthere c (horder.mem_iff.mpr hc)).imp_left fun hdone => List.mem_map_of_mem hdone
    exact ⟨ws', hok, hr'.head.trans hall, hr'.index.trans hall, hr'.files.trans hall⟩

end

/-! ### Runs -/

/-- A turn applies the patch of a candidate. -/
def Applies (c : Candidate) (e : Taken Integration Adopting) : Prop :=
  (∃ rest, e.before.todo = some (c :: rest)) ∧ (∀ order, e.label ≠ .restart order) ∧
    e.before.workspace.matchesCandidate c = false ∧ touched c.source c.revision ≠ []

/-- What is reached by an integration that is stopped and started again. -/
structure Under (source : Commit) (children : List Candidate) (s : Integration) (done half : List Candidate) :
    Prop where
  reached : Reached source children s.workspace done half
  todo : ∀ order ∈ s.todo, ∀ c ∈ order, c ∈ children

section

variable {s t : Integration} {label : Adopting} {trace : List (Taken Integration Adopting)} {done half : List Candidate}

theorem Under.next (hexact : apply.Exact) (hshows : tool.Shows) (hsep : Separate source children)
    (hu : Under source children s done half) (hstep : (integrations tool apply source children).step s label t) :
    ∃ done' half', Under source children t done' half' ∧ (∀ x ∈ half ++ done, x ∈ half' ++ done') ∧
      ∀ c, Applies c ⟨s, label, t⟩ → c ∉ half ++ done ∧ c ∈ half' ++ done' := by
  have happlies : ∀ c, Applies c ⟨s, label, t⟩ → c ∈ children ∧ c ∉ half ++ done ∧
      ∃ p, c.revision.at p ≠ source.at p := by
    rintro c ⟨⟨rest, htodo⟩, -, hmatches, htouched⟩
    have hc := hu.todo _ htodo c List.mem_cons_self
    rw [hsep.sources c hc] at htouched
    have hchanges := not_forall.mp (mt touched_eq_nil.mpr htouched)
    refine ⟨hc, fun hmem => ?_, hchanges⟩
    have hunchanged := (hu.reached.unchanged_iff hsep hc).mpr (Or.inl hmem)
    have hpaths : c.paths ≠ [] := fun hnil => hchanges.elim fun p hp => hp (hsep.idle hc hnil p)
    have hmatches : s.workspace.matchesCandidate c = false := hmatches
    simp [matchesCandidate, hpaths, hunchanged] at hmatches
  cases hstep with
  | @restart _ order hperm =>
      refine ⟨done, half, ⟨hu.reached, ?_⟩, fun _ hx => hx, fun c hc => absurd rfl (hc.2.1 order)⟩
      rintro _ ⟨⟩ c hc
      exact hperm.mem_iff.mp hc
  | @adopt ws ws' c rest hadopt =>
      have hc := hu.todo _ rfl c List.mem_cons_self
      obtain ⟨ws₁, done', half', hadopt', hr', hsub, hthere, -⟩ :=
        hu.reached.adopt_ok hexact hshows hsep hc (adopt_free hadopt)
      obtain rfl := Except.ok.inj (hadopt.symm.trans hadopt')
      refine ⟨done', half', ⟨hr', ?_⟩, hsub, fun x hx => ?_⟩
      · rintro _ ⟨⟩ x hx
        exact hu.todo _ rfl x (List.mem_cons_of_mem c hx)
      · obtain ⟨-, hnot, p, hp⟩ := happlies x hx
        obtain ⟨⟨rest', hsame⟩, -⟩ := hx
        obtain ⟨rfl, -⟩ := List.cons.inj (Option.some.inj hsame)
        exact ⟨hnot, hthere.resolve_right fun hidle => hp (hidle p)⟩
  | @apply ws ws' c rest hmatches htouched happly =>
      obtain ⟨hc, hnot, hchanges⟩ := happlies c ⟨⟨rest, rfl⟩, fun _ => nofun, hmatches, htouched⟩
      obtain ⟨ws₁, happly', hr'⟩ := hu.reached.applied_ok hexact hsep hc hnot hchanges
      obtain rfl := Except.ok.inj (happly.symm.trans happly')
      refine ⟨done, c :: half, ⟨hr', fun _ h => nomatch h⟩, fun x hx => List.mem_cons_of_mem c hx, fun x hx => ?_⟩
      obtain ⟨⟨rest', hsame⟩, -⟩ := hx
      obtain ⟨rfl, -⟩ := List.cons.inj (Option.some.inj hsame)
      exact ⟨hnot, List.mem_cons_self⟩

theorem Under.start (hs : (integrations tool apply source children).start s) : Under source children s [] [] where
  reached :=
    { known := fun _ hc => absurd hc List.not_mem_nil
      fresh := fun _ hc => absurd hc List.not_mem_nil
      head := hs.1.head
      index := hs.1.index
      files := hs.1.files }
  todo := by
    rw [hs.2]
    exact fun _ h => nomatch h

theorem integrations_under (hexact : apply.Exact) (hshows : tool.Shows) (hsep : Separate source children)
    (h : (integrations tool apply source children).Reachable s) : ∃ done half, Under source children s done half := by
  have hkeep : ∀ (s : Integration) (label : Adopting) (t : Integration), (∃ done half, Under source children s done half) →
      (integrations tool apply source children).step s label t → ∃ done half, Under source children t done half := by
    rintro s label t ⟨done, half, hu⟩ hstep
    obtain ⟨done', half', hu', -⟩ := hu.next hexact hshows hsep hstep
    exact ⟨done', half', hu'⟩
  have hstart : ∀ s, (integrations tool apply source children).start s → ∃ done half, Under source children s done half :=
    fun s hs => ⟨[], [], Under.start hs⟩
  exact h.invariant hstart hkeep

/-- The patch of a candidate is applied at most once over a whole run. -/
theorem applies_once (hexact : apply.Exact) (hshows : tool.Shows) (hsep : Separate source children)
    (h : (integrations tool apply source children).Run trace s) :
    trace.Pairwise fun e d => ∀ c, Applies c e → ¬ Applies c d := by
  refine h.pairwise fun trace s label t hrun hstep e he c happlied hagain => ?_
  obtain ⟨hbefore, hthen⟩ := hrun.taken he
  obtain ⟨done₀, half₀, hu₀⟩ := integrations_under hexact hshows hsep hbefore
  obtain ⟨done₁, half₁, hu₁, -, hfirst⟩ := hu₀.next hexact hshows hsep hthen
  have hstays : ∃ done half, Under source children s done half ∧ c ∈ half ++ done := by
    refine hrun.lasts (P := fun s => ∃ done half, Under source children s done half ∧ c ∈ half ++ done)
      (fun s label t hs hstep => ?_) he ⟨done₁, half₁, hu₁, (hfirst c happlied).2⟩
    obtain ⟨done, half, hu, hc⟩ := hs
    obtain ⟨done', half', hu', hsub, -⟩ := hu.next hexact hshows hsep hstep
    exact ⟨done', half', hu', hsub c hc⟩
  obtain ⟨done, half, hu, hc⟩ := hstays
  obtain ⟨_, _, -, -, honce⟩ := hu.next hexact hshows hsep hstep
  exact (honce c hagain).1 hc

end

end

/-! ### Two children -/

/-- `git apply` of patches all of whose names stand as in the source. -/
def plainApply : GitApply := fun source revision index files =>
  if ((touched source revision).all fun p => index.lookup p == source.at p && files.lookup p == source.at p) = true then
    some (treeOf (patchedView source revision fun p => index.lookup p) (index.keys ++ touched source revision),
      treeOf (patchedView source revision fun p => files.lookup p) (files.keys ++ touched source revision))
  else none

theorem plainApply_exact : plainApply.Exact := by
  intro source revision index files hbase _ _
  have htouched : ∀ p ∈ touched source revision, revision.at p ≠ source.at p := by
    intro p hp
    exact fun heq => by simpa [heq] using (List.mem_filter.mp hp).2
  have hlookup : ∀ (base : Tree) p, (treeOf (patchedView source revision fun p => base.lookup p)
      (base.keys ++ touched source revision)).lookup p = patchedView source revision (fun p => base.lookup p) p := by
    intro base p
    rw [lookup_treeOf]
    split
    · rfl
    · next hmem =>
        obtain ⟨hbase, hpatch⟩ := not_or.mp (mt List.mem_append.mpr hmem)
        have hsame : revision.at p = source.at p := by
          by_contra hchanges
          refine hpatch (List.mem_filter.mpr ⟨?_, by simpa using fun heq => hchanges heq.symm⟩)
          by_contra hout
          obtain ⟨hsource, hrevision⟩ := not_or.mp (mt List.mem_append.mpr hout)
          exact hchanges ((AList.lookup_eq_none.mpr hrevision).trans (AList.lookup_eq_none.mpr hsource).symm)
        rw [patchedView, if_pos hsame]
        exact (AList.lookup_eq_none.mpr hbase).symm
  have hfits : ((touched source revision).all fun p =>
      index.lookup p == source.at p && files.lookup p == source.at p) = true := by
    refine List.all_eq_true.mpr fun p hp => ?_
    obtain ⟨hindex, hfiles⟩ := hbase p (htouched p hp)
    simp [hindex, hfiles]
  exact ⟨_, _, if_pos hfits, hlookup index, hlookup files⟩

theorem plainTool_shows : plainTool.Shows := by
  intro old new hne
  obtain ⟨p, hp⟩ := Function.ne_iff.mp hne
  exact ⟨p, by simpa [Tool.differs, plainTool] using hp⟩

/-- Two children that each add a file. -/
def siblings : List Candidate := [newFile ["a"] ⟨.regular, [1]⟩, newFile ["b"] ⟨.regular, [2]⟩]

def emptyParent : Workspace := ⟨.initial ∅ "snapshot", ∅, ∅, fun _ => false⟩

theorem newFile_at (a p : Path) (entry : Entry) :
    (newFile a entry).revision.at p = if p = a then some entry else none := by
  show (AList.singleton a entry : Tree).lookup p = _
  rw [← AList.insert_empty]
  split
  · next h => rw [h, AList.lookup_insert]
  · next h =>
      rw [AList.lookup_insert_ne h]
      rfl

theorem newFile_changes {a p : Path} {entry : Entry}
    (h : (newFile a entry).revision.at p ≠ Commit.at (.initial ∅ "snapshot") p) : p = a := by
  rw [newFile_at] at h
  by_contra hne
  exact h (if_neg hne)

theorem newFile_treeLike (a : Path) (entry : Entry) : TreeLike (newFile a entry).revision.at := by
  intro p q hq hsome
  rw [newFile_at] at hsome ⊢
  obtain rfl : p = a := by
    by_contra hne
    rw [if_neg hne] at hsome
    cases hsome
  refine if_neg fun heq => ?_
  subst heq
  exact not_mem_ancestors_self q hq

theorem siblings_separate : Separate (.initial ∅ "snapshot") siblings where
  tree := fun _ _ _ hsome => absurd hsome Bool.false_ne_true
  trees := by simp [siblings, newFile_treeLike]
  sources := by simp [siblings, newFile]
  listed := by
    simp only [siblings, List.forall_mem_cons]
    exact ⟨fun p hp => List.mem_singleton.mpr (newFile_changes hp),
      fun p hp => List.mem_singleton.mpr (newFile_changes hp), fun _ h => absurd h List.not_mem_nil⟩
  apart := by
    intro c hc c' hc' hne q hq p hp hbelow
    simp only [siblings, List.mem_cons, List.not_mem_nil, or_false] at hc hc'
    rcases hc with rfl | rfl <;> rcases hc' with rfl | rfl
    · exact hne rfl
    · rw [List.mem_singleton.mp hq, newFile_changes hp] at hbelow
      revert hbelow
      decide
    · rw [List.mem_singleton.mp hq, newFile_changes hp] at hbelow
      revert hbelow
      decide
    · exact hne rfl

end AutoAgents
