import AutoAgents.ResumeChain

/-! What an accepted chain of resumes carries: the authorities of the original, where the wrappers bring in none. -/

namespace AutoAgents.Resume

open Base

variable {φ : Type} {r : Reader φ} {store : String → Stored φ} {workflowId : String}

/-! ### The entries -/

/-- The entries of a chain: wrappers of one workflow and parent, and the original at the end. -/
structure Linked (workflowId : String) (chain : List (WorkflowHandoff φ)) : Prop where
  distinct : (chain.map WorkflowHandoff.handoffId).Nodup
  workflow : ∀ entry ∈ chain, entry.workflowId = workflowId
  parent : ∀ first ∈ chain.head?, ∀ entry ∈ chain, entry.parent = first.parent
  targets : ∃ wrappers original, chain = wrappers ++ [original] ∧ (original.target = "fix" ∨ original.target = "run") ∧
    ∀ wrapper ∈ wrappers, wrapper.target = "resume"

/-- The part of a chain before the original. -/
structure Walked (workflowId : String) (before : List (WorkflowHandoff φ)) : Prop where
  distinct : (before.map WorkflowHandoff.handoffId).Nodup
  workflow : ∀ entry ∈ before, entry.workflowId = workflowId
  parent : ∀ first ∈ before.head?, ∀ entry ∈ before, entry.parent = first.parent
  targets : ∀ wrapper ∈ before, wrapper.target = "resume"

/-- One entry is admitted, and is the original or leads on to the handoff that it names. -/
theorem follow_ok {left : Nat} {before chain : List (WorkflowHandoff φ)} {requested : String} {current : WorkflowHandoff φ}
    (h : r.follow store workflowId left before requested current = .ok chain) :
    (current.handoffId ∉ before.map WorkflowHandoff.handoffId ∧ current.workflowId = workflowId ∧
      ∀ first ∈ before.head?, current.parent = first.parent) ∧
    ((current.target = "fix" ∨ current.target = "run") ∧ chain = before ++ [current] ∨
      current.target = "resume" ∧ ∃ left' requested' next, left = left' + 1 ∧ resumes current = .ok requested' ∧
        r.loadHandoff store requested' = .ok next ∧
          r.follow store workflowId left' (before ++ [current]) requested' next = .ok chain) := by
  unfold Reader.follow at h
  rw [guard_ok, guard_ok] at h
  obtain ⟨hidentity, hparent, h⟩ := h
  simp only [not_or, not_not] at hidentity
  obtain ⟨-, hid, hnew, hworkflow⟩ := hidentity
  refine ⟨⟨hid ▸ hnew, hworkflow, fun first hfirst => ?_⟩, ?_⟩
  · rw [Option.mem_def.mp hfirst] at hparent
    simpa using hparent
  · split at h
    · split at h
      · rename_i htarget
        exact .inl ⟨htarget, (Except.ok.inj h).symm⟩
      · cases h
    · rename_i htarget
      refine .inr ⟨not_not.mp htarget, ?_⟩
      cases left with
      | zero => cases h
      | succ left =>
        obtain ⟨requested', hrequested, h⟩ := bind_ok.mp h
        obtain ⟨next, hnext, h⟩ := bind_ok.mp h
        exact ⟨left, requested', next, rfl, hrequested, hnext, h⟩

theorem Walked.snoc {before : List (WorkflowHandoff φ)} {current : WorkflowHandoff φ} (h : Walked workflowId before)
    (hnew : current.handoffId ∉ before.map WorkflowHandoff.handoffId) (hworkflow : current.workflowId = workflowId)
    (hparent : ∀ first ∈ before.head?, current.parent = first.parent) :
    ((before ++ [current]).map WorkflowHandoff.handoffId).Nodup ∧
      (∀ entry ∈ before ++ [current], entry.workflowId = workflowId) ∧
      ∀ first ∈ (before ++ [current]).head?, ∀ entry ∈ before ++ [current], entry.parent = first.parent := by
  refine ⟨?_, ?_, ?_⟩
  · rw [List.map_append, List.map_singleton, List.nodup_append]
    refine ⟨h.distinct, List.nodup_singleton _, fun id hid other hother => ?_⟩
    rw [List.mem_singleton.mp hother]
    exact fun heq => hnew (heq ▸ hid)
  · intro entry hentry
    rcases List.mem_append.mp hentry with hentry | hentry
    · exact h.workflow entry hentry
    · exact (List.mem_singleton.mp hentry) ▸ hworkflow
  · intro first hfirst entry hentry
    cases before with
    | nil =>
      cases hfirst
      rw [List.mem_singleton.mp hentry]
    | cons head rest =>
      cases hfirst
      rcases List.mem_append.mp hentry with hentry | hentry
      · exact h.parent _ rfl entry hentry
      · rw [List.mem_singleton.mp hentry]
        exact hparent _ rfl

theorem linked_of_follow {left : Nat} {before chain : List (WorkflowHandoff φ)} {requested : String}
    {current : WorkflowHandoff φ} (hbefore : Walked workflowId before)
    (h : r.follow store workflowId left before requested current = .ok chain) : Linked workflowId chain := by
  induction left generalizing before requested current with
  | zero =>
    obtain ⟨⟨hnew, hworkflow, hparent⟩, ⟨htarget, rfl⟩ | ⟨-, left', -, -, hleft, -⟩⟩ := follow_ok h
    · obtain ⟨hdistinct, hworkflows, hparents⟩ := hbefore.snoc hnew hworkflow hparent
      exact ⟨hdistinct, hworkflows, hparents, before, current, rfl, htarget, hbefore.targets⟩
    · cases hleft
  | succ left ih =>
    obtain ⟨⟨hnew, hworkflow, hparent⟩, ⟨htarget, rfl⟩ | ⟨htarget, left', requested', next, hleft, -, -, hrest⟩⟩ := follow_ok h
    · obtain ⟨hdistinct, hworkflows, hparents⟩ := hbefore.snoc hnew hworkflow hparent
      exact ⟨hdistinct, hworkflows, hparents, before, current, rfl, htarget, hbefore.targets⟩
    · cases hleft
      obtain ⟨hdistinct, hworkflows, hparents⟩ := hbefore.snoc hnew hworkflow hparent
      refine ih ⟨hdistinct, hworkflows, hparents, fun wrapper hwrapper => ?_⟩ hrest
      rcases List.mem_append.mp hwrapper with hwrapper | hwrapper
      · exact hbefore.targets wrapper hwrapper
      · exact (List.mem_singleton.mp hwrapper) ▸ htarget

/-! ### What the entries carry -/

/-- An entry carries a value for a key, in one of its envelopes. -/
def Carries (r : Reader φ) (entry : WorkflowHandoff φ) (key : String) (value : Json φ) : Prop :=
  ∃ source ∈ routeSources entry.payload, ∃ values raw, authorityValues source = .ok values ∧ (key, raw) ∈ values ∧
    r.normalized key raw = .ok value

def CarriesKey (r : Reader φ) (entry : WorkflowHandoff φ) (key : String) : Prop := ∃ value, Carries r entry key value

/-- An entry names a child, by itself or in an envelope. -/
def Names (r : Reader φ) (entry : WorkflowHandoff φ) (childId : String) : Prop :=
  (∃ child ∈ entry.child, child.nativeId = childId) ∨
    ∃ source ∈ routeSources entry.payload, ∃ value ∈ source.lookup "child_session_id", r.str value = childId

/-- What an envelope brings: an authority, or the identity of a child. -/
inductive Fact (φ : Type)
  | authority (key : String) (value : Json φ)
  | child (childId : String)

/-- The authorities hold a value that is equal. -/
def Holds (r : Reader φ) (authorities : Fields φ) (key : String) (value : Json φ) : Prop :=
  ∃ kept, authorities.lookup key = some kept ∧ kept.Equal r.value value

def Gathered.Has (r : Reader φ) (g : Gathered φ) : Fact φ → Prop
  | .authority key value => Holds r g.authorities key value
  | .child childId => childId ∈ g.childIds

def SourceHas (r : Reader φ) (source : Fields φ) : Fact φ → Prop
  | .authority key value => ∃ values raw, authorityValues source = .ok values ∧ (key, raw) ∈ values ∧
      r.normalized key raw = .ok value
  | .child childId => ∃ value ∈ source.lookup "child_session_id", r.str value = childId

def EntryHas (r : Reader φ) (entry : WorkflowHandoff φ) : Fact φ → Prop
  | .authority key value => Carries r entry key value
  | .child childId => Names r entry childId

/-- Only what the original carries is there of what only the original may bring in. -/
def Guarded (r : Reader φ) (original : WorkflowHandoff φ) (authorities : Fields φ) : Prop :=
  ∀ key ∈ originalKeys, (authorities.lookup key).isSome = true → CarriesKey r original key

theorem carry_ok {first : Bool} {authorities authorities' : Fields φ} {found : String × Json φ}
    (h : r.carry first authorities found = .ok authorities') :
    ∃ value, r.normalized found.1 found.2 = .ok value ∧ authorities' = setField authorities found.1 value ∧
      (∀ kept, authorities.lookup found.1 = some kept → kept.Equal r.value value) ∧
        (first = false → found.1 ∈ originalKeys → (authorities.lookup found.1).isSome = true) := by
  unfold Reader.carry at h
  obtain ⟨value, hvalue, h⟩ := bind_ok.mp h
  rw [guard_ok, guard_ok] at h
  obtain ⟨hagrees, hknown, h⟩ := h
  refine ⟨value, hvalue, (Except.ok.inj h).symm, fun kept hkept => ?_, fun hfirst hkey => ?_⟩
  · by_contra hdiffers
    apply hagrees
    rw [hkept]
    simp [Reader.differs, hdiffers]
  · by_contra hnone
    refine hknown ⟨hfirst, ?_, hkey⟩
    cases hlookup : authorities.lookup found.1 with
    | none => rfl
    | some kept => exact absurd (by rw [hlookup]; rfl) hnone

theorem Holds.carry {first : Bool} {authorities authorities' : Fields φ} {found : String × Json φ}
    (h : r.carry first authorities found = .ok authorities') {key : String} {value : Json φ}
    (hholds : Holds r authorities key value) : Holds r authorities' key value := by
  obtain ⟨new, -, rfl, hagrees, -⟩ := carry_ok h
  obtain ⟨kept, hkept, hequal⟩ := hholds
  by_cases hkey : key = found.1
  · subst hkey
    exact ⟨new, lookup_setField_self _, (hagrees kept hkept).symm.trans hequal⟩
  · exact ⟨kept, by rw [lookup_setField_ne _ hkey, hkept], hequal⟩

theorem holds_carried {first : Bool} {authorities authorities' : Fields φ} {found : String × Json φ}
    (h : r.carry first authorities found = .ok authorities') {value : Json φ}
    (hvalue : r.normalized found.1 found.2 = .ok value) : Holds r authorities' found.1 value := by
  obtain ⟨new, hnew, rfl, -, -⟩ := carry_ok h
  rw [hvalue] at hnew
  cases hnew
  exact ⟨value, lookup_setField_self _, .refl _⟩

theorem Guarded.carry {original : WorkflowHandoff φ} {first : Bool} {authorities authorities' : Fields φ}
    {found : String × Json φ} (h : r.carry first authorities found = .ok authorities')
    (hown : first = true → ∀ value, r.normalized found.1 found.2 = .ok value → CarriesKey r original found.1)
    (hguarded : Guarded r original authorities) : Guarded r original authorities' := by
  obtain ⟨new, hnew, rfl, -, hknown⟩ := carry_ok h
  intro key hkey hsome
  by_cases heq : key = found.1
  · subst heq
    cases first with
    | true => exact hown rfl new hnew
    | false => exact hguarded _ hkey (hknown rfl hkey)
  · rw [lookup_setField_ne _ heq] at hsome
    exact hguarded key hkey hsome

theorem gatherSource_ok {first : Bool} {g g' : Gathered φ} {source : Fields φ}
    (h : r.gatherSource first g source = .ok g') :
    (∀ fact, g.Has r fact → g'.Has r fact) ∧ ∀ fact, SourceHas r source fact → g'.Has r fact := by
  unfold Reader.gatherSource at h
  obtain ⟨values, hvalues, h⟩ := bind_ok.mp h
  obtain ⟨authorities, hfold, h⟩ := bind_ok.mp h
  cases h
  have hgathers := foldlM_gathers (P := fun authorities (found : String × Json φ) => Holds r authorities found.1 found.2)
    (Q := fun found other => other.1 = found.1 ∧ r.normalized found.1 found.2 = .ok other.2)
    (fun _ _ _ hstep _ hholds => hholds.carry hstep)
    (fun _ _ _ hstep other hother => by
      rw [hother.1]
      exact holds_carried hstep hother.2) hfold
  constructor
  · intro fact hfact
    cases fact with
    | authority key value => exact hgathers.1 (key, value) hfact
    | child childId => exact List.mem_append_left _ hfact
  · intro fact hfact
    cases fact with
    | authority key value =>
      obtain ⟨values', raw, hvalues', hmem, hvalue⟩ := hfact
      rw [hvalues] at hvalues'
      cases hvalues'
      exact hgathers.2 (key, raw) hmem (key, value) ⟨rfl, hvalue⟩
    | child childId =>
      obtain ⟨value, hvalue, rfl⟩ := hfact
      rw [Option.mem_def.mp hvalue]
      exact List.mem_append_right _ List.mem_cons_self

theorem gatherEntry_ok {child : Option WorkflowRef} {g g' : Gathered φ} {entry : Bool × WorkflowHandoff φ}
    (h : r.gatherEntry child g entry = .ok g') :
    (entry.2.child.isSome = true → entry.2.child = child) ∧ (∀ fact, g.Has r fact → g'.Has r fact) ∧
      ∀ fact, EntryHas r entry.2 fact → g'.Has r fact := by
  unfold Reader.gatherEntry at h
  rw [guard_ok] at h
  obtain ⟨hchild, h⟩ := h
  obtain ⟨hkept, hnew⟩ := foldlM_gathers (fun _ _ _ hstep => (gatherSource_ok hstep).1)
    (fun _ _ _ hstep => (gatherSource_ok hstep).2) h
  refine ⟨fun hsome => ?_, fun fact hfact => ?_, fun fact hfact => ?_⟩
  · by_contra hne
    exact hchild ⟨hsome, hne⟩
  · apply hkept
    cases fact with
    | authority key value => exact hfact
    | child childId => exact List.mem_append_left _ hfact
  · cases fact with
    | authority key value =>
      obtain ⟨source, hsource, hvalue⟩ := hfact
      exact hnew source hsource (.authority key value) hvalue
    | child childId =>
      rcases hfact with ⟨named, hnamed, rfl⟩ | ⟨source, hsource, hvalue⟩
      · apply hkept (.child named.nativeId)
        rw [Option.mem_def.mp hnamed]
        exact List.mem_append_right _ List.mem_cons_self
      · exact hnew source hsource (.child childId) hvalue

theorem Guarded.gatherEntry {original : WorkflowHandoff φ} {child : Option WorkflowRef} {g g' : Gathered φ}
    {entry : Bool × WorkflowHandoff φ} (h : r.gatherEntry child g entry = .ok g')
    (hown : entry.1 = true → entry.2 = original) (hguarded : Guarded r original g.authorities) :
    Guarded r original g'.authorities := by
  unfold Reader.gatherEntry at h
  rw [guard_ok] at h
  refine foldlM_keeps_mem (fun g : Gathered φ => Guarded r original g.authorities) ?_ ?_ h.2
  · intro source hsource g g' hguarded hstep
    unfold Reader.gatherSource at hstep
    obtain ⟨values, hvalues, hstep⟩ := bind_ok.mp hstep
    obtain ⟨authorities, hfold, hstep⟩ := bind_ok.mp hstep
    cases hstep
    refine foldlM_keeps_mem (Guarded r original) ?_ hguarded hfold
    intro found hfound _ _ hguarded hcarry
    refine hguarded.carry hcarry fun hfirst value hvalue => ?_
    rw [← hown hfirst]
    exact ⟨value, source, hsource, values, found.2, hvalues, hfound, hvalue⟩
  · exact hguarded

/-! ### The chain as a whole -/

/-- What a wrapper may bring in. -/
def looseKeys : List String := ["authorization_policy", "goal_execution_environment", "auto_approve", "evidence_base"]

theorem authorityValues_keys {source values : Fields φ} (h : authorityValues source = .ok values) {key : String}
    {value : Json φ} (hmem : (key, value) ∈ values) : key ∈ originalKeys ∨ key ∈ looseKeys := by
  unfold authorityValues at h
  obtain ⟨tasks, -, h⟩ := bind_ok.mp h
  obtain ⟨requirements, -, h⟩ := bind_ok.mp h
  cases h
  have hplain : ∀ key ∈ plainKeys, key ∈ originalKeys ∨ key ∈ looseKeys := by decide
  rcases List.mem_append.mp hmem with hmem | hmem
  · rcases List.mem_append.mp hmem with hmem | hmem
    · obtain ⟨key', hkey', hfound⟩ := List.mem_filterMap.mp hmem
      obtain ⟨value', -, heq⟩ := Option.map_eq_some_iff.mp hfound
      cases heq
      exact hplain _ hkey'
    · cases tasks with
      | none => cases hmem
      | some value' =>
        cases List.mem_singleton.mp hmem
        exact .inl (by decide)
  · cases requirements with
    | none => cases hmem
    | some value' =>
      cases List.mem_singleton.mp hmem
      exact .inl (by decide)

/-- The chain names one child, which is that of the original where an entry has one. -/
def OneChild (r : Reader φ) (chain : List (WorkflowHandoff φ)) : Prop :=
  ∃ childId, ∀ entry ∈ chain, (∀ other, Names r entry other → other = childId ∧ other ≠ "") ∧
    ∀ child ∈ entry.child, ∃ original ∈ chain.getLast?, original.child = some child

/-- Every authority of an entry is one of the original. -/
def WidensNothing (r : Reader φ) (chain : List (WorkflowHandoff φ)) : Prop :=
  ∀ entry ∈ chain, ∀ key value, Carries r entry key value →
    ∃ original ∈ chain.getLast?, ∃ kept, Carries r original key kept ∧ kept.Equal r.value value

/-- What a wrapper may bring in, the original carries too. -/
def Inherited (r : Reader φ) (chain : List (WorkflowHandoff φ)) : Prop :=
  ∀ entry ∈ chain, ∀ key ∈ looseKeys, CarriesKey r entry key → ∃ original ∈ chain.getLast?, CarriesKey r original key

theorem dedup_single {names : List String} (h : ¬ 1 < names.dedup.length) : ∃ name, ∀ other ∈ names, other = name := by
  cases hnames : names.dedup with
  | nil => exact ⟨"", fun other hother => by simpa [hnames] using List.mem_dedup.mpr hother⟩
  | cons name rest =>
    cases rest with
    | nil => exact ⟨name, fun other hother => by simpa [hnames] using List.mem_dedup.mpr hother⟩
    | cons other rest => simp [hnames] at h

theorem checkChain_ok {chain chain' : List (WorkflowHandoff φ)} {wrappers : List (WorkflowHandoff φ)}
    {original : WorkflowHandoff φ} (hchain : chain = wrappers ++ [original]) (h : checkChain r chain = .ok chain') :
    chain' = chain ∧ OneChild r chain ∧ (WidensNothing r chain ↔ Inherited r chain) := by
  have hlast : chain.getLast? = some original := by rw [hchain, List.getLast?_concat]
  unfold checkChain at h
  obtain ⟨g, hfold, h⟩ := bind_ok.mp h
  rw [guard_ok] at h
  obtain ⟨hids, h⟩ := h
  rw [not_or] at hids
  have hfirst : originalFirst chain = (true, original) :: wrappers.reverse.map (false, ·) := by
    rw [originalFirst, hchain, List.reverse_append]
    rfl
  have hentries : ∀ entry ∈ chain, ∃ first, (first, entry) ∈ originalFirst chain := by
    intro entry hentry
    rw [hfirst]
    rw [hchain] at hentry
    rcases List.mem_append.mp hentry with hentry | hentry
    · exact ⟨false, List.mem_cons_of_mem _ (List.mem_map.mpr ⟨entry, List.mem_reverse.mpr hentry, rfl⟩)⟩
    · rw [List.mem_singleton.mp hentry]
      exact ⟨true, List.mem_cons_self⟩
  have hhas : ∀ entry ∈ chain, ∀ fact, EntryHas r entry fact → g.Has r fact := by
    intro entry hentry
    obtain ⟨first, hmem⟩ := hentries entry hentry
    exact (foldlM_gathers (fun _ _ _ hstep => (gatherEntry_ok hstep).2.1)
      (fun _ _ _ hstep => (gatherEntry_ok hstep).2.2) hfold).2 (first, entry) hmem
  have hchild : ∀ entry ∈ chain, entry.child.isSome = true → entry.child = original.child := by
    intro entry hentry
    obtain ⟨first, hmem⟩ := hentries entry hentry
    have hsteps := (foldlM_gathers
      (P := fun _ (other : WorkflowHandoff φ) => other.child.isSome = true → other.child = chain.getLast?.bind WorkflowHandoff.child)
      (Q := fun (b : Bool × WorkflowHandoff φ) other => b.2 = other) (fun _ _ _ _ _ hc => hc)
      (fun _ _ _ hstep other hother => hother ▸ (gatherEntry_ok hstep).1) hfold).2 (first, entry) hmem entry rfl
    rwa [hlast] at hsteps
  have hguarded : Guarded r original g.authorities := by
    refine foldlM_keeps_mem (fun g : Gathered φ => Guarded r original g.authorities) ?_ (fun _ _ hsome => ?_) hfold
    · intro entry hentry g g' hguarded hstep
      refine hguarded.gatherEntry hstep fun htrue => ?_
      rw [hfirst] at hentry
      rcases List.mem_cons.mp hentry with rfl | hentry
      · rfl
      · obtain ⟨wrapper, -, rfl⟩ := List.mem_map.mp hentry
        cases htrue
    · cases hsome
  refine ⟨(Except.ok.inj h).symm, ?_, fun hwidens => ?_, fun hinherited => ?_⟩
  · obtain ⟨childId, hsame⟩ := dedup_single hids.1
    refine ⟨childId, fun entry hentry => ⟨fun other hother => ?_, fun child hmem => ?_⟩⟩
    · have hmem : other ∈ g.childIds := hhas entry hentry (.child other) hother
      exact ⟨hsame other hmem, fun hempty => hids.2 (List.mem_dedup.mpr (hempty ▸ hmem))⟩
    · have hsome := hchild entry hentry (by rw [Option.mem_def.mp hmem]; rfl)
      exact ⟨original, hlast, hsome ▸ hmem⟩
  · intro entry hentry key _ hcarries
    obtain ⟨value, hvalue⟩ := hcarries
    obtain ⟨last, hmem, kept, hkept, -⟩ := hwidens entry hentry key value hvalue
    exact ⟨last, hmem, kept, hkept⟩
  · intro entry hentry key value hvalue
    have hown : CarriesKey r original key := by
      obtain ⟨source, hsource, values, raw, hvalues, hmem, -⟩ := id hvalue
      rcases authorityValues_keys hvalues hmem with hkey | hkey
      · obtain ⟨kept, hkept, -⟩ := hhas entry hentry (.authority key value) hvalue
        exact hguarded key hkey (by rw [hkept]; rfl)
      · obtain ⟨last, hlast', hcarries⟩ := hinherited entry hentry key hkey ⟨value, hvalue⟩
        rw [hlast] at hlast'
        cases hlast'
        exact hcarries
    obtain ⟨own, hown⟩ := hown
    have hmem : original ∈ chain := by
      rw [hchain]
      exact List.mem_append_right _ List.mem_cons_self
    obtain ⟨kept, hkept, hequal⟩ := hhas entry hentry (.authority key value) hvalue
    obtain ⟨kept', hkept', hequal'⟩ := hhas original hmem (.authority key own) hown
    rw [hkept] at hkept'
    cases hkept'
    exact ⟨original, hlast, own, hown, hequal'.symm.trans hequal⟩

/-- For every store and every handoff: a chain that is returned is linked and names one child, and widens no authority
exactly if the original carries what its wrappers may bring in. -/
theorem chain_bounded {requested : Requested φ} {chain : List (WorkflowHandoff φ)}
    (h : r.resolveHandoffChain store workflowId requested = .ok chain) :
    (Linked workflowId chain ∧ OneChild r chain ∧ WidensNothing r chain) ↔ Inherited r chain := by
  have hwalked : Walked workflowId ([] : List (WorkflowHandoff φ)) := ⟨List.nodup_nil, nofun, nofun, nofun⟩
  have hboth : ∀ {requested current} {followed : List (WorkflowHandoff φ)},
      r.follow store workflowId maxResumeDepth [] requested current = .ok followed → checkChain r followed = .ok chain →
        ((Linked workflowId chain ∧ OneChild r chain ∧ WidensNothing r chain) ↔ Inherited r chain) := by
    intro requested current followed hfollow hcheck
    have hlinked := linked_of_follow hwalked hfollow
    obtain ⟨wrappers, original, hchain, -⟩ := id hlinked.targets
    obtain ⟨rfl, hone, hiff⟩ := checkChain_ok hchain hcheck
    rw [← hiff]
    exact ⟨fun hall => hall.2.2, fun hwidens => ⟨hlinked, hone, hwidens⟩⟩
  cases requested with
  | id requested =>
    obtain ⟨current, -, h⟩ := bind_ok.mp h
    obtain ⟨followed, hfollow, hcheck⟩ := bind_ok.mp h
    exact hboth hfollow hcheck
  | entry handoff =>
    obtain ⟨followed, hfollow, hcheck⟩ := bind_ok.mp h
    exact hboth hfollow hcheck

/-! ### A wrapper that approves -/

def parentRef : WorkflowRef := ⟨"collab", "s1", by decide, by decide⟩

def textReader : Reader Empty := ⟨nofun, fun value => match value with | .str s => s | _ => "", some⟩

def storedHandoff (handoffId target : String) (payload : Fields Empty) : Stored Empty :=
  .document (.obj [("handoff_id", .str handoffId), ("workflow_id", .str "w1"),
    ("parent", .obj [("kind", .str "collab"), ("native_id", .str "s1")]), ("target", .str target), ("payload", .obj payload)])

/-- A fix, and a wrapper that resumes it. -/
def wrapped (payload : Fields Empty) (handoffId : String) : Stored Empty :=
  if handoffId = "h1" then storedHandoff "h1" "fix" []
  else if handoffId = "h2" then storedHandoff "h2" "resume" (("resume_handoff_id", .str "h1") :: payload)
  else .missing

def fixHandoff : WorkflowHandoff Empty := ⟨"h1", "w1", parentRef, "fix", none, []⟩

def resumeHandoff (payload : Fields Empty) : WorkflowHandoff Empty :=
  ⟨"h2", "w1", parentRef, "resume", none, ("resume_handoff_id", .str "h1") :: payload⟩

/-- The wrapper carries `auto_approve`, and the original does not. -/
theorem wrapper_approves : ¬ ∀ (store : String → Stored Empty) (workflowId : String) (requested : Requested Empty)
    (chain : List (WorkflowHandoff Empty)), textReader.resolveHandoffChain store workflowId requested = .ok chain →
      Linked workflowId chain ∧ OneChild textReader chain ∧ WidensNothing textReader chain := by
  intro h
  have hchain : textReader.resolveHandoffChain (wrapped [("auto_approve", .bool true)]) "w1" (.id "h2") =
      .ok [resumeHandoff [("auto_approve", .bool true)], fixHandoff] := by rfl
  obtain ⟨-, -, hwidens⟩ := h _ _ _ _ hchain
  have hcarries : Carries textReader (resumeHandoff [("auto_approve", .bool true)]) "auto_approve" (.bool true) :=
    ⟨_, List.mem_cons_self, [("auto_approve", .bool true)], .bool true, rfl, List.mem_cons_self, rfl⟩
  obtain ⟨original, horiginal, kept, ⟨source, hsource, values, raw, hvalues, hmem, -⟩, -⟩ :=
    hwidens _ List.mem_cons_self _ _ hcarries
  cases horiginal
  have hempty : source = [] := List.mem_singleton.mp hsource
  subst hempty
  cases hvalues
  cases hmem

theorem chain_bounded_plain :
    (Linked "w1" [resumeHandoff [], fixHandoff] ∧ OneChild textReader [resumeHandoff [], fixHandoff] ∧
      WidensNothing textReader [resumeHandoff [], fixHandoff]) ↔ Inherited textReader [resumeHandoff [], fixHandoff] := by
  have hchain : textReader.resolveHandoffChain (wrapped []) "w1" (.id "h2") = .ok [resumeHandoff [], fixHandoff] := by rfl
  exact chain_bounded hchain

end AutoAgents.Resume
