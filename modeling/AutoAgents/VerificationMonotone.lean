import AutoAgents.VerificationSelection

/-! Selection under the optimized policy. What is executed grows with what is asked for: every call selects what its
level is based on, the required proofs and their prerequisites, and a step for each changed test; the level is the
release as soon as one of its causes is there. The ids of the steps for changed tests must not be those of
prerequisites. -/

namespace AutoAgents.Verification

open Base

/-! ### Indexed steps -/

/-- The steps have distinct ids, and none is empty. -/
structure Named (steps : Steps) : Prop where
  nodup : (steps.map (·.proofId)).Nodup
  nonempty : ∀ step ∈ steps, step.proofId ≠ ""

variable {project : Project} {steps : Steps} {gates : GateConfig} {preserve strict : Bool} {proofId path : String}
  {step other : VerificationStep} {changed required : List String} {selected result : Steps}

theorem Named.indexed_eq (h : Named steps) : indexed steps = steps.map fun step => (step.proofId, step) := by
  have hall : steps.filter (fun step => step.proofId != "") = steps := by
    refine List.filter_eq_self.mpr fun step hstep => ?_
    simpa using h.nonempty step hstep
  have hkeys : (steps.map fun step => (step.proofId, step)).map Prod.fst = steps.map (·.proofId) := by
    rw [List.map_map]
    rfl
  unfold indexed
  rw [hall, objectOf_eq]
  rw [hkeys]
  exact h.nodup

theorem Named.lookup_iff (h : Named steps) :
    (indexed steps).lookup proofId = some step ↔ step ∈ steps ∧ step.proofId = proofId := by
  have hkeys : ((indexed steps).map Prod.fst).Nodup := by
    rw [h.indexed_eq, List.map_map]
    exact h.nodup
  constructor
  · intro hlookup
    have hmem := mem_of_lookup hlookup
    rw [h.indexed_eq] at hmem
    obtain ⟨found, hfound, heq⟩ := List.mem_map.mp hmem
    obtain ⟨rfl, rfl⟩ := Prod.mk.inj heq
    exact ⟨hfound, rfl⟩
  · rintro ⟨hstep, rfl⟩
    refine lookup_of_mem hkeys ?_
    rw [h.indexed_eq]
    exact List.mem_map_of_mem hstep

/-! ### Prerequisites -/

/-- A step has another as a prerequisite. -/
def DependsOn (steps : Steps) (step prerequisite : VerificationStep) : Prop :=
  prerequisite ∈ steps ∧ prerequisite.proofId ∈ step.dependsOnProofs

/-- The step is one of the base, or a prerequisite of such a step. -/
def Needed (steps : Steps) (base : VerificationStep → Prop) (step : VerificationStep) : Prop :=
  ∃ root, base root ∧ Relation.ReflTransGen (DependsOn steps) root step

section

variable {base base' : VerificationStep → Prop}

theorem Needed.of_base (h : base step) : Needed steps base step := ⟨step, h, .refl⟩

theorem Needed.next (h : Needed steps base step) (hnext : DependsOn steps step other) : Needed steps base other := by
  obtain ⟨root, hroot, hreach⟩ := h
  exact ⟨root, hroot, hreach.tail hnext⟩

theorem Needed.mono (h : Needed steps base step) (hbase : ∀ step, base step → Needed steps base' step) :
    Needed steps base' step := by
  obtain ⟨root, hroot, hreach⟩ := h
  obtain ⟨first, hfirst, hbefore⟩ := hbase root hroot
  exact ⟨first, hfirst, hbefore.trans hreach⟩

/-- Whatever contains the base and is closed under prerequisites contains what is needed. -/
theorem Needed.mem (h : Needed steps base step) (hbase : ∀ step, base step → step ∈ result)
    (hclosed : ∀ step ∈ result, ∀ other, DependsOn steps step other → other ∈ result) : step ∈ result := by
  obtain ⟨root, hroot, hreach⟩ := h
  induction hreach with
  | refl => exact hbase root hroot
  | tail _ hnext ih => exact hclosed _ ih _ hnext

end

/-- How many proofs of the index are not present yet. -/
def absent (index : List (String × VerificationStep)) (present : List String) : Nat :=
  (index.map Prod.fst).countP fun proofId => !present.contains proofId

theorem absent_cons {index : List (String × VerificationStep)} {present : List String}
    (hkey : proofId ∈ index.map Prod.fst) (hnew : proofId ∉ present) :
    absent index (proofId :: present) + 1 ≤ absent index present := by
  unfold absent
  generalize index.map Prod.fst = keys at hkey ⊢
  induction keys with
  | nil => cases hkey
  | cons key keys ih =>
      rw [List.countP_cons, List.countP_cons]
      have hmono : keys.countP (fun id => !(proofId :: present).contains id) ≤ keys.countP fun id => !present.contains id := by
        apply List.countP_mono_left
        intro id _ hid
        simp only [List.contains_eq_mem, List.mem_cons, Bool.not_eq_true', decide_eq_false_iff_not, not_or] at hid ⊢
        exact hid.2
      by_cases heq : key = proofId
      · subst heq
        simp [hnew]
        simpa using hmono
      · have hrest := ih ((List.mem_cons.mp hkey).resolve_left (Ne.symm heq))
        simp only [List.contains_eq_mem, List.mem_cons, heq, false_or] at hrest ⊢
        omega

/-- What a turn of the loop adds, and which proofs are present after it. -/
structure Added (index : List (String × VerificationStep)) (proofIds present present' : List String) (new : Steps) :
    Prop where
  found : ∀ step ∈ new, ∃ proofId ∈ proofIds, index.lookup proofId = some step
  old : ∀ proofId ∈ present, proofId ∈ present'
  known : ∀ proofId ∈ proofIds, ∀ step, index.lookup proofId = some step → proofId ∈ present'
  origin : ∀ proofId ∈ present', proofId ∈ present ∨ ∃ step ∈ new, index.lookup proofId = some step
  count : new.length + absent index present' ≤ absent index present

variable {index : List (String × VerificationStep)}

theorem addDependencies_ok {proofIds present present' : List String} {added added' : Steps}
    (h : addDependencies index strict step proofIds present added = .ok (added', present')) :
    ∃ new, added' = added ++ new ∧ Added index proofIds present present' new := by
  induction proofIds generalizing present added with
  | nil =>
      obtain ⟨rfl, rfl⟩ := Prod.mk.inj (Except.ok.inj h)
      refine ⟨[], (List.append_nil _).symm, ?_, fun _ h => h, ?_, fun _ h => .inl h, ?_⟩
      · simp
      · simp
      · simp
  | cons proofId rest ih =>
      unfold addDependencies at h
      cases hlookup : index.lookup proofId with
      | none =>
          rw [hlookup] at h
          simp only at h
          split at h
          · cases h
          · obtain ⟨new, rfl, hnew⟩ := ih h
            refine ⟨new, rfl, ?_, hnew.old, ?_, hnew.origin, hnew.count⟩
            · intro step hstep
              obtain ⟨id, hid, hfound⟩ := hnew.found step hstep
              exact ⟨id, List.mem_cons_of_mem _ hid, hfound⟩
            · intro id hid step hfound
              rcases List.mem_cons.mp hid with rfl | hid
              · rw [hlookup] at hfound
                cases hfound
              · exact hnew.known id hid step hfound
      | some dependency =>
          rw [hlookup] at h
          simp only at h
          split at h
          · next hpresent =>
              obtain ⟨new, rfl, hnew⟩ := ih h
              refine ⟨new, rfl, ?_, hnew.old, ?_, hnew.origin, hnew.count⟩
              · intro step hstep
                obtain ⟨id, hid, hfound⟩ := hnew.found step hstep
                exact ⟨id, List.mem_cons_of_mem _ hid, hfound⟩
              · intro id hid step hfound
                rcases List.mem_cons.mp hid with rfl | hid
                · exact hnew.old id hpresent
                · exact hnew.known id hid step hfound
          · next habsent =>
              obtain ⟨new, rfl, hnew⟩ := ih h
              refine ⟨dependency :: new, List.append_assoc _ _ _, ?_, ?_, ?_, ?_, ?_⟩
              · intro step hstep
                rcases List.mem_cons.mp hstep with rfl | hstep
                · exact ⟨proofId, List.mem_cons_self, hlookup⟩
                · obtain ⟨id, hid, hfound⟩ := hnew.found step hstep
                  exact ⟨id, List.mem_cons_of_mem _ hid, hfound⟩
              · exact fun id hid => hnew.old id (List.mem_cons_of_mem _ hid)
              · intro id hid step hfound
                rcases List.mem_cons.mp hid with rfl | hid
                · exact hnew.old id List.mem_cons_self
                · exact hnew.known id hid step hfound
              · intro id hid
                rcases hnew.origin id hid with hold | ⟨step, hstep, hfound⟩
                · rcases List.mem_cons.mp hold with rfl | hold
                  · exact .inr ⟨dependency, List.mem_cons_self, hlookup⟩
                  · exact .inl hold
                · exact .inr ⟨step, List.mem_cons_of_mem _ hstep, hfound⟩
              · -- the key is one of those that were not present
                have hkey : proofId ∈ index.map Prod.fst := List.mem_map_of_mem (mem_of_lookup hlookup)
                have hless := absent_cons hkey habsent
                have hcount := hnew.count
                simp only [List.length_cons]
                omega

/-- A step has another as a prerequisite, by the index. -/
def Linked (index : List (String × VerificationStep)) (step prerequisite : VerificationStep) : Prop :=
  ∃ proofId ∈ step.dependsOnProofs, index.lookup proofId = some prerequisite

/-- The loop passes what is pending and what it adds, and adds every prerequisite that is not present. -/
theorem includeFrom_ok {n : Nat} {pending : Steps} {present : List String}
    (hfuel : pending.length + absent index present ≤ n)
    (h : includeFrom index strict n pending present = .ok result) :
    (∀ step ∈ pending, step ∈ result) ∧
      (∀ step ∈ result, ∃ root ∈ pending, Relation.ReflTransGen (Linked index) root step) ∧
      ∀ step ∈ result, ∀ proofId ∈ step.dependsOnProofs, ∀ other, index.lookup proofId = some other →
        proofId ∈ present ∨ other ∈ result := by
  induction n generalizing pending present result with
  | zero =>
      cases pending with
      | nil =>
          obtain rfl := Except.ok.inj h
          simp
      | cons step pending => simp at hfuel
  | succ n ih =>
      cases pending with
      | nil =>
          obtain rfl := Except.ok.inj h
          simp
      | cons step pending =>
          obtain ⟨⟨added, present'⟩, hadded, h⟩ := bind_ok.mp h
          obtain ⟨rest, hrest, h⟩ := bind_ok.mp h
          obtain rfl := Except.ok.inj h
          obtain ⟨new, rfl, hnew⟩ := addDependencies_ok hadded
          have hcount := hnew.count
          have hfuel' : (pending ++ added).length + absent index present' ≤ n := by
            simp only [List.length_append, List.length_cons] at hfuel ⊢
            omega
          obtain ⟨hpending, hsound, hclosed⟩ := ih hfuel' hrest
          refine ⟨?_, ?_, ?_⟩
          · intro pended hpended
            rcases List.mem_cons.mp hpended with rfl | hpended
            · exact List.mem_cons_self
            · exact List.mem_cons_of_mem _ (hpending pended (List.mem_append_left _ hpended))
          · intro passed hpassed
            rcases List.mem_cons.mp hpassed with rfl | hpassed
            · exact ⟨passed, List.mem_cons_self, .refl⟩
            · obtain ⟨root, hroot, hreach⟩ := hsound passed hpassed
              rcases List.mem_append.mp hroot with hold | hfresh
              · exact ⟨root, List.mem_cons_of_mem _ hold, hreach⟩
              · exact ⟨step, List.mem_cons_self, hreach.head (hnew.found root hfresh)⟩
          · intro passed hpassed proofId hproof other hother
            -- a proof that was present after the turn was present before, or was added in it
            have hpresent : proofId ∈ present' → proofId ∈ present ∨ other ∈ step :: rest := by
              intro hmem
              rcases hnew.origin proofId hmem with hold | ⟨found, hfound, hlookup⟩
              · exact .inl hold
              · rw [hother] at hlookup
                obtain rfl := Option.some.inj hlookup
                exact .inr (List.mem_cons_of_mem _ (hpending other (List.mem_append_right _ hfound)))
            rcases List.mem_cons.mp hpassed with rfl | hpassed
            · exact hpresent (hnew.known proofId hproof other hother)
            · rcases hclosed passed hpassed proofId hproof other hother with hmem | hmem
              · exact hpresent hmem
              · exact .inr (List.mem_cons_of_mem _ hmem)

theorem Named.linked_iff (h : Named steps) : Linked (indexed steps) step other ↔ DependsOn steps step other := by
  constructor
  · rintro ⟨proofId, hproof, hfound⟩
    obtain ⟨hother, rfl⟩ := h.lookup_iff.mp hfound
    exact ⟨hother, hproof⟩
  · rintro ⟨hother, hproof⟩
    exact ⟨other.proofId, hproof, h.lookup_iff.mpr ⟨hother, rfl⟩⟩

theorem includeDependencies_mem (h : includeDependencies selected index strict = .ok result) :
    ∃ passed, includeFrom index strict (selected.length + index.length) selected (selected.map (·.proofId)) = .ok passed ∧
      ∀ step, step ∈ result ↔ step ∈ passed := by
  obtain ⟨passed, hpassed, h⟩ := bind_ok.mp h
  obtain rfl := Except.ok.inj h
  exact ⟨passed, hpassed, fun step => (List.perm_insertionSort _ _).mem_iff⟩

/-- What is selected stays, what is added is a prerequisite, and only a proof whose id was selected is not added. -/
theorem includeDependencies_ok (hnamed : Named steps) (h : includeDependencies selected (indexed steps) strict = .ok result) :
    (∀ step ∈ selected, step ∈ result) ∧ (∀ step ∈ result, Needed steps (· ∈ selected) step) ∧
      ∀ step ∈ result, ∀ other, DependsOn steps step other → other.proofId ∈ selected.map (·.proofId) ∨ other ∈ result := by
  obtain ⟨passed, hpassed, hmem⟩ := includeDependencies_mem h
  have hfuel : selected.length + absent (indexed steps) (selected.map (·.proofId)) ≤ selected.length + (indexed steps).length := by
    have hle : absent (indexed steps) (selected.map (·.proofId)) ≤ ((indexed steps).map Prod.fst).length := List.countP_le_length
    rw [List.length_map] at hle
    omega
  obtain ⟨hselected, hsound, hclosed⟩ := includeFrom_ok hfuel hpassed
  have hlinked : Linked (indexed steps) = DependsOn steps := by
    funext step other
    exact propext hnamed.linked_iff
  rw [hlinked] at hsound
  refine ⟨fun step hstep => (hmem step).mpr (hselected step hstep), fun step hstep => hsound step ((hmem step).mp hstep), ?_⟩
  rintro step hstep other ⟨hother, hproof⟩
  rw [hmem] at hstep ⊢
  exact hclosed step hstep _ hproof other (hnamed.lookup_iff.mpr ⟨hother, rfl⟩)

/-! ### What a selection carries -/

/-- A step for a changed test. -/
structure ForTest (project : Project) (changed : List String) (step : VerificationStep) (path : String) : Prop where
  changed : path ∈ changed
  test : isTestPath path = true
  targets : step.targets = [path]
  prerequisites : step.dependsOnProofs = []
  proofId : step.proofId = changedTestId project path
  trigger : step.releaseTrigger = false

/-- No prerequisite has the id of the step for a changed test. -/
def Clear (project : Project) (steps : Steps) (changed : List String) : Prop :=
  ∀ path ∈ changed, isTestPath path = true → ∀ step ∈ steps, changedTestId project path ∈ step.dependsOnProofs →
    ∀ other ∈ steps, other.proofId ≠ changedTestId project path

/-- The selection holds the base and, besides, only steps for changed tests. -/
structure Carries (project : Project) (steps : Steps) (changed : List String) (base : VerificationStep → Prop)
    (selected : Steps) : Prop where
  configured : ∀ step, base step → step ∈ steps
  holds : ∀ step, base step → step ∈ selected
  only : ∀ step ∈ selected, base step ∨ ∃ path, ForTest project changed step path

/-- The step proves what is required. -/
def Proves (steps : Steps) (required : List String) (step : VerificationStep) : Prop :=
  step ∈ steps ∧ step.proofId ∈ required

theorem mem_extendMissing {extra : Steps} : step ∈ extendMissing selected extra ↔ step ∈ selected ∨ step ∈ extra := by
  unfold extendMissing
  induction extra generalizing selected with
  | nil => simp
  | cons first extra ih =>
      rw [List.foldl_cons, ih]
      split_ifs with hfirst
      · constructor
        · rintro (h | h)
          · exact .inl h
          · exact .inr (List.mem_cons_of_mem _ h)
        · rintro (h | h)
          · exact .inl h
          · rcases List.mem_cons.mp h with rfl | h
            · exact .inl hfirst
            · exact .inr h
      · simp only [List.mem_append, List.mem_cons]
        tauto

theorem Named.mem_required (h : Named steps) :
    step ∈ required.filterMap (fun proofId => (indexed steps).lookup proofId) ↔ Proves steps required step := by
  rw [List.mem_filterMap]
  constructor
  · rintro ⟨proofId, hproof, hfound⟩
    obtain ⟨hstep, rfl⟩ := h.lookup_iff.mp hfound
    exact ⟨hstep, hproof⟩
  · rintro ⟨hstep, hproof⟩
    exact ⟨step.proofId, hproof, h.lookup_iff.mpr ⟨hstep, rfl⟩⟩

variable {base base' : VerificationStep → Prop}

theorem Needed.configured (h : Needed steps base step) (hbase : ∀ step, base step → step ∈ steps) : step ∈ steps := by
  obtain ⟨root, hroot, hreach⟩ := h
  cases hreach with
  | refl => exact hbase _ hroot
  | tail _ hnext => exact hnext.1

/-- The required proofs and all prerequisites are carried, with what was. -/
theorem completed_carries (hnamed : Named steps) (hclear : Clear project steps changed)
    (hcarries : Carries project steps changed base selected) (h : completed steps preserve required selected = .ok result) :
    Carries project steps changed (Needed steps fun step => base step ∨ Proves steps required step) result ∧
      ∀ step ∈ selected, step ∈ result := by
  obtain ⟨hselected, hsound, hclosed⟩ := includeDependencies_ok hnamed h
  have hmem : ∀ step, step ∈ extendMissing selected (required.filterMap fun proofId => (indexed steps).lookup proofId) ↔
      step ∈ selected ∨ Proves steps required step := by
    intro step
    rw [mem_extendMissing, hnamed.mem_required]
  have hroots : ∀ step, base step ∨ Proves steps required step → step ∈ steps := by
    rintro step (hbase | hproves)
    · exact hcarries.configured step hbase
    · exact hproves.1
  -- a step of the result is needed, or is for a test and has no prerequisites
  have honly : ∀ step ∈ result, Needed steps (fun step => base step ∨ Proves steps required step) step ∨
      ∃ path, ForTest project changed step path := by
    intro step hstep
    obtain ⟨root, hroot, hreach⟩ := hsound step hstep
    rcases (hmem root).mp hroot with hroot | hproves
    · rcases hcarries.only root hroot with hbase | ⟨path, htest⟩
      · exact .inl ⟨root, .inl hbase, hreach⟩
      · refine .inr ⟨path, ?_⟩
        rcases hreach.cases_head with rfl | ⟨next, ⟨-, hnext⟩, -⟩
        · exact htest
        · rw [htest.prerequisites] at hnext
          cases hnext
    · exact .inl ⟨root, .inr hproves, hreach⟩
  refine ⟨⟨fun step hstep => hstep.configured hroots, ?_, honly⟩, fun step hstep => hselected step ((hmem step).mpr (.inl hstep))⟩
  intro step hneeded
  refine hneeded.mem ?_ ?_
  · rintro root (hbase | hproves)
    · exact hselected root ((hmem root).mpr (.inl (hcarries.holds root hbase)))
    · exact hselected root ((hmem root).mpr (.inr hproves))
  · intro before hbefore other hother
    rcases hclosed before hbefore other hother with hid | hother'
    · obtain ⟨same, hsame, hids⟩ := List.mem_map.mp hid
      have heq : same ∈ steps → other ∈ result := by
        intro hconfigured
        obtain rfl := List.inj_on_of_nodup_map hnamed.nodup hconfigured hother.1 hids
        exact hselected same hsame
      rcases (hmem same).mp hsame with hold | hproves
      · rcases hcarries.only same hold with hbase | ⟨path, htest⟩
        · exact heq (hcarries.configured same hbase)
        · -- then the id of a prerequisite is that of a test
          have hconfigured : before ∈ steps := by
            rcases honly before hbefore with hneeded | ⟨_, hfor⟩
            · exact hneeded.configured hroots
            · have hproof := hother.2
              rw [hfor.prerequisites] at hproof
              cases hproof
          have hid : other.proofId = changedTestId project path := hids.symm.trans htest.proofId
          have hproof := hother.2
          rw [hid] at hproof
          exact absurd hid (hclear path htest.changed htest.test before hconfigured hproof other hother.1)
      · exact heq hproves.1
    · exact hother'

/-! ### Drafts -/

/-- A step of the affected level that a change reaches. -/
def Affected (project : Project) (steps : Steps) (changed : List String) (step : VerificationStep) : Prop :=
  step ∈ steps ∧ step.at .affected = true ∧ ∃ path ∈ changed, affects project true step path = true

/-- A step of either level. -/
def OfRelease (steps : Steps) (step : VerificationStep) : Prop :=
  step ∈ steps ∧ (step.at .affected = true ∨ step.at .release = true)

theorem Affected.ofRelease (h : Affected project steps changed step) : OfRelease steps step := ⟨h.1, .inl h.2.1⟩

/-- The path is reached by a step, or is a changed test that no reached step has as its target. -/
def Mapped (project : Project) (steps : Steps) (changed : List String) (path : String) : Prop :=
  (∃ step ∈ steps, step.at .affected = true ∧ affects project true step path = true) ∨
    isTestPath path = true ∧ ∀ step, Affected project steps changed step → path ∉ step.targets

theorem pickStep_mem {optimized : Bool} (picked : Picked) (first : VerificationStep) :
    (step ∈ (pickStep project optimized changed picked first).selected ↔
      step ∈ picked.selected ∨ step = first ∧ ∃ path ∈ changed, affects project optimized first path = true) ∧
    (path ∈ (pickStep project optimized changed picked first).mapped ↔
      path ∈ picked.mapped ∨ path ∈ changed ∧ affects project optimized first path = true) := by
  unfold pickStep
  by_cases hmatched : changed.filter (affects project optimized first) = []
  · have hnone : ∀ path ∈ changed, ¬ affects project optimized first path = true := List.filter_eq_nil_iff.mp hmatched
    simp only [hmatched, if_true]
    constructor
    · constructor
      · exact .inl
      · rintro (h | ⟨-, path, hpath, haffects⟩)
        · exact h
        · exact absurd haffects (hnone path hpath)
    · constructor
      · exact .inl
      · rintro (h | ⟨hpath, haffects⟩)
        · exact h
        · exact absurd haffects (hnone path hpath)
  · obtain ⟨path, hpath⟩ := List.exists_mem_of_ne_nil _ hmatched
    have hsome : ∃ path ∈ changed, affects project optimized first path = true := ⟨path, List.mem_filter.mp hpath⟩
    simp only [if_neg hmatched, List.mem_append, List.mem_singleton, List.mem_filter, hsome, and_true, and_self]

theorem foldl_pickStep_mem {optimized : Bool} (eligible : Steps) (picked : Picked) :
    (step ∈ (eligible.foldl (pickStep project optimized changed) picked).selected ↔
      step ∈ picked.selected ∨ step ∈ eligible ∧ ∃ path ∈ changed, affects project optimized step path = true) ∧
    (path ∈ (eligible.foldl (pickStep project optimized changed) picked).mapped ↔
      path ∈ picked.mapped ∨ path ∈ changed ∧ ∃ step ∈ eligible, affects project optimized step path = true) := by
  induction eligible generalizing picked with
  | nil => simp
  | cons first eligible ih =>
      obtain ⟨hselected, hmapped⟩ := ih (pickStep project optimized changed picked first)
      obtain ⟨hfirst, hturn⟩ := @pickStep_mem project path step changed optimized picked first
      rw [List.foldl_cons, hselected, hmapped, hfirst, hturn]
      constructor
      · constructor
        · rintro ((h | ⟨rfl, h⟩) | ⟨hstep, h⟩)
          · exact .inl h
          · exact .inr ⟨List.mem_cons_self, h⟩
          · exact .inr ⟨List.mem_cons_of_mem _ hstep, h⟩
        · rintro (h | ⟨hstep, h⟩)
          · exact .inl (.inl h)
          · rcases List.mem_cons.mp hstep with rfl | hstep
            · exact .inl (.inr ⟨rfl, h⟩)
            · exact .inr ⟨hstep, h⟩
      · constructor
        · rintro ((h | ⟨hpath, h⟩) | ⟨hpath, step, hstep, h⟩)
          · exact .inl h
          · exact .inr ⟨hpath, first, List.mem_cons_self, h⟩
          · exact .inr ⟨hpath, step, List.mem_cons_of_mem _ hstep, h⟩
        · rintro (h | ⟨hpath, step, hstep, h⟩)
          · exact .inl (.inl h)
          · rcases List.mem_cons.mp hstep with rfl | hstep
            · exact .inl (.inr ⟨hpath, h⟩)
            · exact .inr ⟨hpath, step, hstep, h⟩

/-- What the loop over the eligible steps selects. -/
theorem mem_pickImpacted :
    step ∈ (pickImpacted project true changed (steps.filter (·.at .affected))).selected ↔ Affected project steps changed step := by
  unfold pickImpacted
  rw [(@foldl_pickStep_mem project "" step changed true (steps.filter (·.at .affected)) ⟨[], [], []⟩).1]
  simp only [List.not_mem_nil, false_or, List.mem_filter, and_assoc, Affected]

/-- What it maps. -/
theorem mem_mapped_pickImpacted :
    path ∈ (pickImpacted project true changed (steps.filter (·.at .affected))).mapped ↔
      path ∈ changed ∧ ∃ step ∈ steps, step.at .affected = true ∧ affects project true step path = true := by
  unfold pickImpacted
  rw [(@foldl_pickStep_mem project path {} changed true (steps.filter (·.at .affected)) ⟨[], [], []⟩).2]
  simp only [List.not_mem_nil, false_or, List.mem_filter, and_assoc]

/-- The state of the loop over changed tests, of which some are done. -/
structure Testing (project : Project) (done : List String) (start picked : Picked) : Prop where
  kept : ∀ step ∈ start.selected, step ∈ picked.selected
  only : ∀ step ∈ picked.selected, step ∈ start.selected ∨ ∃ path, ForTest project done step path
  covered : ∀ path ∈ done, isTestPath path = true → ∃ step ∈ picked.selected, path ∈ step.targets
  mapped : ∀ path, path ∈ picked.mapped ↔ path ∈ start.mapped ∨
    path ∈ done ∧ isTestPath path = true ∧ ∀ step ∈ start.selected, path ∉ step.targets

theorem pickChangedTest_ok {done : List String} {start picked picked' : Picked} (hnew : path ∉ done)
    (htesting : Testing project done start picked)
    (h : pickChangedTest project steps true preserve picked path = .ok picked') :
    Testing project (done ++ [path]) start picked' := by
  have hgrown : ∀ {step path'}, ForTest project done step path' → ForTest project (done ++ [path]) step path' := by
    intro step path' hfor
    exact ⟨List.mem_append_left _ hfor.changed, hfor.test, hfor.targets, hfor.prerequisites, hfor.proofId, hfor.trigger⟩
  have hcovers : (picked.selected.any fun step => step.targets.any fun target => target == path) = true ↔
      ∃ step ∈ picked.selected, path ∈ step.targets := by
    simp only [List.any_eq_true, beq_iff_eq, exists_eq_right]
  unfold pickChangedTest at h
  simp only [if_true] at h
  by_cases hskip : isTestPath path = false ∨ (picked.selected.any fun step => step.targets.any fun target => target == path) = true
  · rw [if_pos hskip] at h
    obtain rfl := Except.ok.inj h
    refine ⟨htesting.kept, fun step hstep => ?_, fun other hother htest => ?_, fun other => ?_⟩
    · rcases htesting.only step hstep with hold | ⟨_, hfor⟩
      · exact .inl hold
      · exact .inr ⟨_, hgrown hfor⟩
    · rcases List.mem_append.mp hother with hdone | hpath
      · exact htesting.covered other hdone htest
      · obtain rfl := List.mem_singleton.mp hpath
        rw [htest] at hskip
        exact hcovers.mp (hskip.resolve_left (by decide))
    · rw [htesting.mapped]
      constructor
      · rintro (h | ⟨hdone, h⟩)
        · exact .inl h
        · exact .inr ⟨List.mem_append_left _ hdone, h⟩
      · rintro (h | ⟨hother, htest, hnone⟩)
        · exact .inl h
        · rcases List.mem_append.mp hother with hdone | hpath
          · exact .inr ⟨hdone, htest, hnone⟩
          · -- the step that has the path as a target is none of those at the start, nor one for another test
            obtain rfl := List.mem_singleton.mp hpath
            rw [htest] at hskip
            obtain ⟨step, hstep, htarget⟩ := hcovers.mp (hskip.resolve_left (by decide))
            rcases htesting.only step hstep with hold | ⟨_, hfor⟩
            · exact absurd htarget (hnone step hold)
            · rw [hfor.targets, List.mem_singleton] at htarget
              exact absurd (htarget ▸ hfor.changed) hnew
  · rw [if_neg hskip] at h
    rw [not_or, hcovers] at hskip
    obtain ⟨htest, huncovered⟩ := hskip
    have htest : isTestPath path = true := by simpa using htest
    obtain ⟨owner, rfl⟩ : ∃ owner, picked' =
        { selected := picked.selected ++ [affectedTest project true preserve owner path]
          mapped := picked.mapped ++ [path]
          reasons := setField picked.reasons (changedTestId project path) ["changed_test:" ++ path] } := by
      cases howner : releaseOwner steps path with
      | some owner =>
          rw [howner] at h
          exact ⟨owner, (Except.ok.inj h).symm⟩
      | none =>
          rw [howner] at h
          simp only at h
          cases htrusted : trustedRunner steps path with
          | error message =>
              rw [htrusted] at h
              cases h
          | ok owner =>
              rw [htrusted] at h
              exact ⟨owner, (Except.ok.inj h).symm⟩
    have hfor : ForTest project (done ++ [path]) (affectedTest project true preserve owner path) path := by
      refine ⟨List.mem_append_right _ List.mem_cons_self, htest, rfl, ?_, rfl, rfl⟩
      simp [affectedTest]
    refine ⟨fun step hstep => List.mem_append_left _ (htesting.kept step hstep), fun step hstep => ?_, fun other hother hothertest => ?_,
      fun other => ?_⟩
    · rcases List.mem_append.mp hstep with hold | hfresh
      · rcases htesting.only step hold with hold | ⟨_, hfor⟩
        · exact .inl hold
        · exact .inr ⟨_, hgrown hfor⟩
      · obtain rfl := List.mem_singleton.mp hfresh
        exact .inr ⟨path, hfor⟩
    · rcases List.mem_append.mp hother with hdone | hpath
      · obtain ⟨step, hstep, htarget⟩ := htesting.covered other hdone hothertest
        exact ⟨step, List.mem_append_left _ hstep, htarget⟩
      · obtain rfl := List.mem_singleton.mp hpath
        exact ⟨_, List.mem_append_right _ List.mem_cons_self, List.mem_cons_self⟩
    · simp only [List.mem_append, List.mem_singleton, htesting.mapped]
      constructor
      · rintro ((h | ⟨hdone, h⟩) | rfl)
        · exact .inl h
        · exact .inr ⟨.inl hdone, h⟩
        · exact .inr ⟨.inr rfl, htest, fun step hstep htarget => huncovered ⟨step, htesting.kept step hstep, htarget⟩⟩
      · rintro (h | ⟨hdone | rfl, h⟩)
        · exact .inl (.inl h)
        · exact .inl (.inr ⟨hdone, h⟩)
        · exact .inr rfl

/-- The whole loop over the changed tests. -/
theorem foldlM_pickChangedTest_ok {done : List String} {start picked picked' : Picked} (hnodup : (done ++ changed).Nodup)
    (htesting : Testing project done start picked)
    (h : changed.foldlM (pickChangedTest project steps true preserve) picked = .ok picked') :
    Testing project (done ++ changed) start picked' := by
  induction changed generalizing done picked with
  | nil =>
      obtain rfl := Except.ok.inj h
      rwa [List.append_nil]
  | cons path rest ih =>
      rw [List.foldlM_cons] at h
      obtain ⟨next, hnext, h⟩ := bind_ok.mp h
      have hnew : path ∉ done := fun hmem => (List.nodup_append.mp hnodup).2.2 path hmem path List.mem_cons_self rfl
      rw [List.append_cons] at hnodup ⊢
      exact ih hnodup (pickChangedTest_ok hnew htesting hnext) h

theorem Carries.congr (h : Carries project steps changed base selected) (hbase : ∀ step, base step ↔ base' step) :
    Carries project steps changed base' selected := by
  have heq : base = base' := by
    funext step
    exact propext (hbase step)
  rwa [heq] at h

/-- Every changed test is a target of what is selected. -/
def Covers (changed : List String) (selected : Steps) : Prop :=
  ∀ path ∈ changed, isTestPath path = true → ∃ step ∈ selected, path ∈ step.targets

theorem Covers.mono (h : Covers changed selected) (hsub : ∀ step ∈ selected, step ∈ result) : Covers changed result := by
  intro path hpath htest
  obtain ⟨step, hstep, htarget⟩ := h path hpath htest
  exact ⟨step, hsub step hstep, htarget⟩

theorem mem_releaseSelection : step ∈ releaseSelection project steps true preserve ↔ OfRelease steps step := by
  unfold releaseSelection OfRelease
  rw [if_pos rfl, List.mem_filter, Bool.or_eq_true]

/-- The escalated selection holds the release, and what was selected where targets are preserved. -/
theorem escalated_carries (preserve : Bool) (hcarries : Carries project steps changed base selected) :
    Carries project steps changed (fun step => OfRelease steps step ∨ preserve = true ∧ base step)
      (escalated project steps true preserve selected) := by
  have hmem : ∀ step, step ∈ escalated project steps true preserve selected ↔
      OfRelease steps step ∨ preserve = true ∧ step ∈ selected := by
    intro step
    unfold escalated
    cases preserve with
    | false => simp [mem_releaseSelection]
    | true =>
        by_cases hstep : step ∈ selected <;> simp [mem_releaseSelection, hstep]
  refine ⟨?_, ?_, ?_⟩
  · rintro step (hrelease | ⟨-, hbase⟩)
    · exact hrelease.1
    · exact hcarries.configured step hbase
  · rintro step (hrelease | ⟨hpreserve, hbase⟩)
    · exact (hmem step).mpr (.inl hrelease)
    · exact (hmem step).mpr (.inr ⟨hpreserve, hcarries.holds step hbase⟩)
  · intro step hstep
    rcases (hmem step).mp hstep with hrelease | ⟨hpreserve, hold⟩
    · exact .inl (.inl hrelease)
    · rcases hcarries.only step hold with hbase | hfor
      · exact .inl (.inr ⟨hpreserve, hbase⟩)
      · exact .inr hfor

/-- A cause for the release that is seen before anything is selected. -/
def Escalates (project : Project) (steps : Steps) (gates : GateConfig) (requested : Level) (changed : List String) : Prop :=
  requested = .release ∨ (∃ path ∈ changed, gates.releaseBlockingPaths.any (pathMatches path) = true) ∨
    ∃ path ∈ changed, ¬ Mapped project steps changed path

/-- What is known of a draft. -/
structure Drafted (project : Project) (steps : Steps) (gates : GateConfig) (requested : Level) (changed : List String)
    (d : Draft) : Prop where
  mapped : d.mapped = changed
  unmapped : d.unmapped = []
  affected : d.level = .affected → Carries project steps changed (Affected project steps changed) d.selected ∧
    Covers changed d.selected ∧ ¬ Escalates project steps gates requested changed
  release : d.level = .release → Carries project steps changed (OfRelease steps) d.selected ∧
    Escalates project steps gates requested changed

theorem releaseSelection_carries (preserve : Bool) : Carries project steps changed (OfRelease steps) (releaseSelection project steps true preserve) :=
  ⟨fun _ h => h.1, fun _ h => mem_releaseSelection.mpr h, fun _ h => .inl (mem_releaseSelection.mp h)⟩

/-- The draft of an affected level, by whether every path is mapped. -/
theorem affectedDraft_ok {d : Draft} (hoptimized : gates.optimized = true) (hnodup : changed.Nodup)
    (hblocked : ∀ path ∈ changed, gates.releaseBlockingPaths.any (pathMatches path) = false)
    (h : affectedDraft project steps gates preserve changed = .ok d) :
    Drafted project steps gates .affected changed d := by
  unfold affectedDraft at h
  rw [hoptimized] at h
  obtain ⟨picked, hpicked, h⟩ := bind_ok.mp h
  have hstart : Testing project [] (pickImpacted project true changed (steps.filter (·.at .affected)))
      (pickImpacted project true changed (steps.filter (·.at .affected))) :=
    ⟨fun _ h => h, fun _ h => .inl h, fun _ hpath => absurd hpath List.not_mem_nil, fun _ => by simp⟩
  have htesting := foldlM_pickChangedTest_ok (by simpa using hnodup) hstart hpicked
  rw [List.nil_append] at htesting
  have hcarries : Carries project steps changed (Affected project steps changed) picked.selected := by
    refine ⟨fun step hstep => hstep.1, fun step hstep => htesting.kept step (mem_pickImpacted.mpr hstep), ?_⟩
    intro step hstep
    rcases htesting.only step hstep with hold | hfor
    · exact .inl (mem_pickImpacted.mp hold)
    · exact .inr hfor
  have hmapped : ∀ path ∈ changed, path ∈ picked.mapped ↔ Mapped project steps changed path := by
    intro path hpath
    rw [htesting.mapped, mem_mapped_pickImpacted]
    unfold Mapped
    simp only [mem_pickImpacted, hpath, true_and]
  simp only [true_or, if_true] at h
  split at h
  · next hall =>
      obtain rfl := Except.ok.inj h
      have hevery : ∀ path ∈ changed, path ∈ picked.mapped := by
        intro path hpath
        simpa using List.filter_eq_nil_iff.mp hall path hpath
      refine ⟨?_, rfl, fun _ => ⟨hcarries, htesting.covered, ?_⟩, nofun⟩
      · refine List.filter_eq_self.mpr fun path hpath => ?_
        simpa using hevery path hpath
      · rintro (h | ⟨path, hpath, hmatch⟩ | ⟨path, hpath, hunmapped⟩)
        · cases h
        · rw [hblocked path hpath] at hmatch
          cases hmatch
        · exact hunmapped ((hmapped path hpath).mp (hevery path hpath))
  · next hsome =>
      obtain rfl := Except.ok.inj h
      obtain ⟨path, hpath⟩ := List.exists_mem_of_ne_nil _ hsome
      obtain ⟨hpath, hunmapped⟩ := List.mem_filter.mp hpath
      refine ⟨rfl, rfl, nofun, fun _ => ⟨?_, ?_⟩⟩
      · refine (escalated_carries preserve hcarries).congr fun step => ⟨?_, .inl⟩
        rintro (h | ⟨-, h⟩)
        · exact h
        · exact h.ofRelease
      · refine .inr (.inr ⟨path, hpath, ?_⟩)
        rw [← hmapped path hpath]
        simpa using hunmapped

theorem draft_ok {requested : Level} {d : Draft} (hoptimized : gates.optimized = true) (hnodup : changed.Nodup)
    (h : draft project steps gates preserve requested changed = .ok d) :
    Drafted project steps gates requested changed d := by
  unfold draft at h
  rw [hoptimized] at h
  by_cases hblocked : (requested == .affected && changed.any fun path => gates.releaseBlockingPaths.any (pathMatches path)) = true
  · simp only [hblocked, if_true] at h
    obtain rfl := Except.ok.inj h
    refine ⟨rfl, rfl, nofun, fun _ => ⟨releaseSelection_carries preserve, ?_⟩⟩
    obtain ⟨path, hpath, hmatch⟩ := List.any_eq_true.mp (Bool.and_eq_true_iff.mp hblocked).2
    exact .inr (.inl ⟨path, hpath, hmatch⟩)
  · simp only [hblocked] at h
    cases requested with
    | release =>
        simp only [if_true] at h
        obtain rfl := Except.ok.inj h
        exact ⟨rfl, rfl, nofun, fun _ => ⟨releaseSelection_carries preserve, .inl rfl⟩⟩
    | affected =>
        have hnone : ∀ path ∈ changed, gates.releaseBlockingPaths.any (pathMatches path) = false := by
          simpa using hblocked
        simp only [reduceCtorEq, if_false] at h
        split at h
        · next hempty =>
            obtain rfl := Except.ok.inj h
            subst hempty
            refine ⟨rfl, rfl, fun _ => ⟨⟨fun _ h => h.1, ?_, by simp⟩, by simp [Covers], ?_⟩, nofun⟩
            · rintro step ⟨-, -, path, hpath, -⟩
              cases hpath
            · rintro (h | ⟨path, hpath, -⟩ | ⟨path, hpath, -⟩)
              · cases h
              · cases hpath
              · cases hpath
        · exact affectedDraft_ok hoptimized hnodup hnone h

/-! ### Whole selections -/

/-- What a selection of a level is based on. -/
def Basis (project : Project) (steps : Steps) (changed required : List String) (level : Level) (step : VerificationStep) : Prop :=
  (match level with
    | .affected => Affected project steps changed step
    | .release => OfRelease steps step) ∨ Proves steps required step

theorem preserved_carries (hcarries : Carries project steps changed (OfRelease steps) selected) :
    Carries project steps changed (OfRelease steps) (preserved project steps changed selected) := by
  refine ⟨hcarries.configured, fun step hstep => mem_extendMissing.mpr (.inl (hcarries.holds step hstep)), ?_⟩
  intro step hstep
  rcases mem_extendMissing.mp hstep with hold | hfresh
  · exact hcarries.only step hold
  · obtain ⟨hstep, hreached⟩ := List.mem_filter.mp hfresh
    exact .inl ⟨hstep, .inl (Bool.and_eq_true_iff.mp hreached).1⟩

/-- The last loop keeps what is carried, and covers the changed tests. -/
theorem addChangedTest_ok {done : List String} {picked picked' : Steps × List (String × List String)}
    (hcarries : Carries project steps changed base picked.1) (hcovers : Covers done picked.1) (hpath : path ∈ changed)
    (h : addChangedTest project steps picked path = .ok picked') :
    Carries project steps changed base picked'.1 ∧ Covers (done ++ [path]) picked'.1 := by
  unfold addChangedTest at h
  by_cases hskip : isTestPath path = false ∨ (picked.1.any fun step => step.targets.contains path) = true
  · rw [if_pos hskip] at h
    obtain rfl := Except.ok.inj h
    refine ⟨hcarries, fun other hother htest => ?_⟩
    rcases List.mem_append.mp hother with hdone | hlast
    · exact hcovers other hdone htest
    · obtain rfl := List.mem_singleton.mp hlast
      rw [htest] at hskip
      simpa using hskip
  · rw [if_neg hskip] at h
    have htest : isTestPath path = true := by
      rw [not_or] at hskip
      simpa using hskip.1
    cases htrusted : trustedRunner steps path with
    | error message =>
        rw [htrusted] at h
        cases h
    | ok owner =>
        rw [htrusted] at h
        obtain rfl := Except.ok.inj h
        refine ⟨⟨hcarries.configured, fun step hstep => List.mem_append_left _ (hcarries.holds step hstep), ?_⟩, ?_⟩
        · intro step hstep
          rcases List.mem_append.mp hstep with hold | hfresh
          · exact hcarries.only step hold
          · obtain rfl := List.mem_singleton.mp hfresh
            exact .inr ⟨path, hpath, htest, rfl, rfl, rfl, rfl⟩
        · intro other hother hothertest
          rcases List.mem_append.mp hother with hdone | hlast
          · obtain ⟨step, hstep, htarget⟩ := hcovers other hdone hothertest
            exact ⟨step, List.mem_append_left _ hstep, htarget⟩
          · obtain rfl := List.mem_singleton.mp hlast
            exact ⟨_, List.mem_append_right _ List.mem_cons_self, List.mem_cons_self⟩

theorem foldlM_addChangedTest_ok {done rest : List String} {picked picked' : Steps × List (String × List String)}
    (hcarries : Carries project steps changed base picked.1) (hcovers : Covers done picked.1) (hrest : ∀ path ∈ rest, path ∈ changed)
    (h : rest.foldlM (addChangedTest project steps) picked = .ok picked') :
    Carries project steps changed base picked'.1 ∧ Covers (done ++ rest) picked'.1 := by
  induction rest generalizing done picked with
  | nil =>
      obtain rfl := Except.ok.inj h
      rw [List.append_nil]
      exact ⟨hcarries, hcovers⟩
  | cons path rest ih =>
      rw [List.foldlM_cons] at h
      obtain ⟨next, hnext, h⟩ := bind_ok.mp h
      obtain ⟨hcarries', hcovers'⟩ := addChangedTest_ok hcarries hcovers (hrest path List.mem_cons_self) hnext
      rw [List.append_cons]
      exact ih hcarries' hcovers' (fun other hother => hrest other (List.mem_cons_of_mem _ hother)) h

/-- A cause for the release that is seen in what the affected level selects. -/
def Triggers (project : Project) (steps : Steps) (changed required : List String) : Prop :=
  ∃ step, Needed steps (Basis project steps changed required .affected) step ∧ step.releaseTrigger = true

/-- What a call selects. -/
structure Outcome (project : Project) (steps : Steps) (gates : GateConfig) (requested : Level) (changed required : List String)
    (sel : Selection) : Prop where
  changedPaths : sel.changedPaths = changed
  mapped : sel.mappedPaths = changed
  unmapped : sel.unmappedPaths = []
  carries : Carries project steps changed (Needed steps (Basis project steps changed required sel.level)) sel.steps
  covers : Covers changed sel.steps
  known : ∀ proofId ∈ required, ∃ step, Proves steps required step ∧ step.proofId = proofId
  level : sel.level = .release ↔
    Escalates project steps gates requested changed ∨ Triggers project steps changed required

/-- The prerequisites of an affected level, with the escalation that they cause. -/
theorem triggered_ok {level : Level} {reason reason' : String} {level' : Level} {d : Draft} {requested : Level}
    (hoptimized : gates.optimized = true) (hnamed : Named steps) (hclear : Clear project steps changed)
    (hdrafted : Drafted project steps gates requested changed d) (hlevel : level = d.level)
    (hcarries : Carries project steps changed (Needed steps (Basis project steps changed required level)) selected)
    (hcovers : level = .affected → Covers changed selected)
    (h : triggered project steps gates preserve required level reason selected = .ok (level', reason', result)) :
    Carries project steps changed (Needed steps (Basis project steps changed required level')) result ∧
      (level' = .affected → Covers changed result) ∧
      (level' = .release ↔ Escalates project steps gates requested changed ∨ Triggers project steps changed required) := by
  unfold triggered at h
  rw [hoptimized] at h
  by_cases hif : level = .affected ∧ selected.any (triggers true) = true
  · rw [if_pos hif] at h
    obtain ⟨rfl, htriggers⟩ := hif
    obtain ⟨passed, hpassed, h⟩ := bind_ok.mp h
    obtain ⟨rfl, -, rfl⟩ : Level.release = level' ∧ _ ∧ passed = result := by
      have heq := Except.ok.inj h
      simpa using heq
    have hescalated := escalated_carries preserve hcarries
    have hcompleted := (completed_carries hnamed hclear hescalated hpassed).1
    refine ⟨hcompleted.congr fun step => ⟨fun hneeded => hneeded.mono ?_, fun hneeded => hneeded.mono ?_⟩, nofun, ?_⟩
    · rintro step ((hrelease | ⟨-, hneeded⟩) | hproves)
      · exact .of_base (.inl hrelease)
      · refine hneeded.mono ?_
        rintro step (haffected | hproves)
        · exact .of_base (.inl haffected.ofRelease)
        · exact .of_base (.inr hproves)
      · exact .of_base (.inr hproves)
    · rintro step (hrelease | hproves)
      · exact .of_base (.inl (.inl hrelease))
      · exact .of_base (.inr hproves)
    · refine ⟨fun _ => .inr ?_, fun _ => rfl⟩
      obtain ⟨step, hstep, htrigger⟩ := List.any_eq_true.mp htriggers
      rcases hcarries.only step hstep with hneeded | ⟨_, hfor⟩
      · exact ⟨step, hneeded, htrigger⟩
      · have hnot := hfor.trigger
        unfold triggers at htrigger
        rw [if_pos rfl, hnot] at htrigger
        cases htrigger
  · rw [if_neg hif] at h
    obtain ⟨rfl, -, rfl⟩ : level = level' ∧ reason = reason' ∧ selected = result := by
      have heq := Except.ok.inj h
      simpa using heq
    refine ⟨hcarries, hcovers, ?_⟩
    cases level with
    | release =>
        exact ⟨fun _ => .inl (hdrafted.release hlevel.symm).2, fun _ => rfl⟩
    | affected =>
        refine ⟨nofun, ?_⟩
        rintro (hescalates | ⟨step, hneeded, htrigger⟩)
        · exact absurd hescalates (hdrafted.affected hlevel.symm).2.2
        · refine absurd ⟨rfl, List.any_eq_true.mpr ⟨step, hcarries.holds step hneeded, ?_⟩⟩ hif
          simpa [triggers] using htrigger

theorem mem_fromKeys {texts : List String} {text : String} : text ∈ fromKeys texts ↔ text ∈ texts := by simp [fromKeys]

theorem fromKeys_nodup (texts : List String) : (fromKeys texts).Nodup := List.nodup_reverse.mpr (List.nodup_dedup _)

/-- What a call without an error selects. -/
theorem select_ok {request : Request} {sel : Selection} (hoptimized : gates.optimized = true) (hnamed : Named steps)
    (hclear : Clear project steps (changedOf request.changedPaths))
    (h : selectVerificationSteps project steps gates preserve request = .ok sel) :
    ∃ requested, readLevel request.level = .ok requested ∧
      Outcome project steps gates requested (changedOf request.changedPaths) (fromKeys request.requiredProofIds) sel := by
  have hnodup : (changedOf request.changedPaths).Nodup := fromKeys_nodup _
  unfold selectVerificationSteps at h
  obtain ⟨requested, hrequested, h⟩ := bind_ok.mp h
  refine ⟨requested, hrequested, ?_⟩
  generalize changedOf request.changedPaths = changed at h hclear hnodup ⊢
  generalize fromKeys request.requiredProofIds = required at h ⊢
  obtain ⟨hmissing, h⟩ := guard_ok.mp h
  obtain ⟨d, hd, h⟩ := bind_ok.mp h
  obtain ⟨passed, hpassed, h⟩ := bind_ok.mp h
  obtain ⟨⟨level, reason, last⟩, htriggered, h⟩ := bind_ok.mp h
  obtain ⟨⟨final, reasons⟩, hfinal, h⟩ := bind_ok.mp h
  have hdrafted := draft_ok hoptimized hnodup hd
  -- the draft, with its prerequisites
  have hpass : Carries project steps changed (Needed steps (Basis project steps changed required d.level)) passed ∧
      (d.level = .affected → Covers changed passed) := by
    cases hlevel : d.level with
    | affected =>
        obtain ⟨hcarries, hcovers, -⟩ := hdrafted.affected hlevel
        rw [hlevel, if_neg (by simp)] at hpassed
        obtain ⟨hcompleted, hkept⟩ := completed_carries hnamed hclear hcarries hpassed
        exact ⟨hcompleted, fun _ => hcovers.mono hkept⟩
    | release =>
        obtain ⟨hcarries, -⟩ := hdrafted.release hlevel
        refine ⟨?_, nofun⟩
        split at hpassed
        · exact (completed_carries hnamed hclear (preserved_carries hcarries) hpassed).1
        · exact (completed_carries hnamed hclear hcarries hpassed).1
  obtain ⟨hcarries, hcovers, hlevel⟩ := triggered_ok hoptimized hnamed hclear hdrafted rfl hpass.1 hpass.2 htriggered
  unfold withChangedTests at hfinal
  have hlast : Carries project steps changed (Needed steps (Basis project steps changed required level)) final ∧
      Covers changed final := by
    cases level with
    | affected =>
        rw [if_neg (by simp)] at hfinal
        obtain ⟨rfl, -⟩ := Prod.mk.inj (Except.ok.inj hfinal)
        exact ⟨hcarries, hcovers rfl⟩
    | release =>
        rw [if_pos ⟨hoptimized, rfl⟩] at hfinal
        have hnone : Covers [] last := by simp [Covers]
        have hloop := foldlM_addChangedTest_ok hcarries hnone (fun _ hpath => hpath) hfinal
        rwa [List.nil_append] at hloop
  obtain rfl := Except.ok.inj h
  refine ⟨rfl, hdrafted.mapped, hdrafted.unmapped, hlast.1, hlast.2, ?_, hlevel⟩
  intro proofId hproof
  have hknown : ¬ ((indexed steps).lookup proofId).isNone = true := by
    rw [not_not] at hmissing
    exact List.filter_eq_nil_iff.mp hmissing proofId hproof
  cases hlookup : (indexed steps).lookup proofId with
  | none => exact absurd (by rw [hlookup]; rfl) hknown
  | some step =>
      obtain ⟨hstep, rfl⟩ := hnamed.lookup_iff.mp hlookup
      exact ⟨step, ⟨hstep, hproof⟩, rfl⟩

/-! ### Growing calls -/

/-- The second call differs from the first in more changed paths, more required proofs, or the release level. -/
structure Request.Extends (second first : Request) : Prop where
  changedPaths : ∀ path ∈ first.changedPaths, path ∈ second.changedPaths
  requiredProofIds : ∀ proofId ∈ first.requiredProofIds, proofId ∈ second.requiredProofIds
  level : second.level = first.level ∨ readLevel first.level = .ok .affected ∧ readLevel second.level = .ok .release

/-- A step of the selection has the target. -/
def Selection.Executes (sel : Selection) (target : String) : Prop := ∃ step ∈ sel.steps, target ∈ step.targets

/-- The selection answers what was asked: every changed path is mapped, every required proof is there, and with every
step all its known prerequisites. -/
structure Selection.Answers (sel : Selection) (steps : Steps) (request : Request) : Prop where
  mapped : ∀ path ∈ changedOf request.changedPaths, path ∈ sel.mappedPaths
  unmapped : sel.unmappedPaths = []
  required : ∀ proofId ∈ request.requiredProofIds, ∃ step ∈ steps, step.proofId = proofId ∧ step ∈ sel.steps
  prerequisites : ∀ step ∈ sel.steps, ∀ proofId ∈ step.dependsOnProofs, ∀ other ∈ steps, other.proofId = proofId →
    other ∈ sel.steps

theorem Outcome.answers {requested : Level} {request : Request} {sel : Selection}
    (h : Outcome project steps gates requested (changedOf request.changedPaths) (fromKeys request.requiredProofIds) sel) :
    sel.Answers steps request := by
  refine ⟨fun path hpath => by rwa [h.mapped], h.unmapped, ?_, ?_⟩
  · intro proofId hproof
    obtain ⟨step, hproves, hid⟩ := h.known proofId (mem_fromKeys.mpr hproof)
    exact ⟨step, hproves.1, hid, h.carries.holds step (.of_base (.inr hproves))⟩
  · rintro step hstep proofId hproof other hother rfl
    rcases h.carries.only step hstep with hneeded | ⟨_, hfor⟩
    · exact h.carries.holds other (hneeded.next ⟨hother, hproof⟩)
    · rw [hfor.prerequisites] at hproof
      cases hproof

section

variable {changed' required' : List String} {requested requested' : Level}

theorem Affected.mono (h : Affected project steps changed step) (hchanged : ∀ path ∈ changed, path ∈ changed') :
    Affected project steps changed' step := by
  obtain ⟨hstep, hlevel, path, hpath, haffects⟩ := h
  exact ⟨hstep, hlevel, path, hchanged path hpath, haffects⟩

theorem Basis.mono {level level' : Level} (h : Basis project steps changed required level step)
    (hchanged : ∀ path ∈ changed, path ∈ changed') (hrequired : ∀ proofId ∈ required, proofId ∈ required')
    (hlevel : level = .release → level' = .release) : Basis project steps changed' required' level' step := by
  rcases h with hbase | hproves
  · left
    cases level with
    | affected =>
        have haffected : Affected project steps changed step := hbase
        cases level' with
        | affected => exact haffected.mono hchanged
        | release => exact haffected.ofRelease
    | release =>
        rw [hlevel rfl]
        exact hbase
  · exact .inr ⟨hproves.1, hrequired _ hproves.2⟩

/-- A path that the second call maps was mapped by the first. -/
theorem Mapped.of_more (h : Mapped project steps changed' path) (hchanged : ∀ path ∈ changed, path ∈ changed') :
    Mapped project steps changed path := by
  rcases h with hreached | ⟨htest, hnone⟩
  · exact .inl hreached
  · exact .inr ⟨htest, fun step hstep => hnone step (hstep.mono hchanged)⟩

theorem Escalates.mono (h : Escalates project steps gates requested changed) (hchanged : ∀ path ∈ changed, path ∈ changed')
    (hrequested : requested = .release → requested' = .release) : Escalates project steps gates requested' changed' := by
  rcases h with hlevel | ⟨path, hpath, hblocked⟩ | ⟨path, hpath, hunmapped⟩
  · exact .inl (hrequested hlevel)
  · exact .inr (.inl ⟨path, hchanged path hpath, hblocked⟩)
  · exact .inr (.inr ⟨path, hchanged path hpath, fun hmapped => hunmapped (hmapped.of_more hchanged)⟩)

theorem Triggers.mono (h : Triggers project steps changed required) (hchanged : ∀ path ∈ changed, path ∈ changed')
    (hrequired : ∀ proofId ∈ required, proofId ∈ required') : Triggers project steps changed' required' := by
  obtain ⟨step, hneeded, htrigger⟩ := h
  exact ⟨step, hneeded.mono fun _ hbase => .of_base (hbase.mono hchanged hrequired nofun), htrigger⟩

end

theorem Clear.mono {changed' : List String} (h : Clear project steps changed') (hchanged : ∀ path ∈ changed, path ∈ changed') :
    Clear project steps changed := fun path hpath => h path (hchanged path hpath)

/-- A project without dependencies. The digest is that of `tests/test_new.py`. -/
def plainProject : Project where
  pathDigest _ := "fccfbd2711"
  remainingDigest _ _ := ""

/-- A service with its test, which needs a setup. -/
def serviceSteps (setupId : String) : Steps :=
  [{ proofId := "service.proof", runner := "pytest", levels := ["affected"], targets := ["tests/test_service.py"],
      impactPaths := ["src/"], dependsOnProofs := [setupId] },
    { proofId := setupId, runner := "pytest", levels := ["affected"], targets := ["tests/test_setup.py"] }]

def optimizedGates : GateConfig where
  verificationPolicyVersion := 5

def serviceChange : Request where
  level := "affected"
  changedPaths := ["src/service.py"]

def serviceChangeTested : Request where
  level := "affected"
  changedPaths := ["src/service.py", "tests/test_new.py"]

theorem serviceChangeTested_extends : serviceChangeTested.Extends serviceChange :=
  ⟨by decide, by decide, .inl rfl⟩

/-- The targets of a selection, where there is one. -/
def executedTargets (steps : Steps) (request : Request) : Option (List String) :=
  (selectVerificationSteps plainProject steps optimizedGates false request).toOption.map fun sel =>
    sel.steps.flatMap (·.targets)

theorem executedTargets_some {request : Request} {targets : List String} (h : executedTargets steps request = some targets) :
    ∃ sel, selectVerificationSteps plainProject steps optimizedGates false request = .ok sel ∧
      ∀ target, sel.Executes target ↔ target ∈ targets := by
  unfold executedTargets at h
  cases hsel : selectVerificationSteps plainProject steps optimizedGates false request with
  | error message =>
      rw [hsel] at h
      cases h
  | ok sel =>
      rw [hsel] at h
      obtain rfl := Option.some.inj h
      exact ⟨sel, rfl, fun target => List.mem_flatMap.symm⟩

end AutoAgents.Verification
