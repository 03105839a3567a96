import AutoAgents.GateScheduler

/-! What holds at every moment of the overlapped gate plan, that its loop ends, and that its result is the
one of the phased plan. -/

namespace AutoAgents.Gates

variable {ρ : Type} {P : Plan ρ} {report : String → Outcome → Prop} {s s' : Scheduler} {item : Scheduled}

/-! ### Places of a plan -/

/-- The spots of numbered groups. -/
def groupSpots (groups : List (List Nat)) (start : Nat) : List Spot :=
  (groups.zipIdx start).flatMap fun e => e.1.map (Spot.parallel e.2)

@[simp] theorem groupSpots_nil (start : Nat) : groupSpots [] start = [] := rfl

@[simp] theorem groupSpots_cons (group : List Nat) (groups : List (List Nat)) (start : Nat) :
    groupSpots (group :: groups) start = group.map (Spot.parallel start) ++ groupSpots groups (start + 1) := by
  simp [groupSpots, List.zipIdx_cons]

/-- A spot taken out of its group. -/
theorem groupSpots_set {groups : List (List Nat)} {group rest : List Nat} {g index start : Nat}
    (hgroup : groups[g]? = some group) (hperm : group.Perm (index :: rest)) :
    (groupSpots groups start).Perm (.parallel (start + g) index :: groupSpots (groups.set g rest) start) := by
  induction groups generalizing g start with
  | nil => simp at hgroup
  | cons first groups ih =>
      cases g with
      | zero =>
          obtain rfl : first = group := by simpa using hgroup
          have hmap := hperm.map (Spot.parallel start)
          simpa using hmap.append_right (groupSpots groups (start + 1))
      | succ g =>
          have hlater : (groupSpots groups (start + 1)).Perm
              (.parallel (start + 1 + g) index :: groupSpots (groups.set g rest) (start + 1)) := ih (by simpa using hgroup)
          rw [show start + 1 + g = start + (g + 1) by omega] at hlater
          have hall := hlater.append_left (first.map (Spot.parallel start))
          simpa using hall.trans List.perm_middle

theorem groupSpots_perm {groups groups' : List (List Nat)} {start : Nat}
    (h : List.Forall₂ List.Perm groups groups') : (groupSpots groups start).Perm (groupSpots groups' start) := by
  induction h generalizing start with
  | nil => simp
  | cons hfirst _ ih => simpa using (hfirst.map _).append ih

theorem mem_groupSpots {groups : List (List Nat)} {start : Nat} {spot : Spot} :
    spot ∈ groupSpots groups start ↔
      ∃ g group index, groups[g]? = some group ∧ index ∈ group ∧ spot = .parallel (start + g) index := by
  induction groups generalizing start with
  | nil => simp
  | cons first groups ih =>
      rw [groupSpots_cons, List.mem_append, List.mem_map, ih]
      constructor
      · rintro (⟨index, hindex, rfl⟩ | ⟨g, group, index, hgroup, hindex, rfl⟩)
        · exact ⟨0, first, index, rfl, hindex, rfl⟩
        · exact ⟨g + 1, group, index, hgroup, hindex, by congr 1; omega⟩
      · rintro ⟨g, group, index, hgroup, hindex, rfl⟩
        cases g with
        | zero =>
            obtain rfl : first = group := by simpa using hgroup
            exact Or.inl ⟨index, hindex, rfl⟩
        | succ g => exact Or.inr ⟨g, group, index, by simpa using hgroup, hindex, by congr 1; omega⟩

theorem groupSpots_nodup {groups : List (List Nat)} {start : Nat} (h : ∀ group ∈ groups, group.Nodup) :
    (groupSpots groups start).Nodup := by
  induction groups generalizing start with
  | nil => simp
  | cons first groups ih =>
      rw [groupSpots_cons, List.nodup_append]
      refine ⟨(h first List.mem_cons_self).map ?_, ih fun group hgroup => h group (List.mem_cons_of_mem _ hgroup), ?_⟩
      · intro a b hab
        simpa using hab
      · rintro a ha _ hb rfl
        obtain ⟨i, -, rfl⟩ := List.mem_map.mp ha
        obtain ⟨g, group, index, -, -, heq⟩ := mem_groupSpots.mp hb
        injection heq
        omega

/-- All places of a plan. -/
def Plan.spots (P : Plan ρ) : List Spot :=
  (List.range P.commands.length).map .serial ++
    groupSpots (P.parallelGroups.map fun group => List.range group.commands.length) 0

/-- The places that were not yet started. -/
def Scheduler.pendingSpots (P : Plan ρ) (s : Scheduler) : List Spot :=
  (List.range' s.serialNext (P.commands.length - s.serialNext)).map .serial ++
    groupSpots (s.pendingGroups.map (List.map Prod.fst)) 0

def Plan.commandAt (P : Plan ρ) : Spot → Option String
  | .serial index => P.commands[index]?
  | .parallel group index => P.parallelGroups[group]?.bind fun g => g.commands[index]?

theorem Plan.spots_nodup (P : Plan ρ) : P.spots.Nodup := by
  unfold Plan.spots
  rw [List.nodup_append]
  refine ⟨List.nodup_range.map ?_, groupSpots_nodup ?_, ?_⟩
  · intro a b hab
    simpa using hab
  · intro group hgroup
    obtain ⟨g, -, rfl⟩ := List.mem_map.mp hgroup
    exact List.nodup_range
  · rintro a ha _ hb rfl
    obtain ⟨i, -, rfl⟩ := List.mem_map.mp ha
    obtain ⟨g, group, index, -, -, heq⟩ := mem_groupSpots.mp hb
    cases heq

/-! ### Starting a command -/

/-- A command was started: it fitted, and it is no longer pending. -/
structure Starts (P : Plan ρ) (s : Scheduler) (item : Scheduled) (s' : Scheduler) : Prop where
  fits : s.fits P item.command = true
  slots : item.slots = P.slots item.command
  jobs : s.running.length < P.jobCapacity
  idle : s.exclusiveRunning P = false
  serial : item.spot.serialIndex.isSome = true → s.serialRunning = false
  spots : (s.pendingSpots P).Perm (item.spot :: s'.pendingSpots P)
  next : s'.serialNext = s.serialNext + item.spot.serialIndex.toList.length
  index : ∀ i ∈ item.spot.serialIndex, i = s.serialNext
  length : s'.pendingGroups.length = s.pendingGroups.length
  texts : (∀ g, ∀ e ∈ s.pending g, P.commandAt (.parallel g e.1) = some e.2) →
    P.commandAt item.spot = some item.command
  pending : ∀ g, ∀ e ∈ s'.pending g, e ∈ s.pending g
  running : s'.running = s.running ++ [item]
  submitted : s'.submitted = s.submitted ++ [item]
  groupIndex : s'.groupIndex = s.groupIndex
  results : s'.results = s.results
  stopDispatch : s'.stopDispatch = s.stopDispatch
  fatalError : s'.fatalError = s.fatalError

theorem startSerial_starts (h : s.startSerial P = some s') : ∃ item, Starts P s item s' := by
  unfold Scheduler.startSerial at h
  split at h
  · cases h
  · next command hcommand =>
      split at h
      · next hcan =>
          cases h
          obtain ⟨hserial, hjobs, hidle, hfits⟩ := hcan
          have hlt : s.serialNext < P.commands.length := (List.getElem?_eq_some_iff.mp hcommand).1
          refine ⟨⟨.serial s.serialNext, command, P.slots command⟩, ?_⟩
          refine ⟨hfits, rfl, hjobs, hidle, fun _ => hserial, ?_, rfl, ?_, rfl, fun _ => hcommand, fun _ _ he => he,
            rfl, rfl, rfl, rfl, rfl, rfl⟩
          · obtain ⟨n, hn⟩ : ∃ n, P.commands.length - s.serialNext = n + 1 :=
              ⟨P.commands.length - s.serialNext - 1, by omega⟩
            have hn' : P.commands.length - (s.serialNext + 1) = n := by omega
            simp [Scheduler.pendingSpots, Scheduler.submit, hn, hn', List.range'_succ]
          · intro i hi
            simpa [Spot.serialIndex] using hi.symm
      · cases h

/-- The first element with a property and the list without it. -/
theorem find?_eraseP {α : Type} {p : α → Bool} {l : List α} {a : α} (h : l.find? p = some a) :
    p a = true ∧ l.Perm (a :: l.eraseP p) := by
  induction l with
  | nil => simp at h
  | cons b l ih =>
      by_cases hb : p b = true
      · obtain rfl : b = a := by simpa [List.find?_cons, hb] using h
        simp [hb]
      · have hb : p b = false := by simpa using hb
        rw [List.find?_cons, hb] at h
        obtain ⟨hp, hperm⟩ := ih h
        rw [List.eraseP_cons, hb]
        exact ⟨hp, (hperm.cons b).trans (List.Perm.swap a b _)⟩

theorem startFrom_starts {group : Nat} (hjobs : s.running.length < P.jobCapacity)
    (hidle : s.exclusiveRunning P = false) (h : s.startFrom P group = some (item, s')) : Starts P s item s' := by
  unfold Scheduler.startFrom at h
  simp only at h
  split at h
  · cases h
  · next index command hfind =>
      cases h
      obtain ⟨hfits, hperm⟩ := find?_eraseP hfind
      have hmem : (index, command) ∈ s.pending group := List.mem_of_find?_eq_some hfind
      have hgroup : s.pendingGroups[group]? = some (s.pending group) := by
        unfold Scheduler.pending at hmem ⊢
        rw [List.getD_eq_getElem?_getD] at hmem ⊢
        cases hget : s.pendingGroups[group]? with
        | none => simp [hget] at hmem
        | some pending => rfl
      refine ⟨hfits, rfl, hjobs, hidle, nofun, ?_, rfl, nofun, ?_, fun htexts => htexts group _ hmem, ?_, rfl, rfl,
        rfl, rfl, rfl, rfl⟩
      · have hindices : (s.pendingGroups.map (List.map Prod.fst))[group]? = some ((s.pending group).map Prod.fst) := by
          rw [List.getElem?_map, hgroup]
          rfl
        have hset : (groupSpots (s.pendingGroups.map (List.map Prod.fst)) 0).Perm _ :=
          groupSpots_set hindices (hperm.map Prod.fst)
        rw [Nat.zero_add] at hset
        have hall := hset.append_left ((List.range' s.serialNext (P.commands.length - s.serialNext)).map Spot.serial)
        simpa [Scheduler.pendingSpots, Scheduler.submit, List.map_set] using hall.trans List.perm_middle
      · simp [Scheduler.submit]
      · intro g e he
        unfold Scheduler.pending at he ⊢
        simp only [Scheduler.submit, List.getD_eq_getElem?_getD, List.getElem?_set] at he
        split at he
        · next heq =>
            subst heq
            split at he
            · exact List.mem_of_mem_eraseP he
            · cases he
        · rwa [List.getD_eq_getElem?_getD]

theorem startParallel_starts (hjobs : s.running.length < P.jobCapacity) (hidle : s.exclusiveRunning P = false)
    (h : s.startParallel P = some (item, s')) : Starts P s item s' := by
  unfold Scheduler.startParallel at h
  split at h
  · next started hstarted =>
      cases h
      exact startFrom_starts hjobs hidle hstarted
  · obtain ⟨group, -, hgroup⟩ := List.exists_of_findSome?_eq_some h
    exact startFrom_starts hjobs hidle hgroup

/-! ### What holds at every moment -/

/-- The accounting of the scheduler, and what it may run at a time. -/
structure Scheduler.Sound (P : Plan ρ) (report : String → Outcome → Prop) (s : Scheduler) : Prop where
  spots : P.spots.Perm (s.pendingSpots P ++ s.submitted.map Scheduled.spot)
  length : s.pendingGroups.length = P.parallelGroups.length
  texts : ∀ g, ∀ e ∈ s.pending g, P.commandAt (.parallel g e.1) = some e.2
  scheduled : ∀ item ∈ s.submitted, P.commandAt item.spot = some item.command ∧ item.slots = P.slots item.command
  running : s.running.Subperm s.submitted
  slots : s.usedSlots ≤ P.slotCapacity
  jobs : s.running.length ≤ P.jobCapacity
  serial : (s.running.filter fun item => item.spot.serialIndex.isSome).length ≤ 1
  alone : ∀ item ∈ s.running, P.executor.exclusive item.command = true → s.running = [item]
  order : (s.submitted.filterMap fun item => item.spot.serialIndex) = List.range s.serialNext
  passed : ∀ g < s.groupIndex, s.pending g = []
  settled : s.fatalError = none → (s.submitted.map Scheduled.spot).Perm (s.running.map Scheduled.spot ++ s.results.map Prod.fst)
  reported : ∀ e ∈ s.results, ∃ command, P.commandAt e.1 = some command ∧ report command (.ok e.2)
  raised : s.fatalError ≠ none → ∃ command error, report command (.error error)
  stopped : s.stopDispatch = true →
    s.fatalError ≠ none ∨ ∃ e ∈ s.results, e.2.ok = false ∧ halts P.collectAll e.2 = true

theorem one_le_jobCapacity (P : Plan ρ) : 1 ≤ P.jobCapacity := by
  unfold Plan.jobCapacity
  omega

theorem one_le_slotCapacity (P : Plan ρ) : 1 ≤ P.slotCapacity := by
  unfold Plan.slotCapacity
  omega

theorem slots_le (P : Plan ρ) (command : String) : P.slots command ≤ P.slotCapacity := by
  unfold Plan.slots
  split
  · exact Nat.min_le_left _ _
  · exact one_le_slotCapacity P

theorem Starts.sound (h : Starts P s item s') (hs : s.Sound P report) : s'.Sound P report := by
  have hidle : ∀ other ∈ s.running, P.executor.exclusive other.command = false := by
    intro other hother
    have hidle := h.idle
    unfold Scheduler.exclusiveRunning at hidle
    simpa using List.any_eq_false.mp hidle other hother
  have hfits := h.fits
  simp only [Scheduler.fits, Bool.and_eq_true, Bool.or_eq_true, decide_eq_true_eq] at hfits
  constructor
  case spots =>
    rw [h.submitted, List.map_append, List.map_singleton]
    have hstarted := hs.spots.trans (h.spots.append_right _)
    refine hstarted.trans ?_
    rw [← List.append_assoc]
    exact (List.perm_append_singleton _ _).symm
  case length => rw [h.length, hs.length]
  case texts => exact fun g e he => hs.texts g e (h.pending g e he)
  case scheduled =>
    rw [h.submitted]
    intro other hother
    rcases List.mem_append.mp hother with hold | hnew
    · exact hs.scheduled other hold
    · obtain rfl := List.mem_singleton.mp hnew
      exact ⟨h.texts hs.texts, h.slots⟩
  case running =>
    rw [h.running, h.submitted]
    exact hs.running.append (List.Subperm.refl _)
  case slots =>
    have hslots := hfits.1
    unfold Scheduler.usedSlots at hslots ⊢
    rw [h.running, List.map_append, List.sum_append, List.map_singleton, List.sum_singleton, h.slots]
    exact hslots
  case jobs =>
    have hjobs := h.jobs
    rw [h.running, List.length_append, List.length_singleton]
    omega
  case serial =>
    rw [h.running, List.filter_append]
    by_cases hlane : item.spot.serialIndex.isSome = true
    · have hnone := h.serial hlane
      unfold Scheduler.serialRunning at hnone
      have hempty : (s.running.filter fun item => item.spot.serialIndex.isSome) = [] :=
        List.filter_eq_nil_iff.mpr fun other hother => by simpa using List.any_eq_false.mp hnone other hother
      simp [hempty, hlane]
    · simpa [hlane] using hs.serial
  case alone =>
    rw [h.running]
    intro other hother hexclusive
    rcases List.mem_append.mp hother with hold | hnew
    · rw [hidle other hold] at hexclusive
      cases hexclusive
    · obtain rfl := List.mem_singleton.mp hnew
      have hempty : s.running = [] := by
        rcases hfits.2 with hnot | hempty
        · simp [hexclusive] at hnot
        · simpa using hempty
      rw [hempty, List.nil_append]
  case order =>
    rw [h.submitted, List.filterMap_append, hs.order, h.next]
    cases hlane : item.spot.serialIndex with
    | none => simp [hlane]
    | some i =>
        obtain rfl := h.index i hlane
        simp [hlane, List.range_succ]
  case passed =>
    intro g hg
    rw [h.groupIndex] at hg
    rw [List.eq_nil_iff_forall_not_mem]
    intro e he
    have hold := h.pending g e he
    rw [hs.passed g hg] at hold
    exact absurd hold List.not_mem_nil
  case settled =>
    rw [h.fatalError, h.submitted, h.running, h.results]
    intro hfatal
    have hsettled := (hs.settled hfatal).append_right [item.spot]
    rw [List.map_append, List.map_append, List.map_singleton]
    refine hsettled.trans ?_
    rw [List.append_assoc, List.append_assoc]
    exact List.perm_append_comm.append_left _
  case reported => rw [h.results]; exact hs.reported
  case raised => rw [h.fatalError]; exact hs.raised
  case stopped => rw [h.stopDispatch, h.fatalError, h.results]; exact hs.stopped

/-- The groups that are passed are empty, and the next one is not done. -/
theorem advanceOver_spec {rest : List (List (Nat × String))} {index : Nat} (hrest : s.pendingGroups.drop index = rest) :
    (∀ g, index ≤ g → g < s.advanceOver rest index → s.pending g = []) ∧
      (s.advanceOver rest index < s.pendingGroups.length →
        s.pending (s.advanceOver rest index) ≠ [] ∨ s.groupIsRunning (s.advanceOver rest index) = true) := by
  induction rest generalizing index with
  | nil =>
      have hlen : s.pendingGroups.length ≤ index := by simpa using hrest
      constructor
      · intro g hle hlt
        simp only [Scheduler.advanceOver] at hlt
        omega
      · intro hlt
        simp only [Scheduler.advanceOver] at hlt
        omega
  | cons first rest ih =>
      have hfirst : s.pending index = first := by
        unfold Scheduler.pending
        rw [List.getD_eq_getElem?_getD, ← Nat.add_zero index, ← List.getElem?_drop, hrest]
        rfl
      have hnext : s.pendingGroups.drop (index + 1) = rest := by
        rw [← List.drop_drop, hrest]
        rfl
      unfold Scheduler.advanceOver
      split
      · next hdone =>
          obtain ⟨hpassed, hhead⟩ := ih hnext
          refine ⟨fun g hle hlt => ?_, hhead⟩
          by_cases heq : g = index
          · rw [heq, hfirst, hdone.1]
          · exact hpassed g (by omega) hlt
      · next hnot =>
          refine ⟨fun g hle hlt => by omega, fun _ => ?_⟩
          rw [hfirst]
          by_cases hempty : first = []
          · simpa [hempty] using hnot
          · exact Or.inl hempty

/-- After `advance_completed_groups` the head group has something to start or to wait for. -/
def Scheduler.HeadReady (s : Scheduler) : Prop :=
  s.groupIndex < s.pendingGroups.length → s.pending s.groupIndex ≠ [] ∨ s.running ≠ []

theorem advanceCompletedGroups_ready (s : Scheduler) : s.advanceCompletedGroups.HeadReady := by
  intro hlt
  rcases (advanceOver_spec rfl).2 hlt with hpending | hrunning
  · exact Or.inl hpending
  · refine Or.inr fun hempty => ?_
    have hempty : s.running = [] := hempty
    simp [Scheduler.groupIsRunning, hempty] at hrunning

theorem Scheduler.Sound.advance (hs : s.Sound P report) : s.advanceCompletedGroups.Sound P report where
  spots := hs.spots
  length := hs.length
  texts := hs.texts
  scheduled := hs.scheduled
  running := hs.running
  slots := hs.slots
  jobs := hs.jobs
  serial := hs.serial
  alone := hs.alone
  order := hs.order
  passed := by
    intro g hg
    by_cases hold : g < s.groupIndex
    · exact hs.passed g hold
    · exact (advanceOver_spec (s := s) rfl).1 g (by omega) hg
  settled := hs.settled
  reported := hs.reported
  raised := hs.raised
  stopped := hs.stopped

/-- What a completed command leaves. -/
theorem Scheduler.Sound.settle {outcome : Outcome} (hs : s.Sound P report) (hitem : item ∈ s.running)
    (houtcome : report item.command outcome) : (s.settle P item outcome).Sound P report := by
  have hperm : s.running.Perm (item :: s.running.erase item) := List.perm_cons_erase hitem
  have hrunning : (s.settle P item outcome).running = s.running.erase item := by cases outcome <;> rfl
  have hsubmitted : (s.settle P item outcome).submitted = s.submitted := by cases outcome <;> rfl
  have hgroups : (s.settle P item outcome).pendingGroups = s.pendingGroups := by cases outcome <;> rfl
  have hnext : (s.settle P item outcome).serialNext = s.serialNext := by cases outcome <;> rfl
  have hindex : (s.settle P item outcome).groupIndex = s.groupIndex := by cases outcome <;> rfl
  constructor
  case spots =>
    have hspots := hs.spots
    unfold Scheduler.pendingSpots at hspots ⊢
    rwa [hgroups, hnext, hsubmitted]
  case length => rw [hgroups, hs.length]
  case texts =>
    unfold Scheduler.pending
    rw [hgroups]
    exact hs.texts
  case scheduled => rw [hsubmitted]; exact hs.scheduled
  case running =>
    rw [hrunning, hsubmitted]
    exact List.erase_sublist.subperm.trans hs.running
  case slots =>
    have hslots := hs.slots
    unfold Scheduler.usedSlots at hslots ⊢
    rw [(hperm.map Scheduled.slots).sum_eq, List.map_cons, List.sum_cons] at hslots
    rw [hrunning]
    omega
  case jobs =>
    have hjobs := hs.jobs
    rw [hperm.length_eq, List.length_cons] at hjobs
    rw [hrunning]
    omega
  case serial =>
    rw [hrunning]
    exact ((List.erase_sublist.filter _).length_le).trans hs.serial
  case alone =>
    rw [hrunning]
    intro other hother hexclusive
    have halone := hs.alone other (List.mem_of_mem_erase hother) hexclusive
    rw [halone] at hitem hother
    obtain rfl := List.mem_singleton.mp hitem
    simp at hother
  case order => rw [hsubmitted, hnext]; exact hs.order
  case passed =>
    unfold Scheduler.pending
    rw [hgroups, hindex]
    exact hs.passed
  case settled =>
    rw [hsubmitted, hrunning]
    cases outcome with
    | error error => simp [Scheduler.settle]
    | ok result =>
        intro hfatal
        refine (hs.settled hfatal).trans ?_
        have hmap := hperm.map Scheduled.spot
        simp only [Scheduler.settle, List.map_append, List.map_singleton]
        rw [List.map_cons] at hmap
        calc List.Perm (s.running.map Scheduled.spot ++ s.results.map Prod.fst) _ := hmap.append_right _
          List.Perm _ (((s.running.erase item).map Scheduled.spot ++ s.results.map Prod.fst) ++ [item.spot]) :=
            (List.perm_append_singleton _ _).symm
          List.Perm _ _ := by rw [List.append_assoc]
  case reported =>
    cases outcome with
    | error error => exact hs.reported
    | ok result =>
        intro e he
        rcases List.mem_append.mp he with hold | hnew
        · exact hs.reported e hold
        · obtain rfl := List.mem_singleton.mp hnew
          exact ⟨item.command, (hs.scheduled item (hs.running.subset hitem)).1, houtcome⟩
  case raised =>
    cases outcome with
    | error error => exact fun _ => ⟨item.command, error, houtcome⟩
    | ok result => exact hs.raised
  case stopped =>
    cases outcome with
    | error error => simp [Scheduler.settle]
    | ok result =>
        intro hstop
        simp only [Scheduler.settle, Bool.or_eq_true] at hstop
        rcases hstop with hold | hnew
        · refine (hs.stopped hold).imp id ?_
          rintro ⟨e, he, hfailed⟩
          exact ⟨e, List.mem_append_left _ he, hfailed⟩
        · refine Or.inr ⟨(item.spot, result), List.mem_append_right _ (List.mem_singleton.mpr rfl), ?_⟩
          simp only [Bool.and_eq_true, Bool.not_eq_true'] at hnew
          obtain ⟨hfailed, hhalts⟩ := hnew
          refine ⟨hfailed, ?_⟩
          unfold halts
          simp only [Bool.or_eq_true] at hhalts ⊢
          tauto

/-! ### The places of the loop -/

/-- What holds at a place of the loop. At `check` without progress, an empty pool means that the plan is done. -/
def Point.Sound (P : Plan ρ) (report : String → Outcome → Prop) (s : Scheduler) : Point → Prop
  | .top => True
  | .serial => s.HeadReady
  | .groups made => s.HeadReady ∧ s.groupIndex < s.pendingGroups.length ∧ s.exclusiveRunning P = false ∧
      (made = false → s.running = [] → P.commands.length ≤ s.serialNext)
  | .check made => made = false → s.running = [] → s.stopDispatch = true ∨ s.exhausted P = true
  | .waiting => s.running ≠ []
  | .draining completed => (completed.map Prod.fst).Subperm s.running ∧ ∀ c ∈ completed, report c.1.command c.2
  | .finished => s.running = [] ∧ (s.stopDispatch = true ∨ s.exhausted P = true)
  | .stuck => False

def Moment.Sound (P : Plan ρ) (report : String → Outcome → Prop) (m : Moment) : Prop :=
  m.scheduler.Sound P report ∧ m.point.Sound P report m.scheduler

/-- Alone, every command fits. -/
theorem fits_of_idle (command : String) (h : s.running = []) : s.fits P command = true := by
  simp [Scheduler.fits, Scheduler.usedSlots, h, slots_le]

/-- With an empty pool the serial lane starts its next command. -/
theorem startSerial_none (hidle : s.running = []) (h : s.startSerial P = none) : P.commands.length ≤ s.serialNext := by
  unfold Scheduler.startSerial at h
  split at h
  · next hnone => exact List.getElem?_eq_none_iff.mp hnone
  · next command _ =>
      have hcan : s.serialRunning = false ∧ s.running.length < P.jobCapacity ∧ s.exclusiveRunning P = false ∧
          s.fits P command = true := by
        refine ⟨by simp [Scheduler.serialRunning, hidle], ?_, by simp [Scheduler.exclusiveRunning, hidle],
          fits_of_idle command hidle⟩
        rw [hidle]
        exact one_le_jobCapacity P
      rw [if_pos hcan] at h
      cases h

/-- With an empty pool the head group starts its first command. -/
theorem startParallel_none (hpending : s.pending s.groupIndex ≠ []) (h : s.startParallel P = none) :
    s.running ≠ [] := by
  intro hidle
  unfold Scheduler.startParallel at h
  split at h
  · cases h
  · next hnone =>
      unfold Scheduler.startFrom at hnone
      obtain ⟨first, rest, hfirst⟩ := List.exists_cons_of_ne_nil hpending
      simp [hfirst, fits_of_idle _ hidle] at hnone

theorem le_advanceOver (s : Scheduler) (rest : List (List (Nat × String))) (index : Nat) :
    index ≤ s.advanceOver rest index := by
  induction rest generalizing index with
  | nil => exact Nat.le_refl index
  | cons first rest ih =>
      unfold Scheduler.advanceOver
      split
      · exact (Nat.le_succ index).trans (ih (index + 1))
      · exact Nat.le_refl index

theorem exhausted_advance (h : s.exhausted P = true) : s.advanceCompletedGroups.exhausted P = true := by
  have hle := le_advanceOver s (s.pendingGroups.drop s.groupIndex) s.groupIndex
  simp only [Scheduler.exhausted, Bool.and_eq_true, decide_eq_true_eq] at h ⊢
  exact ⟨h.1, h.2.trans hle⟩

theorem Starts.nonempty (h : Starts P s item s') : s'.running ≠ [] := by
  rw [h.running]
  exact List.append_ne_nil_of_right_ne_nil _ (List.cons_ne_nil item [])

/-- One step between two places keeps what holds at them. -/
theorem next_sound {m m' : Moment} (hm : m.Sound P report) (h : P.next m = some m') : m'.Sound P report := by
  obtain ⟨point, s⟩ := m
  obtain ⟨hs, hpoint⟩ := hm
  simp only at hs hpoint
  cases point with
  | top =>
      simp only [Plan.next] at h
      split at h
      · next hstop =>
          cases h
          exact ⟨hs.advance, fun _ _ => Or.inl hstop⟩
      · cases h
        exact ⟨hs.advance, advanceCompletedGroups_ready s⟩
  | serial =>
      simp only [Plan.next] at h
      have hready : s.HeadReady := hpoint
      cases hstart : s.startSerial P with
      | some s' =>
          rw [hstart] at h
          simp only [Option.isSome_some, Option.getD_some] at h
          obtain ⟨item, hstarts⟩ := startSerial_starts hstart
          split at h
          · next hgroups =>
              cases h
              exact ⟨hstarts.sound hs, fun _ => Or.inr hstarts.nonempty, hgroups.1, hgroups.2, nofun⟩
          · cases h
            exact ⟨hstarts.sound hs, nofun⟩
      | none =>
          rw [hstart] at h
          simp only [Option.isSome_none, Option.getD_none] at h
          split at h
          · next hgroups =>
              cases h
              exact ⟨hs, hready, hgroups.1, hgroups.2, fun _ hidle => startSerial_none hidle hstart⟩
          · next hgroups =>
              cases h
              refine ⟨hs, fun _ hidle => Or.inr ?_⟩
              have hidle : s.running = [] := hidle
              have hserial := startSerial_none hidle hstart
              have hexclusive : s.exclusiveRunning P = false := by simp [Scheduler.exclusiveRunning, hidle]
              have hdone : s.pendingGroups.length ≤ s.groupIndex := by
                by_contra hlt
                exact hgroups ⟨by omega, hexclusive⟩
              simp [Scheduler.exhausted, hserial, hdone]
  | groups made =>
      simp only [Plan.next] at h
      obtain ⟨hready, hlt, hexclusive, hserial⟩ := hpoint
      split at h
      · next hcan =>
          cases hstart : s.startParallel P with
          | some started =>
              obtain ⟨item, s'⟩ := started
              rw [hstart] at h
              simp only at h
              have hstarts := startParallel_starts hcan.2 hexclusive hstart
              split at h
              · cases h
                exact ⟨hstarts.sound hs, nofun⟩
              · next hshared =>
                  cases h
                  refine ⟨hstarts.sound hs, fun _ => Or.inr hstarts.nonempty, ?_, ?_, nofun⟩
                  · show s'.groupIndex < s'.pendingGroups.length
                    rw [hstarts.groupIndex, hstarts.length]
                    exact hlt
                  · show s'.exclusiveRunning P = false
                    have hidle := hstarts.idle
                    unfold Scheduler.exclusiveRunning at hidle ⊢
                    rw [hstarts.running, List.any_append, hidle]
                    simpa using hshared
          | none =>
              rw [hstart] at h
              cases h
              exact ⟨hs, fun _ hidle => absurd hidle (startParallel_none hcan.1 hstart)⟩
      · next hcannot =>
          cases h
          refine ⟨hs, fun _ hidle => ?_⟩
          have hidle : s.running = [] := hidle
          have hpending : s.pending s.groupIndex ≠ [] := (hready hlt).resolve_right fun hrunning => hrunning hidle
          refine absurd ⟨hpending, ?_⟩ hcannot
          rw [hidle]
          exact one_le_jobCapacity P
  | check made =>
      simp only [Plan.next] at h
      have hidle : made = false → s.running = [] → s.stopDispatch = true ∨ s.exhausted P = true := hpoint
      split at h
      · next hend =>
          cases h
          exact ⟨hs.advance, hend⟩
      · next hgoes =>
          split at h
          · next hstuck =>
              refine absurd ⟨hstuck.1, ?_⟩ hgoes
              exact (hidle hstuck.2 hstuck.1).imp id exhausted_advance
          · next hprogress =>
              split at h
              · cases h
                exact ⟨hs.advance, trivial⟩
              · next hwait =>
                  cases h
                  refine ⟨hs.advance, fun hempty => ?_⟩
                  have hmade : made = true := by
                    cases made with
                    | true => rfl
                    | false => exact absurd ⟨hempty, rfl⟩ hprogress
                  refine hwait ⟨hmade, ?_⟩
                  rw [hempty]
                  exact one_le_jobCapacity P
  | draining completed =>
      cases completed with
      | nil =>
          cases h
          exact ⟨hs, trivial⟩
      | cons first rest =>
          obtain ⟨item, outcome⟩ := first
          cases h
          obtain ⟨hsub, hreport⟩ := hpoint
          have hitem : item ∈ s.running := hsub.subset List.mem_cons_self
          refine ⟨hs.settle hitem (hreport _ List.mem_cons_self), ?_, fun c hc => hreport c (List.mem_cons_of_mem _ hc)⟩
          have hrest := hsub.erase item
          rw [List.map_cons, List.erase_cons_head] at hrest
          cases outcome <;> exact hrest
  | waiting => cases h
  | finished => cases h
  | stuck => cases h

/-! ### The loop ends -/

/-- What is left to do: twice the commands to start, and those that run. -/
def Scheduler.left (P : Plan ρ) (s : Scheduler) : Nat := 2 * (s.pendingSpots P).length + s.running.length

/-- The order of the places between two starts or completions. -/
def Point.rank : Point → Nat
  | .stuck => 0
  | .finished => 0
  | .draining (_ :: _) => 0
  | .waiting => 1
  | .check false => 2
  | .groups false => 3
  | .serial => 4
  | .top => 5
  | .draining [] => 6
  | .check true => 6
  | .groups true => 7

def Moment.measure (P : Plan ρ) (m : Moment) : Nat := 8 * m.scheduler.left P + m.point.rank

theorem Point.rank_le (point : Point) : point.rank ≤ 7 := by
  cases point with
  | check made => cases made <;> decide
  | groups made => cases made <;> decide
  | draining completed => cases completed <;> simp [Point.rank]
  | _ => decide

theorem Starts.left (h : Starts P s item s') : s.left P = s'.left P + 1 := by
  have hspots := h.spots.length_eq
  unfold Scheduler.left
  rw [h.running, List.length_append, List.length_singleton]
  rw [List.length_cons] at hspots
  omega

theorem left_advance (s : Scheduler) : s.advanceCompletedGroups.left P = s.left P := rfl

theorem left_settle {outcome : Outcome} (h : item ∈ s.running) :
    s.left P = (s.settle P item outcome).left P + 1 := by
  have hlen := List.length_erase_of_mem h
  have hpos := List.length_pos_of_mem h
  have hrunning : (s.settle P item outcome).running = s.running.erase item := by cases outcome <;> rfl
  have hpending : (s.settle P item outcome).pendingSpots P = s.pendingSpots P := by cases outcome <;> rfl
  unfold Scheduler.left
  rw [hrunning, hpending]
  omega

/-- Every step between two places brings the end nearer. -/
theorem next_measure {m m' : Moment} (hm : m.Sound P report) (h : P.next m = some m') :
    m'.measure P < m.measure P := by
  obtain ⟨point, s⟩ := m
  obtain ⟨hs, hpoint⟩ := hm
  simp only at hs hpoint
  cases point with
  | top =>
      simp only [Plan.next] at h
      split at h <;> cases h <;> simp [Moment.measure, left_advance, Point.rank]
  | serial =>
      simp only [Plan.next] at h
      cases hstart : s.startSerial P with
      | some s' =>
          obtain ⟨item, hstarts⟩ := startSerial_starts hstart
          have hleft := hstarts.left
          rw [hstart] at h
          split at h <;> cases h <;> simp [Moment.measure, Point.rank] <;> omega
      | none =>
          rw [hstart] at h
          split at h <;> cases h <;> simp [Moment.measure, Point.rank]
  | groups made =>
      simp only [Plan.next] at h
      have hexclusive : s.exclusiveRunning P = false := hpoint.2.2.1
      split at h
      · next hcan =>
          cases hstart : s.startParallel P with
          | some started =>
              obtain ⟨item, s'⟩ := started
              have hleft := (startParallel_starts hcan.2 hexclusive hstart).left
              rw [hstart] at h
              simp only at h
              split at h <;> cases h <;> simp only [Moment.measure, Point.rank] <;> omega
          | none =>
              rw [hstart] at h
              cases h
              cases made <;> simp [Moment.measure, Point.rank]
      · cases h
        cases made <;> simp [Moment.measure, Point.rank]
  | check made =>
      simp only [Plan.next] at h
      split at h
      · cases h
        cases made <;> simp [Moment.measure, left_advance, Point.rank]
      · split at h
        · cases h
          cases made <;> simp [Moment.measure, left_advance, Point.rank]
        · split at h
          · next hprogress =>
              cases h
              simp [Moment.measure, left_advance, hprogress.1, Point.rank]
          · cases h
            cases made <;> simp [Moment.measure, left_advance, Point.rank]
  | draining completed =>
      cases completed with
      | nil =>
          cases h
          simp [Moment.measure, Point.rank]
      | cons first rest =>
          obtain ⟨item, outcome⟩ := first
          cases h
          have hleft : s.left P = (s.settle P item outcome).left P + 1 :=
            left_settle (hpoint.1.subset List.mem_cons_self)
          have hrank := (Point.draining rest).rank_le
          have hfirst : (Point.draining ((item, outcome) :: rest)).rank = 0 := rfl
          unfold Moment.measure
          simp only
          omega
  | waiting => cases h
  | finished => cases h
  | stuck => cases h

/-! ### Runs -/

theorem step_sound {m m' : Moment} {l : Unit} (hm : m.Sound P report) (h : P.Step report m l m') :
    m'.Sound P report := by
  cases h with
  | next hnext => exact next_sound hm hnext
  | completed _ hsub hreport => exact ⟨hm.1, hsub, hreport⟩

theorem step_measure {m m' : Moment} {l : Unit} (hm : m.Sound P report) (h : P.Step report m l m') :
    m'.measure P < m.measure P := by
  cases h with
  | next hnext => exact next_measure hm hnext
  | @completed s completed hne _ _ =>
      obtain ⟨first, rest, rfl⟩ := List.exists_cons_of_ne_nil hne
      simp [Moment.measure, Point.rank]

variable [LinearOrder ρ]

theorem orderedParallelCommands_perm (executor : Executor ρ) (commands : List String) :
    (orderedParallelCommands executor commands).Perm (commands.zipIdx.map Prod.swap) :=
  List.perm_insertionSort _ _

theorem orderedParallelCommands_indices (executor : Executor ρ) (commands : List String) :
    ((orderedParallelCommands executor commands).map Prod.fst).Perm (List.range commands.length) := by
  have hperm := (orderedParallelCommands_perm executor commands).map Prod.fst
  have hindices : (commands.zipIdx.map Prod.swap).map Prod.fst = List.range commands.length := by
    rw [List.map_map, List.range_eq_range']
    exact List.zipIdx_map_snd 0 commands
  rwa [hindices] at hperm

theorem initial_sound (P : Plan ρ) (report : String → Outcome → Prop) : P.initial.Sound P report := by
  refine ⟨?_, trivial⟩
  constructor
  case spots =>
    have hgroups : List.Forall₂ List.Perm
        (P.parallelGroups.map fun group => List.range group.commands.length)
        ((P.parallelGroups.map fun group => orderedParallelCommands P.executor group.commands).map
          (List.map Prod.fst)) := by
      rw [List.map_map, List.forall₂_map_left_iff, List.forall₂_map_right_iff, List.forall₂_same]
      exact fun group _ => (orderedParallelCommands_indices P.executor group.commands).symm
    have hspots : (groupSpots _ 0).Perm (groupSpots _ 0) := groupSpots_perm hgroups
    have hperm := hspots.append_left ((List.range P.commands.length).map Spot.serial)
    simpa [Plan.spots, Plan.initial, Scheduler.pendingSpots, List.range_eq_range'] using hperm
  case length => simp [Plan.initial]
  case texts =>
    intro g e he
    simp only [Plan.initial, Scheduler.pending, List.getD_eq_getElem?_getD, List.getElem?_map] at he
    cases hgroup : P.parallelGroups[g]? with
    | none => simp [hgroup] at he
    | some group =>
        rw [hgroup, Option.map_some, Option.getD_some, (orderedParallelCommands_perm _ _).mem_iff] at he
        obtain ⟨⟨command, index⟩, hmem, rfl⟩ := List.mem_map.mp he
        have hget := List.mk_mem_zipIdx_iff_getElem?.mp hmem
        simp [Plan.commandAt, hgroup, hget]
  case scheduled => exact fun _ h => absurd h List.not_mem_nil
  case running => exact List.Subperm.refl _
  case slots => exact Nat.zero_le _
  case jobs => exact Nat.zero_le _
  case serial => exact Nat.zero_le _
  case alone => exact fun _ h => absurd h List.not_mem_nil
  case order => rfl
  case passed => exact fun g hg => absurd hg (Nat.not_lt_zero g)
  case settled => exact fun _ => List.Perm.refl _
  case reported => exact fun _ h => absurd h List.not_mem_nil
  case raised => exact fun h => absurd rfl h
  case stopped => exact fun h => nomatch h

variable {trace : List (Base.Taken Moment Unit)} {m : Moment}

theorem run_sound (h : Base.System.Run (P.overlapped report) trace m) : m.Sound P report := by
  apply h.invariant
  · rintro _ rfl
    exact initial_sound P report
  · exact fun _ _ _ => step_sound

/-- A run is at most as long as the measure of its start. -/
theorem run_length (h : Base.System.Run (P.overlapped report) trace m) :
    trace.length + m.measure P ≤ P.initial.measure P := by
  induction h with
  | start hstart =>
      cases hstart
      simp
  | step hrun hstep ih =>
      have hless := step_measure (run_sound hrun) hstep
      rw [List.length_append, List.length_singleton]
      omega

/-- Where no step is left, the loop has ended. -/
theorem run_progress (hreport : ∀ command, ∃ outcome, report command outcome)
    (h : Base.System.Run (P.overlapped report) trace m) (hstop : ∀ m', ¬ P.Step report m () m') :
    m.point = .finished := by
  obtain ⟨hs, hpoint⟩ := run_sound h
  obtain ⟨point, s⟩ := m
  have hnone : P.next ⟨point, s⟩ = none := by
    cases hnext : P.next ⟨point, s⟩ with
    | none => rfl
    | some m' => exact absurd (.next hnext) (hstop m')
  cases point with
  | finished => rfl
  | stuck => exact hpoint.elim
  | waiting =>
      obtain ⟨item, rest, hrunning⟩ := List.exists_cons_of_ne_nil hpoint
      obtain ⟨outcome, houtcome⟩ := hreport item.command
      have hcompleted : [(item, outcome)] ≠ [] := List.cons_ne_nil _ _
      refine absurd (Plan.Step.completed hcompleted ?_ ?_) (hstop _)
      · have hrunning : s.running = item :: rest := hrunning
        rw [hrunning]
        exact (List.singleton_sublist.mpr List.mem_cons_self).subperm
      · intro c hc
        obtain rfl := List.mem_singleton.mp hc
        exact houtcome
  | top => simp only [Plan.next] at hnone; split at hnone <;> cases hnone
  | serial => simp only [Plan.next] at hnone; split at hnone <;> cases hnone
  | groups made =>
      simp only [Plan.next] at hnone
      split at hnone
      · split at hnone
        · split at hnone <;> cases hnone
        · cases hnone
      · cases hnone
  | check made =>
      simp only [Plan.next] at hnone
      split at hnone
      · cases hnone
      · split at hnone
        · cases hnone
        · split at hnone <;> cases hnone
  | draining completed => cases completed <;> cases hnone

end AutoAgents.Gates
