import AutoAgents.GateOverlap

/-! Where the outcome of a command is a function of the command, the overlapped plan is as the phased one. -/

namespace AutoAgents.Gates

variable {ρ : Type} {P : Plan ρ} {report : String → Outcome → Prop} {s : Scheduler}
  {outcome : String → CommandResult}

/-- All commands of a plan, in its order. -/
def Plan.allCommands (P : Plan ρ) : List String :=
  P.commands ++ P.parallelGroups.flatMap GateParallelGroup.commands

/-! ### The commands at the places -/

theorem filterMap_range_getElem? {α β : Type} (l : List α) (f : α → Option β) :
    ((List.range l.length).filterMap fun i => l[i]?.bind f) = l.filterMap f := by
  induction l with
  | nil => rfl
  | cons a l ih =>
      rw [List.length_cons, List.range_succ_eq_map, List.filterMap_cons, List.filterMap_map]
      cases hf : f a with
      | none => simpa [Function.comp_def, hf] using ih
      | some b => simpa [Function.comp_def, hf] using ih

theorem groupSpots_filterMap {β : Type} (groups : List GateParallelGroup) (start : Nat) (f : Spot → Option β) :
    ((groupSpots (groups.map fun group => List.range group.commands.length) start).filterMap f) =
      (groups.zipIdx start).flatMap fun (group, g) =>
        (List.range group.commands.length).filterMap fun index => f (.parallel g index) := by
  induction groups generalizing start with
  | nil => rfl
  | cons group groups ih =>
      rw [List.map_cons, groupSpots_cons, List.filterMap_append, List.filterMap_map, ih, List.zipIdx_cons,
        List.flatMap_cons]
      rfl

/-- What is collected is what is stored for the places of the plan, in its order. -/
theorem collected_eq (P : Plan ρ) (s : Scheduler) : P.collected s = P.spots.filterMap fun spot => s.results.lookup spot := by
  unfold Plan.collected Plan.spots
  rw [List.filterMap_append, List.filterMap_map, groupSpots_filterMap]
  rfl

theorem group_commands {β : Type} (before groups : List GateParallelGroup) (f : String → Option β) :
    ((groups.zipIdx before.length).flatMap fun (group, g) => (List.range group.commands.length).filterMap
      fun index => ((before ++ groups)[g]?.bind fun found => found.commands[index]?).bind f) =
      (groups.flatMap GateParallelGroup.commands).filterMap f := by
  induction groups generalizing before with
  | nil => rfl
  | cons group groups ih =>
      have hlater := ih (before ++ [group])
      rw [List.length_append, List.length_singleton, List.append_assoc, List.singleton_append] at hlater
      rw [List.zipIdx_cons, List.flatMap_cons, hlater, List.flatMap_cons, List.filterMap_append]
      simp [filterMap_range_getElem?]

/-- The commands at the places are the commands of the plan. -/
theorem spots_filterMap {β : Type} (P : Plan ρ) (f : String → Option β) :
    (P.spots.filterMap fun spot => (P.commandAt spot).bind f) = P.allCommands.filterMap f := by
  unfold Plan.spots Plan.allCommands
  rw [List.filterMap_append, List.filterMap_map, groupSpots_filterMap, List.filterMap_append]
  congr 1
  · exact filterMap_range_getElem? P.commands f
  · exact group_commands [] P.parallelGroups f

theorem groupSpots_length (groups : List (List Nat)) (start : Nat) :
    (groupSpots groups start).length = (groups.map List.length).sum := by
  induction groups generalizing start with
  | nil => rfl
  | cons group groups ih => simp [ih]

theorem spots_length (P : Plan ρ) :
    P.spots.length = P.commands.length + (P.parallelGroups.map fun group => group.commands.length).sum := by
  unfold Plan.spots
  rw [List.length_append, groupSpots_length, List.map_map]
  simp [Function.comp_def]

theorem commandAt_mem {spot : Spot} {command : String} (h : P.commandAt spot = some command) :
    command ∈ P.allCommands := by
  cases spot with
  | serial index => exact List.mem_append_left _ (List.mem_of_getElem? h)
  | parallel g index =>
      obtain ⟨group, hgroup, hcommand⟩ := Option.bind_eq_some_iff.mp h
      exact List.mem_append_right _ (List.mem_flatMap.mpr ⟨group, List.mem_of_getElem? hgroup, List.mem_of_getElem? hcommand⟩)

/-! ### The end of a run -/

/-- Every command reports its outcome. -/
def fixed (outcome : String → CommandResult) (command : String) (reported : Outcome) : Prop :=
  reported = .ok (outcome command)

theorem fatalError_none (hs : s.Sound P (fixed outcome)) : s.fatalError = none := by
  by_contra hfatal
  obtain ⟨command, error, hreport⟩ := hs.raised hfatal
  cases hreport

/-- What is stored for a place is the outcome of its command. -/
theorem lookup_outcome {spot : Spot} {result : CommandResult} (hs : s.Sound P (fixed outcome))
    (h : s.results.lookup spot = some result) : ∃ command, P.commandAt spot = some command ∧ result = outcome command := by
  obtain ⟨before, after, hresults, -⟩ := List.lookup_eq_some_iff.mp h
  have hmem : (spot, result) ∈ s.results := by
    rw [hresults]
    simp
  obtain ⟨command, hcommand, hreport⟩ := hs.reported _ hmem
  exact ⟨command, hcommand, Except.ok.inj hreport⟩

theorem pendingSpots_nil (hs : s.Sound P report) (h : s.exhausted P = true) : s.pendingSpots P = [] := by
  simp only [Scheduler.exhausted, Bool.and_eq_true, decide_eq_true_eq] at h
  unfold Scheduler.pendingSpots
  rw [Nat.sub_eq_zero_of_le h.1, List.range'_zero, List.map_nil, List.nil_append, List.eq_nil_iff_forall_not_mem]
  intro spot hspot
  obtain ⟨g, group, index, hgroup, hindex, -⟩ := mem_groupSpots.mp hspot
  rw [List.getElem?_map] at hgroup
  obtain ⟨pending, hpending, rfl⟩ := Option.map_eq_some_iff.mp hgroup
  have hlt : g < s.pendingGroups.length := (List.getElem?_eq_some_iff.mp hpending).1
  have hempty := hs.passed g (by omega)
  rw [Scheduler.pending, List.getD_eq_getElem?_getD, hpending, Option.getD_some] at hempty
  rw [hempty] at hindex
  exact absurd hindex List.not_mem_nil

/-- Where everything was started and has completed, every place has the outcome of its command. -/
theorem lookup_complete {spot : Spot} (hs : s.Sound P (fixed outcome)) (hrunning : s.running = [])
    (hexhausted : s.exhausted P = true) (hspot : spot ∈ P.spots) :
    s.results.lookup spot = (P.commandAt spot).map outcome := by
  have hspots := hs.spots
  rw [pendingSpots_nil hs hexhausted, List.nil_append] at hspots
  have hkeys := hspots.trans (hs.settled (fatalError_none hs))
  rw [hrunning, List.map_nil, List.nil_append] at hkeys
  obtain ⟨⟨stored, result⟩, hmem, hkey⟩ := List.mem_map.mp (hkeys.mem_iff.mp hspot)
  cases hlookup : s.results.lookup spot with
  | none =>
      have hnone := List.lookup_eq_none_iff.mp hlookup _ hmem
      simp [← hkey] at hnone
  | some found =>
      obtain ⟨command, hcommand, rfl⟩ := lookup_outcome hs hlookup
      rw [hcommand]
      rfl

theorem collected_complete (hs : s.Sound P (fixed outcome)) (hrunning : s.running = [])
    (hexhausted : s.exhausted P = true) : P.collected s = P.allCommands.map outcome := by
  rw [collected_eq, List.filterMap_congr fun spot => lookup_complete hs hrunning hexhausted]
  have hall := spots_filterMap P fun command => some (outcome command)
  rw [List.filterMap_eq_map'] at hall
  rw [← hall]
  exact List.filterMap_congr fun spot _ => by cases P.commandAt spot <;> rfl

/-- Where the plan was not stopped, everything was started. -/
theorem exhausted_of_clean (hs : s.Sound P (fixed outcome))
    (hclean : ∀ command ∈ P.allCommands, (outcome command).ok = false → halts P.collectAll (outcome command) = false)
    (hend : s.stopDispatch = true ∨ s.exhausted P = true) : s.exhausted P = true := by
  rcases hend with hstop | hexhausted
  · rcases hs.stopped hstop with hfatal | ⟨e, he, hfailed, hhalts⟩
    · exact absurd (fatalError_none hs) hfatal
    · obtain ⟨command, hcommand, hreport⟩ := hs.reported e he
      have hresult : e.2 = outcome command := Except.ok.inj hreport
      rw [hresult] at hfailed hhalts
      rw [hclean command (commandAt_mem hcommand) hfailed] at hhalts
      cases hhalts
  · exact hexhausted

/-- The flag of the overlapped plan: every command of the plan succeeds. -/
theorem collected_ok (hs : s.Sound P (fixed outcome)) (hrunning : s.running = [])
    (hend : s.stopDispatch = true ∨ s.exhausted P = true) :
    (((P.collected s).filter fun result => !result.ok).isEmpty && decide ((P.collected s).length = P.spots.length)) = true ↔
      ∀ command ∈ P.allCommands, (outcome command).ok = true := by
  rw [Bool.and_eq_true, List.isEmpty_iff, List.filter_eq_nil_iff, decide_eq_true_eq]
  constructor
  · rintro ⟨hgood, hlength⟩ command hcommand
    rw [collected_eq, List.filterMap_length_eq_length] at hlength
    have hstored : P.collected s = P.allCommands.map outcome := by
      have hall := spots_filterMap P fun command => some (outcome command)
      rw [List.filterMap_eq_map'] at hall
      rw [collected_eq, ← hall]
      apply List.filterMap_congr
      intro spot hspot
      obtain ⟨result, hresult⟩ := Option.isSome_iff_exists.mp (hlength spot hspot)
      obtain ⟨found, hfound, rfl⟩ := lookup_outcome hs hresult
      rw [hresult, hfound]
      rfl
    have hmem : outcome command ∈ P.collected s := by
      rw [hstored]
      exact List.mem_map_of_mem hcommand
    simpa using hgood _ hmem
  · intro hall
    have hexhausted : s.exhausted P = true := by
      apply exhausted_of_clean hs _ hend
      intro command hcommand hfailed
      rw [hall command hcommand] at hfailed
      cases hfailed
    rw [collected_complete hs hrunning hexhausted]
    constructor
    · intro result hresult
      obtain ⟨command, hcommand, rfl⟩ := List.mem_map.mp hresult
      simp [hall command hcommand]
    · rw [List.length_map, spots_length]
      simp [Plan.allCommands, List.length_flatMap]

/-! ### The phased plan -/

theorem reportable_nil {failed : List CommandResult} : reportable failed = [] ↔ failed = [] := by
  unfold reportable
  constructor
  · intro h
    split at h
    · cases failed with
      | nil => rfl
      | cons first rest => cases h
    · next hne =>
        exact (hne h).elim
  · rintro rfl
    rfl

/-- The serial part fails, and ends the plan, only with a failed command. -/
theorem phasedSerial_ok (collectAll : Bool) (commands : List String) :
    ((phasedSerial collectAll outcome commands).2.1 = [] ↔ ∀ command ∈ commands, (outcome command).ok = true) ∧
      ((phasedSerial collectAll outcome commands).2.2 = false → (phasedSerial collectAll outcome commands).2.1 ≠ []) := by
  induction commands with
  | nil => simp [phasedSerial]
  | cons command commands ih =>
      unfold phasedSerial
      by_cases hok : (outcome command).ok = true
      · simpa [hok] using ih
      · by_cases hhalts : halts collectAll (outcome command) = true <;> simp [hok, hhalts]

theorem phasedGroups_ok (collectAll : Bool) (groups : List GateParallelGroup) :
    (phasedGroups collectAll outcome groups).2 = [] ↔
      ∀ command ∈ groups.flatMap GateParallelGroup.commands, (outcome command).ok = true := by
  induction groups with
  | nil => simp [phasedGroups]
  | cons group groups ih =>
      have hgroup : (group.commands.map outcome).filter (fun result => !result.ok) = [] ↔
          ∀ command ∈ group.commands, (outcome command).ok = true := by
        rw [List.filter_eq_nil_iff]
        simp
      unfold phasedGroups
      simp only
      rw [List.flatMap_cons, List.forall_mem_append]
      split
      · next hhalts =>
          rw [reportable_nil, hgroup]
          refine ⟨fun hall => ?_, And.left⟩
          rw [hgroup.mpr hall] at hhalts
          cases hhalts
      · rw [List.append_eq_nil_iff, reportable_nil, hgroup, ih]

/-- The flag of the phased plan: every command of the plan succeeds. -/
theorem phased_ok (P : Plan ρ) (failureSummary : CommandResult → String) :
    (P.phased failureSummary outcome).ok = true ↔ ∀ command ∈ P.allCommands, (outcome command).ok = true := by
  obtain ⟨hserial, hends⟩ := @phasedSerial_ok outcome P.collectAll P.commands
  unfold Plan.phased Plan.allCommands
  rw [List.forall_mem_append, ← hserial, ← phasedGroups_ok P.collectAll]
  simp only
  split
  · simp [List.isEmpty_iff]
  · next hstop =>
      have hfailed := hends (by simpa using hstop)
      simp [hfailed]

theorem phasedSerial_clean (collectAll : Bool) (commands : List String)
    (hclean : ∀ command ∈ commands, (outcome command).ok = false → halts collectAll (outcome command) = false) :
    (phasedSerial collectAll outcome commands).1 = commands.map outcome ∧
      (phasedSerial collectAll outcome commands).2.2 = true := by
  induction commands with
  | nil => simp [phasedSerial]
  | cons command commands ih =>
      obtain ⟨hresults, hgoes⟩ := ih fun other hother => hclean other (List.mem_cons_of_mem _ hother)
      unfold phasedSerial
      by_cases hok : (outcome command).ok = true
      · simp [hok, hresults, hgoes]
      · have hok : (outcome command).ok = false := by simpa using hok
        simp [hok, hclean command List.mem_cons_self hok, hresults, hgoes]

theorem phasedGroups_clean (collectAll : Bool) (groups : List GateParallelGroup)
    (hclean : ∀ command ∈ groups.flatMap GateParallelGroup.commands, (outcome command).ok = false →
      halts collectAll (outcome command) = false) :
    (phasedGroups collectAll outcome groups).1 = (groups.flatMap GateParallelGroup.commands).map outcome := by
  induction groups with
  | nil => rfl
  | cons group groups ih =>
      rw [List.flatMap_cons, List.forall_mem_append] at hclean
      obtain ⟨hgroup, hgroups⟩ := hclean
      have hnone : ((group.commands.map outcome).filter fun result => !result.ok).any (halts collectAll) = false := by
        rw [List.any_eq_false]
        intro result hresult
        obtain ⟨hmem, hfailed⟩ := List.mem_filter.mp hresult
        obtain ⟨command, hcommand, rfl⟩ := List.mem_map.mp hmem
        simp [hgroup command hcommand (by simpa using hfailed)]
      unfold phasedGroups
      simp [hnone, ih hgroups]

/-- Without a failure that ends the plan, the phased plan runs every command. -/
theorem phased_clean (P : Plan ρ) (failureSummary : CommandResult → String)
    (hclean : ∀ command ∈ P.allCommands, (outcome command).ok = false → halts P.collectAll (outcome command) = false) :
    (P.phased failureSummary outcome).commands = P.allCommands.map outcome := by
  unfold Plan.allCommands at hclean ⊢
  rw [List.forall_mem_append] at hclean
  obtain ⟨hresults, hgoes⟩ := phasedSerial_clean P.collectAll P.commands hclean.1
  unfold Plan.phased
  simp only [hgoes, if_true, hresults, phasedGroups_clean P.collectAll P.parallelGroups hclean.2, List.map_append]

/-! ### The overlapped plan -/

/-- What the scheduler promises of every moment. -/
structure Moment.Safe (P : Plan ρ) (m : Moment) : Prop where
  slots : m.scheduler.usedSlots ≤ P.slotCapacity
  jobs : m.scheduler.running.length ≤ P.jobCapacity
  serial : (m.scheduler.running.filter fun item => item.spot.serialIndex.isSome).length ≤ 1
  alone : ∀ item ∈ m.scheduler.running, P.executor.exclusive item.command = true → m.scheduler.running = [item]
  order : (m.scheduler.submitted.filterMap fun item => item.spot.serialIndex) = List.range m.scheduler.serialNext
  once : (m.scheduler.submitted.map Scheduled.spot).Nodup
  planned : ∀ item ∈ m.scheduler.submitted, P.commandAt item.spot = some item.command
  noError : m.point ≠ .stuck

theorem Moment.Sound.safe {m : Moment} (h : m.Sound P report) : m.Safe P where
  slots := h.1.slots
  jobs := h.1.jobs
  serial := h.1.serial
  alone := h.1.alone
  order := h.1.order
  once := (List.nodup_append.mp (h.1.spots.nodup_iff.mp P.spots_nodup)).2.1
  planned := fun item hitem => (h.1.scheduled item hitem).1
  noError := by
    intro hstuck
    have hpoint := h.2
    rw [hstuck] at hpoint
    exact hpoint

variable [LinearOrder ρ]

theorem initial_measure (P : Plan ρ) : P.initial.measure P = 16 * P.allCommands.length + 5 := by
  have hspots := (initial_sound P (fun _ _ => True)).1.spots.length_eq
  have hlength : P.allCommands.length = P.spots.length := by
    rw [spots_length]
    simp [Plan.allCommands, List.length_flatMap]
  have hsubmitted : P.initial.scheduler.submitted = [] := rfl
  have hrunning : P.initial.scheduler.running = [] := rfl
  have hrank : P.initial.point.rank = 5 := rfl
  rw [hsubmitted, List.map_nil, List.append_nil] at hspots
  unfold Moment.measure Scheduler.left
  rw [hrunning, hrank, hlength, hspots, List.length_nil]
  omega

/-- The overlapped plan respects its bounds at every moment and ends, whatever its commands report; and where
the outcome of a command is a function of the command, its result is the one of the phased plan. -/
theorem overlapped_refines_phased (P : Plan ρ) (failureSummary : CommandResult → String) :
    (∀ trace m, Base.System.Run (P.overlapped fun _ _ => True) trace m →
      m.Safe P ∧ trace.length ≤ 16 * P.allCommands.length + 5 ∧
        ((∀ m', ¬ (P.overlapped fun _ _ => True).step m () m') → m.point = .finished)) ∧
    ∀ outcome trace s, Base.System.Run (P.overlapped (fixed outcome)) trace ⟨.finished, s⟩ →
      ∃ result, P.result failureSummary s = .ok result ∧ result.ok = (P.phased failureSummary outcome).ok ∧
        (P.collectAll = true → (∀ command ∈ P.allCommands, (outcome command).ok = false →
            (outcome command).terminationReason = "" ∧ (outcome command).infrastructureError = false) →
          result.commands = (P.phased failureSummary outcome).commands) := by
  constructor
  · intro trace m hrun
    refine ⟨(run_sound hrun).safe, ?_, run_progress (fun _ => ⟨.error "", trivial⟩) hrun⟩
    have hlength := run_length hrun
    rw [initial_measure] at hlength
    omega
  · intro outcome trace s hrun
    obtain ⟨hs, hrunning, hend⟩ := run_sound hrun
    have hs : s.Sound P (fixed outcome) := hs
    have hrunning : s.running = [] := hrunning
    have hend : s.stopDispatch = true ∨ s.exhausted P = true := hend
    unfold Plan.result
    rw [fatalError_none hs]
    refine ⟨_, rfl, ?_, ?_⟩
    · rw [Bool.eq_iff_iff, phased_ok, ← collected_ok hs hrunning hend, spots_length]
    · intro hcollect hhalts
      have hclean : ∀ command ∈ P.allCommands, (outcome command).ok = false →
          halts P.collectAll (outcome command) = false := by
        intro command hcommand hfailed
        obtain ⟨hreason, hinfra⟩ := hhalts command hcommand hfailed
        simp [halts, hcollect, hreason, hinfra]
      rw [phased_clean P failureSummary hclean]
      exact collected_complete hs hrunning (exhausted_of_clean hs hclean hend)

/-- One serial command beside a group of one, on two slots. -/
def smallPlan : Plan Nat where
  commands := ["make lint"]
  parallelGroups := [{ commands := ["make test"] }]
  collectAll := true
  parallelWorkers := 2
  executor := ⟨some 2, fun _ => some 1, fun _ => false, fun _ => 0⟩

/-- Linting succeeds and testing fails. -/
def smallOutcome (command : String) : CommandResult := ⟨command, command == "make lint", "", false, ""⟩

def smallItem : Scheduled := ⟨.serial 0, "make lint", 1⟩

def smallOther : Scheduled := ⟨.parallel 0 0, "make test", 1⟩

/-- Both commands run together; the second to start completes first. -/
theorem smallPlan_run : ∃ s, (smallPlan.overlapped (fixed smallOutcome)).Reachable ⟨.finished, s⟩ ∧
    smallPlan.collected s = [smallOutcome "make lint", smallOutcome "make test"] := by
  have hstart : (smallPlan.overlapped (fixed smallOutcome)).Reachable smallPlan.initial := ⟨[], .start rfl⟩
  have hserial := hstart.next (l := ()) (.next rfl)
  have hgroups := hserial.next (l := ()) (.next rfl)
  have hboth := hgroups.next (l := ()) (.next rfl)
  have hfull := hboth.next (l := ()) (.next rfl)
  have hwaiting := hfull.next (l := ()) (.next rfl)
  have htest : [(smallOther, (.ok (smallOutcome "make test") : Outcome))] ≠ [] := by decide
  have hlint : [(smallItem, (.ok (smallOutcome "make lint") : Outcome))] ≠ [] := by decide
  have hother := hwaiting.next (l := ()) (.completed htest (List.Sublist.subperm (by decide)) fun c hc => by
    obtain rfl := List.mem_singleton.mp hc
    rfl)
  have hagain := (((hother.next (l := ()) (.next rfl)).next (l := ()) (.next rfl)).next (l := ()) (.next rfl)).next
    (l := ()) (.next rfl)
  have hlast := (hagain.next (l := ()) (.next rfl)).next (l := ()) (.completed hlint (List.Sublist.subperm (by decide))
    fun c hc => by
      obtain rfl := List.mem_singleton.mp hc
      rfl)
  have hend := (((hlast.next (l := ()) (.next rfl)).next (l := ()) (.next rfl)).next (l := ()) (.next rfl)).next
    (l := ()) (.next rfl)
  exact ⟨_, hend.next (l := ()) (.next rfl), rfl⟩

theorem overlapped_refines_phased_small : ∃ s result,
    (smallPlan.overlapped (fixed smallOutcome)).Reachable ⟨.finished, s⟩ ∧
      smallPlan.result CommandResult.command s = .ok result ∧ result.ok = false ∧
      result.commands = (smallPlan.phased CommandResult.command smallOutcome).commands := by
  obtain ⟨s, ⟨trace, hrun⟩, -⟩ := smallPlan_run
  obtain ⟨result, hresult, hok, hcommands⟩ :=
    (overlapped_refines_phased smallPlan CommandResult.command).2 smallOutcome trace s hrun
  refine ⟨s, result, ⟨trace, hrun⟩, hresult, ?_, hcommands rfl ?_⟩
  · rw [hok]
    decide
  · intro command hcommand _
    exact ⟨rfl, rfl⟩

end AutoAgents.Gates
