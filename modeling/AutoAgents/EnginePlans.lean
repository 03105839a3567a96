import AutoAgents.BaseOrder
import AutoAgents.EngineOutcomes

/-! The plan of a run. `validate_plan` accepts exactly the task lists without a cycle, and so a run with
tasks left always has one that it may start. -/

namespace AutoAgents

open Base Relation

/-! ### The depth-first search -/

/-- What a task depends on. -/
def dependencies (tasks : List Task) (id : String) : List String :=
  ((tasks.find? (·.taskId == id)).map (·.dependsOn)).getD []

theorem dependencies_of_find {tasks : List Task} {id : String} {task : Task}
    (h : tasks.find? (·.taskId == id) = some task) : dependencies tasks id = task.dependsOn := by
  rw [dependencies, h]
  rfl

/-- The task of an identity that the plan names. -/
theorem find_of_named {tasks : List Task} {id : String} (h : id ∈ tasks.map (·.taskId)) :
    ∃ task ∈ tasks, tasks.find? (·.taskId == id) = some task ∧ task.taskId = id := by
  obtain ⟨task, htask, rfl⟩ := List.mem_map.mp h
  cases hfind : tasks.find? (·.taskId == task.taskId) with
  | none => exact absurd (List.find?_eq_none.mp hfind task htask) (by simp)
  | some found => exact ⟨found, List.mem_of_find?_eq_some hfind, rfl, by simpa using List.find?_some hfind⟩

/-- The search leaves every task after all it depends on. -/
theorem visitTask_settled {tasks : List Task} {depth : Nat} {active visited visited' : List String}
    {identity : String} (hvisited : Settled (dependencies tasks) visited)
    (h : visitTask tasks depth active visited identity = .ok visited') :
    Settled (dependencies tasks) visited' ∧ identity ∈ visited' ∧ ∀ id ∈ visited, id ∈ visited' := by
  induction depth generalizing active visited visited' identity with
  | zero => cases h
  | succ depth ih =>
      simp only [visitTask, guard_ok] at h
      obtain ⟨-, h⟩ := h
      split at h
      · next hknown =>
          cases h
          exact ⟨hvisited, hknown, fun _ hid => hid⟩
      · split at h
        · cases h
        · next task hfind =>
            simp only [bind_ok, pure_ok] at h
            obtain ⟨mid, hmid, rfl⟩ := h
            obtain ⟨hsettled, hall, hkept⟩ := Settled.foldlM (fun _ _ _ => ih) hvisited hmid
            refine ⟨⟨?_, hsettled⟩, List.mem_cons_self, fun id hid => List.mem_cons_of_mem _ (hkept id hid)⟩
            rw [dependencies_of_find hfind]
            exact hall

/-- The search succeeds on an identity that is not on a cycle: the tasks it is in the midst of are all
different, and each of them needs the identity. -/
theorem visitTask_total {tasks : List Task}
    (hknown : ∀ task ∈ tasks, ∀ d ∈ task.dependsOn, d ∈ tasks.map (·.taskId))
    (hacyclic : ∀ id, ¬ TransGen (Needs (dependencies tasks)) id id) {depth : Nat} {active : List String}
    {identity : String} (hidentity : identity ∈ tasks.map (·.taskId)) (hnodup : active.Nodup)
    (hactive : ∀ a ∈ active, a ∈ tasks.map (·.taskId) ∧ TransGen (Needs (dependencies tasks)) identity a)
    (hdepth : tasks.length < active.length + depth) (visited : List String) :
    ∃ visited', visitTask tasks depth active visited identity = .ok visited' := by
  have hfresh : identity ∉ active := fun hmem => hacyclic identity (hactive identity hmem).2
  induction depth generalizing active identity visited with
  | zero =>
      have hlength := (List.subperm_of_subset hnodup fun a ha => (hactive a ha).1).length_le
      rw [List.length_map] at hlength
      omega
  | succ depth ih =>
      simp only [visitTask, if_neg hfresh]
      by_cases hvisited : identity ∈ visited
      · exact ⟨visited, if_pos hvisited⟩
      obtain ⟨task, htask, hfind, hid⟩ := find_of_named hidentity
      have hbelow : ∀ d ∈ task.dependsOn, Needs (dependencies tasks) d identity := by
        intro d hd
        rw [Needs, dependencies_of_find hfind]
        exact hd
      have htotal : ∀ d ∈ task.dependsOn, ∀ visited,
          ∃ visited', visitTask tasks depth (identity :: active) visited d = .ok visited' := by
        intro d hd visited
        have hstack : ∀ a ∈ identity :: active, a ∈ tasks.map (·.taskId) ∧
            TransGen (Needs (dependencies tasks)) d a := by
          intro a ha
          rcases List.mem_cons.mp ha with rfl | hold
          · exact ⟨hidentity, .single (hbelow d hd)⟩
          · exact ⟨(hactive a hold).1, .head (hbelow d hd) (hactive a hold).2⟩
        refine ih (hknown task htask d hd) (List.nodup_cons.mpr ⟨hfresh, hnodup⟩) hstack ?_ visited fun hmem => ?_
        · rw [List.length_cons]
          omega
        · exact hacyclic d (hstack d hmem).2
      obtain ⟨done, hdone⟩ := foldlM_total htotal visited
      refine ⟨identity :: done, ?_⟩
      simp only [if_neg hvisited, hfind, hdone]
      rfl

/-- `validate_plan` finds no cycle exactly where there is none, once all dependencies are known. -/
theorem visitTasks_iff {tasks : List Task}
    (hknown : ∀ task ∈ tasks, ∀ d ∈ task.dependsOn, d ∈ tasks.map (·.taskId)) :
    (∃ visited, (tasks.map (·.taskId)).foldlM (visitTask tasks (tasks.length + 1) []) [] = .ok visited) ↔
      ∀ id, ¬ TransGen (Needs (dependencies tasks)) id id := by
  constructor
  · rintro ⟨visited, hvisited⟩ id hcycle
    obtain ⟨hsettled, hall, -⟩ := Settled.foldlM (l := []) (fun _ _ _ => visitTask_settled) trivial hvisited
    -- An identity on a cycle is a dependency, and so it names a task.
    obtain ⟨next, hneeds, -⟩ := TransGen.head'_iff.mp hcycle
    refine hsettled.acyclic (hall id ?_) hcycle
    cases hfind : tasks.find? (·.taskId == next) with
    | none =>
        rw [Needs, dependencies, hfind] at hneeds
        exact absurd hneeds List.not_mem_nil
    | some task =>
        rw [Needs, dependencies_of_find hfind] at hneeds
        exact hknown task (List.mem_of_find?_eq_some hfind) id hneeds
  · intro hacyclic
    refine foldlM_total (fun id hid visited => ?_) []
    refine visitTask_total hknown hacyclic hid List.nodup_nil (fun _ ha => absurd ha List.not_mem_nil) ?_ visited
    rw [List.length_nil]
    omega

theorem visitTasks_iff_chain : ¬ TransGen (Needs (dependencies
    [{ taskId := "api", goal := "serve", dependsOn := ["model"] }, { taskId := "model", goal := "store" }])) "api" "api" :=
  (visitTasks_iff (by decide)).mp ⟨_, rfl⟩ "api"

/-! ### Accepted plans -/

/-- The identities of an accepted plan are those of the reply. -/
theorem planTasks_ids {commands : Commands} {ids : List String} {replied tasks : List Task}
    (h : replied.mapM (planTask commands ids) = .ok tasks) :
    tasks.map (·.taskId) = replied.map (·.taskId) ∧ ∀ task ∈ tasks, ∀ d ∈ task.dependsOn, d ∈ ids := by
  induction replied generalizing tasks with
  | nil =>
      simp only [List.mapM_nil, pure_ok] at h
      subst h
      exact ⟨rfl, fun _ ha => absurd ha List.not_mem_nil⟩
  | cons raw replied ih =>
      simp only [List.mapM_cons, bind_ok, pure_ok] at h
      obtain ⟨task, htask, rest, hrest, rfl⟩ := h
      obtain ⟨hids, hdeps⟩ := ih hrest
      simp only [planTask, guard_ok, bind_ok, pure_ok] at htask
      obtain ⟨hknown, checks, -, -, -, rfl⟩ := htask
      refine ⟨by rw [List.map_cons, List.map_cons, hids], fun task htask d hd => ?_⟩
      rcases List.mem_cons.mp htask with rfl | hmem
      · by_contra hforeign
        refine hknown (List.any_eq_true.mpr ⟨d, hd, ?_⟩)
        simp [hforeign]
      · exact hdeps task hmem d hd

namespace PlanAccepted

variable {tasks : List Task}

theorem nodup (h : PlanAccepted tasks) : (tasks.map (·.taskId)).Nodup := by
  obtain ⟨commands, replied, hnodup, htasks, -⟩ := h
  rwa [(planTasks_ids htasks).1]

theorem known (h : PlanAccepted tasks) : ∀ task ∈ tasks, ∀ d ∈ task.dependsOn, d ∈ tasks.map (·.taskId) := by
  obtain ⟨commands, replied, -, htasks, -⟩ := h
  obtain ⟨hids, hdeps⟩ := planTasks_ids htasks
  rwa [hids]

/-- The search of an accepted plan has settled all its tasks. -/
theorem settled (h : PlanAccepted tasks) :
    ∃ visited, Settled (dependencies tasks) visited ∧ ∀ id ∈ tasks.map (·.taskId), id ∈ visited := by
  obtain ⟨commands, replied, -, -, hvalid⟩ := h
  simp only [validatePlan, bind_ok] at hvalid
  obtain ⟨visited, hvisited, -⟩ := hvalid
  obtain ⟨hsettled, hall, -⟩ := Settled.foldlM (l := []) (fun _ _ _ => visitTask_settled) trivial hvisited
  exact ⟨visited, hsettled, hall⟩

end PlanAccepted

/-- A context with tasks left of an accepted plan has one whose dependencies are all done. -/
theorem readyTasks_of_pending {state : Context} (h : PlanAccepted state.tasks) (hpending : pendingTasks state ≠ []) :
    readyTasks state ≠ [] := by
  obtain ⟨left, hleft⟩ := List.exists_mem_of_ne_nil _ hpending
  obtain ⟨hmem, hopen⟩ := List.mem_filter.mp hleft
  obtain ⟨visited, hsettled, hall⟩ := h.settled
  -- The first task of the order that is still to be done.
  obtain ⟨first, -, ⟨hnamed, hfirst⟩, hdeps⟩ := hsettled.exists_first
    (p := fun id => id ∈ state.tasks.map (·.taskId) ∧ id ∉ state.doneTasks)
    (hall left.taskId (List.mem_map_of_mem hmem)) ⟨List.mem_map_of_mem hmem, by simpa using hopen⟩
  obtain ⟨task, htask, hfind, rfl⟩ := find_of_named hnamed
  refine List.ne_nil_of_mem (a := task) (List.mem_filter.mpr ⟨List.mem_filter.mpr ⟨htask, ?_⟩, ?_⟩)
  · simpa using hfirst
  · refine List.all_eq_true.mpr fun d hd => ?_
    rw [dependencies_of_find hfind] at hdeps
    by_contra hdone
    exact hdeps d hd ⟨h.known task htask d hd, by simpa using hdone⟩

end AutoAgents
