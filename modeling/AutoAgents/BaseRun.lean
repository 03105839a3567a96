import Mathlib

/-! Finite runs of a labelled transition system. A run keeps every transition it took, so that a
property may speak about two moments of one execution. An invariant of all runs, an invariant of the
runs whose steps meet a condition, and a fact that is never lost once it holds are each obtained from
one step lemma. -/

namespace Base

/-- A labelled transition system: where it may start, and what one step may do. -/
structure System (State Label : Type) where
  start : State → Prop
  step : State → Label → State → Prop

/-- One transition taken by a run. -/
structure Taken (State Label : Type) where
  before : State
  label : Label
  after : State

namespace System

variable {State Label : Type} {S : System State Label}

/-- The runs of a system, with their transitions from the oldest to the newest. -/
inductive Run (S : System State Label) : List (Taken State Label) → State → Prop
  | start {s : State} : S.start s → Run S [] s
  | step {trace : List (Taken State Label)} {s t : State} {l : Label} :
      Run S trace s → S.step s l t → Run S (trace ++ [⟨s, l, t⟩]) t

/-- The last state of some run. -/
def Reachable (S : System State Label) (s : State) : Prop := ∃ trace, Run S trace s

theorem Run.reachable {trace : List (Taken State Label)} {s : State} (h : Run S trace s) :
    S.Reachable s := ⟨trace, h⟩

theorem Reachable.next {s t : State} {l : Label} (h : S.Reachable s) (hstep : S.step s l t) :
    S.Reachable t := by
  obtain ⟨trace, hrun⟩ := h
  exact ⟨_, hrun.step hstep⟩

/-- What holds at the start and is kept by every step holds at the end of every run. -/
theorem Run.invariant {I : State → Prop} (hstart : ∀ s, S.start s → I s)
    (hkeep : ∀ s l t, I s → S.step s l t → I t) {trace : List (Taken State Label)} {s : State}
    (h : Run S trace s) : I s := by
  induction h with
  | start hs => exact hstart _ hs
  | step _ hstep ih => exact hkeep _ _ _ ih hstep

theorem Reachable.invariant {I : State → Prop} (hstart : ∀ s, S.start s → I s)
    (hkeep : ∀ s l t, I s → S.step s l t → I t) {s : State} (h : S.Reachable s) : I s := by
  obtain ⟨_, hrun⟩ := h
  exact hrun.invariant hstart hkeep

/-- All transitions of a run meet a condition. -/
def Meets (C : State → Label → State → Prop) (trace : List (Taken State Label)) : Prop :=
  ∀ e ∈ trace, C e.before e.label e.after

theorem Meets.of_append_left {C : State → Label → State → Prop}
    {trace rest : List (Taken State Label)} (h : Meets C (trace ++ rest)) : Meets C trace :=
  fun e he => h e (List.mem_append_left rest he)

theorem Meets.last {C : State → Label → State → Prop} {trace : List (Taken State Label)}
    {e : Taken State Label} (h : Meets C (trace ++ [e])) : C e.before e.label e.after :=
  h e (List.mem_append_right trace (List.mem_singleton.mpr rfl))

/-- An invariant of the runs all of whose steps meet a condition: only those steps have to keep it. -/
theorem Run.invariant_of_meets {C : State → Label → State → Prop} {I : State → Prop}
    (hstart : ∀ s, S.start s → I s)
    (hkeep : ∀ s l t, I s → C s l t → S.step s l t → I t) {trace : List (Taken State Label)}
    {s : State} (h : Run S trace s) (hmeets : Meets C trace) : I s := by
  induction h with
  | start hs => exact hstart _ hs
  | step _ hstep ih => exact hkeep _ _ _ (ih hmeets.of_append_left) hmeets.last hstep

/-- A transition of a run is a step of the system, from a state the run had reached. -/
theorem Run.taken {trace : List (Taken State Label)} {s : State} (h : Run S trace s)
    {e : Taken State Label} (he : e ∈ trace) :
    S.Reachable e.before ∧ S.step e.before e.label e.after := by
  induction h with
  | start _ => exact absurd he List.not_mem_nil
  | step hrun hstep ih =>
      rcases List.mem_append.mp he with hold | hnew
      · exact ih hold
      · obtain rfl := List.mem_singleton.mp hnew
        exact ⟨hrun.reachable, hstep⟩

/-- What a transition brought about, and no step takes away again, still holds at the end. -/
theorem Run.lasts {P : State → Prop} (hkeep : ∀ s l t, P s → S.step s l t → P t)
    {trace : List (Taken State Label)} {s : State} (h : Run S trace s)
    {e : Taken State Label} (he : e ∈ trace) (hP : P e.after) : P s := by
  induction h with
  | start _ => exact absurd he List.not_mem_nil
  | step _ hstep ih =>
      rcases List.mem_append.mp he with hold | hnew
      · exact hkeep _ _ _ (ih hold) hstep
      · obtain rfl := List.mem_singleton.mp hnew
        exact hP

/-- The same where only the steps that meet a condition keep it. -/
theorem Run.lasts_of_meets {C : State → Label → State → Prop} {P : State → Prop}
    (hkeep : ∀ s l t, P s → C s l t → S.step s l t → P t) {trace : List (Taken State Label)} {s : State}
    (h : Run S trace s) (hmeets : Meets C trace) {e : Taken State Label} (he : e ∈ trace)
    (hP : P e.after) : P s := by
  induction h with
  | start _ => exact absurd he List.not_mem_nil
  | step _ hstep ih =>
      rcases List.mem_append.mp he with hold | hnew
      · exact hkeep _ _ _ (ih hmeets.of_append_left hold) hmeets.last hstep
      · obtain rfl := List.mem_singleton.mp hnew
        exact hP

/-- The system as it goes on from a state. -/
def beyond (S : System State Label) (s : State) : System State Label := { S with start := (· = s) }

/-- A run that goes on from the end of another. -/
theorem Run.append {trace later : List (Taken State Label)} {s t : State} (h : Run S trace s)
    (hlater : Run (S.beyond s) later t) : Run S (trace ++ later) t := by
  induction hlater with
  | start hs =>
      cases hs
      rwa [List.append_nil]
  | step _ hstep ih =>
      rw [← List.append_assoc]
      exact ih.step hstep

/-- What holds at the start, and is kept by the steps that meet a condition, holds before each of them. -/
theorem Run.before_of_meets {C : State → Label → State → Prop} {I : State → Prop}
    (hstart : ∀ s, S.start s → I s)
    (hkeep : ∀ s l t, I s → C s l t → S.step s l t → I t) {trace : List (Taken State Label)}
    {s : State} (h : Run S trace s) (hmeets : Meets C trace) {e : Taken State Label} (he : e ∈ trace) :
    I e.before ∧ S.step e.before e.label e.after := by
  induction h with
  | start _ => exact absurd he List.not_mem_nil
  | step hrun hstep ih =>
      rcases List.mem_append.mp he with hold | hnew
      · exact ih hmeets.of_append_left hold
      · obtain rfl := List.mem_singleton.mp hnew
        exact ⟨hrun.invariant_of_meets hstart hkeep hmeets.of_append_left, hstep⟩

/-- A property of ordered pairs of transitions: each new transition against all the older ones. -/
theorem Run.pairwise {R : Taken State Label → Taken State Label → Prop}
    (hnew : ∀ trace s l t, Run S trace s → S.step s l t → ∀ e ∈ trace, R e ⟨s, l, t⟩)
    {trace : List (Taken State Label)} {s : State} (h : Run S trace s) : trace.Pairwise R := by
  induction h with
  | start _ => exact List.Pairwise.nil
  | step hrun hstep ih =>
      refine List.pairwise_append.mpr ⟨ih, List.pairwise_singleton _ _, ?_⟩
      intro e he d hd
      obtain rfl := List.mem_singleton.mp hd
      exact hnew _ _ _ _ hrun hstep e he

end System
end Base
