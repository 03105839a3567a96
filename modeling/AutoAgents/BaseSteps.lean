import AutoAgents.BaseProgram

/-! Computations that write as they go. A step checks and then writes; where a later step refuses, what the
earlier ones have written stays. A computation is harmless from a state when each of its refusals leaves
that state behind, and this is decided step by step. -/

namespace Base

variable {σ ε α β : Type}

/-- Either refuses and writes nothing, or goes on. -/
def attempt (f : σ → Except ε (α × σ)) : EStateM ε σ α := fun s =>
  match f s with
  | .ok (a, s') => .ok a s'
  | .error e => .error e s

/-- Reads the state, or refuses. -/
def consult (f : σ → Except ε α) : EStateM ε σ α := attempt fun s => do
  let a ← f s
  pure (a, s)

/-- A step refuses and writes nothing, or writes. -/
abbrev Step (σ ε : Type) := σ → Except ε σ

namespace Step

def take (step : Step σ ε) : EStateM ε σ Unit := attempt fun s => do
  let s' ← step s
  pure ((), s')

/-- One step after the other. -/
def takeAll : List (Step σ ε) → EStateM ε σ Unit
  | [] => pure ()
  | step :: steps => do
      step.take
      takeAll steps

/-- The state that a list of steps leads to, none of which refuses. -/
def Leads (steps : List (Step σ ε)) (s t : σ) : Prop := steps.foldlM (fun s step => step s) s = .ok t

end Step

/-- A program that nothing else runs beside. -/
def Prog.alone {κ : Type} (exec : κ → σ → Except ε σ) : Prog σ κ ε Unit → σ → Except ε σ
  | .pure _, s => .ok s
  | .fail e, _ => .error e
  | .read next, s => (next s).alone exec s
  | .send call rest, s =>
      match exec call s with
      | .ok s' => rest.alone exec s'
      | .error e => .error e

/-- From the state `t`, every refusal leaves the state `s`. -/
def Harmless (act : EStateM ε σ α) (s t : σ) : Prop := ∀ e u, act t = .error e u → u = s

section

variable {act : EStateM ε σ α} {f : α → EStateM ε σ β} {s t u : σ} {b : β} {steps : List (Step σ ε)}

theorem estate_bind_ok : (act >>= f) t = .ok b u ↔ ∃ a m, act t = .ok a m ∧ f a m = .ok b u := by
  show EStateM.bind act f t = _ ↔ _
  unfold EStateM.bind
  cases act t with
  | ok a m => exact ⟨fun h => ⟨a, m, rfl, h⟩, fun ⟨_, _, h, hf⟩ => by cases h; exact hf⟩
  | error e m =>
      constructor
      · intro h
        cases h
      · rintro ⟨_, _, h, -⟩
        cases h

/-- A computation refuses where its first part does, or where its second part does after the first. -/
theorem harmless_bind : Harmless (act >>= f) s t ↔
    Harmless act s t ∧ ∀ a u, act t = .ok a u → Harmless (f a) s u := by
  have hbind : (act >>= f) t = EStateM.bind act f t := rfl
  constructor
  · intro h
    constructor
    · intro e u hact
      exact h e u (by rw [hbind, EStateM.bind, hact])
    · intro a u hact e v hf
      exact h e v (by rw [hbind, EStateM.bind, hact]; exact hf)
  · rintro ⟨hfirst, hsecond⟩ e u h
    rw [hbind, EStateM.bind] at h
    cases hact : act t with
    | ok a m =>
        rw [hact] at h
        exact hsecond a m hact e u h
    | error e' m =>
        rw [hact] at h
        cases h
        exact hfirst _ _ hact

theorem harmless_pure {a : α} : Harmless (pure a : EStateM ε σ α) s t := by
  intro e u h
  cases h

theorem attempt_ok {g : σ → Except ε (α × σ)} {a : α} : attempt g t = .ok a u ↔ g t = .ok (a, u) := by
  unfold attempt
  cases g t with
  | error e => exact ⟨fun h => (nomatch h), fun h => (nomatch h)⟩
  | ok r => simp only [EStateM.Result.ok.injEq, Except.ok.injEq, Prod.ext_iff]

theorem harmless_attempt {g : σ → Except ε (α × σ)} :
    Harmless (attempt g) s t ↔ (∃ r, g t = .ok r) ∨ t = s := by
  unfold Harmless attempt
  cases g t with
  | error e =>
      constructor
      · exact fun h => Or.inr (h e t rfl)
      · rintro (⟨r, hr⟩ | rfl) e' u h
        · cases hr
        · cases h
          rfl
  | ok r => exact ⟨fun _ => Or.inl ⟨r, rfl⟩, fun _ e u h => nomatch h⟩

theorem consult_ok {g : σ → Except ε α} {a : α} : consult g t = .ok a u ↔ g t = .ok a ∧ u = t := by
  rw [consult, attempt_ok]
  constructor
  · intro h
    obtain ⟨_, hread, heq⟩ := bind_ok.mp h
    cases heq
    exact ⟨hread, rfl⟩
  · rintro ⟨hread, rfl⟩
    rw [hread]
    rfl

theorem harmless_consult {g : σ → Except ε α} : Harmless (consult g) s t ↔ (∃ a, g t = .ok a) ∨ t = s := by
  rw [consult, harmless_attempt]
  refine or_congr_left ⟨?_, ?_⟩
  · rintro ⟨r, hr⟩
    obtain ⟨a, hread, -⟩ := bind_ok.mp hr
    exact ⟨a, hread⟩
  · rintro ⟨a, hread⟩
    exact ⟨(a, t), by rw [hread]; rfl⟩

namespace Step

theorem leads_nil : Leads ([] : List (Step σ ε)) s t ↔ s = t := pure_ok

theorem leads_cons {step : Step σ ε} : Leads (step :: steps) s u ↔ ∃ t, step s = .ok t ∧ Leads steps t u := by
  rw [Leads, List.foldlM_cons, bind_ok]
  rfl

theorem leads_append {done rest : List (Step σ ε)} :
    Leads (done ++ rest) s u ↔ ∃ t, Leads done s t ∧ Leads rest t u := by
  rw [Leads, List.foldlM_append, bind_ok]
  rfl

theorem take_ok {step : Step σ ε} {r : Unit} : step.take t = .ok r u ↔ step t = .ok u := by
  rw [take, attempt_ok]
  constructor
  · intro h
    obtain ⟨_, hstep, heq⟩ := bind_ok.mp h
    cases heq
    exact hstep
  · intro hstep
    rw [hstep]
    rfl

theorem harmless_take {step : Step σ ε} : Harmless step.take s t ↔ (∃ u, step t = .ok u) ∨ t = s := by
  rw [take, harmless_attempt]
  refine or_congr_left ⟨?_, ?_⟩
  · rintro ⟨r, hr⟩
    obtain ⟨u, hstep, -⟩ := bind_ok.mp hr
    exact ⟨u, hstep⟩
  · rintro ⟨u, hstep⟩
    exact ⟨((), u), by rw [hstep]; rfl⟩

/-- Steps that all pass lead from one state to the next. -/
theorem takeAll_ok {r : Unit} : takeAll steps t = .ok r u ↔ Leads steps t u := by
  induction steps generalizing t with
  | nil =>
      rw [leads_nil]
      constructor
      · intro h
        cases h
        rfl
      · rintro rfl
        rfl
  | cons step steps ih =>
      rw [takeAll, estate_bind_ok, leads_cons]
      constructor
      · rintro ⟨_, m, htake, hrest⟩
        exact ⟨m, take_ok.mp htake, ih.mp hrest⟩
      · rintro ⟨m, hstep, hrest⟩
        exact ⟨(), m, take_ok.mpr hstep, ih.mpr hrest⟩

/-- Steps are harmless when none refuses once those before it have changed something. -/
theorem harmless_takeAll : Harmless (takeAll steps) s t ↔
    ∀ done step rest u, steps = done ++ step :: rest → Leads done t u → (∃ v, step u = .ok v) ∨ u = s := by
  induction steps generalizing t with
  | nil =>
      constructor
      · intro _ done step rest u h
        exact absurd h (by simp)
      · intro _ e u h
        cases h
  | cons first steps ih =>
      rw [takeAll, harmless_bind, harmless_take]
      constructor
      · rintro ⟨hhere, hlater⟩ done step rest u heq hleads
        cases done with
        | nil =>
            obtain ⟨rfl, rfl⟩ := List.cons.inj heq
            rwa [← leads_nil.mp hleads]
        | cons d done =>
            obtain ⟨rfl, rfl⟩ := List.cons.inj heq
            obtain ⟨m, hstep, hrest⟩ := leads_cons.mp hleads
            exact ih.mp (hlater () m (take_ok.mpr hstep)) done step rest u rfl hrest
      · intro h
        refine ⟨h [] first steps t rfl (leads_nil.mpr rfl), fun _ m htake => ?_⟩
        refine ih.mpr fun done step rest u heq hleads => ?_
        exact h (first :: done) step rest u (by rw [heq]; rfl) (leads_cons.mpr ⟨m, take_ok.mp htake, hleads⟩)

end Step

end

end Base
