import AutoAgents.PersistenceAction

/-! What an action has attempted. An error that says that no mutation had started is true: no command that changes a target
was attempted and no path was removed. A target of production is never touched, and an action that returns has run the
declared steps of every other target. -/

namespace AutoAgents.Persistence

open Base (Json FloatText decode Leaves)
open Operator (strip stripText)
open Proofs (Path)

/-! ### Events -/

def Step.changes : Step → Bool
  | .reset | .init | .migrate => true
  | .status | .verify => false

def Event.target : Event → Target
  | .collected target _ _ | .ran target _ _ _ | .listed target _ _ | .visited target _ _ | .removed target _ _ => target

/-- A command that changes a target was attempted, or a path was removed. -/
def Event.changes : Event → Bool
  | .ran _ step _ _ => step.changes
  | .removed _ _ _ => true
  | .collected _ _ _ | .listed _ _ _ | .visited _ _ _ => false

def Event.collects : Event → Bool
  | .collected _ _ _ => true
  | _ => false

def Outcome.succeeded : Outcome → Bool
  | .exited returncode _ _ => returncode == 0
  | _ => false

/-- The command of an event, and whether it has succeeded. -/
def Event.command : Event → Option (Target × Step × List String × Bool)
  | .ran target step argv outcome => some (target, step, argv, outcome.succeeded)
  | _ => none

def Site.commands (s : Site) : List (Target × Step × List String × Bool) := s.log.filterMap Event.command

variable {φ : Type} [FloatText φ] {host : Host φ} {target : Target} {s t u : Site}

variable {T : Event → Prop}

/-- What has come of a site by events of a kind. -/
structure Since (T : Event → Prop) (s t : Site) : Prop where
  flag : s.mutationStarted = true → t.mutationStarted = true
  log : ∃ later, t.log = s.log ++ later ∧ (∀ event ∈ later, T event) ∧
    (t.mutationStarted = false → ∀ event ∈ later, event.changes = false)

namespace Since

theorem refl (T : Event → Prop) (s : Site) : Since T s s := ⟨id, [], by simp⟩

theorem trans (h : Since T s t) (h' : Since T t u) : Since T s u := by
  obtain ⟨first, hfirst, htarget, hquiet⟩ := h.log
  obtain ⟨second, hsecond, htarget', hquiet'⟩ := h'.log
  refine ⟨fun hs => h'.flag (h.flag hs), first ++ second, by rw [hsecond, hfirst, List.append_assoc], ?_, ?_⟩
  · intro event hevent
    exact (List.mem_append.mp hevent).elim (htarget event) (htarget' event)
  · intro hu event hevent
    -- the flag is never taken back
    have ht : t.mutationStarted = false := by
      by_contra hne
      exact Bool.noConfusion ((h'.flag (Bool.eq_true_of_not_eq_false hne)).symm.trans hu)
    exact (List.mem_append.mp hevent).elim (hquiet ht event) (hquiet' hu event)

/-- An event that needs no flag, or comes after the flag. -/
theorem event {event : Event} (hkind : T event) (hquiet : event.changes = false ∨ s.mutationStarted = true)
    (hlog : t.log = s.log ++ [event]) (hflag : t.mutationStarted = s.mutationStarted) : Since T s t := by
  refine ⟨fun hs => hflag.trans hs, [event], hlog, by simpa using hkind, ?_⟩
  intro ht other hother
  rw [List.mem_singleton.mp hother]
  rcases hquiet with hquiet | hs
  · exact hquiet
  · rw [hflag, hs] at ht
    cases ht

/-- A change of the variables alone. -/
theorem silent (hlog : t.log = s.log) (hflag : s.mutationStarted = true → t.mutationStarted = true) : Since T s t :=
  ⟨hflag, [], by simpa using hlog, by simp, by simp⟩

/-- The rule of sequences. -/
theorem bind {α β : Type} {act : Action α} {f : α → Action β} {P : α → Site → Prop} {Q : β → Site → Prop}
    (hact : Leaves act s (fun a t => Since T s t ∧ P a t) fun _ t => Since T s t)
    (hf : ∀ a t, P a t → Leaves (f a) t (fun b u => Since T t u ∧ Q b u) fun _ u => Since T t u) :
    Leaves (act >>= f) s (fun b u => Since T s u ∧ Q b u) fun _ u => Since T s u := by
  refine Leaves.bind hact fun a t h => ?_
  exact (hf a t h.2).mono (fun b u h' => ⟨h.1.trans h'.1, h'.2⟩) fun e u h' => h.1.trans h'

theorem pure {α : Type} {a : α} {Q : α → Site → Prop} (h : Q a s) :
    Leaves (pure a : Action α) s (fun b t => Since T s t ∧ Q b t) fun _ t => Since T s t :=
  ⟨refl T s, h⟩

theorem throw {α : Type} {e : Raised} {Q : α → Site → Prop} :
    Leaves (throw e : Action α) s (fun b t => Since T s t ∧ Q b t) fun _ t => Since T s t :=
  refl T s

theorem lift {α : Type} {x : Except Raised α} :
    Leaves (lift x) s (fun a t => Since T s t ∧ x = .ok a ∧ s = t) fun _ t => Since T s t := by
  cases x with
  | ok a => exact ⟨refl T s, rfl, rfl⟩
  | error e => exact refl T s

theorem get : Leaves (get : Action Site) s (fun a t => Since T s t ∧ s = a ∧ s = t) fun _ t => Since T s t :=
  ⟨refl T s, rfl, rfl⟩

theorem setWorld {world : Site → World} :
    Leaves (modify fun s => { s with world := world s } : Action Unit) s
      (fun _ t => Since T s t ∧ t.log = s.log ∧ t.mutationStarted = s.mutationStarted) fun _ t => Since T s t :=
  ⟨silent rfl id, rfl, rfl⟩

theorem enter {step : String} : Leaves (enter step) s (fun _ t => Since T s t ∧ t = { s with activeStep := step })
    fun _ t => Since T s t :=
  ⟨silent rfl id, rfl⟩

theorem started : Leaves started s (fun _ t => Since T s t ∧ t = { s with mutationStarted := true })
    fun _ t => Since T s t :=
  ⟨silent rfl fun _ => rfl, rfl⟩

end Since

/-! ### One command -/

/-- What a successful command has answered. -/
structure Answered (host : Host φ) (target : Target) (outcome : Outcome) (protocol : Option (List (String × Json φ))) : Prop where
  succeeded : outcome.succeeded = true
  replies : 2 ≤ target.interfaceVersion → ∃ returncode stdout stderr payload, outcome = .exited returncode stdout stderr ∧
    decode (strip stdout.toList) = some (Json.obj payload) ∧ host.firstProtocol (payload.lookup "protocol_version") = true ∧
    payload.lookup "ok" = some (.bool true) ∧ protocol = some payload

theorem failed_leaves {α : Type} {target' : Target} {step : Step} {message code : String} {outcome : CommandOutcome}
    {Q : α → Site → Prop} :
    Leaves (failed target' step message code outcome : Action α) s (fun a t => Since T s t ∧ Q a t) fun _ t => Since T s t :=
  Since.throw

theorem protocolOf_leaves (step : Step) (ended : CommandOutcome) (stdout : String) :
    Leaves (host.protocolOf target step ended stdout) s
      (fun protocol t => Since T s t ∧ s = t ∧ (2 ≤ target.interfaceVersion → ∃ payload,
        decode (strip stdout.toList) = some (Json.obj payload) ∧
          host.firstProtocol (payload.lookup "protocol_version") = true ∧
          payload.lookup "ok" = some (.bool true) ∧ protocol = some payload))
      fun _ t => Since T s t := by
  unfold Host.protocolOf
  split
  · split
    · exact failed_leaves
    · next payload hpayload =>
        split
        · exact failed_leaves
        · next hfirst =>
            split
            · next hok => exact Since.pure ⟨rfl, fun _ => ⟨payload, hpayload, by simpa using hfirst, hok, rfl⟩⟩
            · exact failed_leaves
    · exact failed_leaves
  · next hversion => exact Since.pure ⟨rfl, fun h => absurd h hversion⟩

omit [FloatText φ] in
theorem process_leaves (argv : List String) :
    Leaves (host.process argv) s (fun _ t => Since T s t ∧ t.log = s.log ∧ t.mutationStarted = s.mutationStarted)
      fun _ t => Since T s t :=
  ⟨Since.silent rfl id, rfl, rfl⟩

theorem record_leaves (event : Event) (hkind : T event)
    (hquiet : event.changes = false ∨ s.mutationStarted = true) :
    Leaves (record event) s
      (fun _ t => Since T s t ∧ t.log = s.log ++ [event] ∧ t.mutationStarted = s.mutationStarted)
      fun _ t => Since T s t :=
  ⟨Since.event hkind hquiet rfl rfl, rfl, rfl⟩

/-- A command is attempted once, and with success where it returns. -/
theorem runTargetCommand_leaves (hT : ∀ step argv outcome, T (.ran target step argv outcome)) {step : Step} {argv : List String} (hstep : step.changes = false ∨ s.mutationStarted = true) :
    Leaves (host.runTargetCommand target step argv) s
      (fun report t => Since T s t ∧ t.mutationStarted = s.mutationStarted ∧ ∃ outcome,
        t.log = s.log ++ [.ran target step argv outcome] ∧ Answered host target outcome report.protocol)
      fun _ t => Since T s t := by
  unfold Host.runTargetCommand
  refine Since.bind Since.lift ?_
  rintro - _ ⟨-, rfl⟩
  refine Since.bind (process_leaves argv) ?_
  intro outcome m ⟨hlog, hflag⟩
  refine Since.bind (record_leaves (.ran target step argv outcome) (hT _ _ _) (hflag ▸ hstep)) ?_
  intro _ t ⟨hran, hflag'⟩
  rw [hlog] at hran
  rw [hflag] at hflag'
  cases outcome with
  | notStarted error => exact failed_leaves
  | timedOut error => exact failed_leaves
  | undecodable error => exact Since.throw
  | exited returncode stdout stderr =>
      dsimp only
      split
      · exact failed_leaves
      · next hzero =>
          refine Since.bind (protocolOf_leaves step _ stdout) ?_
          rintro protocol _ ⟨rfl, hreply⟩
          refine Since.pure ⟨hflag', _, hran, by simpa [Outcome.succeeded] using hzero, fun hversion => ?_⟩
          obtain ⟨payload, hpayload⟩ := hreply hversion
          exact ⟨returncode, stdout, stderr, payload, rfl, hpayload⟩

/-- The commands of a target that have succeeded, after those of `s`. -/
def Ran (target : Target) (steps : List (Step × List String)) (s t : Site) : Prop :=
  t.commands = s.commands ++ steps.map fun step => (target, step.1, step.2, true)

theorem Ran.refl : Ran target [] s s := by simp [Ran]

theorem Ran.trans {first second : List (Step × List String)} (h : Ran target first s t) (h' : Ran target second t u) :
    Ran target (first ++ second) s u := by
  unfold Ran at *
  rw [h', h, List.map_append, List.append_assoc]

theorem Ran.of_log (h : t.log = s.log) : Ran target [] s t := by simp [Ran, Site.commands, h]

theorem Ran.one {step : Step} {argv : List String} {outcome : Outcome} (hlog : t.log = s.log ++ [.ran target step argv outcome])
    (hsucceeded : outcome.succeeded = true) : Ran target [(step, argv)] s t := by
  simp [Ran, Site.commands, hlog, Event.command, hsucceeded]

theorem reportCommand_leaves (hT : ∀ step argv outcome, T (.ran target step argv outcome)) {step : Step} {argv : List String} (hstep : step.changes = false ∨ s.mutationStarted = true) :
    Leaves (host.reportCommand target step argv) s
      (fun _ t => Since T s t ∧ t.mutationStarted = s.mutationStarted ∧ Ran target [(step, argv)] s t)
      fun _ t => Since T s t := by
  unfold Host.reportCommand
  refine Since.bind (runTargetCommand_leaves hT hstep) ?_
  intro report t ⟨hflag, outcome, hlog, hanswered⟩
  exact Since.pure ⟨hflag, .one hlog hanswered.succeeded⟩

/-! ### The steps of a target -/

omit [FloatText φ] in
theorem removePath_leaves (hT : ∀ event : Event, event.target = target → T event) {path : Path} (hstarted : s.mutationStarted = true) :
    Leaves (host.removePath target path) s (fun _ t => Since T s t ∧ t.mutationStarted = true ∧ Ran target [] s t)
      fun _ t => Since T s t := by
  unfold Host.removePath
  refine Since.bind Since.get ?_
  rintro _ _ ⟨rfl, rfl⟩
  refine Since.bind (record_leaves (.visited target path s.world) (hT _ rfl) (.inl rfl)) ?_
  intro _ m ⟨hvisited, hflag⟩
  have hran : Ran target [] s m := by simp [Ran, Site.commands, hvisited, Event.command]
  rw [hstarted] at hflag
  refine Since.bind Since.lift ?_
  rintro found _ ⟨-, rfl⟩
  split
  · refine Since.bind Since.lift ?_
    rintro linked _ ⟨-, rfl⟩
    split
    · refine (Since.lift (x := refused _)).mono (fun _ _ h => ?_) fun _ _ h => h
      exact absurd h.2.1 (by simp [refused])
    · refine Since.bind (record_leaves (.removed target path s.world) (hT _ rfl) (.inr hflag)) ?_
      intro _ t ⟨hremoved, hflag'⟩
      have hran' : Ran target [] s t := hran.trans (by simp [Ran, Site.commands, hremoved, Event.command])
      refine Since.bind Since.setWorld ?_
      intro _ u ⟨hlog, hflag''⟩
      have hu : u.mutationStarted = true := hflag''.trans (hflag'.trans hflag)
      have hran'' : Ran target [] s u := hran'.trans (.of_log hlog)
      split
      · exact Since.throw
      · exact Since.pure ⟨hu, hran''⟩
  · exact Since.pure ⟨hflag, hran⟩

omit [FloatText φ] in
theorem removePaths_leaves (hT : ∀ event : Event, event.target = target → T event) {root : Path} {paths : List Path} (hstarted : s.mutationStarted = true) :
    Leaves (host.removePaths root target paths) s
      (fun _ t => Since T s t ∧ t.mutationStarted = true ∧ Ran target [] s t) fun _ t => Since T s t := by
  induction paths generalizing s with
  | nil => exact Since.pure ⟨hstarted, .refl⟩
  | cons path rest ih =>
      unfold Host.removePaths
      refine Since.bind (removePath_leaves hT hstarted) ?_
      intro _ m ⟨hflag, hran⟩
      split
      · exact Since.throw
      · refine Since.bind (ih hflag) ?_
        intro deleted u ⟨hflag', hran'⟩
        exact Since.pure ⟨hflag', hran.trans hran'⟩

/-- The commands that change a target. -/
def Target.changing (target : Target) (transition : String) : List (Step × List String) :=
  if transition = "rebuild" then
    (if target.resetArgv ≠ [] then [(Step.reset, target.resetArgv)] else []) ++ [(Step.init, target.initializeArgv)]
  else if transition = "initialize" then [(Step.init, target.initializeArgv)]
  else [(Step.migrate, target.migration)]

/-- The commands that a target declares for a change, in order. -/
def Target.declared (target : Target) (transition : String) : List (Step × List String) :=
  (if 2 ≤ target.interfaceVersion ∧ target.statusArgv ≠ [] then [(Step.status, target.statusArgv)] else []) ++
    target.changing transition ++ [(Step.verify, target.verifyArgv)]

theorem resetTarget_leaves (hT : ∀ step argv outcome, T (.ran target step argv outcome)) :
    Leaves (host.resetTarget target) s
      (fun _ t => Since T s t ∧ Ran target (if target.resetArgv ≠ [] then [(Step.reset, target.resetArgv)] else []) s t)
      fun _ t => Since T s t := by
  unfold Host.resetTarget
  refine Since.bind Since.enter ?_
  rintro _ _ rfl
  split
  · exact Since.throw
  split
  · refine Since.bind Since.started ?_
    rintro _ _ rfl
    refine Since.bind (reportCommand_leaves hT (.inr rfl)) ?_
    rintro report t ⟨-, hran⟩
    exact Since.pure hran
  · exact Since.pure (.of_log rfl)

omit [FloatText φ] in
theorem deleteTarget_leaves (hT : ∀ event : Event, event.target = target → T event) {root : Path} :
    Leaves (host.deleteTarget root target) s (fun _ t => Since T s t ∧ Ran target [] s t) fun _ t => Since T s t := by
  unfold Host.deleteTarget
  refine Since.bind Since.enter ?_
  rintro _ _ rfl
  refine Since.bind Since.get ?_
  rintro _ _ ⟨rfl, rfl⟩
  refine Since.bind Since.lift ?_
  rintro paths _ ⟨-, rfl⟩
  refine Since.bind (record_leaves (.listed target paths s.world) (hT _ rfl) (.inl rfl)) ?_
  rintro _ m ⟨hlisted, -⟩
  have hran : Ran target [] s m := by simp [Ran, Site.commands, hlisted, Event.command]
  split
  · refine Since.bind Since.started ?_
    rintro _ _ rfl
    exact (removePaths_leaves hT rfl).mono (fun _ _ h => ⟨h.1, hran.trans h.2.2⟩) fun _ _ h => h
  · exact Since.pure hran

theorem initTarget_leaves (hT : ∀ step argv outcome, T (.ran target step argv outcome)) {transition : String} :
    Leaves (host.initTarget transition target) s
      (fun _ t => Since T s t ∧ Ran target [(Step.init, target.initializeArgv)] s t) fun _ t => Since T s t := by
  unfold Host.initTarget
  refine Since.bind Since.enter ?_
  rintro _ _ rfl
  split
  · exact Since.throw
  refine Since.bind Since.started ?_
  rintro _ _ rfl
  refine Since.bind (reportCommand_leaves hT (.inr rfl)) ?_
  rintro report t ⟨-, hran⟩
  exact Since.pure hran

theorem migrate_leaves (hT : ∀ step argv outcome, T (.ran target step argv outcome)) {transition : String} :
    Leaves (host.migrate transition target) s
      (fun _ t => Since T s t ∧
        Ran target [(Step.migrate, target.migration)] s t)
      fun _ t => Since T s t := by
  unfold Host.migrate
  refine Since.bind Since.enter ?_
  rintro _ _ rfl
  split
  · exact Since.throw
  refine Since.bind Since.started ?_
  rintro _ _ rfl
  refine Since.bind (reportCommand_leaves hT (.inr rfl)) ?_
  rintro report t ⟨-, hran⟩
  exact Since.pure hran

theorem changeTarget_leaves (hT : ∀ event : Event, event.target = target → T event) {root : Path} {transition : String} :
    Leaves (host.changeTarget root transition target) s
      (fun _ t => Since T s t ∧ Ran target (target.changing transition) s t) fun _ t => Since T s t := by
  unfold Host.changeTarget Target.changing
  split
  · unfold Host.rebuild
    refine Since.bind (resetTarget_leaves fun _ _ _ => hT _ rfl) ?_
    intro reset m hreset
    refine Since.bind (deleteTarget_leaves hT) ?_
    intro deleted m' hdeleted
    refine Since.bind (initTarget_leaves fun _ _ _ => hT _ rfl) ?_
    intro initialized t hinit
    have hran := (hreset.trans hdeleted).trans hinit
    rw [List.append_nil] at hran
    exact Since.pure hran
  split
  · exact initTarget_leaves fun _ _ _ => hT _ rfl
  · exact migrate_leaves fun _ _ _ => hT _ rfl

/-- The reply of `verify` that a change asks of a target. -/
def Verified (host : Host φ) (change : Change) (target : Target) (t : Site) : Prop :=
  ∃ returncode stdout stderr payload, Event.ran target .verify target.verifyArgv (.exited returncode stdout stderr) ∈ t.log ∧
    decode (strip stdout.toList) = some (Json.obj payload) ∧ payload.lookup "ok" = some (.bool true) ∧
    reportsReady payload = true ∧ host.atVersion (stripText (change.toVersion.getD "")) payload = true

theorem verifyTarget_leaves (hT : ∀ step argv outcome, T (.ran target step argv outcome)) {change : Change} :
    Leaves (host.verifyTarget change target) s
      (fun _ t => Since T s t ∧ Ran target [(Step.verify, target.verifyArgv)] s t ∧
        (2 ≤ target.interfaceVersion → Verified host change target t)) fun _ t => Since T s t := by
  unfold Host.verifyTarget
  refine Since.bind Since.enter ?_
  rintro _ _ rfl
  split
  · exact Since.throw
  refine Since.bind (runTargetCommand_leaves hT (.inl rfl)) ?_
  rintro report t ⟨-, outcome, hlog, hanswered⟩
  have hran : Ran target [(Step.verify, target.verifyArgv)] s t := Ran.one hlog hanswered.succeeded
  split
  · next hversion =>
      obtain ⟨returncode, stdout, stderr, payload, rfl, hdecode, -, hok, hprotocol⟩ := hanswered.replies hversion
      rw [hprotocol, Option.getD_some]
      unfold Host.checkVerified
      dsimp only
      split
      · exact Since.throw
      split
      · exact Since.throw
      next hready hat =>
      refine Since.bind (P := fun _ u => t = u) (Since.pure rfl) ?_
      rintro _ _ rfl
      refine Since.pure ⟨hran, fun _ => ⟨returncode, stdout, stderr, payload, ?_, hdecode, hok, ?_, ?_⟩⟩
      · rw [hlog]
        exact List.mem_append_right _ List.mem_cons_self
      · simpa using hready
      · simpa using hat
  · next hversion => exact Since.pure ⟨hran, fun h => absurd h hversion⟩

theorem statusTarget_leaves (hT : ∀ step argv outcome, T (.ran target step argv outcome)) :
    Leaves (host.statusTarget target) s
      (fun _ t => Since T s t ∧ Ran target
        (if 2 ≤ target.interfaceVersion ∧ target.statusArgv ≠ [] then [(Step.status, target.statusArgv)] else []) s t)
      fun _ t => Since T s t := by
  unfold Host.statusTarget
  refine Since.bind Since.enter ?_
  rintro _ _ rfl
  split
  · refine Since.bind (reportCommand_leaves hT (.inl rfl)) ?_
    rintro report t ⟨-, hran⟩
    exact Since.pure hran
  · exact Since.pure (.of_log rfl)

/-- What a target that is done has to show. -/
structure Done (host : Host φ) (change : Change) (target : Target) (s t : Site) : Prop where
  ran : Ran target (target.declared change.transition) s t
  verified : 2 ≤ target.interfaceVersion → Verified host change target t

theorem targetSteps_leaves (hT : ∀ event : Event, event.target = target → T event) {root : Path} {change : Change} :
    Leaves (host.targetSteps root change target) s (fun _ t => Since T s t ∧ Done host change target s t)
      fun _ t => Since T s t := by
  unfold Host.targetSteps
  refine Since.bind (statusTarget_leaves fun _ _ _ => hT _ rfl) ?_
  intro status m hstatus
  refine Since.bind (changeTarget_leaves hT) ?_
  intro changed m' hchanged
  refine Since.bind (verifyTarget_leaves fun _ _ _ => hT _ rfl) ?_
  intro verification t ⟨hverify, hverified⟩
  exact Since.pure ⟨(hstatus.trans hchanged).trans hverify, hverified⟩

/-! ### All targets -/

/-- An error of the contract tells how far the action has come. -/
def Tells (e : Raised) (t : Site) : Prop := ∀ error, e = .contract error → error.mutationStarted = some t.mutationStarted

theorem runTarget_leaves (hT : target.environment ≠ "production" → ∀ event : Event, event.target = target → T event) {root : Path} {change : Change} :
    Leaves (host.runTarget root change target) s
      (fun _ t => Since T s t ∧ if target.environment = "production" then s = t else Done host change target s t)
      fun e t => Since T s t ∧ Tells e t := by
  unfold Host.runTarget
  split
  · exact ⟨.refl T s, rfl⟩
  · next hautomatic =>
      refine Leaves.tryCatch_iff.mpr ((targetSteps_leaves (hT hautomatic)).mono (fun _ _ h => h) ?_)
      intro e t hsince
      refine Leaves.bind_iff.mpr ?_
      cases e with
      | contract e =>
          refine ⟨hsince, fun error herror => ?_⟩
          cases herror
          rfl
      | other text => exact ⟨hsince, fun error herror => nomatch herror⟩

/-- The targets that are worked on. -/
def automatic (targets : List Target) : List Target := targets.filter fun target => target.environment != "production"

/-- The commands of all targets, in the order of the targets. -/
def declaredAll (transition : String) (targets : List Target) : List (Target × Step × List String × Bool) :=
  (automatic targets).flatMap fun target => (target.declared transition).map fun step => (target, step.1, step.2, true)

theorem Since.mem (h : Since T s t) {event : Event} (hevent : event ∈ s.log) : event ∈ t.log := by
  obtain ⟨later, hlater, -⟩ := h.log
  rw [hlater]
  exact List.mem_append_left later hevent

theorem runTargets_leaves {root : Path} {change : Change} {targets : List Target}
    (hT : ∀ target ∈ targets, target.environment ≠ "production" → ∀ event : Event, event.target = target → T event) :
    Leaves (host.runTargets root change targets) s
      (fun _ t => Since T s t ∧ t.commands = s.commands ++ declaredAll change.transition targets ∧
        ∀ target ∈ targets, target.environment ≠ "production" → 2 ≤ target.interfaceVersion → Verified host change target t)
      fun e t => Since T s t ∧ Tells e t := by
  induction targets generalizing s with
  | nil => exact ⟨.refl T s, by simp [declaredAll, automatic], by simp⟩
  | cons target rest ih =>
      have hrest := fun target htarget => hT target (List.mem_cons_of_mem _ htarget)
      unfold Host.runTargets
      refine Leaves.bind (runTarget_leaves (hT target List.mem_cons_self)) ?_
      intro result m ⟨hm, hdone⟩
      refine Leaves.bind_iff.mpr ((ih (s := m) hrest).mono ?_ fun e t h => ⟨hm.trans h.1, h.2⟩)
      intro results t ⟨ht, hcommands, hverified⟩
      refine Leaves.pure_iff.mpr ⟨hm.trans ht, ?_, ?_⟩
      · rw [hcommands]
        by_cases hproduction : target.environment = "production"
        · rw [if_pos hproduction] at hdone
          subst hdone
          simp [declaredAll, automatic, hproduction]
        · rw [if_neg hproduction] at hdone
          rw [hdone.ran, List.append_assoc]
          simp [declaredAll, automatic, hproduction]
      · intro other hother hautomatic hversion
        rcases List.mem_cons.mp hother with rfl | hlater
        · rw [if_neg hautomatic] at hdone
          obtain ⟨returncode, stdout, stderr, payload, hmem, hpayload⟩ := hdone.verified hversion
          exact ⟨returncode, stdout, stderr, payload, ht.mem hmem, hpayload⟩
        · exact hverified other hlater hautomatic hversion

/-! ### The checks before the action -/

/-- Between `s` and `t` selectors were collected, for targets that are worked on, and nothing else was done. -/
structure Checked (s t : Site) : Prop where
  flag : t.mutationStarted = s.mutationStarted
  log : ∃ later, t.log = s.log ++ later ∧ ∀ event ∈ later, event.collects = true ∧ event.target.environment ≠ "production"

theorem Checked.refl (s : Site) : Checked s s := ⟨rfl, [], by simp⟩

theorem Checked.trans (h : Checked s t) (h' : Checked t u) : Checked s u := by
  obtain ⟨first, hfirst, hall⟩ := h.log
  obtain ⟨second, hsecond, hall'⟩ := h'.log
  refine ⟨h'.flag.trans h.flag, first ++ second, by rw [hsecond, hfirst, List.append_assoc], fun event hevent => ?_⟩
  exact (List.mem_append.mp hevent).elim (hall event) (hall' event)

theorem Event.changes_of_collects {event : Event} (h : event.collects = true) : event.changes = false := by
  cases event <;> first | rfl | cases h

theorem Checked.since (h : Checked s t) : Since (fun event => event.target.environment ≠ "production") s t := by
  obtain ⟨later, hlater, hall⟩ := h.log
  exact ⟨fun hs => h.flag.trans hs, later, hlater, fun event hevent => (hall event hevent).2,
    fun _ event hevent => Event.changes_of_collects (hall event hevent).1⟩

theorem Checked.commands (h : Checked s t) : t.commands = s.commands := by
  obtain ⟨later, hlater, hall⟩ := h.log
  have hnone : later.filterMap Event.command = [] := by
    refine List.filterMap_eq_nil_iff.mpr fun event hevent => ?_
    cases event with
    | ran => exact absurd (hall _ hevent).1 (by simp [Event.collects])
    | _ => rfl
  rw [Site.commands, hlater, List.filterMap_append, hnone, List.append_nil]
  rfl

omit [FloatText φ] in
theorem preflightPytestCommand_leaves (hautomatic : target.environment ≠ "production") (step : Step) (argv : List String) :
    Leaves (host.preflightPytestCommand target step argv) s (fun _ t => Checked s t) fun _ t => Checked s t := by
  unfold Host.preflightPytestCommand
  split
  · refine Leaves.bind (P := fun _ m => m.log = s.log ∧ m.mutationStarted = s.mutationStarted) ⟨rfl, rfl⟩ ?_
    intro outcome m ⟨hlog, hflag⟩
    refine Leaves.bind (P := fun _ t => Checked s t) (E := fun _ t => Checked s t) ?_ ?_
    · refine ⟨hflag, [.collected target step (argv ++ ["--collect-only"])], by rw [← hlog], ?_⟩
      simpa [Event.collects, Event.target] using hautomatic
    intro _ t ht
    cases outcome with
    | notStarted error => exact ht
    | timedOut error => exact ht
    | undecodable error => exact ht
    | exited returncode stdout stderr =>
        dsimp only
        split
        · exact ht
        · exact ht
  · exact Checked.refl s

omit [FloatText φ] in
theorem preflightTarget_leaves (root : Path) (action : String) (target : Target) :
    Leaves (host.preflightTarget root action target) s (fun _ t => Checked s t) fun _ t => Checked s t := by
  unfold Host.preflightTarget
  split
  · exact Checked.refl s
  next hautomatic =>
  refine Leaves.bind (P := fun _ m => s = m) rfl ?_
  rintro _ _ rfl
  refine Leaves.bind (P := fun _ m => s = m) ?_ ?_
  · cases host.preflightCommands _ root action target with
    | ok commands => exact rfl
    | error e => exact Checked.refl s
  rintro commands _ rfl
  refine (Leaves.forM (I := fun _ t => Checked s t) (.refl s) ?_).mono (fun _ _ h => h) fun _ _ h => h
  intro done command rest t _ ht
  refine Leaves.bind (P := fun _ m => t = m) ?_ ?_
  · cases validateRuntimeArgv command.2 target.targetId command.1.name with
    | ok _ => exact rfl
    | error e => exact ht
  rintro _ _ rfl
  exact (preflightPytestCommand_leaves hautomatic command.1 command.2).mono (fun _ _ h => ht.trans h) fun _ _ h => ht.trans h

omit [FloatText φ] in
theorem preflight_leaves (root : Path) (change : Change) (config : Config) :
    Leaves (host.preflight root change config) s
      (fun targets t => Checked s t ∧ targetsForChange config change = .ok targets) fun _ t => Checked s t := by
  unfold Host.preflight
  refine Leaves.bind (P := fun targets m => s = m ∧ targetsForChange config change = .ok targets) ?_ ?_
  · cases targetsForChange config change with
    | ok targets => exact ⟨rfl, rfl⟩
    | error e => exact Checked.refl s
  rintro targets _ ⟨rfl, htargets⟩
  refine Leaves.bind (P := fun _ t => Checked s t) ?_ fun _ t ht => ⟨ht, htargets⟩
  refine Leaves.forM (I := fun _ t => Checked s t) (.refl s) ?_
  intro done target rest t _ ht
  exact (preflightTarget_leaves root _ target).mono (fun _ _ h => ht.trans h) fun _ _ h => ht.trans h

/-! ### The action -/

/-- The site before an action. -/
def Site.fresh (world : World) : Site := { world }

/-- Every target that is worked on has run its declared steps in order, and one whose interface has a protocol has answered
`verify` as ready at the version of the change. -/
def Completed (host : Host φ) (change : Change) (config : Config) (t : Site) : Prop :=
  ∃ targets, targetsForChange config change = .ok targets ∧ t.commands = declaredAll change.transition targets ∧
    ∀ target ∈ targets, target.environment ≠ "production" → 2 ≤ target.interfaceVersion → Verified host change target t

/-- An action from a fresh site: what it returns with, and what it raises with. -/
theorem execute_leaves (change : Change) (config : Config) (world : World) :
    Leaves (host.executePersistenceAction change config) (.fresh world)
      (fun result t => Since (fun event => event.target.environment ≠ "production") (.fresh world) t ∧
        (change.idle = true ∧ result.executed = false ∧ t.log = [] ∨
          change.idle = false ∧ result.executed = true ∧ Completed host change config t))
      fun e t => Since (fun event => event.target.environment ≠ "production") (.fresh world) t ∧
        ∀ error, e = .contract error → error.mutationStarted = some false → t.mutationStarted = false := by
  unfold Host.executePersistenceAction
  refine Leaves.bind (P := fun a m => a = Site.fresh world ∧ Site.fresh world = m) ⟨rfl, rfl⟩ ?_
  rintro _ _ ⟨rfl, rfl⟩
  refine Leaves.bind (P := fun _ m => Site.fresh world = m) ?_ ?_
  · cases resolve _ host.projectRoot with
    | ok root => exact rfl
    | error e => exact ⟨.refl _ _, fun _ _ _ => rfl⟩
  rintro root _ rfl
  split
  · next hidle => exact ⟨.refl _ _, .inl ⟨hidle, rfl, rfl⟩⟩
  next hidle =>
  refine Leaves.bind (P := fun targets m => Checked (.fresh world) m ∧ targetsForChange config change = .ok targets) ?_ ?_
  · refine Leaves.tryCatch_iff.mpr ((preflight_leaves root change config).mono (fun _ _ h => h) fun e t ht => ?_)
    cases e with
    | contract error => exact ⟨ht.since, fun _ _ _ => ht.flag⟩
    | other text => exact ⟨ht.since, fun _ h => nomatch h⟩
  intro targets m ⟨hm, htargets⟩
  refine Leaves.bind_iff.mpr ((runTargets_leaves (T := fun event => event.target.environment ≠ "production") fun _ _ h _ he => he ▸ h).mono ?_ ?_)
  · intro results t ⟨ht, hcommands, hverified⟩
    refine ⟨hm.since.trans ht, .inr ⟨by simpa using hidle, rfl, targets, htargets, ?_, hverified⟩⟩
    rw [hcommands, hm.commands]
    exact List.nil_append _
  · intro e t ⟨ht, htells⟩
    refine ⟨hm.since.trans ht, fun error herror hfalse => ?_⟩
    rw [htells error herror] at hfalse
    exact Option.some.inj hfalse

/-- What is attempted by an action. An error that says that nothing was started is true; a target that fails its checks
leaves all targets untouched; production is never touched; and an action that was executed has done all it declares. -/
theorem action_attempts (host : Host φ) (change : Change) (config : Config) (world : World) :
    (∀ error t, host.executePersistenceAction change config (.fresh world) = .error (.contract error) t →
      error.mutationStarted = some false → ∀ event ∈ t.log, event.changes = false) ∧
    (∀ root raised t, resolve world.files host.projectRoot = .ok root → change.idle = false →
      host.preflight root change config (.fresh world) = .error raised t →
        ∃ raised', host.executePersistenceAction change config (.fresh world) = .error raised' t ∧
          ∀ event ∈ t.log, event.collects = true) ∧
    Leaves (host.executePersistenceAction change config) (.fresh world)
      (fun _ t => ∀ event ∈ t.log, event.target.environment ≠ "production")
      (fun _ t => ∀ event ∈ t.log, event.target.environment ≠ "production") ∧
    ∀ result t, host.executePersistenceAction change config (.fresh world) = .ok result t →
      result.executed = !change.idle ∧ (result.executed = true → Completed host change config t) := by
  have hleaves := @execute_leaves φ _ host change config world
  have hpart : ∀ {t : Site}, Since (fun event => event.target.environment ≠ "production") (.fresh world) t →
      (∀ event ∈ t.log, event.target.environment ≠ "production") ∧
        (t.mutationStarted = false → ∀ event ∈ t.log, event.changes = false) := by
    intro t ht
    obtain ⟨later, hlater, hall, hquiet⟩ := ht.log
    rw [show t.log = later from hlater]
    exact ⟨hall, hquiet⟩
  refine ⟨?_, ?_, ?_, ?_⟩
  · intro error t hexec hfalse
    obtain ⟨hsince, htells⟩ := hleaves.of_error hexec
    exact (hpart hsince).2 (htells error rfl hfalse)
  · intro root raised t hroot hidle hpreflight
    have hraises : Leaves (host.executePersistenceAction change config) (.fresh world) (fun _ _ => False) fun _ u => u = t := by
      unfold Host.executePersistenceAction
      refine Leaves.bind (P := fun a m => a = Site.fresh world ∧ Site.fresh world = m) ⟨rfl, rfl⟩ ?_
      rintro _ _ ⟨rfl, rfl⟩
      refine Leaves.bind (P := fun found m => root = found ∧ Site.fresh world = m) ?_ ?_
      · rw [show resolve (Site.fresh world).world.files host.projectRoot = .ok root from hroot]
        exact ⟨rfl, rfl⟩
      rintro _ _ ⟨rfl, rfl⟩
      rw [if_neg (by simp [hidle])]
      refine Leaves.bind (P := fun _ _ => False) (Leaves.tryCatch_iff.mpr ?_) fun _ _ h => h.elim
      unfold Leaves
      rw [hpreflight]
      cases raised <;> rfl
    obtain ⟨raised', u, hexec, rfl⟩ := hraises.raises
    refine ⟨raised', hexec, fun event hevent => ?_⟩
    obtain ⟨later, hlater, hall⟩ := ((preflight_leaves root change config).of_error hpreflight).log
    rw [show u.log = later from hlater] at hevent
    exact (hall event hevent).1
  · exact hleaves.mono (fun _ _ h => (hpart h.1).1) fun _ _ h => (hpart h.1).1
  · intro result t hexec
    rcases (hleaves.of_ok hexec).2 with ⟨hidle, hexecuted, -⟩ | ⟨hidle, hexecuted, hcompleted⟩
    · exact ⟨by rw [hexecuted, hidle]; rfl, fun h => absurd (hexecuted.symm.trans h) (by simp)⟩
    · exact ⟨by rw [hexecuted, hidle]; rfl, fun _ => hcompleted⟩

/-! ### A task of the first version -/

/-- A project whose commands all answer that the target is ready. -/
def readyHost : Host Base.FloatLiteral where
  projectRoot := ["project"]
  environ _ := none
  ignored _ _ _ := true
  stuck _ _ := false
  command s _ := (.exited 0 "\x7b\"protocol_version\": 1, \"ok\": true, \"state\": \"ready\"\x7d" "", s.world)
  str _ := ""
  isOne _ := false

def localTarget : Target where
  targetId := "db"
  environment := "local"
  kind := "local_file"
  locator := [("path", "data.db")]
  interfaceVersion := 2
  statusArgv := ["tool", "status"]
  initializeArgv := ["tool", "init"]
  verifyArgv := ["tool", "verify"]

def initialSchema : Change := { strategy := some "initial_schema", targetIds := some ["db"] }

def projectWorld : World := ⟨⟨[(["project"], .directory), (["project", "data.db"], .file "rows" 0o644)]⟩, []⟩

/-- The action of an initial schema of the first version returns, and its target has run nothing. -/
theorem initial_schema_runs_nothing : ∃ result t,
    readyHost.executePersistenceAction initialSchema ⟨[localTarget]⟩ (.fresh projectWorld) = .ok result t ∧ t.log = [] ∧
      ¬ Completed readyHost initialSchema ⟨[localTarget]⟩ t := by
  refine ⟨_, _, rfl, rfl, ?_⟩
  rintro ⟨targets, htargets, hcommands, -⟩
  have hfound : targetsForChange ⟨[localTarget]⟩ initialSchema = .ok [localTarget] := rfl
  obtain rfl := Except.ok.inj (hfound.symm.trans htargets)
  exact absurd (congrArg List.length hcommands) (by decide)

end AutoAgents.Persistence
