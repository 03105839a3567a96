import AutoAgents.DeliveryRecovery
import AutoAgents.EngineLoose

/-! Cancellation and the project. The engine and the shared checkout change together: a delivery acts on
the checkout as soon as its operation is reserved, `resume` takes up the journal of every delivery whose
outcome is unknown, and the operator edits as he likes. -/

namespace AutoAgents

open Base
open Git (Commit)

/-! ### Cancellation of a work item -/

/-- A work item that is completed or cancelled keeps its status. -/
def terminalLaw : RowLaw where
  row _ := True
  later w w' := w.status.terminal = true → w'.status = w.status
  refl _ _ := rfl
  trans h h' hterminal := by
    have hstatus := h hterminal
    rw [← hstatus] at hterminal
    exact (h' hterminal).trans hstatus
  charge _ _ h := h
  charge_later _ _ _ := rfl
  charge_earlier _ _ _ := rfl

theorem terminalLaw_free (id : String) : terminalLaw.Free id := by
  intro w _ status changes _ hadmits
  refine ⟨trivial, fun hterminal => ?_⟩
  rcases hadmits with hsame | hedge
  · exact hsame
  · rw [Status.transitions_terminal hterminal] at hedge
    cases hedge

theorem terminalLaw_binds {w : Work} (h : w.status = .running) (identity : ContractId) (phase : Phase)
    (context : Context) : terminalLaw.later w (DB.bound identity (some phase) context w) := by
  intro hterminal
  rw [h] at hterminal
  cases hterminal

theorem terminalLaw_origin (origin : DB) : terminalLaw.Orderly ⟨origin, fun _ => none⟩ :=
  Pool.orderly_origin fun _ _ => trivial

theorem terminalLaw_after {cfg : Config} {s : Engine} (h : terminalLaw.Orderly s) (turn : Turn Move) :
    terminalLaw.Orderly (s.after (fun call db => call.exec db) (Move.begin cfg) turn) ∧
      terminalLaw.law.since s.now (s.after (fun call db => call.exec db) (Move.begin cfg) turn).now :=
  h.after (fun _ => trivial) terminalLaw_free (fun _ hrunning => terminalLaw_binds hrunning) turn

/-- A work item that runs before a transaction and after it. -/
def DB.Runs (db db' : DB) (id : String) : Prop :=
  (∃ w, db.works.find id = some w ∧ w.status = .running) ∧
    ∃ w, db'.works.find id = some w ∧ w.status = .running

/-- A new reservation is for a work item that is running, and stays so. -/
theorem DB.Reserves.runs {db db' : DB} {work : Work} {kind : Kind} {ordinal : Nat} {inputs : OperationInputs}
    {model : Bool} {provider : String} (h : db.Reserves db' work kind ordinal inputs model provider) :
    db.Runs db' work.id := by
  obtain ⟨node, hnode, -, hrunning, -⟩ := h.node
  obtain ⟨hfresh, rfl⟩ := h.writes
  refine ⟨⟨node, hnode, hrunning⟩, DB.chargeWork model node, ?_, hrunning⟩
  have hcharged := Table.find_modify_self db.works work.id (DB.chargeWork model) (DB.chargeWork_id model)
  rw [hnode] at hcharged
  exact hcharged

/-- The operations after a call were there before it, or one is reserved for a running work item. -/
theorem Call.exec_operations {call : Call} {db db' : DB} (h : call.exec db = .ok db') {op' : Operation}
    (hop : op' ∈ db'.operations.rows) :
    (∃ op ∈ db.operations.rows, op.Later op') ∨ db.Runs db' op'.work := by
  rcases Call.exec_ok h with ⟨work, kind, ordinal, inputs, model, provider, -, hnew⟩ | hwrote
  · obtain ⟨hfresh, hdb⟩ := hnew.writes
    have hgrown := DB.charged_operations work (DB.reserved work kind ordinal inputs model provider) hfresh
    rw [← hdb] at hgrown
    rcases hgrown.mem hop with ⟨op, hold, -, rfl⟩ | rfl
    · exact Or.inl ⟨op, hold, Operation.Later.refl op⟩
    · exact Or.inr hnew.runs
  · rcases hwrote.operations.mem hop with ⟨op, hold, -, hmoves⟩ | hnever
    · exact Or.inl ⟨op, hold, hmoves.later⟩
    · exact absurd hnever id

/-- The same for a turn of the engine. -/
theorem after_operations {cfg : Config} {s : Engine} {turn : Turn Move} {op' : Operation}
    (hop : op' ∈ (s.after (fun call db => call.exec db) (Move.begin cfg) turn).now.operations.rows) :
    (∃ op ∈ s.now.operations.rows, op.Later op') ∨
      s.now.Runs (s.after (fun call db => call.exec db) (Move.begin cfg) turn).now op'.work := by
  have hturn := @Pool.after_now _ _ _ _ _ (fun call db => Call.exec db call) (Move.begin cfg) s turn
  rcases hturn with hsame | ⟨i, thread, call, rest, -, -, -, hexec⟩
  · rw [hsame] at hop
    exact Or.inl ⟨op', hop, Operation.Later.refl op'⟩
  · exact Call.exec_operations hexec hop

/-! ### What a delivery does to the checkout -/

/-- The effects of `deliver`: it keeps its journal, and then does what `finish_delivery` does with it. -/
def deliverEffects (tool : Tool) (s : Shared) (base : SourceRecord) (deliveryHead : Option Commit)
    (note : String) (candidate : Candidate) : Except ControlError (List Effect) :=
  match s.journal with
  | some j => finishEffects tool s j
  | none =>
    if candidate.paths = [] then .ok []
    else do
      let j ← admitDelivery tool s base deliveryHead note candidate
      .ok (.journal j :: (finishEffects tool { s with journal := some j } j).toOption.getD [])

theorem finishDelivery_effects {tool : Tool} {s final : Shared} {j : Journal} {delivery : Delivery}
    (h : finishDelivery tool s j = .ok (final, delivery)) :
    ∃ effects, finishEffects tool s j = .ok effects ∧ Effect.run s effects = some final := by
  unfold finishDelivery at h
  obtain ⟨effects, heffects, h⟩ := bind_ok.mp h
  split at h
  · next reached hrun =>
      cases h
      exact ⟨effects, heffects, hrun⟩
  · cases h

/-- A delivery that returns has done all of its effects. -/
theorem deliver_effects {tool : Tool} {s final : Shared} {base : SourceRecord} {deliveryHead : Option Commit}
    {note : String} {candidate : Candidate} {delivery : Delivery}
    (h : deliver tool s base deliveryHead note candidate = .ok (final, delivery)) :
    ∃ effects, deliverEffects tool s base deliveryHead note candidate = .ok effects ∧
      Effect.run s effects = some final := by
  unfold deliver at h
  unfold deliverEffects
  cases hjournal : s.journal with
  | some j =>
      rw [hjournal] at h
      exact finishDelivery_effects h
  | none =>
      rw [hjournal] at h
      dsimp only at h ⊢
      split at h
      · next hempty =>
          cases h
          exact ⟨[], if_pos hempty, rfl⟩
      · next hpaths =>
          obtain ⟨j, hallowed, h⟩ := bind_ok.mp h
          obtain ⟨effects, heffects, hrun⟩ := finishDelivery_effects h
          refine ⟨.journal j :: effects, ?_, ?_⟩
          · rw [if_neg hpaths, hallowed]
            simp only [bind, Except.bind, heffects, Except.toOption, Option.getD_some]
          · rw [Effect.run_cons]
            exact hrun

/-! ### The project -/

/-- The engine, the shared checkout, and the journals of the deliveries. -/
structure Site where
  engine : Engine
  checkout : Shared
  journals : OperationId → Option Journal

inductive SiteMove
  /-- A turn of the engine. -/
  | turn (turn : Turn Move)
  /-- The delivery of a new operation, stopped after some of its effects. -/
  | deliver (thread : Nat) (work : Work) (ordinal : Nat) (base : SourceRecord) (deliveryHead : Option Commit)
      (note : String) (candidate : Candidate) (effects : Nat)
  /-- A delivery that `resume` takes up, stopped after some of its effects. -/
  | recover (op : Operation) (effects : Nat)
  /-- An edit of the operator. -/
  | edit (checkout : Shared)

/-- The work item whose candidate a move puts into the checkout. -/
def SiteMove.owner : SiteMove → Option String
  | deliver _ work .. => some work.id
  | recover op _ => some op.work
  | _ => none

namespace Site

def store (s : Site) : DB := s.engine.now

def after (cfg : Config) (s : Site) (turn : Turn Move) : Engine :=
  s.engine.after (fun call db => call.exec db) (Move.begin cfg) turn

/-- The checkout, with the journal of one delivery. -/
def delivering (s : Site) (id : OperationId) : Shared := { s.checkout with journal := s.journals id }

/-- The project once a delivery has come so far. -/
def reached (s : Site) (engine : Engine) (id : OperationId) (checkout : Shared) : Site where
  engine
  checkout
  journals := Function.update s.journals id checkout.journal

/-- What may happen next. The lock of the project is held from the reservation of a delivery until its
effects have stopped, so that no other command acts between the two. -/
def Step (cfg : Config) (tool : Tool) (s : Site) : SiteMove → Site → Prop
  | .turn turn, t => t = { s with engine := s.after cfg turn }
  | .deliver i work ordinal base deliveryHead note candidate k, t =>
      ∃ tag inputs rest effects checkout,
        s.engine.threads i = some ⟨tag, .send (.reserve work .deliver ordinal inputs false "") rest⟩ ∧
        (∃ db, s.store.reserve work .deliver ordinal inputs false "" = .ok (db, true)) ∧
        deliverEffects tool (s.delivering (.uuid5 work.id .deliver ordinal)) base deliveryHead note candidate =
          .ok effects ∧
        Effect.run (s.delivering (.uuid5 work.id .deliver ordinal)) (effects.take k) = some checkout ∧
        t = s.reached (s.after cfg (.go i)) (.uuid5 work.id .deliver ordinal) checkout
  | .recover op k, t =>
      s.store.operations.find op.id = some op ∧ op.kind = .deliver ∧ op.state = .unknown ∧
        ∃ j effects checkout, s.journals op.id = some j ∧
          finishEffects tool (s.delivering op.id) j = .ok effects ∧
          Effect.run (s.delivering op.id) (effects.take k) = some checkout ∧
          t = s.reached s.engine op.id checkout
  | .edit checkout, t => t = { s with checkout }

/-- A work item none of whose deliveries is under way: reserved or unknown, with its journal written. -/
def Settled (s : Site) (id : String) : Prop :=
  ∀ op ∈ s.store.operations.rows, op.work = id → op.state.unresolved = true → s.journals op.id = none

def Cancelled (s : Site) (id : String) : Prop :=
  ∃ w, s.store.works.find id = some w ∧ w.status = .cancelled

end Site

/-- The project, from a store on which no thread is at work and no delivery has begun. -/
def siteSystem (cfg : Config) (tool : Tool) (origin : DB) : System Site SiteMove where
  start s := s.engine = ⟨origin, fun _ => none⟩ ∧ ∀ id, s.journals id = none
  step s move t := s.Step cfg tool move t

/-- A work item is cancelled only while none of its deliveries is under way. -/
def CancelsSettled (s : Site) (_ : SiteMove) (t : Site) : Prop :=
  ∀ id, t.Cancelled id → ¬ s.Cancelled id → s.Settled id

/-- A transition that leaves a cancelled work item alone: it stays cancelled, nothing is reserved for it,
and the branch, the index and the files do not change on its behalf. -/
structure Spared (id : String) (e : Taken Site SiteMove) : Prop where
  status : e.after.Cancelled id
  operations : ∀ op ∈ e.after.store.operations.rows, op.work = id →
    ∃ old ∈ e.before.store.operations.rows, old.id = op.id
  project : e.label.owner = some id → e.after.checkout.ref = e.before.checkout.ref ∧
    e.after.checkout.index = e.before.checkout.index ∧ e.after.checkout.files = e.before.checkout.files

section

variable {cfg : Config} {tool : Tool} {origin : DB} {s t : Site} {move : SiteMove} {id : String}

theorem Site.Cancelled.not_runs {db : DB} (h : s.Cancelled id) : ¬ s.store.Runs db id := by
  rintro ⟨⟨w, hw, hrunning⟩, -⟩
  obtain ⟨w', hw', hcancelled⟩ := h
  rw [Option.some.inj (hw'.symm.trans hw), hrunning] at hcancelled
  cases hcancelled

theorem Site.Cancelled.not_runs_after {db : DB} (h : s.Cancelled id) : ¬ db.Runs s.store id := by
  rintro ⟨-, w, hw, hrunning⟩
  obtain ⟨w', hw', hcancelled⟩ := h
  rw [Option.some.inj (hw'.symm.trans hw), hrunning] at hcancelled
  cases hcancelled

namespace Site.Step

/-- A transition of the project takes at most one turn of the engine. -/
theorem engine (h : s.Step cfg tool move t) : t.engine = s.engine ∨ ∃ turn, t.engine = s.after cfg turn := by
  cases move with
  | turn turn =>
      cases h
      exact Or.inr ⟨turn, rfl⟩
  | deliver i =>
      obtain ⟨-, -, -, -, -, -, -, -, -, rfl⟩ := h
      exact Or.inr ⟨.go i, rfl⟩
  | recover op =>
      obtain ⟨-, -, -, -, -, -, -, -, -, rfl⟩ := h
      exact Or.inl rfl
  | edit =>
      cases h
      exact Or.inl rfl

/-- The engine stays orderly, and a cancelled work item stays cancelled. -/
theorem orderly (h : s.Step cfg tool move t) (hs : terminalLaw.Orderly s.engine) :
    terminalLaw.Orderly t.engine ∧ terminalLaw.law.since s.store t.store := by
  rcases h.engine with hsame | ⟨turn, hturn⟩
  · rw [Site.store, Site.store, hsame]
    exact ⟨hs, terminalLaw.law.refl _⟩
  · rw [Site.store, Site.store, hturn]
    exact terminalLaw_after hs turn

theorem cancelled (h : s.Step cfg tool move t) (hs : terminalLaw.Orderly s.engine) (hid : s.Cancelled id) :
    t.Cancelled id := by
  obtain ⟨w, hw, hcancelled⟩ := hid
  obtain ⟨w', hw', -, hlater⟩ := (h.orderly hs).2 id w hw
  refine ⟨w', hw', ?_⟩
  rw [hlater (by rw [hcancelled]; rfl), hcancelled]

/-- An operation after a transition was there before it, or is reserved for a running work item. -/
theorem operations (h : s.Step cfg tool move t) {op' : Operation} (hop : op' ∈ t.store.operations.rows) :
    (∃ op ∈ s.store.operations.rows, op.Later op') ∨ s.store.Runs t.store op'.work := by
  rcases h.engine with hsame | ⟨turn, hturn⟩
  · rw [Site.store, hsame] at hop
    exact Or.inl ⟨op', hop, Operation.Later.refl op'⟩
  · have hstore : t.store = (s.after cfg turn).now := congrArg Pool.now hturn
    rw [hstore] at hop ⊢
    exact after_operations hop

/-- A delivery starts with a new operation, for a work item that runs before and after. -/
theorem delivers {i ordinal k : Nat} {work : Work} {base : SourceRecord} {deliveryHead : Option Commit}
    {note : String} {candidate : Candidate}
    (h : s.Step cfg tool (.deliver i work ordinal base deliveryHead note candidate k) t) :
    s.store.operations.find (.uuid5 work.id .deliver ordinal) = none ∧ s.store.Runs t.store work.id := by
  obtain ⟨tag, inputs, rest, effects, checkout, hthread, ⟨db, hreserve⟩, -, -, rfl⟩ := h
  have hexec : (Call.reserve work .deliver ordinal inputs false "").exec s.engine.now = .ok db := by
    simp only [Call.exec]
    exact congrArg (fun answer => answer.map Prod.fst) hreserve
  have hnow : (s.after cfg (.go i)).now = db := by
    simp only [Site.after, Pool.after, hthread, Prog.turn, hexec]
  have hnew := DB.reserve_new hreserve
  obtain ⟨hfresh, -⟩ := hnew.writes
  refine ⟨hfresh, ?_⟩
  show s.store.Runs (s.after cfg (.go i)).now work.id
  rw [hnow]
  exact hnew.runs

/-- An operation that has no journal is given one only as it is reserved. -/
theorem journals (h : s.Step cfg tool move t) {op : Operation} (hop : op ∈ s.store.operations.rows)
    (hnone : s.journals op.id = none) : t.journals op.id = none := by
  cases move with
  | turn | edit =>
      cases h
      exact hnone
  | deliver i work ordinal base deliveryHead note candidate k =>
      have hne : op.id ≠ .uuid5 work.id .deliver ordinal := by
        intro hsame
        have hfree := h.delivers.1
        rw [← hsame, Table.find_of_mem hop] at hfree
        cases hfree
      obtain ⟨-, -, -, -, checkout, -, -, -, -, rfl⟩ := h
      exact (Function.update_of_ne hne _ _).trans hnone
  | recover found k =>
      obtain ⟨-, -, -, j, -, checkout, hjournal, -, -, rfl⟩ := h
      have hne : op.id ≠ found.id := by
        intro hsame
        rw [hsame, hjournal] at hnone
        cases hnone
      exact (Function.update_of_ne hne _ _).trans hnone

/-- A cancelled work item none of whose deliveries is under way stays so. -/
theorem settled (h : s.Step cfg tool move t) (hid : t.Cancelled id) (hs : s.Settled id) : t.Settled id := by
  intro op' hop hwork hopen
  rcases h.operations hop with ⟨op, hold, hlater⟩ | hruns
  · have hunresolved : op.state.unresolved = true := by
      by_contra hsettled
      have hstate : op.state.settled = true := by
        rw [OperationState.settled_eq_not_unresolved]
        simpa using hsettled
      rw [hlater.state hstate] at hopen
      exact hsettled hopen
    rw [hlater.kept.id]
    exact h.journals hold (hs op hold (hlater.kept.work.symm.trans hwork) hunresolved)
  · rw [hwork] at hruns
    exact absurd hruns hid.not_runs_after

/-- A transition leaves a cancelled work item alone, where none of its deliveries is under way. -/
theorem spared (h : s.Step cfg tool move t) (hs : terminalLaw.Orderly s.engine) (hid : s.Cancelled id)
    (hsettled : s.Settled id) : Spared id ⟨s, move, t⟩ where
  status := h.cancelled hs hid
  operations op' hop hwork := by
    rcases h.operations hop with ⟨op, hold, hlater⟩ | hruns
    · exact ⟨op, hold, hlater.kept.id.symm⟩
    · rw [hwork] at hruns
      exact absurd hruns hid.not_runs
  project howner := by
    cases move with
    | turn | edit => cases howner
    | deliver i work ordinal base deliveryHead note candidate k =>
        cases howner
        exact absurd h.delivers.2 hid.not_runs
    | recover op k =>
        cases howner
        obtain ⟨hfind, -, hunknown, j, effects, checkout, hjournal, -⟩ := h
        have hnone := hsettled op (Table.find_some hfind).1 rfl (by rw [hunknown]; rfl)
        rw [hjournal] at hnone
        cases hnone

/-- A resume may finish an unknown delivery. -/
theorem recovered {op : Operation} {j : Journal} {final : Shared} {delivery : Delivery}
    (hfind : s.store.operations.find op.id = some op) (hkind : op.kind = .deliver) (hstate : op.state = .unknown)
    (hjournal : s.journals op.id = some j)
    (h : finishDelivery tool (s.delivering op.id) j = .ok (final, delivery)) :
    ∃ k, s.Step cfg tool (.recover op k) (s.reached s.engine op.id final) := by
  obtain ⟨effects, heffects, hrun⟩ := finishDelivery_effects h
  refine ⟨effects.length, hfind, hkind, hstate, j, effects, final, hjournal, heffects, ?_, rfl⟩
  rw [List.take_length]
  exact hrun

end Site.Step

/-- What holds of the project while no work item is cancelled in the middle of a delivery. -/
structure Site.Sound (s : Site) : Prop where
  orderly : terminalLaw.Orderly s.engine
  settled : ∀ id, s.Cancelled id → s.Settled id

theorem Site.Sound.next (hs : s.Sound) (hcancels : CancelsSettled s move t) (h : s.Step cfg tool move t) :
    t.Sound where
  orderly := (h.orderly hs.orderly).1
  settled id hid := by
    by_cases hold : s.Cancelled id
    · exact h.settled hid (hs.settled id hold)
    · exact h.settled hid (hcancels id hid hold)

theorem siteSystem_sound (h : (siteSystem cfg tool origin).start s) : s.Sound where
  orderly := by
    rw [h.1]
    exact terminalLaw_origin origin
  settled _ _ op _ _ _ := h.2 op.id

/-- **Cancellation is final while no delivery is under way.** In every run in which a work item is cancelled
only while none of its deliveries is under way: once a work item is cancelled, every later transition
leaves it cancelled, reserves nothing for it, and does not change the branch, the index or the files on
its behalf. Conversely, where the delivery of a cancelled work item is unknown, and its journal can still
be finished and would change the project, a resume does change it on behalf of that work item. -/
theorem cancellation_final_iff (cfg : Config) (tool : Tool) (origin : DB) :
    (∀ (trace later : List (Taken Site SiteMove)) (s t : Site), (siteSystem cfg tool origin).Run trace s →
      ((siteSystem cfg tool origin).beyond s).Run later t → System.Meets CancelsSettled (trace ++ later) →
      ∀ id, s.Cancelled id → ∀ e ∈ later, Spared id e) ∧
    ∀ (s : Site) (op : Operation) (j : Journal) (final : Shared) (delivery : Delivery),
      s.Cancelled op.work → s.store.operations.find op.id = some op → op.kind = .deliver →
      op.state = .unknown → s.journals op.id = some j →
      finishDelivery tool (s.delivering op.id) j = .ok (final, delivery) →
      (final.ref ≠ s.checkout.ref ∨ final.index ≠ s.checkout.index ∨ final.files ≠ s.checkout.files) →
      ∃ move t, (siteSystem cfg tool origin).step s move t ∧ ¬ Spared op.work ⟨s, move, t⟩ := by
  refine ⟨fun trace later s t hrun hlater hmeets id hid e he => ?_, ?_⟩
  · have hsound : s.Sound := hrun.invariant_of_meets (fun _ => siteSystem_sound)
      (fun _ _ _ hs hcancels hstep => hs.next hcancels hstep) hmeets.of_append_left
    have hmeetsLater : System.Meets CancelsSettled later :=
      fun e he => hmeets e (List.mem_append_right trace he)
    obtain ⟨⟨hbefore, hcancelled⟩, hstep⟩ := hlater.before_of_meets (I := fun u => u.Sound ∧ u.Cancelled id)
      (fun u hu => hu ▸ ⟨hsound, hid⟩)
      (fun u move v hu hcancels (hstep : u.Step cfg tool move v) =>
        ⟨hu.1.next hcancels hstep, hstep.cancelled hu.1.orderly hu.2⟩)
      hmeetsLater he
    exact Site.Step.spared hstep hbefore.orderly hcancelled (hbefore.settled id hcancelled)
  · intro s op j final delivery _ hfind hkind hstate hjournal hfinish hchanged
    obtain ⟨k, hstep⟩ : ∃ k, s.Step cfg tool (.recover op k) (s.reached s.engine op.id final) :=
      Site.Step.recovered hfind hkind hstate hjournal hfinish
    refine ⟨.recover op k, s.reached s.engine op.id final, hstep, fun hspared => ?_⟩
    obtain ⟨href, hindex, hfiles⟩ := hspared.project rfl
    rcases hchanged with hne | hne | hne
    · exact hne href
    · exact hne hindex
    · exact hne hfiles

end

/-! ### A delivery that is interrupted -/

theorem site_step {cfg : Config} {tool : Tool} {origin : DB} {u s t : Site} {move : SiteMove}
    {later : List (Taken Site SiteMove)} (h : ((siteSystem cfg tool origin).beyond u).Run later s)
    (hstep : s.Step cfg tool move t) :
    ((siteSystem cfg tool origin).beyond u).Run (later ++ [⟨s, move, t⟩]) t := h.step hstep

/-- The engine takes turns, and nothing else happens. -/
theorem site_turns {cfg : Config} {tool : Tool} {origin : DB} {u s : Site} {later : List (Taken Site SiteMove)}
    (h : ((siteSystem cfg tool origin).beyond u).Run later s) (turns : List (Turn Move)) :
    ∃ more, ((siteSystem cfg tool origin).beyond u).Run (later ++ more)
        { s with engine := s.engine.replay (fun call db => call.exec db) (Move.begin cfg) turns } ∧
      ∀ e ∈ more, e.before.journals = s.journals := by
  induction turns generalizing later s with
  | nil => exact ⟨[], by rwa [List.append_nil], fun e he => absurd he List.not_mem_nil⟩
  | cons turn turns ih =>
      have hstep : s.Step cfg tool (.turn turn) { s with engine := s.after cfg turn } := rfl
      obtain ⟨more, hmore, hjournals⟩ := ih (site_step h hstep)
      rw [List.append_assoc] at hmore
      refine ⟨_, hmore, fun e he => ?_⟩
      rcases List.mem_cons.mp he with rfl | hrest
      · rfl
      · exact hjournals e hrest

/-- Where no delivery has begun, a work item may be cancelled. -/
theorem cancelsSettled_of_none {trace : List (Taken Site SiteMove)}
    (h : ∀ e ∈ trace, e.before.journals = fun _ => none) : System.Meets CancelsSettled trace := by
  intro e he id _ _ op _ _ _
  rw [h e he]

/-- The candidate of a fix that adds one file. -/
def addedNote : Candidate := newFile ["docs", "note.md"] ⟨.regular, [110]⟩

def addedJournal : Journal := newFileJournal ["docs", "note.md"] ⟨.regular, [110]⟩

def addedOperation : OperationId := .uuid5 "root" .deliver 0

/-- The fix runs until its delivery is about to be reserved. -/
def reservingTurns : List (Turn Move) :=
  deliveringTurns addedNote ["docs"] ++
    [.begin 0 (.ledger
      (.reserve { runningRoot .fix with revision := 11 } .deliver 0 (.deliver addedNote) false ""))]

/-- The fix is cancelled. -/
def cancellingTurns : List (Turn Move) := [.begin 0 (.cancel "root"), .go 0, .go 0]

/-- Another fix is started, and resumed. -/
def resumingTurns : List (Turn Move) :=
  [.begin 0 (.ledger .orphanCalls), .go 0,
    .begin 0 (.start "next" "second" .fix "goal" (.initial ∅ "snapshot") {} {} "pytest tests/a.py" none 30), .go 0,
    .begin 0 (.resume "second" none [(addedOperation, ⟨addedJournal.revision, addedJournal.paths⟩)])]

def Site.turned (s : Site) (turns : List (Turn Move)) : Site :=
  { s with engine := s.engine.replay (fun call db => call.exec db) (Move.begin {}) turns }

def siteOrigin : Site := ⟨engineOrigin, emptyCheckout, fun _ => none⟩

def siteBefore : Site := siteOrigin.turned reservingTurns

/-- The delivery is reserved, and stopped once its journal is written. -/
def siteStopped : Site where
  engine := siteBefore.after {} (.go 0)
  checkout := { emptyCheckout with journal := some addedJournal }
  journals := Function.update (fun _ => none) addedOperation (some addedJournal)

def siteCancelled : Site := siteStopped.turned cancellingTurns

def siteResuming : Site := siteCancelled.turned resumingTurns

set_option maxRecDepth 20000 in
theorem siteBefore_delivers : siteBefore.Step {} plainTool
    (.deliver 0 { runningRoot .fix with revision := 11 } 0 emptySource none "fix" addedNote 1) siteStopped :=
  ⟨none, .deliver addedNote, .pure (), _, _, rfl, ⟨_, rfl⟩, rfl, rfl, rfl⟩

set_option maxRecDepth 20000 in
theorem siteCancelled_cancelled : siteCancelled.Cancelled "root" := ⟨_, rfl, rfl⟩

set_option maxRecDepth 20000 in
theorem siteResuming_recovers : ∃ op final delivery, siteResuming.store.operations.find op.id = some op ∧
    op.kind = .deliver ∧ op.state = .unknown ∧ op.work = "root" ∧
    siteResuming.journals op.id = some addedJournal ∧
    finishDelivery plainTool (siteResuming.delivering op.id) addedJournal = .ok (final, delivery) ∧
    final.ref = addedJournal.revision :=
  ⟨{ id := addedOperation, work := "root", kind := .deliver, ordinal := 0, inputHash := .deliver addedNote,
     inputs := some (.deliver addedNote), model := false, state := .unknown,
     result := some (.error ⟨"mutation_interrupted", "Reconcile a local mutation before continuing",
       .reconciliation⟩) }, _, _, rfl, rfl, rfl, rfl, rfl, rfl, rfl⟩

theorem siteCancelled_run : ∃ trace, (siteSystem {} plainTool .empty).Run trace siteCancelled := by
  have hstart : (siteSystem {} plainTool .empty).Run [] siteOrigin := System.Run.start ⟨rfl, fun _ => rfl⟩
  obtain ⟨first, hbefore, -⟩ := site_turns (System.Run.start (rfl : siteOrigin = siteOrigin)) reservingTurns
  obtain ⟨second, hcancelled, -⟩ := site_turns (site_step hbefore siteBefore_delivers) cancellingTurns
  exact ⟨_, hstart.append hcancelled⟩

/-- A fix is started and cancelled. -/
def siteGivenUp : Site :=
  siteOrigin.turned
    [.begin 0 (.start "flow" "root" .fix "goal" (.initial ∅ "snapshot") {} {} "pytest tests/a.py" none 30), .go 0,
      .begin 0 (.cancel "root"), .go 0, .go 0]

theorem cancellation_final_iff_givenUp : siteGivenUp.Cancelled "root" ∧
    ∃ later t, ((siteSystem {} plainTool .empty).beyond siteGivenUp).Run later t ∧
      (∃ w, t.store.works.find "second" = some w) ∧ ∀ e ∈ later, Spared "root" e := by
  have hcancelled : siteGivenUp.Cancelled "root" := ⟨_, rfl, rfl⟩
  have hstart : (siteSystem {} plainTool .empty).Run [] siteOrigin := .start ⟨rfl, fun _ => rfl⟩
  obtain ⟨first, hfirst, hnone⟩ := site_turns (System.Run.start (rfl : siteOrigin = siteOrigin))
    [.begin 0 (.start "flow" "root" .fix "goal" (.initial ∅ "snapshot") {} {} "pytest tests/a.py" none 30), .go 0,
      .begin 0 (.cancel "root"), .go 0, .go 0]
  have hbeyond : ((siteSystem {} plainTool .empty).beyond siteGivenUp).Run [] siteGivenUp := .start rfl
  obtain ⟨later, hlater, hnone'⟩ := site_turns hbeyond resumingTurns
  refine ⟨hcancelled, later, siteGivenUp.turned resumingTurns, hlater, ⟨_, rfl⟩, ?_⟩
  have hmeets : System.Meets CancelsSettled (([] ++ ([] ++ first)) ++ ([] ++ later)) := by
    refine cancelsSettled_of_none fun e he => ?_
    rcases List.mem_append.mp he with hold | hnew
    · exact hnone e hold
    · exact hnone' e hnew
  exact (cancellation_final_iff {} plainTool .empty).1 _ _ _ _ (hstart.append hfirst) hlater hmeets "root" hcancelled

/-- A delivery of a fix is stopped once its journal is written, and the fix is cancelled: the resume of
another fix then moves the branch to the commit of the cancelled one. -/
theorem cancelled_delivery_resumed :
    ¬ ∀ (cfg : Config) (tool : Tool) (origin : DB) (trace later : List (Taken Site SiteMove)) (s t : Site),
      (siteSystem cfg tool origin).Run trace s → ((siteSystem cfg tool origin).beyond s).Run later t →
        ∀ id, s.Cancelled id → ∀ e ∈ later, Spared id e := by
  intro hclaim
  obtain ⟨trace, hrun⟩ := siteCancelled_run
  obtain ⟨op, final, delivery, hfind, hkind, hstate, hwork, hjournal, hfinish, href⟩ := siteResuming_recovers
  obtain ⟨k, hstep⟩ : ∃ k, siteResuming.Step {} plainTool (.recover op k)
      (siteResuming.reached siteResuming.engine op.id final) :=
    Site.Step.recovered hfind hkind hstate hjournal hfinish
  have hstart : ((siteSystem {} plainTool .empty).beyond siteCancelled).Run [] siteCancelled := .start rfl
  obtain ⟨turns, hturns, -⟩ := site_turns hstart resumingTurns
  have hspared := hclaim {} plainTool .empty trace _ siteCancelled _ hrun (site_step hturns hstep) "root"
    siteCancelled_cancelled _ (List.mem_append_right _ (List.mem_singleton.mpr rfl))
  have hsame : final.ref = emptyCheckout.ref := (hspared.project (congrArg some hwork)).1
  rw [href] at hsame
  exact absurd hsame (by decide)

end AutoAgents
