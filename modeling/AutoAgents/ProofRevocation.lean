import AutoAgents.ProofLedger
import AutoAgents.ProofReuse

/-! What the ledger returns without a run. A proof that is taken up was recorded by a call for the same command,
metadata, environment and scope, whose run left the source as it was; and it was recorded after the last revocation. A
revocation writes twice, and a call looks for its marker long before it returns, so this holds of the runs in which no
certificate comes between the two writes, and none is returned over a revocation. -/

namespace AutoAgents.Proofs.Certificates

open Base
open Base.System
open Verification (stripLower)

variable {reader : Reader}

/-- The digests differ from each other, and are no empty texts. -/
structure Digests (sha256 : String → String) : Prop where
  injective : Function.Injective sha256
  filled : ∀ text, sha256 text ≠ ""

/-! ### What digests are made of -/

theorem dumpsList_pair {a b a' b' : String} (h : dumpsList [a, b] = dumpsList [a', b']) : a = a' ∧ b = b' := by
  have htext := String.ofList_injective h
  simp only [List.map_cons, List.map_nil, List.intercalate, List.intersperse_cons_cons, List.intersperse_singleton, List.flatten_cons,
    List.flatten_nil, List.append_nil, List.append_assoc, List.cons_append, List.nil_append, List.cons.injEq, true_and] at htext
  obtain ⟨ha, hrest⟩ := encodeString_append htext
  simp only [List.cons.injEq, true_and] at hrest
  obtain ⟨hb, -⟩ := encodeString_append hrest
  exact ⟨String.toList_injective ha, String.toList_injective hb⟩

theorem Ledger.directory_injective (hd : Digests reader.sha256) {l l' : Ledger} (h : l.directory reader = l'.directory reader) :
    l.scope = l'.scope ∧ l.repository = l'.repository :=
  dumpsList_pair (hd.injective h)

theorem Flight.metadata_injective (hd : Digests reader.sha256) {f f' : Flight} (h : f.metadata reader = f'.metadata reader) :
    f.args.metadata = f'.args.metadata := by
  have htext := String.ofList_injective (hd.injective h)
  simp only [List.intercalate, List.intersperse_cons_cons, List.intersperse_singleton, List.flatten_cons, List.flatten_nil,
    List.append_nil, List.append_assoc, List.cons_append, List.nil_append, List.cons.injEq, true_and, List.append_cancel_left_eq] at htext
  exact String.toList_injective (encodeString_append htext).1

theorem Ledger.contextFingerprint_filled (hd : Digests reader.sha256) (l : Ledger) : l.contextFingerprint reader ≠ "" := by
  unfold Ledger.contextFingerprint
  split
  · assumption
  · exact hd.filled _

/-! ### What a lookup finds -/

section

variable {cache : Cache} {moment : Moment} {request : Request} {db : Database}

theorem lookupExact_hit {payload : Certificate} {hit : CommandResult}
    (h : (lookupExact reader cache moment request payload).result = some hit) : hit = certificateResult request.command payload := by
  unfold lookupExact at h
  simp only at h
  split at h
  · cases h
  · cases h
  split at h
  · cases h
  · exact (Option.some.inj h).symm

theorem lookupObserved_hit {hit : CommandResult} (h : (lookupObserved reader cache moment db request).result = some hit) :
    permitsObserved request.resultCacheScope = true ∧ ∃ row certificate matched,
      (row, certificate) ∈ candidateRows cache moment db (requestIdentity reader cache moment request) ∧
      hit = { certificateResult request.command certificate.resultPayload with backend := observedBackend } ∧
      moment.machine.Kept matched ∧ cacheMatches reader cache matched row.observedInputs = .ok true := by
  unfold lookupObserved at h
  split at h
  · cases h
  next hpermits =>
  simp only at h
  split at h
  · cases h
  · next m payload hfound =>
      obtain ⟨row, certificate, matched, hmem, rfl, hmatches, htaken⟩ := tryCandidates_some (.refl _) hfound
      exact ⟨by simpa using hpermits, row, certificate, matched, hmem, (Option.some.inj h).symm, htaken.before, hmatches⟩
  · cases h

/-- What the record of a hit has in common with the request. -/
structure SameIdentity (cache : Cache) (request : Request) (cache' : Cache) (request' : Request) : Prop where
  command : strippedCommand request'.command = strippedCommand request.command
  environment : cache'.environmentFingerprint = cache.environmentFingerprint
  metadata : request'.metadataSignature = request.metadataSignature

theorem sameIdentity_of_key (hd : Digests reader.sha256) {cache' : Cache} {moment' : Moment} {request' : Request}
    (h : requestIdentity reader cache' moment' request' = requestIdentity reader cache moment request) :
    SameIdentity cache request cache' request' := by
  obtain ⟨hcommand, henvironment, -, hmetadata⟩ := identityKey_injective hd.injective h
  exact ⟨hcommand, henvironment, hmetadata⟩

/-- A hit is the certificate of a record: by its key, or by the observed inputs. -/
theorem backed_hit (hd : Digests reader.sha256) {calls : List Call} (hbacked : Backed reader calls db) {hit : CommandResult}
    (h : (lookupWithReason reader cache moment db request).result = some hit) :
    ∃ cache' moment' request' result, Recorded reader calls cache' moment' request' result ∧
      SameIdentity cache request cache' request' ∧
      (hit = certificateResult request.command (certificateOf cache' moment' result) ∧
          request'.sourceFingerprint = request.sourceFingerprint ∧ contextOf cache' request' = contextOf cache request ∧
          (result.observedInputs ≠ [] → cacheMatches reader cache moment.machine result.observedInputs = .ok true) ∨
        permitsObserved request.resultCacheScope = true ∧ result.inputTraceComplete = true ∧
          hit = { certificateResult request.command (certificateOf cache' moment' result) with backend := observedBackend } ∧
          ∃ matched, moment.machine.Kept matched ∧ cacheMatches reader cache matched result.observedInputs = .ok true) := by
  rcases lookupWithReason_some h with ⟨row, hrow, hkey, -, heq⟩ | heq
  · rw [heq] at h
    obtain ⟨cache', moment', request', result, hrecorded, rfl⟩ := hbacked.certificates row hrow
    obtain ⟨-, hmatches, -⟩ := lookupExact_some h
    obtain ⟨hidentity, hsource, hcontext⟩ := candidateKey_injective hd.injective hkey
    exact ⟨cache', moment', request', result, hrecorded, sameIdentity_of_key hd hidentity,
      .inl ⟨lookupExact_hit h, hsource, hcontext, hmatches⟩⟩
  · rw [heq] at h
    obtain ⟨hpermits, success, row, matched, hmem, hhit, hkept, hmatches⟩ := lookupObserved_hit h
    obtain ⟨hsuccess, hrow, hkey, hpermitted⟩ := mem_candidateRows hmem
    obtain ⟨cache', moment', request', result, hrecorded, rfl, rfl⟩ := hbacked.successes success hsuccess row hrow hkey
    have hne : reusableInputs request' result ≠ [] := by simpa [successRow] using hpermitted.complete
    have hinputs : reusableInputs request' result = result.observedInputs ∧ result.inputTraceComplete = true := by
      unfold reusableInputs at hne ⊢
      split at hne
      · next hreusable => rw [if_pos hreusable]; exact ⟨rfl, hreusable.2.1⟩
      · exact absurd rfl hne
    simp only [successRow, hinputs.1] at hmatches
    exact ⟨cache', moment', request', result, hrecorded, sameIdentity_of_key hd hpermitted.identityKey,
      .inr ⟨hpermits, hinputs.2, hhit, matched, hkept, hmatches⟩⟩

end

/-! ### What is said of a history -/

def Write.call (w : Write) : Call := .record w.cache w.moment w.request w.result

section

variable (reader)

/-- The directory whose certificates an event changes. -/
def Event.place : Event → Option String
  | .recorded w => some (w.flight.directory reader)
  | .revoked directory => some directory
  | .reused _ _ _ => none
  | .executed _ _ => none

/-- The records in a directory since its last revocation. -/
def writes (directory : String) : List Event → List Write
  | [] => []
  | .recorded w :: rest => if w.flight.directory reader = directory then w :: writes directory rest else writes directory rest
  | .revoked d :: rest => if d = directory then [] else writes directory rest
  | .reused _ _ _ :: rest => writes directory rest
  | .executed _ _ :: rest => writes directory rest

/-- A record proves what a call returns, as the files were when the call looked it up. -/
structure Proves (w : Write) (f : Flight) (hit : CommandResult) (found : Moment) : Prop where
  command : strippedCommand w.flight.args.command = strippedCommand f.args.command
  metadata : w.flight.args.metadata = f.args.metadata
  environment : w.flight.ledger.environment = f.ledger.environment
  scope : w.flight.ledger.scope = f.ledger.scope
  repository : w.flight.ledger.repository = f.ledger.repository
  ok : w.result.ok = true
  began : w.began = some w.flight.source
  unchanged : w.after = w.flight.source
  content : ∃ backend, hit = { certificateResult f.args.command (certificateOf w.cache w.moment w.result) with
    backend, proofRef := f.key reader }
  inputs : w.flight.source = f.source ∧ w.flight.ledger.contextFingerprint reader = f.ledger.contextFingerprint reader ∨
    w.result.inputTraceComplete = true ∧ (w.result.observedInputs ≠ [] → ∃ matched, found.machine.Kept matched ∧
      cacheMatches reader (f.ledger.cache reader false) matched w.result.observedInputs = .ok true)

/-- What an event has to be, after the events before it. -/
def Sound (before : List Event) : Event → Prop
  | .reused f hit found =>
      f.args.fresh = false ∧ f.ledger.mode ≠ "off" ∧ f.ledger.mode ≠ "observe" ∧
        ∃ w ∈ writes reader (f.directory reader) before, Proves reader w f hit found ∧
          (w.flight.source ≠ f.source → f.args.inputMode = "on" ∧ .revoked (f.directory reader) ∉ before)
  | .executed _ e => e.began ≠ some e.after → e.result.ok = false
  | .recorded w => w.began = some w.after
  | .revoked _ => True

/-- Each event is sound after those before it. -/
def Trusted : List Event → Prop
  | [] => True
  | event :: before => Sound reader before event ∧ Trusted before

end

theorem writes_of_place {directory : String} {event : Event} {before : List Event} (h : event.place reader ≠ some directory) :
    writes reader directory (event :: before) = writes reader directory before := by
  cases event with
  | recorded w => exact if_neg fun heq => h (congrArg some heq)
  | revoked d => exact if_neg fun heq => h (congrArg some heq)
  | reused f hit found => rfl
  | executed f e => rfl

theorem writes_append_of_place {directory : String} {events before : List Event}
    (h : ∀ event ∈ events, event.place reader ≠ some directory) :
    writes reader directory (events ++ before) = writes reader directory before := by
  induction events with
  | nil => rfl
  | cons event events ih =>
      rw [List.cons_append, writes_of_place (h event List.mem_cons_self)]
      exact ih fun event' hmem => h event' (List.mem_cons_of_mem event hmem)

theorem mem_writes {directory : String} {history : List Event} {w : Write} (h : w ∈ writes reader directory history) :
    Event.recorded w ∈ history ∧ w.flight.directory reader = directory := by
  induction history with
  | nil => cases h
  | cons event before ih =>
      by_cases hplace : event.place reader = some directory
      · cases event with
        | recorded w' =>
            rw [writes, if_pos (Option.some.inj hplace)] at h
            rcases List.mem_cons.mp h with rfl | hold
            · exact ⟨List.mem_cons_self, Option.some.inj hplace⟩
            · exact ⟨List.mem_cons_of_mem _ (ih hold).1, (ih hold).2⟩
        | revoked d =>
            rw [writes, if_pos (Option.some.inj hplace)] at h
            cases h
        | reused f hit found => cases hplace
        | executed f e => cases hplace
      · rw [writes_of_place hplace] at h
        exact ⟨List.mem_cons_of_mem _ (ih h).1, (ih h).2⟩

/-! ### The invariant -/

section

variable (reader)

/-- A run of a call that kept its source, and was a success. -/
structure Kept (f : Flight) (e : Ended) : Prop where
  began : e.began = some f.source
  unchanged : e.after = f.source
  ok : e.result.ok = true

/-- What is recorded in each of the two scopes. -/
structure WriteOk (w : Write) : Prop where
  kept : Kept w.flight ⟨w.began, w.after, w.result⟩
  cache : ∃ disabled, w.cache = w.flight.ledger.cache reader disabled
  request : ∃ cacheScope, w.request = w.flight.request reader cacheScope w.flight.resultCacheScope ∧
    (cacheScope = "run_context" ∨ cacheScope = "source" ∧ w.result.inputTraceComplete = true)

/-- The certificates of a directory are of its records since the last revocation. -/
structure Local (directory : String) (store : Store) (history : List Event) : Prop where
  backed : Backed reader ((writes reader directory history).map Write.call) store.db
  counted : Event.revoked directory ∈ history → store.completed ≠ 0

/-- A call that saw a revocation permits no observed inputs. -/
structure FlightOk (completed : Nat) (f : Flight) : Prop where
  seen : f.seen ≤ completed
  scope : f.seen ≠ 0 → f.resultCacheScope = "candidate"

/-- The proof of a hit, unless a revocation was completed since it was found. -/
structure HitOk (completed : Nat) (history : List Event) (f : Flight) (foundAt : Nat) (found : Moment) (hit : CommandResult) : Prop where
  lookedUp : f.looksUp = true
  past : foundAt ≤ completed
  unseen : isObserved hit = true → f.seen = 0
  proved : foundAt = completed → ∃ w ∈ writes reader (f.directory reader) history,
    Proves reader w f { hit with proofRef := f.key reader } found ∧ (w.flight.source ≠ f.source → isObserved hit = true)

def StageOk (completed : Nat) (history : List Event) (f : Flight) : Stage → Prop
  | .missed => f.looksUp = true
  | .decided cached foundAt found => ∀ hit, cached = some hit → HitOk reader completed history f foundAt found hit
  | .recording e => Kept f e
  | .recordingSource e => Kept f e ∧ e.result.inputTraceComplete = true
  | _ => True

def PhaseOk (completed : Nat) (history : List Event) : Phase → Prop
  | .flight f s => FlightOk completed f ∧ StageOk reader completed history f s
  | .deleting _ rest => ∀ r, rest = some r → r.2.result.ok = false
  | .marking _ rest => ∀ r, rest = some r → r.2.result.ok = false

structure World.Ok (w : World) : Prop where
  stores : ∀ directory, Local reader directory (w.stores directory) w.history
  written : ∀ write, .recorded write ∈ w.history → WriteOk reader write
  sound : Trusted reader w.history
  phases : ∀ id phase, w.phases id = some phase → PhaseOk reader (w.stores (phase.directory reader)).completed w.history phase

/-- A step of a call that leaves no proof behind a revocation: no certificate is there when a revocation completes; no
revocation was completed since a proof was found that is now returned, nor, where it is one by observed inputs, since the marker
was looked for; and the source is not back, after a run, at the identity that the call goes by when the run began at another. -/
def ClearTurn (store : Store) : Phase → Given → Prop
  | .marking _ _, _ => store.db.certificates.rows = []
  | .flight f (.decided (some hit) foundAt _), .choose sampled _ =>
      audits f hit sampled = false → foundAt = store.completed ∧ (isObserved hit = true → f.seen = store.completed)
  | .flight f (.ran _ began _), .check c => sourceIdentity reader f.ledger.source c = some f.source → began = some f.source
  | _, _ => True

def Clear (w : World) (a : Act) (_ : World) : Prop :=
  match a with
  | .go id given => ∀ phase, w.phases id = some phase → ClearTurn reader (w.stores (phase.directory reader)) phase given
  | _ => True

end

/-- What other steps do to a directory: revocations are added, or records. -/
theorem PhaseOk.mono {completed completed' : Nat} {history history' : List Event} {phase : Phase}
    (h : PhaseOk reader completed history phase) (hle : completed ≤ completed')
    (hsub : completed = completed' → writes reader (phase.directory reader) history ⊆ writes reader (phase.directory reader) history') :
    PhaseOk reader completed' history' phase := by
  cases phase with
  | deleting directory rest => exact h
  | marking directory rest => exact h
  | flight f s =>
      refine ⟨⟨h.1.seen.trans hle, h.1.scope⟩, ?_⟩
      cases s with
      | decided cached foundAt found =>
          intro hit hcached
          obtain ⟨hlooked, hpast, hunseen, hproved⟩ := h.2 hit hcached
          refine ⟨hlooked, hpast.trans hle, hunseen, fun hnow => ?_⟩
          have hsame : completed = completed' := by omega
          obtain ⟨w, hw, hproves⟩ := hproved (by omega)
          exact ⟨w, hsub hsame hw, hproves⟩
      | waiting => trivial
      | holding => trivial
      | missed => exact h.2
      | running cached began => trivial
      | ran cached began result => trivial
      | recording e => exact h.2
      | recordingSource e => exact h.2

/-! ### Lookups -/

theorem certificateResult_unobserved (command : String) (payload : Certificate) : isObserved (certificateResult command payload) = false :=
  (by decide : ("proof-certificate-candidate" == observedBackend) = false)

/-- Whatever is found is proved by a record since the last revocation. -/
theorem lookup_proves (hd : Digests reader.sha256) {store : Store} {history : List Event} {f : Flight}
    (hlocal : Local reader (f.directory reader) store history) (hwritten : ∀ w, .recorded w ∈ history → WriteOk reader w)
    {cacheScope resultCacheScope : String} (hscope : cacheScope = "run_context" ∨ cacheScope = "source") {disabled : Bool}
    {moment : Moment} {hit : CommandResult} (h : lookupIn reader store f cacheScope resultCacheScope disabled moment = some hit) :
    (isObserved hit = true → permitsObserved resultCacheScope = true) ∧
      ∃ w ∈ writes reader (f.directory reader) history,
        Proves reader w f { hit with proofRef := f.key reader } moment ∧ (w.flight.source ≠ f.source → isObserved hit = true) := by
  have hrun : stripLower "run_context" ≠ "source" := by decide +kernel
  have hsourceScope : stripLower "source" = "source" := by decide +kernel
  obtain ⟨cache', moment', request', result, hrecorded, hsame, hfound⟩ := backed_hit hd hlocal.backed h
  obtain ⟨w, hw, hcall⟩ := List.mem_map.mp hrecorded.called
  obtain ⟨rfl, rfl, rfl, rfl⟩ := Call.record.inj hcall
  obtain ⟨hin, hdirectory⟩ := mem_writes hw
  have hok := hwritten w hin
  obtain ⟨disabled', hcache⟩ := hok.cache
  obtain ⟨cacheScope', hrequest, hcases⟩ := hok.request
  obtain ⟨hnamed, hrepository⟩ := Ledger.directory_injective hd hdirectory
  have hcommand := hsame.command
  have henvironment := hsame.environment
  have hmetadata := hsame.metadata
  rw [hrequest] at hcommand hmetadata
  rw [hcache] at henvironment
  rcases hfound with ⟨rfl, hsource, hcontext, hmatches⟩ | ⟨hpermits, hcomplete, rfl, matched, hkept, hmatches⟩
  · rw [hrequest] at hsource
    refine ⟨fun hobserved => absurd (hobserved.symm.trans (certificateResult_unobserved _ _)) Bool.noConfusion, w, hw, ⟨hcommand, Flight.metadata_injective hd hmetadata, henvironment,
      hnamed, hrepository, hok.kept.ok, hok.kept.began, hok.kept.unchanged, ⟨_, rfl⟩, ?_⟩, fun hne => absurd hsource hne⟩
    rcases hcases with rfl | ⟨rfl, hcomplete⟩
    · -- a record for a context is found in that context only
      left
      refine ⟨hsource, ?_⟩
      rw [hrequest, hcache] at hcontext
      have hkeyed : contextOf (w.flight.ledger.cache reader disabled') (w.flight.request reader "run_context" w.flight.resultCacheScope) =
          w.flight.ledger.contextFingerprint reader := if_pos hrun
      rw [hkeyed] at hcontext
      rcases hscope with rfl | rfl
      · exact hcontext.trans (if_pos hrun)
      · have hnone : contextOf (f.ledger.cache reader disabled) (f.request reader "source" resultCacheScope) = "" :=
          if_neg (not_not.mpr hsourceScope)
        exact absurd (hcontext.trans hnone) (w.flight.ledger.contextFingerprint_filled hd)
    · right
      exact ⟨hcomplete, fun hne => ⟨moment.machine, .refl _, hmatches hne⟩⟩
  · refine ⟨fun _ => hpermits, w, hw, ⟨hcommand, Flight.metadata_injective hd hmetadata, henvironment, hnamed, hrepository,
      hok.kept.ok, hok.kept.began, hok.kept.unchanged, ⟨_, rfl⟩, .inr ⟨hcomplete, fun _ => ⟨matched, hkept, hmatches⟩⟩⟩,
      fun _ => beq_self_eq_true _⟩

/-! ### One step of one call -/

section

variable (reader)

/-- What a step leaves of its directory, and what it adds to the history. -/
structure TurnOk (directory : String) (store : Store) (history : List Event) (t : Turn) : Prop where
  left : Local reader directory t.store (t.events ++ history)
  later : store.completed ≤ t.store.completed
  keeps : store.completed = t.store.completed → writes reader directory history ⊆ writes reader directory (t.events ++ history)
  places : ∀ event ∈ t.events, ∀ place, event.place reader = some place → place = directory
  written : ∀ w, .recorded w ∈ t.events → WriteOk reader w
  sound : Trusted reader (t.events ++ history)
  next : ∀ phase, t.next = some phase → phase.directory reader = directory ∧
    PhaseOk reader t.store.completed (t.events ++ history) phase

end

section

variable {directory : String} {store : Store} {history : List Event} (hlocal : Local reader directory store history)
  (hsound : Trusted reader history)

include hlocal hsound

/-- A step that writes nothing. -/
theorem TurnOk.quiet {phase : Phase} (hplace : phase.directory reader = directory)
    (hphase : PhaseOk reader store.completed history phase) : TurnOk reader directory store history ⟨some phase, store, []⟩ where
  left := hlocal
  later := le_rfl
  keeps _ := List.Subset.refl _
  places _ h := absurd h List.not_mem_nil
  written _ h := absurd h List.not_mem_nil
  sound := hsound
  next _ h := by
    obtain rfl := Option.some.inj h
    exact ⟨hplace, hphase⟩

/-- A step that returns, with nothing written. -/
theorem TurnOk.returned {event : Event} (hplace : event.place reader = none) (hevent : Sound reader history event) :
    TurnOk reader directory store history ⟨none, store, [event]⟩ := by
  have hsame : writes reader directory ([event] ++ history) = writes reader directory history :=
    writes_of_place (by simp [hplace])
  have hunrevoked : event ≠ .revoked directory := by
    rintro rfl
    cases hplace
  refine ⟨⟨?_, fun hmem => ?_⟩, le_rfl, fun _ => ?_, fun e he place h => ?_, fun w h => ?_, ⟨hevent, hsound⟩, fun _ h => nomatch h⟩
  · rw [hsame]
    exact hlocal.backed
  · rcases List.mem_cons.mp hmem with heq | hold
    · exact absurd heq.symm hunrevoked
    · exact hlocal.counted hold
  · rw [hsame]
    exact List.Subset.refl _
  · rw [List.mem_singleton.mp he, hplace] at h
    cases h
  · rw [← List.mem_singleton.mp h] at hplace
    cases hplace

/-- What a record adds. -/
theorem recorded_local {w : Write} (hw : WriteOk reader w) (hplace : w.flight.directory reader = directory) :
    Local reader directory (w.into reader store) (w.events reader ++ history) ∧
      writes reader directory history ⊆ writes reader directory (w.events reader ++ history) ∧
      Trusted reader (w.events reader ++ history) := by
  unfold Write.events
  by_cases hlands : w.lands reader = true
  · rw [if_pos hlands]
    have hadded : writes reader directory ([.recorded w] ++ history) = w :: writes reader directory history := if_pos hplace
    rw [hadded]
    simp only [Write.lands, Bool.and_eq_true, Bool.not_eq_true'] at hlands
    refine ⟨⟨?_, fun hmem => ?_⟩, List.subset_cons_self _ _, ⟨?_, hsound⟩⟩
    · rw [hadded]
      refine (hlocal.backed.mono ?_).record ⟨?_, hlands.1.1, hlands.1.2⟩
      · exact List.map_subset _ (List.subset_cons_self _ _)
      · exact List.mem_map_of_mem List.mem_cons_self
    · exact hlocal.counted (by simpa using hmem)
    · have hbegan := hw.kept.began
      have hafter := hw.kept.unchanged
      simp only at hbegan hafter
      rw [Sound, hbegan, hafter]
  · rw [if_neg hlands]
    have hdb : recordResult reader w.cache w.moment store.db w.request w.result = store.db := by
      unfold recordResult
      simp only [Write.lands, Bool.and_eq_true, Bool.not_eq_true', not_and, Bool.not_eq_false] at hlands
      split
      · rfl
      split
      · rfl
      next haccepted hstored =>
      rw [if_pos (hlands ⟨by simpa using haccepted, by simpa using hstored⟩)]
    refine ⟨⟨?_, hlocal.counted⟩, List.Subset.refl _, hsound⟩
    show Backed reader _ (recordResult reader w.cache w.moment store.db w.request w.result)
    rw [hdb]
    exact hlocal.backed

/-- A record, and the return after it. -/
theorem TurnOk.recorded {w : Write} (hw : WriteOk reader w) (hplace : w.flight.directory reader = directory) {next : Option Phase}
    (hnext : ∀ phase, next = some phase → phase.directory reader = directory ∧
      PhaseOk reader store.completed (w.events reader ++ history) phase) :
    TurnOk reader directory store history ⟨next, w.into reader store, w.events reader⟩ := by
  obtain ⟨hleft, hkeeps, hsound'⟩ := recorded_local hlocal hsound hw hplace
  refine ⟨hleft, le_rfl, fun _ => hkeeps, ?_, ?_, hsound', hnext⟩
  · intro event hmem place hevent
    simp only [Write.events] at hmem
    split at hmem
    · rw [List.mem_singleton.mp hmem] at hevent
      exact (Option.some.inj hevent).symm.trans hplace
    · cases hmem
  · intro w' hmem
    simp only [Write.events] at hmem
    split at hmem
    · rw [Event.recorded.inj (List.mem_singleton.mp hmem)]
      exact hw
    · cases hmem

omit hlocal hsound in
/-- The return after a step. -/
theorem TurnOk.andReturn {t : Turn} (h : TurnOk reader directory store history t) {event : Event} (hplace : event.place reader = none)
    (hevent : Sound reader (t.events ++ history) event) : TurnOk reader directory store history ⟨none, t.store, event :: t.events⟩ := by
  have hreturned := TurnOk.returned h.left h.sound hplace hevent
  refine ⟨hreturned.left, h.later, fun hsame => List.Subset.trans (h.keeps hsame) (hreturned.keeps rfl), ?_, ?_, hreturned.sound, fun _ h => nomatch h⟩
  · intro event' hmem
    rcases List.mem_cons.mp hmem with rfl | hold
    · intro place hevent'
      rw [hplace] at hevent'
      cases hevent'
    · exact h.places event' hold
  · intro w hmem
    rcases List.mem_cons.mp hmem with rfl | hold
    · cases hplace
    · exact h.written w hold

end

theorem writeOk_of {f : Flight} {e : Ended} {cacheScope : String} {disabled : Bool} {moment : Moment} (hkept : Kept f e)
    (hscope : cacheScope = "run_context" ∨ cacheScope = "source" ∧ e.result.inputTraceComplete = true) :
    WriteOk reader (writeOf reader f e cacheScope disabled moment) :=
  ⟨hkept, ⟨disabled, rfl⟩, cacheScope, rfl, hscope⟩

/-- The call goes on from a check of the source. -/
theorem checkedTurn_ok {store : Store} {history : List Event} {f : Flight} (hlocal : Local reader (f.directory reader) store history)
    (hsound : Trusted reader history) (hflight : FlightOk store.completed f) {cached : Option CommandResult} {began : Option String}
    {result : CommandResult} {after : String} (hclear : after = f.source → began = some f.source) :
    TurnOk reader (f.directory reader) store history (checkedTurn reader store f cached began result after) := by
  unfold checkedTurn
  have hfails : after ≠ f.source → (if after == f.source then result else sourceChanged result).ok = false := by
    intro hsame
    rw [if_neg (by simpa using hsame)]
    rfl
  simp only
  generalize (if (after == f.source) = true then result else sourceChanged result) = result at hfails ⊢
  split
  · apply TurnOk.quiet hlocal hsound
    · rfl
    · intro r hr
      obtain rfl := Option.some.inj hr
      rfl
  split
  · next hrecords =>
    rw [Bool.and_eq_true, Bool.and_eq_true, beq_iff_eq] at hrecords
    obtain ⟨⟨hvalid, hsame⟩, -⟩ := hrecords
    apply TurnOk.quiet hlocal hsound
    · rfl
    · refine ⟨hflight, ⟨hclear hsame, hsame, ?_⟩⟩
      simp only [validResult, Bool.and_eq_true] at hvalid
      exact hvalid.1.1.1.1
  · apply TurnOk.returned hlocal hsound
    · rfl
    · intro hchanged
      by_cases hsame : after = f.source
      · refine absurd ?_ hchanged
        rw [hclear hsame, hsame]
      · exact hfails hsame

/-- One step of a call, or of a revocation. -/
theorem turn_ok (hd : Digests reader.sha256) {store : Store} {history : List Event} {phase : Phase} {given : Given} {t : Turn}
    (hlocal : Local reader (phase.directory reader) store history) (hsound : Trusted reader history)
    (hwritten : ∀ w, .recorded w ∈ history → WriteOk reader w) (hphase : PhaseOk reader store.completed history phase)
    (hclear : ClearTurn reader store phase given) (hturn : turn reader store phase given = some t) :
    TurnOk reader (phase.directory reader) store history t := by
  unfold turn at hturn
  split at hturn
  · -- the first lookup
    next f disabled moment =>
    simp only at hturn
    by_cases hfurther : ((if f.looksUp = true then lookupIn reader store f "run_context" "candidate" disabled moment else none).isNone &&
        f.looksFurther) = true
    · rw [if_pos hfurther] at hturn
      rw [← Option.some.inj hturn]
      simp only [Flight.looksFurther, Bool.and_eq_true] at hfurther
      apply TurnOk.quiet hlocal hsound
      · rfl
      · exact ⟨hphase.1, hfurther.2.1.1⟩
    · rw [if_neg hfurther] at hturn
      rw [← Option.some.inj hturn]
      apply TurnOk.quiet hlocal hsound
      · rfl
      refine ⟨hphase.1, fun hit hcached => ?_⟩
      have hfound := (Option.filter_eq_some_iff.mp hcached).1
      by_cases hlooked : f.looksUp = true
      · rw [if_pos hlooked] at hfound
        obtain ⟨hpermits, w, hw, hproves⟩ := lookup_proves hd hlocal hwritten (.inl rfl) hfound
        exact ⟨hlooked, le_rfl, fun hobserved => absurd (hpermits hobserved) (by decide), fun _ => ⟨w, hw, hproves⟩⟩
      · rw [if_neg hlooked] at hfound
        cases hfound
  · -- the second
    next f disabled moment =>
    simp only at hturn
    rw [← Option.some.inj hturn]
    apply TurnOk.quiet hlocal hsound
    · rfl
    refine ⟨hphase.1, fun hit hcached => ?_⟩
    have hfound := (Option.filter_eq_some_iff.mp hcached).1
    obtain ⟨hpermits, w, hw, hproves⟩ := lookup_proves hd hlocal hwritten (.inr rfl) hfound
    refine ⟨hphase.2, le_rfl, fun hobserved => ?_, fun _ => ⟨w, hw, hproves⟩⟩
    -- a call that saw a revocation permits no observed inputs
    by_contra hseen
    have hpermitted := hpermits hobserved
    rw [hphase.1.scope hseen] at hpermitted
    exact absurd hpermitted (by decide)
  · -- a hit
    next f hit foundAt found sampled c =>
    by_cases haudits : audits f hit sampled = true
    · rw [if_pos haudits] at hturn
      rw [← Option.some.inj hturn]
      apply TurnOk.quiet hlocal hsound
      · rfl
      · exact ⟨hphase.1, trivial⟩
    · rw [if_neg haudits] at hturn
      rw [← Option.some.inj hturn]
      apply TurnOk.returned hlocal hsound
      · rfl
      have hreturned : audits f hit sampled = false := by simpa using haudits
      obtain ⟨hnow, hsince⟩ := hclear hreturned
      have hok := hphase.2 hit rfl
      obtain ⟨w, hw, hproves, hobserved⟩ := hok.proved hnow
      have hlooked := hok.lookedUp
      simp only [Flight.looksUp, Bool.and_eq_true, Bool.not_eq_true', bne_iff_ne] at hlooked
      simp only [audits, Bool.or_eq_false_iff, beq_eq_false_iff_ne] at hreturned
      refine ⟨hlooked.1, hlooked.2, hreturned.1.1, w, hw, hproves, fun hother => ?_⟩
      have hseen := hobserved hother
      constructor
      · simpa [hseen] using hreturned.1.2
      · intro hrevoked
        have hcounted := hlocal.counted hrevoked
        exact hcounted ((hsince hseen).symm.trans (hok.unseen hseen))
  · -- a run begins
    rw [← Option.some.inj hturn]
    apply TurnOk.quiet hlocal hsound
    · rfl
    · exact ⟨hphase.1, trivial⟩
  · -- it returns
    rw [← Option.some.inj hturn]
    apply TurnOk.quiet hlocal hsound
    · rfl
    · exact ⟨hphase.1, trivial⟩
  · -- the source is compared
    obtain ⟨after, hafter, rfl⟩ := Option.map_eq_some_iff.mp hturn
    refine checkedTurn_ok hlocal hsound hphase.1 fun hsame => ?_
    exact hclear (hafter.trans (congrArg some hsame))
  · -- the first record
    next f e disabled moment =>
    rw [← Option.some.inj hturn]
    have hw : WriteOk reader (writeOf reader f e "run_context" disabled moment) := writeOk_of hphase.2 (.inl rfl)
    unfold recordedTurn
    simp only
    split
    · next hcomplete =>
      apply TurnOk.recorded hlocal hsound hw rfl
      intro phase hnext
      obtain rfl := Option.some.inj hnext
      exact ⟨rfl, hphase.1, hphase.2, (Bool.and_eq_true_iff.mp hcomplete).1⟩
    · have hrecorded : TurnOk reader _ store history ⟨none, _, _⟩ :=
        TurnOk.recorded hlocal hsound hw rfl fun _ h => nomatch h
      exact hrecorded.andReturn rfl fun hchanged => absurd (hphase.2.began.trans (congrArg some hphase.2.unchanged.symm)) hchanged
  · -- the second record
    next f e disabled moment =>
    rw [← Option.some.inj hturn]
    have hw : WriteOk reader (writeOf reader f e "source" disabled moment) := writeOk_of hphase.2.1 (.inr ⟨rfl, hphase.2.2⟩)
    have hrecorded : TurnOk reader _ store history ⟨none, _, _⟩ :=
      TurnOk.recorded hlocal hsound hw rfl fun _ h => nomatch h
    exact hrecorded.andReturn rfl fun hchanged =>
      absurd (hphase.2.1.began.trans (congrArg some hphase.2.1.unchanged.symm)) hchanged
  · -- the rows go
    next directory rest _ moment =>
    by_cases hfails : moment.databaseFails = true
    · rw [if_pos hfails] at hturn
      cases hturn
    · rw [if_neg hfails] at hturn
      rw [← Option.some.inj hturn]
      refine ⟨⟨⟨fun _ h => absurd h List.not_mem_nil, fun _ h => absurd h List.not_mem_nil⟩, hlocal.counted⟩, le_rfl,
        fun _ => List.Subset.refl _, fun _ h => absurd h List.not_mem_nil, fun _ h => absurd h List.not_mem_nil, hsound,
        fun next hnext => ?_⟩
      obtain rfl := Option.some.inj hnext
      exact ⟨rfl, hphase⟩
  · -- the marker is written
    next directory rest _ _ =>
    rw [← Option.some.inj hturn]
    have hmarked : TurnOk reader directory store history ⟨none, { store with completed := store.completed + 1 }, [.revoked directory]⟩ := by
      have hnone : writes reader directory ([.revoked directory] ++ history) = [] := if_pos rfl
      refine ⟨⟨?_, fun _ => Nat.succ_ne_zero _⟩, Nat.le_succ _, fun hsame => by simp at hsame, ?_, ?_, ⟨trivial, hsound⟩, fun _ h => nomatch h⟩
      · have hempty : store.db.certificates.rows = [] := hclear
        constructor
        · intro row hrow
          rw [hempty] at hrow
          cases hrow
        · intro success _ row hrow
          rw [hempty] at hrow
          cases hrow
      · intro event hmem place hplace
        rw [List.mem_singleton.mp hmem] at hplace
        exact (Option.some.inj hplace).symm
      · intro w hmem
        cases List.mem_singleton.mp hmem
    cases rest with
    | none => exact hmarked
    | some r => exact hmarked.andReturn rfl fun _ => hphase r rfl
  · cases hturn

/-! ### Runs -/

theorem World.Ok.put {w : World} (h : w.Ok reader) (id : Nat) {next : Option Phase}
    (hnext : ∀ phase, next = some phase → PhaseOk reader (w.stores (phase.directory reader)).completed w.history phase) :
    (w.put id next).Ok reader where
  stores := h.stores
  written := h.written
  sound := h.sound
  phases id' phase hphase := by
    by_cases hsame : id' = id
    · subst hsame
      exact hnext phase (by simpa [World.put] using hphase)
    · exact h.phases id' phase (by simpa [World.put, hsame] using hphase)

theorem World.Ok.locks {w : World} (h : w.Ok reader) (held : String → String → Option Nat) : World.Ok reader { w with held := held } :=
  ⟨h.stores, h.written, h.sound, h.phases⟩

/-- The step of one call leaves the others as they were, unless it revokes what they have found. -/
theorem World.Ok.take {w : World} (h : w.Ok reader) (id : Nat) {directory : String} {t : Turn}
    (ht : TurnOk reader directory (w.stores directory) w.history t) : (w.take id directory t).Ok reader := by
  have hother {d : String} (hd : d ≠ directory) : writes reader d (t.events ++ w.history) = writes reader d w.history :=
    writes_append_of_place fun event hmem hplace => hd (ht.places event hmem d hplace)
  have hnew : World.Ok reader
      { w.put id t.next with stores := Function.update w.stores directory t.store, history := t.events ++ w.history } := by
    refine ⟨fun d => ?_, fun write hmem => ?_, ht.sound, fun id' phase hphase => ?_⟩
    · by_cases hd : d = directory
      · subst hd
        simpa [World.put] using ht.left
      · simp only [Function.update_of_ne hd]
        refine ⟨?_, fun hmem => (h.stores d).counted ?_⟩
        · rw [hother hd]
          exact (h.stores d).backed
        · rcases List.mem_append.mp hmem with hfresh | hold
          · exact absurd (ht.places _ hfresh d rfl) hd
          · exact hold
    · rcases List.mem_append.mp hmem with hfresh | hold
      · exact ht.written write hfresh
      · exact h.written write hold
    · by_cases hsame : id' = id
      · subst hsame
        obtain ⟨hplace, hok⟩ := ht.next phase (by simpa [World.put] using hphase)
        simpa [hplace] using hok
      · have hbefore := h.phases id' phase (by simpa [World.put, hsame] using hphase)
        by_cases hd : phase.directory reader = directory
        · subst hd
          simp only [Function.update_self]
          exact hbefore.mono ht.later ht.keeps
        · simp only [Function.update_of_ne hd]
          exact hbefore.mono le_rfl fun _ => by rw [hother hd]; exact List.Subset.refl _
  unfold World.take
  simp only
  split
  · exact hnew
  · exact hnew.locks _

theorem begin_ok {l : Ledger} {store : Store} {args : Arguments} {c : SourceTree} {f : Flight}
    (h : l.begin reader store args c = some f) : f.ledger = l ∧ FlightOk store.completed f := by
  have hmarked (hseen : store.completed ≠ 0) : store.marked = true := by simpa [Store.marked] using hseen
  obtain ⟨source, -, rfl⟩ := Option.map_eq_some_iff.mp h
  exact ⟨rfl, le_rfl, fun hseen => if_pos (hmarked hseen)⟩

theorem step_ok (hd : Digests reader.sha256) {w w' : World} {a : Act} (h : w.Ok reader) (hclear : Clear reader w a w')
    (hstep : w.step reader a = some w') : w'.Ok reader := by
  cases a with
  | execute id l args c =>
      simp only [World.step] at hstep
      split at hstep
      · cases hstep
      obtain ⟨f, hf, rfl⟩ := Option.map_eq_some_iff.mp hstep
      obtain ⟨hledger, hok⟩ := begin_ok hf
      refine h.put id fun phase hphase => ?_
      obtain rfl := Option.some.inj hphase
      have hplace : f.directory reader = l.directory reader := by rw [Flight.directory, hledger]
      refine ⟨?_, trivial⟩
      show FlightOk (w.stores (f.directory reader)).completed f
      rw [hplace]
      exact hok
  | revoke id l =>
      simp only [World.step] at hstep
      split at hstep
      · cases hstep
      rw [← Option.some.inj hstep]
      refine h.put id fun phase hphase => ?_
      obtain rfl := Option.some.inj hphase
      intro r hr
      cases hr
  | lock id =>
      simp only [World.step] at hstep
      split at hstep
      · next f hwaiting =>
        split at hstep
        · cases hstep
        rw [← Option.some.inj hstep]
        refine World.Ok.locks (h.put id fun phase hphase => ?_) _
        obtain rfl := Option.some.inj hphase
        exact ⟨(h.phases id _ hwaiting).1, trivial⟩
      · cases hstep
  | go id given =>
      obtain ⟨phase, hphase, hstep⟩ := Option.bind_eq_some_iff.mp hstep
      obtain ⟨t, hturn, hstep⟩ := Option.bind_eq_some_iff.mp hstep
      rw [← Option.some.inj hstep]
      exact h.take id (turn_ok hd (h.stores _) h.sound h.written (h.phases id phase hphase) (hclear phase hphase) hturn)
  | stop id =>
      simp only [World.step] at hstep
      split at hstep
      · rw [← Option.some.inj hstep]
        refine World.Ok.locks (h.put id fun _ hphase => ?_) _
        cases hphase
      · cases hstep

theorem start_ok : World.Ok reader {} where
  stores _ := ⟨⟨fun _ h => absurd h List.not_mem_nil, fun _ h => absurd h List.not_mem_nil⟩, fun h => absurd h List.not_mem_nil⟩
  written _ h := absurd h List.not_mem_nil
  sound := trivial
  phases _ _ h := by cases h

/-- In a run none of whose steps leaves a proof behind a revocation, a result returned without a run is the one of a
record since the last revocation: by a call for the same command, metadata, environment and scope, whose run was a
success and left the source as it was; source and context are the same, or the inputs that were observed still match,
and where the source is another one, no revocation was ever completed and the call asks for that. A call that is fresh,
or in a mode without reuse, returns its own run; a run during which the source changed is no success, and is not
recorded. -/
theorem run_trusted (hd : Digests reader.sha256) {trace : List (Taken World Act)} {w : World}
    (hrun : (calls reader).Run trace w) (hclear : Meets (Clear reader) trace) : Trusted reader w.history :=
  (hrun.invariant_of_meets (fun _ hs => hs ▸ start_ok) (fun _ _ _ hok hmeets hstep => step_ok hd hok hmeets hstep) hclear).sound

/-! ### A revocation around a record -/

/-- Texts with a mark as their own digests. -/
def markedReader : Reader := ⟨fun text => "#" ++ text, fun _ _ _ _ => false⟩

theorem markedReader_digests : Digests markedReader.sha256 where
  injective a b h := String.toList_injective (by simpa [markedReader] using congrArg String.toList h)
  filled text h := by simpa [markedReader] using congrArg String.toList h

def plainLedger : Ledger := { source := ["work"], repository := "repository", context := "run" }

def plainArguments : Arguments := { command := "pytest" }

def emptyTree : SourceTree := ⟨some [], some [], "", ⟨[]⟩⟩

def plainMoment : Moment where
  machine := ⟨[]⟩
  blobs _ := none
  takesBlob _ := true
  now := 10
  policy := "policy"

def passedRun : CommandResult := { command := "pytest", ok := true, returncode := 0 }

section

variable (reader)

def emptyIdentity : String := digestItems reader [['[', ']'], ['\x22', '\x22']]

theorem sourceIdentity_empty (root : Path) : sourceIdentity reader root emptyTree = some (emptyIdentity reader) := rfl

/-- A call for the command, which saw some revocations. -/
def plainFlight (seen : Nat) : Flight := ⟨plainLedger, plainArguments, "candidate", emptyIdentity reader, seen⟩

/-- The directory of the ledger, where at most one call holds the lock, with the phases of three calls. -/
def scene (store : Store) (first second third : Option Phase) (holder : Option Nat) (history : List Event) : World where
  stores := Function.update (fun _ => {}) (plainLedger.directory reader) store
  phases := fun | 0 => first | 1 => second | 2 => third | _ => none
  held := fun directory bucket =>
    if directory = plainLedger.directory reader ∧ bucket = (plainFlight reader 0).bucket reader then holder else none
  history := history

variable {reader} {store : Store} {first second third : Option Phase} {holder : Option Nat} {history : List Event}

@[simp] theorem scene_store : (scene reader store first second third holder history).stores (plainLedger.directory reader) = store :=
  by simp [scene]

theorem scene_ext {w : World} (hstores : w.stores = Function.update (fun _ => {}) (plainLedger.directory reader) store)
    (hfirst : w.phases 0 = first) (hsecond : w.phases 1 = second) (hthird : w.phases 2 = third) (hrest : ∀ n, w.phases (n + 3) = none)
    (hheld : ∀ directory bucket, w.held directory bucket =
      if directory = plainLedger.directory reader ∧ bucket = (plainFlight reader 0).bucket reader then holder else none)
    (hhistory : w.history = history) : w = scene reader store first second third holder history := by
  obtain ⟨stores, phases, held, past⟩ := w
  simp only at hstores hfirst hsecond hthird hrest hheld hhistory
  subst hstores hhistory hfirst hsecond hthird
  have hphases : phases = fun | 0 => phases 0 | 1 => phases 1 | 2 => phases 2 | _ => none := by
    funext n
    match n with
    | 0 => rfl
    | 1 => rfl
    | 2 => rfl
    | n + 3 => exact hrest n
  have hlocks : held = _ := funext fun directory => funext fun bucket => hheld directory bucket
  rw [scene, ← hlocks, ← hphases]

/-- A step of a call goes on, or returns and gives its lock back. -/
theorem scene_take (id : Nat) (hid : id < 3) (t : Turn) :
    (scene reader store first second third holder history).take id (plainLedger.directory reader) t =
      scene reader t.store (if id = 0 then t.next else first) (if id = 1 then t.next else second) (if id = 2 then t.next else third)
        (if t.next = none ∧ holder = some id then none else holder) (t.events ++ history) := by
  have hstores : Function.update (scene reader store first second third holder history).stores (plainLedger.directory reader) t.store =
      Function.update (fun _ => {}) (plainLedger.directory reader) t.store := Function.update_idem ..
  unfold World.take
  cases hnext : t.next with
  | some phase =>
      apply scene_ext
      · exact hstores
      · simp only [Option.isSome_some, if_true, World.put, Function.update_apply, eq_comm (a := 0), scene]
      · simp only [Option.isSome_some, if_true, World.put, Function.update_apply, eq_comm (a := 1), scene]
      · simp only [Option.isSome_some, if_true, World.put, Function.update_apply, eq_comm (a := 2), scene]
      · intro n
        simp only [Option.isSome_some, if_true, World.put, Function.update_apply, scene]
        rw [if_neg (by omega)]
      · intro directory bucket
        simp [World.put, scene]
      · rfl
  | none =>
      apply scene_ext
      · exact hstores
      · simp only [Option.isSome_none, Bool.false_eq_true, if_false, World.released, World.put, Function.update_apply, eq_comm (a := 0), scene]
      · simp only [Option.isSome_none, Bool.false_eq_true, if_false, World.released, World.put, Function.update_apply, eq_comm (a := 1), scene]
      · simp only [Option.isSome_none, Bool.false_eq_true, if_false, World.released, World.put, Function.update_apply, eq_comm (a := 2), scene]
      · intro n
        simp only [Option.isSome_none, Bool.false_eq_true, if_false, World.released, World.put, Function.update_apply, scene]
        rw [if_neg (by omega)]
      · intro directory bucket
        simp only [Option.isSome_none, Bool.false_eq_true, if_false, World.released, World.put, scene, true_and]
        split <;> simp
      · rfl

theorem scene_go (id : Nat) (hid : id < 3) {phase : Phase} {given : Given} {t : Turn}
    (hphase : (scene reader store first second third holder history).phases id = some phase)
    (hplace : phase.directory reader = plainLedger.directory reader) (ht : turn reader store phase given = some t) :
    (scene reader store first second third holder history).step reader (.go id given) =
      some (scene reader t.store (if id = 0 then t.next else first) (if id = 1 then t.next else second) (if id = 2 then t.next else third)
        (if t.next = none ∧ holder = some id then none else holder) (t.events ++ history)) := by
  rw [World.step, hphase, Option.bind_eq_bind, Option.bind_some, hplace, scene_store, ht, Option.bind_eq_bind, Option.bind_some]
  exact congrArg some (scene_take id hid t)

theorem scene_put (id : Nat) (hid : id < 3) (next : Option Phase) :
    (scene reader store first second third holder history).put id next =
      scene reader store (if id = 0 then next else first) (if id = 1 then next else second) (if id = 2 then next else third) holder
        history := by
  apply scene_ext
  · rfl
  · simp only [World.put, Function.update_apply, eq_comm (a := 0), scene]
  · simp only [World.put, Function.update_apply, eq_comm (a := 1), scene]
  · simp only [World.put, Function.update_apply, eq_comm (a := 2), scene]
  · intro n
    simp only [World.put, Function.update_apply, scene]
    rw [if_neg (by omega)]
  · intro directory bucket
    rfl
  · rfl

/-- A call takes the lock that nobody holds. -/
theorem scene_lock (id seen : Nat) (hid : id < 3)
    (hphase : (scene reader store first second third none history).phases id = some (.flight (plainFlight reader seen) .waiting)) :
    (scene reader store first second third none history).step reader (.lock id) =
      some (scene reader store (if id = 0 then some (.flight (plainFlight reader seen) .holding) else first)
        (if id = 1 then some (.flight (plainFlight reader seen) .holding) else second)
        (if id = 2 then some (.flight (plainFlight reader seen) .holding) else third) (some id) history) := by
  have hfree : ((scene reader store first second third none history).held ((plainFlight reader seen).directory reader)
      ((plainFlight reader seen).bucket reader)).isSome = false := by simp [scene]
  simp only [World.step, hphase, hfree, Bool.false_eq_true, if_false, Option.some.injEq]
  rw [scene_put id hid]
  apply scene_ext
  · rfl
  · rfl
  · rfl
  · rfl
  · intro n
    rfl
  · intro directory bucket
    have hplace : (plainFlight reader seen).directory reader = plainLedger.directory reader := rfl
    have hbucket : (plainFlight reader seen).bucket reader = (plainFlight reader 0).bucket reader := rfl
    rw [hplace, hbucket]
    by_cases hd : directory = plainLedger.directory reader
    · subst hd
      by_cases hb : bucket = (plainFlight reader 0).bucket reader
      · simp [hb]
      · simp [scene, hb]
    · simp [scene, hd]
  · rfl

variable (reader) in
/-- The call has run its command, and the source is the one that it goes by. -/
def plainEnded : Ended := ⟨some (emptyIdentity reader), emptyIdentity reader, { passedRun with proofRef := (plainFlight reader 0).key reader }⟩

variable (reader) in
def plainWrite : Write := writeOf reader (plainFlight reader 0) (plainEnded reader) "run_context" false plainMoment

theorem lookup_empty (completed : Nat) : turn reader ⟨.empty, completed⟩ (.flight (plainFlight reader 0) .holding) (.lookup false plainMoment) =
    some ⟨some (.flight (plainFlight reader 0) (.decided none completed plainMoment)), ⟨.empty, completed⟩, []⟩ := rfl

theorem choose_run : turn reader {} (.flight (plainFlight reader 0) (.decided none 0 plainMoment)) (.choose false emptyTree) =
    some ⟨some (.flight (plainFlight reader 0) (.running none (some (emptyIdentity reader)))), {}, []⟩ := rfl

theorem finish_run : turn reader {} (.flight (plainFlight reader 0) (.running none (some (emptyIdentity reader)))) (.finish passedRun) =
    some ⟨some (.flight (plainFlight reader 0) (.ran none (some (emptyIdentity reader))
      { passedRun with proofRef := (plainFlight reader 0).key reader })), {}, []⟩ := rfl

theorem check_run : turn reader {} (.flight (plainFlight reader 0) (.ran none (some (emptyIdentity reader))
      { passedRun with proofRef := (plainFlight reader 0).key reader })) (.check emptyTree) =
    some ⟨some (.flight (plainFlight reader 0) (.recording (plainEnded reader))), {}, []⟩ := by
  have hsame : (emptyIdentity reader == (plainFlight reader 0).source) = true := beq_self_eq_true (emptyIdentity reader)
  have hchecked : checkedTurn reader {} (plainFlight reader 0) none (some (emptyIdentity reader))
      { passedRun with proofRef := (plainFlight reader 0).key reader } (emptyIdentity reader) =
        ⟨some (.flight (plainFlight reader 0) (.recording (plainEnded reader))), {}, []⟩ := by
    unfold checkedTurn
    simp only [hsame, if_true]
    rfl
  exact congrArg some hchecked

theorem write_run : turn reader {} (.flight (plainFlight reader 0) (.recording (plainEnded reader))) (.write false plainMoment) =
    some ⟨none, (plainWrite reader).into reader {},
      [.executed (plainFlight reader 0) (plainEnded reader), .recorded (plainWrite reader)]⟩ := rfl

variable (reader) in
/-- The directory after the record, and some revocations. -/
def writtenStore (completed : Nat) : Store := ⟨((plainWrite reader).into reader {}).db, completed⟩

variable (reader) in
def plainRow : CertificateRow :=
  certificateRow reader (plainLedger.cache reader false) plainMoment (plainWrite reader).request (plainEnded reader).result

theorem written_rows (completed : Nat) : (writtenStore reader completed).db.certificates.rows = [plainRow reader] := rfl

variable (reader) in
def plainHit : CommandResult := certificateResult "pytest" (plainRow reader).resultPayload

/-- A later call finds the record. -/
theorem lookup_written (completed seen : Nat) : lookupIn reader (writtenStore reader completed) (plainFlight reader seen) "run_context"
    "candidate" false plainMoment = some (plainHit reader) := by
  have hfind : (writtenStore reader completed).db.certificates.find
      (requestKey reader (plainLedger.cache reader false) plainMoment (plainWrite reader).request) = some (plainRow reader) := by
    have hmem : plainRow reader ∈ (writtenStore reader completed).db.certificates.rows := by
      rw [written_rows]
      exact List.mem_singleton_self _
    exact Table.find_of_mem hmem
  have henvironment : ¬ "unavailable:".toList.isPrefixOf (plainLedger.cache reader false).environmentFingerprint.toList = true :=
    (by decide : ¬ "unavailable:".toList.isPrefixOf "".toList = true)
  have henabled : (plainLedger.cache reader false).disabled ≠ true := Bool.false_ne_true
  have hscope : ((plainWrite reader).request).resultCacheScope ≠ "off" := (by decide : "candidate" ≠ "off")
  have hworks : plainMoment.databaseFails ≠ true := Bool.false_ne_true
  have hrequest : (plainFlight reader seen).request reader "run_context" "candidate" = (plainWrite reader).request := rfl
  have hrecent : (some (plainRow reader)).filter (fun row => decide (plainMoment.now - (plainLedger.cache reader false).maxAgeSeconds ≤
      row.updatedAt)) = some (plainRow reader) := rfl
  have hcache : (plainFlight reader seen).ledger.cache reader false = plainLedger.cache reader false := rfl
  rw [lookupIn, hrequest, hcache, lookupWithReason, if_neg henvironment, if_neg henabled, if_neg hscope, if_neg hworks, hfind, hrecent]
  rfl

theorem hit_turn (completed seen : Nat) : turn reader (writtenStore reader completed) (.flight (plainFlight reader seen) .holding)
    (.lookup false plainMoment) =
      some ⟨some (.flight (plainFlight reader seen) (.decided (some (plainHit reader)) completed plainMoment)),
        writtenStore reader completed, []⟩ := by
  have hcached : (if (plainFlight reader seen).looksUp = true then lookupIn reader (writtenStore reader completed)
      (plainFlight reader seen) "run_context" "candidate" false plainMoment else none) = some (plainHit reader) :=
    (if_pos rfl).trans (lookup_written completed seen)
  have hadmitted : admitted (plainFlight reader seen) (some (plainHit reader)) = some (plainHit reader) := rfl
  simp only [turn, hcached, Option.isNone_some, Bool.false_and, Bool.false_eq_true, if_false, hadmitted]
  rfl

theorem return_turn (completed seen : Nat) : turn reader (writtenStore reader completed)
    (.flight (plainFlight reader seen) (.decided (some (plainHit reader)) completed plainMoment)) (.choose false emptyTree) =
      some ⟨none, writtenStore reader completed,
        [.reused (plainFlight reader seen) { plainHit reader with proofRef := (plainFlight reader seen).key reader } plainMoment]⟩ := rfl

variable (reader) in
/-- A world that a run comes to whose steps meet a condition. -/
def Arrives (C : World → Act → World → Prop) (w : World) : Prop := ∃ trace, (calls reader).Run trace w ∧ Meets C trace

variable {C : World → Act → World → Prop}

theorem Arrives.step {w w' : World} {a : Act} (h : Arrives reader C w) (hstep : w.step reader a = some w') (hmeets : C w a w') :
    Arrives reader C w' := by
  obtain ⟨trace, hrun, hall⟩ := h
  refine ⟨_, hrun.step hstep, fun e he => ?_⟩
  rcases List.mem_append.mp he with hold | hnew
  · exact hall e hold
  · rw [List.mem_singleton.mp hnew]
    exact hmeets

/-- A call begins. -/
theorem scene_execute (id : Nat) (hid : id < 3) (hphase : (scene reader store first second third holder history).phases id = none) :
    (scene reader store first second third holder history).step reader (.execute id plainLedger plainArguments emptyTree) =
      some (scene reader store (if id = 0 then some (.flight (plainFlight reader store.completed) .waiting) else first)
        (if id = 1 then some (.flight (plainFlight reader store.completed) .waiting) else second)
        (if id = 2 then some (.flight (plainFlight reader store.completed) .waiting) else third) holder history) := by
  have hbegin : plainLedger.begin reader store plainArguments emptyTree = some (plainFlight reader store.completed) := by
    unfold Ledger.begin
    rw [if_neg (by decide : ¬ plainArguments.source ≠ ""), sourceIdentity_empty]
    have hscope : (if store.marked then "candidate" else plainArguments.resultCacheScope) = "candidate" := by
      split <;> rfl
    simp only [Option.map_some, hscope]
    rfl
  simp only [World.step, hphase, Option.isSome_none, Bool.false_eq_true, if_false, scene_store, hbegin, Option.map_some]
  exact congrArg some (scene_put id hid _)

theorem Arrives.go (hC : ∀ w a w', Clear reader w a w' → C w a w') (id : Nat) (hid : id < 3) {phase : Phase} {given : Given} {t : Turn}
    (h : Arrives reader C (scene reader store first second third holder history))
    (hphase : (scene reader store first second third holder history).phases id = some phase)
    (hplace : phase.directory reader = plainLedger.directory reader) (ht : turn reader store phase given = some t)
    (hclear : ClearTurn reader store phase given) :
    Arrives reader C (scene reader t.store (if id = 0 then t.next else first) (if id = 1 then t.next else second)
      (if id = 2 then t.next else third) (if t.next = none ∧ holder = some id then none else holder) (t.events ++ history)) := by
  refine h.step (scene_go id hid hphase hplace ht) (hC _ _ _ fun phase' hphase' => ?_)
  obtain rfl := Option.some.inj (hphase.symm.trans hphase')
  rw [hplace, scene_store]
  exact hclear

/-- The first call has run its command, and is about to record it. -/
theorem arrives_recording (hC : ∀ w a w', Clear reader w a w' → C w a w') : Arrives reader C
    (scene reader {} (some (.flight (plainFlight reader 0) (.recording (plainEnded reader)))) none none (some 0) []) := by
  have hstart : Arrives reader C (scene reader {} none none none none []) := by
    have hscene : ({} : World) = scene reader {} none none none none [] := by
      refine scene_ext ?_ rfl rfl rfl (fun _ => rfl) (fun _ _ => ?_) rfl
      · exact (Function.update_eq_self (plainLedger.directory reader) (fun _ => ({} : Store))).symm
      · split <;> rfl
    exact ⟨[], .start hscene.symm, fun e he => absurd he List.not_mem_nil⟩
  have hwaits : Arrives reader C (scene reader {} (some (.flight (plainFlight reader 0) .waiting)) none none none []) :=
    hstart.step (scene_execute 0 (by decide) rfl) (hC _ _ _ trivial)
  have hholds : Arrives reader C (scene reader {} (some (.flight (plainFlight reader 0) .holding)) none none (some 0) []) :=
    hwaits.step (scene_lock 0 0 (by decide) rfl) (hC _ _ _ trivial)
  have hlooked : Arrives reader C (scene reader {} (some (.flight (plainFlight reader 0) (.decided none 0 plainMoment))) none none (some 0) []) :=
    hholds.go hC 0 (by decide) rfl rfl (lookup_empty 0) trivial
  have hbegun : Arrives reader C (scene reader {} (some (.flight (plainFlight reader 0) (.running none (some (emptyIdentity reader)))))
      none none (some 0) []) :=
    hlooked.go hC 0 (by decide) rfl rfl choose_run trivial
  have hran : Arrives reader C (scene reader {} (some (.flight (plainFlight reader 0) (.ran none (some (emptyIdentity reader))
      { passedRun with proofRef := (plainFlight reader 0).key reader }))) none none (some 0) []) :=
    hbegun.go hC 0 (by decide) rfl rfl finish_run trivial
  exact hran.go hC 0 (by decide) rfl rfl check_run fun _ => rfl

variable (reader) in
/-- The history of the first call. -/
def plainHistory : List Event :=
  [.executed (plainFlight reader 0) (plainEnded reader), .recorded (plainWrite reader)]

variable (reader) in
def plainReuse (seen : Nat) : Event :=
  .reused (plainFlight reader seen) { plainHit reader with proofRef := (plainFlight reader seen).key reader } plainMoment

/-- A call finds the record, and returns it. -/
theorem arrives_reused (hC : ∀ w a w', Clear reader w a w' → C w a w') {completed : Nat}
    (h : Arrives reader C (scene reader (writtenStore reader completed) none none none none history)) :
    Arrives reader C (scene reader (writtenStore reader completed) none none none none (plainReuse reader completed :: history)) := by
  have hwaits : Arrives reader C (scene reader (writtenStore reader completed) none none
      (some (.flight (plainFlight reader completed) .waiting)) none history) :=
    h.step (scene_execute 2 (by decide) rfl) (hC _ _ _ trivial)
  have hholds : Arrives reader C (scene reader (writtenStore reader completed) none none
      (some (.flight (plainFlight reader completed) .holding)) (some 2) history) :=
    hwaits.step (scene_lock 2 completed (by decide) rfl) (hC _ _ _ trivial)
  have hfound : Arrives reader C (scene reader (writtenStore reader completed) none none
      (some (.flight (plainFlight reader completed) (.decided (some (plainHit reader)) completed plainMoment))) (some 2) history) :=
    hholds.go hC 2 (by decide) rfl rfl (hit_turn completed completed) trivial
  exact hfound.go hC 2 (by decide) rfl rfl (return_turn completed completed) fun _ => ⟨rfl, fun h => nomatch h⟩

end

/-- A call records what it has run, and a later one returns that. -/
theorem run_trusted_reused : ∃ trace w, (calls markedReader).Run trace w ∧ Meets (Clear markedReader) trace ∧
    plainReuse markedReader 0 ∈ w.history ∧ Trusted markedReader w.history := by
  have hwritten : Arrives markedReader (Clear markedReader)
      (scene markedReader (writtenStore markedReader 0) none none none none (plainHistory markedReader)) :=
    (arrives_recording fun _ _ _ h => h).go (fun _ _ _ h => h) 0 (by decide) rfl rfl write_run trivial
  obtain ⟨trace, hrun, hclear⟩ := arrives_reused (fun _ _ _ h => h) hwritten
  exact ⟨trace, _, hrun, hclear, List.mem_cons_self, run_trusted markedReader_digests hrun hclear⟩

/-- A record is written between the two writes of a revocation, and a call that begins after it returns it. -/
theorem revocation_outlived : ¬ ∀ (reader : Reader), Digests reader.sha256 → ∀ trace w, (calls reader).Run trace w →
    Trusted reader w.history := by
  intro hall
  have hany : ∀ w a w', Clear markedReader w a w' → (fun _ _ _ => True : World → Act → World → Prop) w a w' := fun _ _ _ _ => trivial
  have hrows : turn markedReader {} (.deleting (plainLedger.directory markedReader) none) (.write false plainMoment) =
      some ⟨some (.marking (plainLedger.directory markedReader) none), {}, []⟩ := rfl
  have hmarker : turn markedReader (writtenStore markedReader 0) (.marking (plainLedger.directory markedReader) none)
      (.write false plainMoment) = some ⟨none, writtenStore markedReader 1, [.revoked (plainLedger.directory markedReader)]⟩ := rfl
  have hdeletes : Arrives markedReader (fun _ _ _ => True) (scene markedReader {}
      (some (.flight (plainFlight markedReader 0) (.recording (plainEnded markedReader))))
      (some (.deleting (plainLedger.directory markedReader) none)) none (some 0) []) :=
    (arrives_recording hany).step (a := .revoke 1 plainLedger) (congrArg some (scene_put 1 (by decide) _)) trivial
  have hmarks : Arrives markedReader (fun _ _ _ => True) (scene markedReader {}
      (some (.flight (plainFlight markedReader 0) (.recording (plainEnded markedReader))))
      (some (.marking (plainLedger.directory markedReader) none)) none (some 0) []) :=
    hdeletes.step (scene_go 1 (by decide) rfl rfl hrows) trivial
  have hwritten : Arrives markedReader (fun _ _ _ => True) (scene markedReader (writtenStore markedReader 0) none
      (some (.marking (plainLedger.directory markedReader) none)) none none (plainHistory markedReader)) :=
    hmarks.go hany 0 (by decide) rfl rfl write_run trivial
  have hrevoked : Arrives markedReader (fun _ _ _ => True) (scene markedReader (writtenStore markedReader 1) none none none none
      (.revoked (plainLedger.directory markedReader) :: plainHistory markedReader)) :=
    hwritten.step (scene_go 1 (by decide) rfl rfl hmarker) trivial
  obtain ⟨trace, hrun, -⟩ := arrives_reused hany hrevoked
  obtain ⟨⟨-, -, -, w, hw, -⟩, -⟩ := hall markedReader markedReader_digests trace _ hrun
  have hnone : writes markedReader ((plainFlight markedReader 1).directory markedReader)
      (.revoked (plainLedger.directory markedReader) :: plainHistory markedReader) = [] := if_pos rfl
  rw [hnone] at hw
  cases hw

end AutoAgents.Proofs.Certificates
