import AutoAgents.ProofCache

/-! When a proof is taken up again. Every certificate, and every success that still has one, was written by a call that
recorded a clean success; so a hit names such a call, its fingerprints are the ones asked for, its inputs match, and its
artifacts are there. -/

namespace AutoAgents.Proofs

open Base
open Verification (stripLower)

variable {reader : Reader}

/-! ### Keys name what they are made of -/

theorem encodeString_append {a b rest rest' : List Char} (h : encodeString a ++ rest = encodeString b ++ rest') :
    a = b ∧ rest = rest' := by
  unfold encodeString at h
  simp only [List.cons_append, List.append_assoc, List.nil_append, List.cons.injEq, true_and] at h
  have hscan := scanString_encoded a rest
  rw [h, scanString_encoded] at hscan
  simp only [Option.some.injEq, Prod.mk.injEq] at hscan
  exact ⟨hscan.1.symm, hscan.2.symm⟩

/-- A text field and what follows it can be read off. -/
theorem dumpsFields_cons {name a b : String} {rest rest' : List (String × List Char)} (hlength : rest.length = rest'.length)
    (h : dumpsFields ((name, encodeString a.toList) :: rest) = dumpsFields ((name, encodeString b.toList) :: rest')) :
    a = b ∧ dumpsFields rest = dumpsFields rest' := by
  cases rest with
  | nil =>
      obtain rfl := List.length_eq_zero_iff.mp hlength.symm
      simp only [dumpsFields, List.append_cancel_left_eq, List.cons.injEq, true_and] at h
      have hends := @encodeString_append a.toList b.toList [] [] (by simpa using h)
      exact ⟨String.toList_injective hends.1, rfl⟩
  | cons field rest =>
      cases rest' with
      | nil => cases hlength
      | cons field' rest' =>
          simp only [dumpsFields, List.append_assoc, List.cons_append, List.append_cancel_left_eq, List.cons.injEq, true_and] at h
          obtain ⟨htext, hrest⟩ := encodeString_append h
          simp only [List.cons.injEq, true_and] at hrest
          exact ⟨String.toList_injective htext, hrest⟩

theorem stableHash_fields {sha256 : String → String} (hsha : Function.Injective sha256) {fields fields' : List (String × List Char)}
    (h : stableHash sha256 fields = stableHash sha256 fields') : dumpsFields fields = dumpsFields fields' := by
  have htext := String.ofList_injective (hsha h)
  simpa using htext

theorem identityKey_injective {sha256 : String → String} (hsha : Function.Injective sha256)
    {policy command environment metadata policy' command' environment' metadata' : String}
    (h : identityKey sha256 policy command environment metadata = identityKey sha256 policy' command' environment' metadata') :
    strippedCommand command = strippedCommand command' ∧ environment = environment' ∧ policy = policy' ∧ metadata = metadata' := by
  unfold identityKey at h
  have hfields := stableHash_fields hsha h
  obtain ⟨hcommand, hfields⟩ := dumpsFields_cons (by simp) hfields
  obtain ⟨henvironment, hfields⟩ := dumpsFields_cons (by simp) hfields
  obtain ⟨hpolicy, hfields⟩ := dumpsFields_cons (by simp) hfields
  obtain ⟨hmetadata, -⟩ := dumpsFields_cons (by simp) hfields
  exact ⟨hcommand, henvironment, hpolicy, hmetadata⟩

theorem candidateKey_injective {sha256 : String → String} (hsha : Function.Injective sha256)
    {identity source context identity' source' context' : String}
    (h : candidateKey sha256 identity source context = candidateKey sha256 identity' source' context') :
    identity = identity' ∧ source = source' ∧ context = context' := by
  unfold candidateKey at h
  have hfields := stableHash_fields hsha h
  obtain ⟨hcontext, hfields⟩ := dumpsFields_cons (by simp) hfields
  obtain ⟨hidentity, hfields⟩ := dumpsFields_cons (by simp) hfields
  obtain ⟨hsource, -⟩ := dumpsFields_cons (by simp) hfields
  exact ⟨hidentity, hsource, hcontext⟩

/-! ### Rows come from records -/

/-- A call of the sequence that recorded a result: nothing was refused, and its artifacts were stored. -/
structure Recorded (reader : Reader) (calls : List Call) (cache : Cache) (moment : Moment) (request : Request)
    (result : CommandResult) : Prop where
  called : Call.record cache moment request result ∈ calls
  accepted : refusesResult cache request result = false
  stored : storeArtifacts reader cache moment result.artifacts = true

theorem Recorded.mono {calls calls' : List Call} {cache : Cache} {moment : Moment} {request : Request} {result : CommandResult}
    (h : Recorded reader calls cache moment request result) (hsub : calls ⊆ calls') :
    Recorded reader calls' cache moment request result :=
  ⟨hsub h.called, h.accepted, h.stored⟩

/-- Each certificate is of a record, and a success with the same key is of the same one. -/
structure Backed (reader : Reader) (calls : List Call) (db : Database) : Prop where
  certificates : ∀ row ∈ db.certificates.rows, ∃ cache moment request result,
    Recorded reader calls cache moment request result ∧ row = certificateRow reader cache moment request result
  successes : ∀ success ∈ db.successes.rows, ∀ row ∈ db.certificates.rows, success.cacheKey = row.cacheKey →
    ∃ cache moment request result, Recorded reader calls cache moment request result ∧
      row = certificateRow reader cache moment request result ∧ success = successRow reader cache moment request result

theorem Backed.mono {calls calls' : List Call} {db : Database} (h : Backed reader calls db) (hsub : calls ⊆ calls') :
    Backed reader calls' db := by
  constructor
  · intro row hrow
    obtain ⟨cache, moment, request, result, hrecorded, heq⟩ := h.certificates row hrow
    exact ⟨cache, moment, request, result, hrecorded.mono hsub, heq⟩
  · intro success hsuccess row hrow hkey
    obtain ⟨cache, moment, request, result, hrecorded, heq⟩ := h.successes success hsuccess row hrow hkey
    exact ⟨cache, moment, request, result, hrecorded.mono hsub, heq⟩

theorem mem_prune {ρ : Type} {key : ρ → String} {updatedAt : ρ → Int} {tie : String → Nat} {oldest : Int} {rows : Table key}
    {row : ρ} (h : row ∈ (prune updatedAt tie oldest rows).rows) : row ∈ rows.rows :=
  (Table.mem_filter.mp (Table.mem_filter.mp h).1).1

theorem Backed.record {calls : List Call} {db : Database} {cache : Cache} {moment : Moment} {request : Request}
    {result : CommandResult} (h : Backed reader calls db) (hrecorded : Recorded reader calls cache moment request result) :
    Backed reader calls (recordResult reader cache moment db request result) := by
  unfold recordResult
  split
  · exact h
  split
  · exact h
  split
  · exact h
  constructor
  · intro row hrow
    rcases Table.mem_insertOrReplace.mp (mem_prune hrow) with rfl | ⟨hold, -⟩
    · exact ⟨cache, moment, request, result, hrecorded, rfl⟩
    · exact h.certificates row hold
  · intro success hsuccess row hrow hkey
    -- both rows of a key are replaced together
    rcases Table.mem_insertOrReplace.mp (mem_prune hsuccess) with rfl | ⟨holdSuccess, hneSuccess⟩ <;>
      rcases Table.mem_insertOrReplace.mp (mem_prune hrow) with rfl | ⟨hold, hne⟩
    · exact ⟨cache, moment, request, result, hrecorded, rfl, rfl⟩
    · exact absurd hkey.symm hne
    · exact absurd hkey hneSuccess
    · exact h.successes success holdSuccess row hold hkey

theorem Backed.exec {calls : List Call} {db : Database} (call : Call) (h : Backed reader calls db) :
    Backed reader (calls ++ [call]) (call.exec reader db) := by
  have hold : Backed reader (calls ++ [call]) db := h.mono (List.subset_append_left _ _)
  cases call with
  | lookup cache moment request => exact hold
  | record cache moment request result =>
      simp only [Call.exec]
      by_cases haccepted : refusesResult cache request result = false
      · by_cases hstored : storeArtifacts reader cache moment result.artifacts = true
        · exact hold.record ⟨by simp, haccepted, hstored⟩
        · unfold recordResult
          rw [if_neg (by simp [haccepted]), if_pos (by simpa using hstored)]
          exact hold
      · unfold recordResult
        rw [if_pos (by simpa using haccepted)]
        exact hold

theorem databaseAfter_backed (reader : Reader) (calls : List Call) : Backed reader calls (databaseAfter reader calls) := by
  induction calls using List.reverseRec with
  | nil => exact ⟨fun _ h => absurd h List.not_mem_nil, fun _ h => absurd h List.not_mem_nil⟩
  | append_singleton calls call ih =>
      have hafter : databaseAfter reader (calls ++ [call]) = call.exec reader (databaseAfter reader calls) := by
        simp [databaseAfter]
      rw [hafter]
      exact ih.exec call

/-! ### What a hit says -/

variable {cache : Cache} {moment : Moment} {request : Request} {db : Database}

theorem Cache.restore_spec (cache : Cache) (moment : Moment) (m : Machine) (payload : Certificate) :
    m.Kept (cache.restore reader moment m payload).1 ∧
      ((cache.restore reader moment m payload).2 = true → ∀ artifact ∈ payload.artifacts,
        (cache.restore reader moment m payload).1.Holds reader.sha256 cache.projectRoot payload.artifactModes artifact.1 artifact.2) :=
  restoreArtifacts_spec m payload.artifacts

/-- What is known of the certificate that was taken up: the files it was matched on, and those that are left. -/
structure TakenUp (reader : Reader) (cache : Cache) (moment : Moment) (payload : Certificate) (matched left : Machine) : Prop where
  before : moment.machine.Kept matched
  after : matched.Kept left
  artifacts : ∀ artifact ∈ payload.artifacts,
    left.Holds reader.sha256 cache.projectRoot payload.artifactModes artifact.1 artifact.2

theorem lookupExact_some {payload : Certificate} {hit : CommandResult}
    (h : (lookupExact reader cache moment request payload).result = some hit) :
    hit.artifacts = payload.artifacts ∧
      (payload.observedInputs ≠ [] → cacheMatches reader cache moment.machine payload.observedInputs = .ok true) ∧
      TakenUp reader cache moment payload moment.machine (lookupExact reader cache moment request payload).machine := by
  unfold lookupExact at h ⊢
  simp only at h ⊢
  split at h
  · cases h
  · cases h
  next hfound =>
  have hrestore := @Cache.restore_spec reader cache moment moment.machine payload
  split at h
  · cases h
  next m hdone =>
  rw [hdone] at hrestore
  obtain rfl := Option.some.inj h
  refine ⟨rfl, fun hne => ?_, ⟨.refl _, hrestore.1, hrestore.2 rfl⟩⟩
  rwa [if_neg hne] at hfound

theorem tryCandidates_some {m m' : Machine} {rows : List (SuccessRow × CertificateRow)} {payload : Certificate}
    (hkept : moment.machine.Kept m) (h : tryCandidates reader cache moment m rows = (m', .ok (some payload))) :
    ∃ row certificate matched, (row, certificate) ∈ rows ∧ certificate.resultPayload = payload ∧
      cacheMatches reader cache matched row.observedInputs = .ok true ∧ TakenUp reader cache moment payload matched m' := by
  induction rows generalizing m with
  | nil => simp [tryCandidates] at h
  | cons first rest ih =>
      obtain ⟨row, certificate⟩ := first
      have hlater : ∀ {m}, moment.machine.Kept m → tryCandidates reader cache moment m rest = (m', .ok (some payload)) →
          ∃ row' certificate' matched, (row', certificate') ∈ (row, certificate) :: rest ∧ certificate'.resultPayload = payload ∧
            cacheMatches reader cache matched row'.observedInputs = .ok true ∧ TakenUp reader cache moment payload matched m' := by
        intro m hm hrest
        obtain ⟨row', certificate', matched, hmem, hfound⟩ := ih hm hrest
        exact ⟨row', certificate', matched, List.mem_cons_of_mem _ hmem, hfound⟩
      unfold tryCandidates at h
      split at h
      · simp at h
      · exact hlater hkept h
      next hmatches =>
      have hrestore := @Cache.restore_spec reader cache moment m certificate.resultPayload
      split at h
      · next m1 hdone =>
          rw [hdone] at hrestore
          simp only [Prod.mk.injEq, Except.ok.injEq, Option.some.injEq] at h
          obtain ⟨rfl, rfl⟩ := h
          exact ⟨row, certificate, m, List.mem_cons_self, rfl, hmatches, ⟨hkept, hrestore.1, hrestore.2 rfl⟩⟩
      · next m1 hleft =>
          -- what was put back for this row stays
          rw [hleft] at hrestore
          exact hlater (hkept.trans hrestore.1) h

/-- The row permits to be taken up for any source. -/
structure Permitted (cache : Cache) (moment : Moment) (identity : String) (row : SuccessRow) : Prop where
  identityKey : row.identityKey = identity
  context : row.contextFingerprint = ""
  complete : row.traceComplete = true
  recent : moment.now - cache.maxAgeSeconds ≤ row.updatedAt

theorem mem_candidateRows {identity : String} {row : SuccessRow} {certificate : CertificateRow}
    (h : (row, certificate) ∈ candidateRows cache moment db identity) :
    row ∈ db.successes.rows ∧ certificate ∈ db.certificates.rows ∧ row.cacheKey = certificate.cacheKey ∧
      Permitted cache moment identity row := by
  have hmem := List.mem_of_mem_take h
  unfold newestFirst at hmem
  rw [List.mem_insertionSort] at hmem
  obtain ⟨success, hsuccess, hjoined⟩ := List.mem_filterMap.mp hmem
  split at hjoined
  · next hpermitted =>
      obtain ⟨found, hfound, heq⟩ := Option.map_eq_some_iff.mp hjoined
      obtain ⟨rfl, rfl⟩ := Prod.mk.inj heq
      obtain ⟨hcertificate, hkey⟩ := Table.find_some hfound
      obtain ⟨hidentity, hcontext, hcomplete, -, hrecent⟩ := hpermitted
      exact ⟨hsuccess, hcertificate, hkey.symm, ⟨hidentity, hcontext, hcomplete, hrecent⟩⟩
  · cases hjoined

theorem lookupObserved_some {hit : CommandResult} (h : (lookupObserved reader cache moment db request).result = some hit) :
    permitsObserved request.resultCacheScope = true ∧ ∃ row certificate matched,
      (row, certificate) ∈ candidateRows cache moment db (requestIdentity reader cache moment request) ∧
      hit.artifacts = certificate.resultPayload.artifacts ∧ cacheMatches reader cache matched row.observedInputs = .ok true ∧
      TakenUp reader cache moment certificate.resultPayload matched (lookupObserved reader cache moment db request).machine := by
  unfold lookupObserved at h ⊢
  split at h
  · cases h
  next hpermits =>
  rw [if_neg hpermits]
  simp only at h ⊢
  split at h
  · cases h
  · next m payload hfound =>
      obtain ⟨row, certificate, matched, hmem, rfl, hmatches, htaken⟩ := tryCandidates_some (.refl _) hfound
      obtain rfl := Option.some.inj h
      exact ⟨by simpa using hpermits, row, certificate, matched, hmem, rfl, hmatches, htaken⟩
  · cases h

/-- A hit is by the key, or by the observed inputs. -/
theorem lookupWithReason_some {hit : CommandResult} (h : (lookupWithReason reader cache moment db request).result = some hit) :
    (∃ row ∈ db.certificates.rows, row.cacheKey = requestKey reader cache moment request ∧
      moment.now - cache.maxAgeSeconds ≤ row.updatedAt ∧
      lookupWithReason reader cache moment db request = lookupExact reader cache moment request row.resultPayload) ∨
    lookupWithReason reader cache moment db request = lookupObserved reader cache moment db request := by
  unfold lookupWithReason at h ⊢
  split at h
  · cases h
  next hidentity =>
  split at h
  · cases h
  next hdisabled =>
  split at h
  · cases h
  next hoff =>
  split at h
  · cases h
  next hfails =>
  rw [if_neg hidentity, if_neg hdisabled, if_neg hoff, if_neg hfails]
  split at h
  · next row hrow =>
      left
      obtain ⟨hfound, hrecent⟩ := Option.filter_eq_some_iff.mp hrow
      obtain ⟨hmem, hkey⟩ := Table.find_some hfound
      exact ⟨row, hmem, hkey, by simpa using hrecent, rfl⟩
  · right
    rfl

/-! ### What was recorded -/

variable {result : CommandResult}

/-- The result was a success that left nothing open. -/
structure CommandResult.Clean (result : CommandResult) : Prop where
  ok : result.ok = true
  fresh : result.cached = false
  ended : result.terminationReason = ""
  unmutated : result.mutationPaths = []
  infrastructure : result.infrastructureError = false
  cleanup : result.cleanupIncomplete = false

theorem clean_of_accepted (h : refusesResult cache request result = false) : result.Clean := by
  simp only [refusesResult, Bool.or_eq_false_iff, bne_eq_false_iff_eq, Bool.not_eq_false'] at h
  obtain ⟨⟨⟨⟨⟨⟨-, hended⟩, hcleanup⟩, hinfrastructure⟩, hunmutated⟩, hfresh⟩, hok⟩ := h
  exact ⟨hok, hfresh, hended, hunmutated, hinfrastructure, hcleanup⟩

theorem artifactModes_lookup {artifacts : Artifacts} {name expected data : String} {mode : Nat} (hmem : (name, expected) ∈ artifacts)
    (hfile : artifactFile moment.machine cache.projectRoot name = some (data, mode)) :
    (artifactModes cache moment artifacts).lookup name = some (mode &&& 0o777) := by
  induction artifacts with
  | nil => cases hmem
  | cons artifact rest ih =>
      unfold artifactModes at ih ⊢
      rw [List.filterMap_cons]
      by_cases hname : artifact.1 = name
      · rw [hname, hfile]
        simp
      · have hrest : (name, expected) ∈ rest := by
          rcases List.mem_cons.mp hmem with rfl | hrest
          · exact absurd rfl hname
          · exact hrest
        cases hfound : artifactFile moment.machine cache.projectRoot artifact.1 with
        | none => simpa using ih hrest
        | some found =>
            have hne : (name == artifact.1) = false := by simpa using fun h => hname h.symm
            simp only [Option.map_some, List.lookup_cons, hne]
            exact ih hrest

/-- Each artifact was there when it was recorded, with the content and the mode that the certificate keeps. -/
theorem stored_artifact {artifacts : Artifacts} (h : storeArtifacts reader cache moment artifacts = true) {name expected : String}
    (hmem : (name, expected) ∈ artifacts) :
    ∃ data mode, artifactFile moment.machine cache.projectRoot name = some (data, mode) ∧ reader.sha256 data = expected ∧
      modeOf (artifactModes cache moment artifacts) name = mode &&& 0o777 := by
  have hturn := List.all_eq_true.mp h _ hmem
  simp only at hturn
  split at hturn
  · cases hturn
  next data mode hfile =>
  refine ⟨data, mode, hfile, ?_, ?_⟩
  · simp only [Bool.and_eq_true, beq_iff_eq] at hturn
    exact hturn.1
  · rw [modeOf, artifactModes_lookup hmem hfile, Option.getD_some, Nat.and_assoc, Nat.and_self]

/-- An artifact that is taken up has the content and the mode that it was recorded with. -/
theorem TakenUp.recorded (hsha : Function.Injective reader.sha256) {cache' : Cache} {moment' : Moment} {matched left : Machine}
    (h : TakenUp reader cache moment (certificateOf cache' moment' result) matched left)
    (hstored : storeArtifacts reader cache' moment' result.artifacts = true) :
    ∀ artifact ∈ result.artifacts, ∃ data mode mode',
      artifactFile moment'.machine cache'.projectRoot artifact.1 = some (data, mode) ∧
        left.node (cache.projectRoot ++ pathParts artifact.1) = some (.file data mode') ∧ mode' &&& 0o777 = mode &&& 0o777 := by
  intro artifact hartifact
  obtain ⟨data, mode, hfile, hdigest, hmode⟩ := stored_artifact hstored hartifact
  obtain ⟨data', mode', hnode, hdigest', hmode'⟩ := h.artifacts artifact hartifact
  obtain rfl := hsha (hdigest'.trans hdigest.symm)
  exact ⟨data', mode, mode', hfile, hnode, hmode'.trans hmode⟩

/-- A proof is taken up only where it still is one. A hit is of an earlier record of a clean success, no older than the
cache admits, of the same command, environment, metadata and policy. Either source and context are the same, and all
inputs that were observed match; or the scope permits observed inputs, the trace was complete and saw no network, no
context was bound, and every input matches the files when its row is tried. Each artifact is there, with the content and
the mode that it had. -/
theorem hit_recorded (reader : Reader) (hsha : Function.Injective reader.sha256) (calls : List Call) (cache : Cache)
    (moment : Moment) (request : Request) {hit : CommandResult}
    (h : (lookupWithReason reader cache moment (databaseAfter reader calls) request).result = some hit) :
    ∃ cache' moment' request' result, Call.record cache' moment' request' result ∈ calls ∧
      moment.now - cache.maxAgeSeconds ≤ moment'.now ∧ strippedCommand request'.command = strippedCommand request.command ∧
      cache'.environmentFingerprint = cache.environmentFingerprint ∧ request'.metadataSignature = request.metadataSignature ∧
      moment'.policy = moment.policy ∧ result.Clean ∧ hit.artifacts = result.artifacts ∧
      (request'.sourceFingerprint = request.sourceFingerprint ∧ contextOf cache' request' = contextOf cache request ∧
          (result.observedInputs ≠ [] → cacheMatches reader cache moment.machine result.observedInputs = .ok true) ∨
        permitsObserved request.resultCacheScope = true ∧ result.inputTraceComplete = true ∧ result.networkObserved = false ∧
          contextOf cache' request' = "" ∧ result.observedInputs ≠ [] ∧
          ∃ matched, moment.machine.Kept matched ∧
            matched.Kept (lookupWithReason reader cache moment (databaseAfter reader calls) request).machine ∧
            cacheMatches reader cache matched result.observedInputs = .ok true) ∧
      ∀ artifact ∈ result.artifacts, ∃ data mode mode',
        artifactFile moment'.machine cache'.projectRoot artifact.1 = some (data, mode) ∧
          (lookupWithReason reader cache moment (databaseAfter reader calls) request).machine.node
            (cache.projectRoot ++ pathParts artifact.1) = some (.file data mode') ∧ mode' &&& 0o777 = mode &&& 0o777 := by
  have hbacked := databaseAfter_backed reader calls
  rcases lookupWithReason_some h with ⟨row, hrow, hkey, hrecent, heq⟩ | heq
  · -- by the key
    rw [heq] at h ⊢
    obtain ⟨cache', moment', request', result, hrecorded, rfl⟩ := hbacked.certificates row hrow
    obtain ⟨hartifacts, hmatches, htaken⟩ := lookupExact_some h
    obtain ⟨hidentity, hsource, hcontext⟩ := candidateKey_injective hsha hkey
    obtain ⟨hcommand, henvironment, hpolicy, hmetadata⟩ := identityKey_injective hsha hidentity
    exact ⟨cache', moment', request', result, hrecorded.called, hrecent, hcommand, henvironment, hmetadata, hpolicy,
      clean_of_accepted hrecorded.accepted, hartifacts, .inl ⟨hsource, hcontext, hmatches⟩,
      htaken.recorded hsha hrecorded.stored⟩
  · -- by the observed inputs
    rw [heq] at h ⊢
    obtain ⟨hpermits, success, row, matched, hmem, hartifacts, hmatches, htaken⟩ := lookupObserved_some h
    obtain ⟨hsuccess, hrow, hkey, hpermitted⟩ := mem_candidateRows hmem
    obtain ⟨cache', moment', request', result, hrecorded, rfl, rfl⟩ := hbacked.successes success hsuccess row hrow hkey
    obtain ⟨hcommand, henvironment, hpolicy, hmetadata⟩ := identityKey_injective hsha hpermitted.identityKey
    have hne : reusableInputs request' result ≠ [] := by simpa [successRow] using hpermitted.complete
    have hinputs : reusableInputs request' result = result.observedInputs ∧ result.inputTraceComplete = true ∧
        result.networkObserved = false := by
      unfold reusableInputs at hne ⊢
      split at hne
      · next hreusable => rw [if_pos hreusable]; exact ⟨rfl, hreusable.2.1, hreusable.2.2⟩
      · exact absurd rfl hne
    obtain ⟨hsame, hcomplete, hnetwork⟩ := hinputs
    simp only [successRow, hsame] at hmatches
    rw [hsame] at hne
    exact ⟨cache', moment', request', result, hrecorded.called, hpermitted.recent, hcommand, henvironment, hmetadata, hpolicy,
      clean_of_accepted hrecorded.accepted, hartifacts,
      .inr ⟨hpermits, hcomplete, hnetwork, hpermitted.context, hne, matched, htaken.before, htaken.after, hmatches⟩,
      htaken.recorded hsha hrecorded.stored⟩

/-! ### Two lookups -/

/-- Texts as their own digests. -/
def plainReader : Reader := ⟨id, fun _ _ _ _ => false⟩

/-- A project of one file. -/
def smallMachine : Machine := ⟨[(["work", "app.py"], .file "print" 0o644), (["work"], .directory)]⟩

def smallMoment (now : Int) : Moment where
  machine := smallMachine
  blobs _ := none
  takesBlob _ := true
  now := now
  policy := "policy"

def testRequest (source scope : String) : Request := ⟨" pytest", source, scope, "auto", "metadata"⟩

def passed : CommandResult where
  command := "pytest"
  ok := true
  returncode := 0
  observedInputs := [("app.py", "file:print")]
  inputTraceComplete := true

def plainCache (context : String) : Cache := { projectRoot := ["work"], contextFingerprint := context }

section

variable (context scope : String)

/-- A result that is recorded in some context and scope, and nothing else. -/
def smallCalls : List Call := [.record (plainCache context) (smallMoment 10) (testRequest "first" scope) passed]

theorem small_certificates : (databaseAfter plainReader (smallCalls context scope)).certificates.rows =
    [certificateRow plainReader (plainCache context) (smallMoment 10) (testRequest "first" scope) passed] := rfl

theorem small_successes : (databaseAfter plainReader (smallCalls context scope)).successes.rows =
    [successRow plainReader (plainCache context) (smallMoment 10) (testRequest "first" scope) passed] := rfl

variable {context scope}

/-- Where the scope binds it to no context, another source takes it up by what it has read: the key of its source is another one. -/
theorem small_hit (other : String) (hcontext : contextOf (plainCache context) (testRequest "first" scope) = "") :
    ∃ hit, lookupWithReason plainReader (plainCache other) (smallMoment 20) (databaseAfter plainReader (smallCalls context scope))
      (testRequest "second" scope) = ⟨some hit, "hit", smallMachine, false⟩ := by
  have hexact : (databaseAfter plainReader (smallCalls context scope)).certificates.find
      (requestKey plainReader (plainCache other) (smallMoment 20) (testRequest "second" scope)) = none := by
    refine Table.find_eq_none.mpr fun row hrow hkey => ?_
    rw [small_certificates, List.mem_singleton] at hrow
    subst hrow
    exact absurd (candidateKey_injective Function.injective_id hkey).2.1 (by decide : "first" ≠ "second")
  have hcandidates : candidateRows (plainCache other) (smallMoment 20) (databaseAfter plainReader (smallCalls context scope))
      (requestIdentity plainReader (plainCache other) (smallMoment 20) (testRequest "second" scope)) =
        [(successRow plainReader (plainCache context) (smallMoment 10) (testRequest "first" scope) passed,
          certificateRow plainReader (plainCache context) (smallMoment 10) (testRequest "first" scope) passed)] := by
    have hfind := @Table.find_of_mem _ _ _ _ (databaseAfter plainReader (smallCalls context scope)).certificates
      (certificateRow plainReader (plainCache context) (smallMoment 10) (testRequest "first" scope) passed)
      (by rw [small_certificates]; exact List.mem_singleton_self _)
    rw [candidateRows, small_successes, List.filterMap_cons, if_pos ⟨rfl, hcontext, rfl, rfl, (by decide : (20 : Int) - 14 * 24 * 60 * 60 ≤ 10)⟩]
    simp only [successRow, certificateRow] at hfind ⊢
    rw [hfind]
    rfl
  have hreason : lookupWithReason plainReader (plainCache other) (smallMoment 20) (databaseAfter plainReader (smallCalls context scope))
      (testRequest "second" scope) = lookupObserved plainReader (plainCache other) (smallMoment 20)
        (databaseAfter plainReader (smallCalls context scope)) (testRequest "second" scope) := by
    have henvironment : ¬ "unavailable:".toList.isPrefixOf (plainCache other).environmentFingerprint.toList = true :=
      (by decide : ¬ "unavailable:".toList.isPrefixOf "".toList = true)
    have hscope : (testRequest "second" scope).resultCacheScope ≠ "off" := (by decide : "auto" ≠ "off")
    have henabled : (plainCache other).disabled ≠ true := (by decide : false ≠ true)
    have hworks : (smallMoment 20).databaseFails ≠ true := (by decide : false ≠ true)
    rw [lookupWithReason, if_neg henvironment, if_neg henabled, if_neg hscope, if_neg hworks, hexact]
    simp only [Option.filter_none]
  have hpermits : ¬ permitsObserved (testRequest "second" scope).resultCacheScope = false := (by decide : ¬ permitsObserved "auto" = false)
  rw [hreason, lookupObserved, if_neg hpermits, hcandidates]
  exact ⟨_, rfl⟩

end

/-- A result that was recorded for one source, and is looked up for another. -/
def sourceCalls : List Call := [.record (plainCache "run") (smallMoment 10) (testRequest "first" "source") passed]

theorem hit_recorded_source :
    ∃ cache' moment' request' result, Call.record cache' moment' request' result ∈ sourceCalls ∧
      contextOf cache' request' = "" ∧ result.observedInputs ≠ [] := by
  obtain ⟨hit, hreason⟩ := small_hit "other" (by decide +kernel : contextOf (plainCache "run") (testRequest "first" "source") = "")
  have hhit : (lookupWithReason plainReader (plainCache "other") (smallMoment 20) (databaseAfter plainReader sourceCalls)
      (testRequest "second" "source")).result = some hit := congrArg Lookup.result hreason
  obtain ⟨cache', moment', request', result, hcalled, -, -, -, -, -, -, -, hfound, -⟩ :=
    hit_recorded plainReader Function.injective_id sourceCalls (plainCache "other") (smallMoment 20) (testRequest "second" "source") hhit
  obtain ⟨rfl, rfl, rfl, rfl⟩ : cache' = plainCache "run" ∧ moment' = smallMoment 10 ∧ request' = testRequest "first" "source" ∧
      result = passed := by simpa [sourceCalls] using hcalled
  rcases hfound with ⟨hsource, -⟩ | ⟨-, -, -, hcontext, hinputs, -⟩
  · exact absurd hsource (by decide)
  · exact ⟨_, _, _, _, hcalled, hcontext, hinputs⟩

/-- A cache without a context takes up, for another source, what was not recorded in source scope. -/
theorem unscoped_proof_reused :
    ∃ (calls : List Call) (cache : Cache) (moment : Moment) (request : Request),
      (lookupWithReason plainReader cache moment (databaseAfter plainReader calls) request).reason = "hit" ∧
        ∀ cache' moment' request' result, Call.record cache' moment' request' result ∈ calls →
          request'.sourceFingerprint ≠ request.sourceFingerprint ∧ stripLower request'.cacheScope ≠ "source" := by
  refine ⟨[.record (plainCache "") (smallMoment 10) (testRequest "first" "run_context") passed], plainCache "",
    smallMoment 20, testRequest "second" "run_context", ?_, ?_⟩
  · obtain ⟨hit, hreason⟩ := small_hit "" (by decide +kernel : contextOf (plainCache "") (testRequest "first" "run_context") = "")
    exact congrArg Lookup.reason hreason
  · intro cache' moment' request' result hcalled
    obtain ⟨-, -, rfl, -⟩ : cache' = plainCache "" ∧ moment' = smallMoment 10 ∧ request' = testRequest "first" "run_context" ∧
        result = passed := by simpa using hcalled
    exact ⟨(by decide : "first" ≠ "second"), (by decide +kernel : stripLower "run_context" ≠ "source")⟩

end AutoAgents.Proofs
