import AutoAgents.WorkerSigning

/-! Repeated requests. An attacker may repeat, delay, reorder and alter what it has seen, but it cannot sign. What passes was signed
as it is; whether it passes once depends on the times at which nonces are claimed. -/

namespace AutoAgents.Worker

open Base

variable {lib : Library} {state : ClusterState}

/-- The arrival has everything that the request was signed over. -/
def Arrival.carries (a : Arrival) (r : Signed lib) : Bool :=
  a.command.toUpper == r.method.toUpper && a.path == r.path && a.body == r.body && a.timestamp == r.timestamp && a.nonce == r.nonce

/-- What comes to one running server. The secret of the cluster signs requests and the messages of discovery, which have no
method; a signature that is right is one of these, and no two requests have the same nonce. -/
structure Traffic (lib : Library) (state : ClusterState) where
  requests : List (Signed lib)
  discovery : List (List (String × Json FloatLiteral))
  /-- In the order in which they get to the table of nonces. -/
  arrivals : List Arrival
  injective : Function.Injective lib.sha256
  nonces : (requests.map Signed.nonce).Nodup
  discovery_fields : ∀ fields ∈ discovery, (Json.obj fields).Distinct ∧ fields.lookup "method" = none
  unforged : ∀ a ∈ arrivals, signPayload lib state (a.payload lib) = a.signature →
    (∃ r ∈ requests, canonicalJson (a.payload lib) = canonicalJson r.payload) ∨
      ∃ fields ∈ discovery, canonicalJson (a.payload lib) = canonicalJson (.obj fields)

/-! ### Signatures -/

theorem authPayload_distinct (method path : String) (body : Bytes) (timestamp nonce : String) :
    (authPayload lib method path body timestamp nonce).Distinct := by
  simp [authPayload, Json.Distinct, DistinctFields]

/-- A canonical text is signed over one request only. -/
theorem carries_of_canonical (hinjective : Function.Injective lib.sha256) {a : Arrival} {r : Signed lib}
    (h : canonicalJson (a.payload lib) = canonicalJson r.payload) : a.carries r = true := by
  have hfield := canonicalJson_lookup (authPayload_distinct ..) (authPayload_distinct ..) h
  have hmethod : a.command.toUpper = r.method.toUpper := by simpa [Json.sorted, List.lookup_cons] using hfield "method"
  have hpath : a.path = r.path := by simpa [Json.sorted, List.lookup_cons] using hfield "path"
  have hbody : a.body = r.body := hinjective (by simpa [Json.sorted, List.lookup_cons] using hfield "body_sha256")
  have htimestamp : a.timestamp = r.timestamp := by simpa [Json.sorted, List.lookup_cons] using hfield "timestamp"
  have hnonce : a.nonce = r.nonce := by simpa [Json.sorted, List.lookup_cons] using hfield "nonce"
  simp [Arrival.carries, hmethod, hpath, hbody, htimestamp, hnonce]

namespace Traffic

variable (t : Traffic lib state)

/-- What gets past the checks was signed as it is. -/
theorem signed {a : Arrival} (hmem : a ∈ t.arrivals) (hadmissible : admissible lib state a = true) :
    ∃ r ∈ t.requests, a.carries r = true := by
  rw [admissible, Bool.and_eq_true, verifyPayload, beq_iff_eq] at hadmissible
  rcases t.unforged a hmem hadmissible.2 with ⟨r, hr, hsame⟩ | ⟨fields, hfields, hsame⟩
  · exact ⟨r, hr, carries_of_canonical t.injective hsame⟩
  · obtain ⟨hdistinct, hnone⟩ := t.discovery_fields fields hfields
    have hmethod := canonicalJson_lookup (authPayload_distinct ..) hdistinct hsame "method"
    rw [hnone] at hmethod
    cases hmethod

/-- A nonce tells the request that it was signed for. -/
theorem carries_iff {a : Arrival} (hmem : a ∈ t.arrivals) (hadmissible : admissible lib state a = true) {r : Signed lib}
    (hr : r ∈ t.requests) : a.carries r = true ↔ a.nonce = r.nonce := by
  constructor
  · intro hcarries
    simp only [Arrival.carries, Bool.and_eq_true, beq_iff_eq] at hcarries
    exact hcarries.2
  · intro hnonce
    obtain ⟨signed, hsigned, hcarries⟩ := t.signed hmem hadmissible
    have hsame : signed.nonce = r.nonce := by
      simp only [Arrival.carries, Bool.and_eq_true, beq_iff_eq] at hcarries
      rw [← hcarries.2, hnonce]
    rwa [List.inj_on_of_nodup_map t.nonces hsigned hr hsame] at hcarries

/-- An arrival that gets past the checks comes within the window of what it carries. -/
theorem window {a : Arrival} {r : Signed lib} (hadmissible : admissible lib state a = true) (hcarries : a.carries r = true) :
    |a.check - r.clock| ≤ authWindowSeconds := by
  simp only [Arrival.carries, Bool.and_eq_true, beq_iff_eq] at hcarries
  rw [admissible, hcarries.1.2, r.stamped] at hadmissible
  simp only [outside, Bool.and_eq_true, Bool.not_eq_true', decide_eq_false_iff_not, not_lt] at hadmissible
  exact hadmissible.1.2

/-- What passes was signed with the secret for its method, path and body, and is within the window. -/
def Genuine : Prop :=
  ∀ a ∈ passing lib state [] t.arrivals, ∃ r ∈ t.requests, a.carries r = true ∧ |a.check - r.clock| ≤ authWindowSeconds

/-- How often a request passes. -/
def passes (r : Signed lib) : Nat := (passing lib state [] t.arrivals).countP fun a => a.carries r

theorem genuine : t.Genuine := by
  intro a ha
  obtain ⟨hmem, hadmissible⟩ := mem_passing ha
  obtain ⟨r, hr, hcarries⟩ := t.signed hmem hadmissible
  exact ⟨r, hr, hcarries, window hadmissible hcarries⟩

/-- A request passes as often as its nonce is admitted. -/
theorem passes_eq {r : Signed lib} (hr : r ∈ t.requests) :
    t.passes r = Remember.count live [] (claims lib state t.arrivals) r.nonce := by
  rw [passes, Remember.count, ← passing_claims, List.map_map, List.count, List.countP_map]
  refine List.countP_congr fun a ha => ?_
  obtain ⟨hmem, hadmissible⟩ := mem_passing ha
  rw [t.carries_iff hmem hadmissible hr]
  simp

/-- Every request passes at most once, as it was signed, exactly if none comes again after its nonce was forgotten. -/
theorem accepted_once_iff : ((∀ r ∈ t.requests, t.passes r ≤ 1) ∧ t.Genuine) ↔
    ∀ r ∈ t.requests, Remember.Kept live r.nonce (claims lib state t.arrivals) := by
  rw [and_iff_left t.genuine]
  refine forall₂_congr fun r hr => ?_
  rw [t.passes_eq hr]
  exact Remember.count_le_one_iff List.not_mem_nil

end Traffic

/-! ### A request that passes twice -/

/-- A library whose digests are the texts themselves. -/
def plainLibrary : Library where
  sha256 body := String.ofList (body.map Char.ofUInt8)
  hmac secret text := secret ++ String.ofList text
  float text := if text = "160.000000" then some (.number 160) else none

/-- The clock of the client is a minute ahead. -/
def aheadRequest : Signed plainLibrary where
  method := "POST"
  path := "/v1/jobs"
  body := []
  timestamp := "160.000000"
  nonce := "n"
  clock := 160
  stamped := rfl
  nonce_given := by decide

/-- The request as it comes at a time of the server. -/
def aheadArrival (now : ℚ) : Arrival where
  command := "POST"
  path := "/v1/jobs"
  body := []
  cluster := "c"
  timestamp := "160.000000"
  nonce := "n"
  signature := signPayload plainLibrary ⟨"c", "s"⟩ aheadRequest.payload
  check := now
  now := now
  ordered := le_rfl

def aheadTraffic : Traffic plainLibrary ⟨"c", "s"⟩ where
  requests := [aheadRequest]
  discovery := []
  arrivals := [aheadArrival 100, aheadArrival 161]
  injective a b h := by
    have hlist : a.map Char.ofUInt8 = b.map Char.ofUInt8 := String.ofList_injective h
    exact List.map_injective_iff.mpr (fun x y hxy => by simpa [Char.ofUInt8, ← UInt32.toNat_inj, ← UInt8.toNat_inj] using hxy) hlist
  nonces := List.nodup_singleton _
  discovery_fields _ h := absurd h List.not_mem_nil
  unforged a ha _ := by
    refine .inl ⟨aheadRequest, List.mem_singleton_self _, ?_⟩
    rcases List.mem_pair.mp ha with rfl | rfl <;> rfl

theorem ahead_passes_twice : ¬ ∀ (lib : Library) (state : ClusterState) (t : Traffic lib state),
    (∀ r ∈ t.requests, t.passes r ≤ 1) ∧ t.Genuine := by
  intro hall
  have htwice : aheadTraffic.passes aheadRequest = 2 := by decide +kernel
  have honce := (hall _ _ aheadTraffic).1 aheadRequest (List.mem_singleton_self _)
  omega

end AutoAgents.Worker
