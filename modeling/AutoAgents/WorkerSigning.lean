import AutoAgents.BaseJsonAscii
import AutoAgents.BaseJsonSort
import AutoAgents.BaseRemember

/-! The requests of a worker cluster. A request is signed over its method, its path, the digest of its body, a timestamp and a
nonce; the server accepts it if the signature is right, the timestamp is near its own clock and the nonce is not in its table. -/

namespace AutoAgents.Worker

open Base

abbrev Bytes := List UInt8

/-! ### Signatures -/

/-- `canonical_json` -/
def canonicalJson (payload : Json FloatLiteral) : List Char := ensureAscii payload.sorted.encode

/-- What a text is as a `float`. -/
inductive Reading
  | number (value : ℚ)
  | infinite
  | nan
  deriving DecidableEq

/-- The functions the cluster takes from its libraries: SHA-256, HMAC-SHA-256 and `float`. -/
structure Library where
  sha256 : Bytes → String
  hmac : String → List Char → String
  float : String → Option Reading

/-- The part of a cluster's state that authentication reads. -/
structure ClusterState where
  clusterId : String
  secret : String

def signPayload (lib : Library) (state : ClusterState) (payload : Json FloatLiteral) : String :=
  lib.hmac state.secret (canonicalJson payload)

def verifyPayload (lib : Library) (state : ClusterState) (payload : Json FloatLiteral) (signature : String) : Bool :=
  signPayload lib state payload == signature

/-- `_auth_payload` -/
def authPayload (lib : Library) (method path : String) (body : Bytes) (timestamp nonce : String) : Json FloatLiteral := .obj [
  ("method", .str method.toUpper), ("path", .str path), ("body_sha256", .str (lib.sha256 body)), ("timestamp", .str timestamp),
  ("nonce", .str nonce)]

/-- A document whose fields are texts of distinct names is told by its canonical text. -/
theorem canonicalJson_lookup {fields fields' : List (String × Json FloatLiteral)} (hdistinct : (Json.obj fields).Distinct)
    (hdistinct' : (Json.obj fields').Distinct) (h : canonicalJson (.obj fields) = canonicalJson (.obj fields')) (key : String) :
    (fields.lookup key).map Json.sorted = (fields'.lookup key).map Json.sorted := by
  have hsame : (Json.obj fields).sorted = (Json.obj fields').sorted := ensureAscii_injective hdistinct.sorted hdistinct'.sorted h
  rw [← lookup_sorted, ← lookup_sorted]
  simp only [Json.sorted, Json.obj.injEq] at hsame
  rw [hsame]

/-! ### Requests -/

/-- A request signed by `_headers`, with the time that its timestamp shows. -/
structure Signed (lib : Library) where
  method : String
  path : String
  body : Bytes
  timestamp : String
  nonce : String
  clock : ℚ
  stamped : lib.float timestamp = some (.number clock)
  nonce_given : nonce ≠ ""

def Signed.payload {lib : Library} (r : Signed lib) : Json FloatLiteral := authPayload lib r.method r.path r.body r.timestamp r.nonce

/-- A request as it comes in, and the two readings of the server's clock: one for the window, and one for the table of nonces. -/
structure Arrival where
  command : String
  path : String
  body : Bytes
  cluster : String
  timestamp : String
  nonce : String
  signature : String
  check : ℚ
  now : ℚ
  ordered : check ≤ now

def Arrival.payload (lib : Library) (a : Arrival) : Json FloatLiteral := authPayload lib a.command a.path a.body a.timestamp a.nonce

/-- `AUTH_WINDOW_SECONDS` -/
def authWindowSeconds : ℚ := 60

/-- `abs(time.time() - float(timestamp)) > AUTH_WINDOW_SECONDS` -/
def outside (check : ℚ) : Reading → Bool
  | .number value => decide (authWindowSeconds < |check - value|)
  | .infinite => true
  | .nan => false

/-- `now - seen <= AUTH_WINDOW_SECONDS` -/
def live (now seen : ℚ) : Bool := decide (now - seen ≤ authWindowSeconds)

/-- The nonces that the server has seen, with the times. -/
abbrev Nonces := List (String × ℚ)

/-- `claim_nonce` -/
def claimNonce (nonces : Nonces) (nonce : String) (now : ℚ) : Bool × Nonces :=
  if nonce = "" then (false, nonces) else Remember.claim live nonces nonce now

section

variable (lib : Library) (state : ClusterState)

/-- The checks of `_authenticated` before the nonce is claimed. -/
def admissible (a : Arrival) : Bool :=
  a.cluster == state.clusterId &&
    (match lib.float a.timestamp with
      | none => false
      | some reading => !outside a.check reading) &&
    verifyPayload lib state (a.payload lib) a.signature

/-- `_authenticated` -/
def authenticated (nonces : Nonces) (a : Arrival) : Bool × Nonces :=
  if admissible lib state a = true then claimNonce nonces a.nonce a.now else (false, nonces)

/-- The arrivals that pass, in the order in which they get to the table. -/
def passing (nonces : Nonces) : List Arrival → List Arrival
  | [] => []
  | a :: rest =>
      (if (authenticated lib state nonces a).1 = true then [a] else []) ++ passing (authenticated lib state nonces a).2 rest

/-- The arrivals that get to the table. -/
def claiming (arrivals : List Arrival) : List Arrival := arrivals.filter fun a => admissible lib state a && a.nonce != ""

/-- What they claim. -/
def claims (arrivals : List Arrival) : List (String × ℚ) := (claiming lib state arrivals).map fun a => (a.nonce, a.now)

end

variable {lib : Library} {state : ClusterState}

/-- The passing arrivals are those whose claims are admitted. -/
theorem passing_claims (nonces : Nonces) (arrivals : List Arrival) :
    (passing lib state nonces arrivals).map (fun a => (a.nonce, a.now)) =
      Remember.admitted live nonces (claims lib state arrivals) := by
  induction arrivals generalizing nonces with
  | nil => rfl
  | cons a rest ih =>
      rw [passing, List.map_append, ih]
      cases hadmissible : admissible lib state a with
      | false => simp [authenticated, hadmissible, claims, claiming]
      | true =>
          by_cases hnonce : a.nonce = ""
          · simp [authenticated, hadmissible, claims, claiming, claimNonce, hnonce]
          · have hclaims : claims lib state (a :: rest) = (a.nonce, a.now) :: claims lib state rest := by
              simp [claims, claiming, hadmissible, hnonce]
            rw [hclaims, Remember.admitted, authenticated, if_pos hadmissible, claimNonce, if_neg hnonce]
            split <;> simp

theorem mem_passing {nonces : Nonces} {arrivals : List Arrival} {a : Arrival} (h : a ∈ passing lib state nonces arrivals) :
    a ∈ arrivals ∧ admissible lib state a = true := by
  induction arrivals generalizing nonces with
  | nil => cases h
  | cons b rest ih =>
      rw [passing, List.mem_append] at h
      rcases h with hfirst | hrest
      · have hpass : (authenticated lib state nonces b).1 = true := by
          by_contra hnot
          rw [if_neg hnot] at hfirst
          cases hfirst
        rw [if_pos hpass, List.mem_singleton] at hfirst
        refine ⟨hfirst ▸ List.mem_cons_self, ?_⟩
        by_contra hnot
        rw [authenticated, ← hfirst, if_neg hnot] at hpass
        cases hpass
      · obtain ⟨hmem, hadmissible⟩ := ih hrest
        exact ⟨List.mem_cons_of_mem b hmem, hadmissible⟩

end AutoAgents.Worker
