import AutoAgents.RequirementIds

/-! Chains of traces, each an accepted transition from the one before it: no id is lost, no superseded record comes back, no
delivered id is taken again, and the contract of a delivered id changes once at most, to the one that the archive has. -/

namespace AutoAgents.Requirements

open Base

variable {φ : Type} {h : Host φ}

/-! ### One transition -/

section

variable [FloatText φ] {tasks : List (Json φ)} {before after : Json φ}

/-- What a transition without errors does to the record of an id. -/
structure Host.Keeps (h : Host φ) (tasks : List (Json φ)) (before after : Json φ) (id : String) : Prop where
  kept : id ∈ h.ids after
  absorbing : h.Superseded before id → h.Superseded after id
  contract : id ∈ h.deliveredRequirementIds tasks → ∀ old new, h.HasContract before id old → h.HasContract after id new →
    old = new ∨ h.Superseded before id ∧ h.Superseded after id ∧ old ∉ h.verifiedHashes tasks id ∧ h.verifiedHashes tasks id = [new]

/-- What a record without errors has in the later trace. -/
theorem retainedErrors_nil {previous current : ById φ} {id : String} {item : Fields φ}
    (hnone : h.retainedErrors previous current tasks id item = .ok []) :
    ∃ later old new, current.lookup id = some later ∧ h.requirementContractSha256 item = .ok old ∧
      h.requirementContractSha256 later = .ok new ∧
      (h.text item "status" "active" = "superseded" → h.text later "status" "active" = "superseded") ∧
      (id ∈ h.deliveredRequirementIds tasks → old ≠ new → (h.verifiedHashes tasks id).length = 1 ∧ old ∉ h.verifiedHashes tasks id ∧
        new ∈ h.verifiedHashes tasks id ∧ h.text item "status" "active" = "superseded" ∧
        h.text later "status" "active" = "superseded") := by
  unfold Host.retainedErrors at hnone
  split at hnone
  · cases hnone
  · next later hlater =>
      simp only [bind_ok] at hnone
      obtain ⟨old, hold, new, hnew, hnone⟩ := hnone
      refine ⟨later, old, new, hlater, hold, hnew, ?_⟩
      split at hnone
      · next hrestores =>
          exact ⟨fun _ => hrestores.2.2.2.2, fun _ _ => hrestores⟩
      · simp only [bind_ok, pure_ok, List.append_eq_nil_iff, errorIf_nil, Except.ok.injEq, exists_eq_left'] at hnone
        obtain ⟨⟨hreactivated, hdrift⟩, _⟩ := hnone
        constructor
        · intro hstatus
          simpa [hstatus] using hreactivated
        · intro hdelivered hchanged
          simp [hdelivered, hchanged] at hdrift

theorem keeps_of_retained {id : String} {item : Fields φ} (hitem : (h.recordsOf before).lookup id = some item)
    (hnone : h.retainedErrors (h.recordsOf before) (h.recordsOf after) tasks id item = .ok []) : h.Keeps tasks before after id := by
  obtain ⟨later, old, new, hlater, hold, hnew, hstatus, hchange⟩ := retainedErrors_nil hnone
  refine ⟨ids_of_lookup hlater, ?_, ?_⟩
  · rintro ⟨same, hsame, hsuperseded⟩
    rw [hitem, Option.some.injEq] at hsame
    exact ⟨later, hlater, hstatus (hsame ▸ hsuperseded)⟩
  · intro hdelivered old' new' hold' hnew'
    rw [hold'.unique ⟨item, hitem, hold⟩, hnew'.unique ⟨later, hlater, hnew⟩]
    by_cases hsame : old = new
    · exact .inl hsame
    · obtain ⟨hone, hout, hin, hbefore, hafter⟩ := hchange hdelivered hsame
      obtain ⟨hash, hhash⟩ := List.length_eq_one_iff.mp hone
      rw [hhash, List.mem_singleton] at hin
      exact .inr ⟨⟨item, hitem, hbefore⟩, ⟨later, hlater, hafter⟩, hout, hin ▸ hhash⟩

theorem step_keeps (hbefore : ∃ fields, before = .obj fields) (hafter : ∃ fields, after = .obj fields)
    (hstep : h.validateRequirementContractTransitions tasks before after = .ok []) :
    (∀ id ∈ h.ids before, h.Keeps tasks before after id) ∧
      ∀ id ∈ h.ids after, id ∉ h.ids before → id ∉ h.deliveredRequirementIds tasks := by
  obtain ⟨previous, rfl⟩ := hbefore
  obtain ⟨current, rfl⟩ := hafter
  simp only [transitions_eq, bind_ok, pure_ok, List.append_eq_nil_iff] at hstep
  obtain ⟨retained, hretained, _, _, _, _, ⟨hintroduced, hflat⟩, _⟩ := hstep
  constructor
  · intro id hid
    obtain ⟨item, hitem⟩ := lookup_of_ids hid
    obtain ⟨errors, herrors, hok⟩ := mapM_mem_of_mem hretained _ (mem_of_lookup hitem)
    rw [List.flatten_eq_nil_iff.mp hflat _ herrors] at hok
    exact keeps_of_retained hitem hok
  · exact introducedErrors_nil.mp hintroduced

end

/-! ### Chains -/

section

variable [FloatText φ] {tasks : List (Json φ)} {T : Nat → Json φ} {n : Nat}

/-- Every trace of the chain is without errors, and so is every transition. -/
structure Host.Accepted (h : Host φ) (tasks : List (Json φ)) (T : Nat → Json φ) (n : Nat) : Prop where
  valid : ∀ i ≤ n, h.Valid (T i)
  steps : ∀ i < n, h.validateRequirementContractTransitions tasks (T i) (T (i + 1)) = .ok []

theorem Host.Accepted.step (haccepted : h.Accepted tasks T n) {i : Nat} (hi : i < n) :
    (∀ id ∈ h.ids (T i), h.Keeps tasks (T i) (T (i + 1)) id) ∧
      ∀ id ∈ h.ids (T (i + 1)), id ∉ h.ids (T i) → id ∉ h.deliveredRequirementIds tasks :=
  step_keeps (haccepted.valid i hi.le).obj (haccepted.valid (i + 1) hi).obj (haccepted.steps i hi)

theorem Host.Accepted.kept (haccepted : h.Accepted tasks T n) {i j : Nat} (hij : i ≤ j) (hj : j ≤ n) {id : String}
    (hid : id ∈ h.ids (T i)) : id ∈ h.ids (T j) := by
  induction j, hij using Nat.le_induction with
  | base => exact hid
  | succ j _ ih => exact ((haccepted.step hj).1 id (ih (by omega))).kept

theorem Host.Accepted.absorbing (haccepted : h.Accepted tasks T n) {i j : Nat} (hij : i ≤ j) (hj : j ≤ n) {id : String}
    (hsuperseded : h.Superseded (T i) id) : h.Superseded (T j) id := by
  induction j, hij using Nat.le_induction with
  | base => exact hsuperseded
  | succ j _ ih =>
      have hbefore := ih (by omega)
      exact ((haccepted.step hj).1 id hbefore.mem_ids).absorbing hbefore

theorem Host.Accepted.reserved (haccepted : h.Accepted tasks T n) {i j : Nat} (hij : i ≤ j) (hj : j ≤ n) {id : String}
    (hid : id ∈ h.ids (T j)) (hnew : id ∉ h.ids (T i)) : id ∉ h.deliveredRequirementIds tasks := by
  induction j, hij using Nat.le_induction with
  | base => exact absurd hid hnew
  | succ j _ ih =>
      by_cases hbefore : id ∈ h.ids (T j)
      · exact ih (by omega) hbefore
      · exact (haccepted.step hj).2 id hid hbefore

/-- The contract of the id is the same in the whole chain, up to a trace. -/
def Host.Constant (h : Host φ) (T : Nat → Json φ) (m : Nat) (id : String) : Prop := ∃ hash, ∀ i ≤ m, h.HasContract (T i) id hash

/-- The contract of the id changes once, while it is superseded, from one that is not archived to the only one that is. -/
def Host.RestoredOnce (h : Host φ) (tasks : List (Json φ)) (T : Nat → Json φ) (m : Nat) (id : String) : Prop :=
  ∃ k < m, ∃ old new, (∀ i ≤ k, h.HasContract (T i) id old) ∧ (∀ i, k < i → i ≤ m → h.HasContract (T i) id new) ∧
    h.Superseded (T k) id ∧ h.Superseded (T (k + 1)) id ∧ old ∉ h.verifiedHashes tasks id ∧ h.verifiedHashes tasks id = [new]

theorem Host.Accepted.contract (haccepted : h.Accepted tasks T n) {id : String} (hid : id ∈ h.ids (T 0))
    (hdelivered : id ∈ h.deliveredRequirementIds tasks) :
    ∀ m ≤ n, h.Constant T m id ∨ h.RestoredOnce tasks T m id := by
  intro m hm
  induction m with
  | zero =>
      obtain ⟨hash, hhash⟩ := (haccepted.valid 0 hm).contract hid
      left
      refine ⟨hash, fun i hi => ?_⟩
      rw [Nat.le_zero.mp hi]
      exact hhash
  | succ m ih =>
      have hbefore : id ∈ h.ids (T m) := haccepted.kept (Nat.zero_le m) (by omega) hid
      have hkeeps := (haccepted.step hm).1 id hbefore
      obtain ⟨new, hnew⟩ := (haccepted.valid (m + 1) hm).contract hkeeps.kept
      rcases ih (by omega) with ⟨old, hconstant⟩ | ⟨k, hk, old, restored, hfirst, hlater, hsuperseded, hsuperseded', hout, harchive⟩
      · rcases hkeeps.contract hdelivered old new (hconstant m le_rfl) hnew with rfl | ⟨hbefore', hafter, hout, harchive⟩
        · left
          refine ⟨old, fun i hi => ?_⟩
          rcases Nat.le_succ_iff.mp hi with hle | rfl
          · exact hconstant i hle
          · exact hnew
        · right
          refine ⟨m, Nat.lt_succ_self m, old, new, hconstant, fun i hmi hi => ?_, hbefore', hafter, hout, harchive⟩
          have heq : i = m + 1 := by omega
          rw [heq]
          exact hnew
      · right
        -- the archive has the contract that was restored, so that a second change is refused
        have hsame : restored = new := by
          rcases hkeeps.contract hdelivered restored new (hlater m hk le_rfl) hnew with heq | ⟨_, _, hagain, _⟩
          · exact heq
          · exact absurd (harchive ▸ List.mem_singleton_self restored) hagain
        refine ⟨k, Nat.lt_succ_of_lt hk, old, restored, hfirst, fun i hki hi => ?_, hsuperseded, hsuperseded', hout, harchive⟩
        rcases Nat.le_succ_iff.mp hi with hle | rfl
        · exact hlater i hki hle
        · rw [hsame]
          exact hnew

/-- What holds of every chain of accepted transitions. -/
structure Host.Composes (h : Host φ) (tasks : List (Json φ)) (T : Nat → Json φ) (n : Nat) : Prop where
  kept : ∀ i j, i ≤ j → j ≤ n → ∀ id ∈ h.ids (T i), id ∈ h.ids (T j)
  absorbing : ∀ i j, i ≤ j → j ≤ n → ∀ id, h.Superseded (T i) id → h.Superseded (T j) id
  reserved : ∀ i j, i ≤ j → j ≤ n → ∀ id ∈ h.ids (T j), id ∉ h.ids (T i) → id ∉ h.deliveredRequirementIds tasks
  unused : ∀ i ≤ n, h.nextUnusedRequirementId (T i) tasks ∉ h.ids (T i) ∧
    h.nextUnusedRequirementId (T i) tasks ∉ h.deliveredRequirementIds tasks
  uncollided : ∀ i ≤ n, ∀ records found, h.collisionIds records tasks = .ok found → h.nextUnusedRequirementId (T i) tasks ∉ found
  admitted : ∀ i ≤ n, ∀ trace item, T i = .obj trace → h.text item "id" "" = h.nextUnusedRequirementId (T i) tasks →
    h.Valid (.obj (addRequirement trace item)) →
    h.validateRequirementContractTransitions tasks (T i) (.obj (addRequirement trace item)) =
      h.validateRequirementContractTransitions tasks (T i) (T i)
  contract : ∀ id ∈ h.ids (T 0), id ∈ h.deliveredRequirementIds tasks → h.Constant T n id ∨ h.RestoredOnce tasks T n id
  terminates : ∀ previous current proven, WellFounded (h.Calls previous current proven)
  ends : ∀ previous current proven reqId replacements,
    h.retainedReplacementChain previous current proven reqId replacements = true →
      replacements ≠ [] ∧ ∀ id ∈ replacements, h.Ends current id

theorem Host.Accepted.unused (haccepted : h.Accepted tasks T n) {i : Nat} (hi : i ≤ n) :
    h.nextUnusedRequirementId (T i) tasks ∉ h.ids (T i) ∧
      h.nextUnusedRequirementId (T i) tasks ∉ h.deliveredRequirementIds tasks := by
  obtain ⟨trace, htrace⟩ := (haccepted.valid i hi).obj
  have hvalid := haccepted.valid i hi
  rw [htrace] at hvalid ⊢
  exact nextUnused_fresh (sound_of_valid hvalid)

theorem transitions_compose (haccepted : h.Accepted tasks T n) : h.Composes tasks T n where
  kept _ _ hij hj _ hid := haccepted.kept hij hj hid
  absorbing _ _ hij hj _ hsuperseded := haccepted.absorbing hij hj hsuperseded
  reserved _ _ hij hj _ hid hnew := haccepted.reserved hij hj hid hnew
  unused _ hi := haccepted.unused hi
  uncollided i hi _ _ hfound := undelivered_uncollided (nextUnused_ne_empty (T i) tasks) (haccepted.unused hi).2 hfound
  admitted i hi trace item htrace hname hvalid := by
    obtain ⟨hnew, hdelivered⟩ := haccepted.unused hi
    have hbefore := haccepted.valid i hi
    rw [htrace] at hbefore hname hnew hdelivered ⊢
    rw [← hname] at hnew hdelivered
    exact transition_addRequirement hbefore hvalid hnew hdelivered
  contract _ hid hdelivered := haccepted.contract hid hdelivered n le_rfl
  terminates := calls_wellFounded h
  ends _ _ _ _ _ haccepts := retainedChain_ends haccepts

end

/-- A record of the trace below. -/
def plainRequirement (id status : String) (supersedes supersededBy : List String) : Json FloatLiteral := .obj [
  ("id", .str id), ("text", .str "Answers are sorted."), ("source", .str "request"), ("status", .str status),
  ("acceptance_oracles", .arr []), ("oracle_type", .str "mixed"), ("oracle_strength", .str "behavioral"),
  ("evidence_boundary", .str "system_boundary"), ("forbidden_proxy_oracles", .arr []), ("forbidden_patterns", .arr []),
  ("notes", .str ""), ("supersedes", .arr (supersedes.map .str)), ("superseded_by", .arr (supersededBy.map .str))]

/-- A delivered requirement, and then the same one with its replacement. -/
def replacedTraces : Nat → Json FloatLiteral
  | 0 => .obj [("version", .int 1), ("requirements", .arr [plainRequirement "REQ-001" "active" [] []])]
  | _ => .obj [("version", .int 1), ("requirements", .arr [plainRequirement "REQ-001" "superseded" [] ["REQ-002"],
      plainRequirement "REQ-002" "active" ["REQ-001"] []])]

def deliveredTasks : List (Json FloatLiteral) := [.obj [("status", .str "done"), ("requirement_ids", .arr [.str "REQ-001"])]]

/-- A host whose digest is the text itself. -/
def plainHost : Host FloatLiteral where
  showOther _ := ""
  same a b := a.encode == b.encode
  int v := match v with | .int n => .ok (some n) | _ => .ok none
  nfc := id
  sha256 := String.ofList
  patternReason _ := ""
  isZero _ := false
  digit c := if c.isDigit = true then some (c.toNat - '0'.toNat) else none
  digit_ascii _ hdigit := if_pos hdigit

def plainFields (id status : String) (supersedes supersededBy : List String) : Fields FloatLiteral :=
  match plainRequirement id status supersedes supersededBy with
  | .obj fields => fields
  | _ => []

/-- The status and the links are no part of the contract. -/
theorem plainFields_contract (id status status' : String) (supersedes supersededBy supersedes' supersededBy' : List String) :
    plainHost.requirementContractSha256 (plainFields id status supersedes supersededBy) =
      plainHost.requirementContractSha256 (plainFields id status' supersedes' supersededBy') := rfl

theorem plainFields_hashed (id status : String) (supersedes supersededBy : List String) :
    ∃ hash, plainHost.requirementContractSha256 (plainFields id status supersedes supersededBy) = .ok hash :=
  ⟨_, bind_ok.mpr ⟨_, bind_ok.mpr ⟨_, rfl, rfl⟩, rfl⟩⟩

def deliveredRecords : ById FloatLiteral := [("REQ-001", plainFields "REQ-001" "active" [] [])]

def replacedRecords : ById FloatLiteral := [("REQ-001", plainFields "REQ-001" "superseded" [] ["REQ-002"]),
  ("REQ-002", plainFields "REQ-002" "active" ["REQ-001"] [])]

/-- The replaced record has the contract that it was delivered with. -/
theorem replaced_retained : plainHost.retainedErrors deliveredRecords replacedRecords deliveredTasks "REQ-001"
    (plainFields "REQ-001" "active" [] []) = .ok [] := by
  obtain ⟨hash, hhash⟩ := plainFields_hashed "REQ-001" "active" [] []
  have hafter := (plainFields_contract "REQ-001" "active" "superseded" [] [] [] ["REQ-002"]).symm.trans hhash
  have hlookup : replacedRecords.lookup "REQ-001" = some (plainFields "REQ-001" "superseded" [] ["REQ-002"]) := rfl
  rw [Host.retainedErrors, hlookup]
  refine bind_ok.mpr ⟨hash, hhash, bind_ok.mpr ⟨hash, hafter, bind_ok.mpr ⟨false, rfl, ?_⟩⟩⟩
  simp only [bne_self_eq_false, Bool.and_false, Bool.false_and]
  exact congrArg Except.ok (by decide +kernel)

theorem replaced_steps :
    plainHost.validateRequirementContractTransitions deliveredTasks (replacedTraces 0) (replacedTraces 1) = .ok [] := by
  have hcollisions : plainHost.collisionIds [plainFields "REQ-001" "superseded" [] ["REQ-002"], plainFields "REQ-002" "active" ["REQ-001"] []]
      deliveredTasks = .ok [] := by decide +kernel
  have hintroduced : plainHost.introducedErrors deliveredRecords replacedRecords deliveredTasks = [] := by decide +kernel
  refine bind_ok.mpr ⟨[[]], ?_, bind_ok.mpr ⟨[], hcollisions, bind_ok.mpr ⟨[], rfl, ?_⟩⟩⟩
  · change (deliveredRecords.mapM fun entry =>
      plainHost.retainedErrors deliveredRecords replacedRecords deliveredTasks entry.1 entry.2) = .ok [[]]
    simp only [deliveredRecords, List.mapM_cons, List.mapM_nil]
    exact bind_ok.mpr ⟨_, replaced_retained, rfl⟩
  · exact congrArg Except.ok ((List.append_nil _).trans ((List.append_nil _).trans hintroduced))

theorem replaced_accepted : plainHost.Accepted deliveredTasks replacedTraces 1 where
  valid i hi := by
    refine ⟨false, ?_⟩
    rcases Nat.le_one_iff_eq_zero_or_eq_one.mp hi with rfl | rfl <;> decide +kernel
  steps i hi := by
    rw [Nat.lt_one_iff.mp hi]
    exact replaced_steps

theorem transitions_compose_replaced : plainHost.Composes deliveredTasks replacedTraces 1 :=
  transitions_compose replaced_accepted

end AutoAgents.Requirements
