import AutoAgents.RequirementValidity

/-! The id that is allocated next. It is not taken, by the trace or by delivered work, and a record under it adds no error to a
transition. -/

namespace AutoAgents.Requirements

open Base

variable {φ : Type} {h : Host φ}

/-! ### It is not taken -/

theorem valueOf_digits (l : List Char) (value : Nat) :
    (l.map fun c => c.toNat - '0'.toNat).foldl (fun value digit => 10 * value + digit) value = Nat.ofDigitChars 10 l value := by
  rw [Nat.ofDigitChars_eq_foldl, List.foldl_map]

theorem isDigit_paddedNumber {width number : Nat} : ∀ c ∈ paddedNumber width number, c.isDigit = true := by
  intro c hc
  rcases List.mem_append.mp hc with hzero | hdigit
  · rw [(List.mem_replicate.mp hzero).2]
    rfl
  · exact Nat.isDigit_of_mem_toDigits (by decide) (by decide) hdigit

theorem mapM_digit {l : List Char} (hdigits : ∀ c ∈ l, c.isDigit = true) :
    l.mapM h.digit = some (l.map fun c => c.toNat - '0'.toNat) := by
  induction l with
  | nil => rfl
  | cons c l ih =>
      rw [List.mapM_cons, h.digit_ascii c (hdigits c List.mem_cons_self), ih fun d hd => hdigits d (List.mem_cons_of_mem _ hd)]
      rfl

theorem paddedNumber_ne_nil {width number : Nat} : paddedNumber width number ≠ [] := by
  intro hnil
  exact Nat.toDigits_ne_nil (List.append_eq_nil_iff.mp hnil).2

/-- The allocated id reads as its own number. -/
theorem requirementDigits_padded (width number : Nat) :
    ∃ digits, h.requirementDigits (String.ofList ("REQ-".toList ++ paddedNumber width number)) = some digits ∧
      valueOf digits = number := by
  refine ⟨(paddedNumber width number).map fun c => c.toNat - '0'.toNat, ?_, ?_⟩
  · have htext : (String.ofList ("REQ-".toList ++ paddedNumber width number)).toList = "REQ-".toList ++ paddedNumber width number :=
      String.toList_ofList
    have hdrop : ("REQ-".toList ++ paddedNumber width number).drop 4 = paddedNumber width number := rfl
    rw [Host.requirementDigits, htext, hdrop, mapM_digit isDigit_paddedNumber,
      if_pos ⟨List.isPrefixOf_iff_prefix.mpr (List.prefix_append _ _), paddedNumber_ne_nil⟩]
  · rw [valueOf, valueOf_digits, paddedNumber, Nat.ofDigitChars_append, Nat.ofDigitChars_replicate_zero, Nat.mul_zero,
      Nat.ofDigitChars_ten_toDigits]

theorem nextUnused_not_reserved (trace : Json φ) (tasks : List (Json φ)) :
    h.nextUnusedRequirementId trace tasks ∉ h.reservedRequirementIds trace tasks := by
  intro hreserved
  obtain ⟨digits, hdigits, hvalue⟩ := requirementDigits_padded (h := h)
    ((((h.reservedRequirementIds trace tasks).filterMap h.requirementDigits).map List.length).foldr max 3)
    ((((h.reservedRequirementIds trace tasks).filterMap h.requirementDigits).map valueOf).foldr max 0 + 1)
  have hmem : valueOf digits ∈ ((h.reservedRequirementIds trace tasks).filterMap h.requirementDigits).map valueOf :=
    List.mem_map.mpr ⟨digits, List.mem_filterMap.mpr ⟨_, hreserved, hdigits⟩, rfl⟩
  have hle : valueOf digits ≤ (((h.reservedRequirementIds trace tasks).filterMap h.requirementDigits).map valueOf).foldr max 0 :=
    List.le_max_of_le hmem le_rfl
  omega

theorem nextUnused_ne_empty (trace : Json φ) (tasks : List (Json φ)) : h.nextUnusedRequirementId trace tasks ≠ "" := by
  intro hempty
  have htext := congrArg String.length hempty
  unfold Host.nextUnusedRequirementId at htext
  simp at htext

theorem nextUnused_fresh {trace : Fields φ} {tasks : List (Json φ)} (hsound : h.Sound (storedRecords trace)) :
    h.nextUnusedRequirementId (.obj trace) tasks ∉ h.ids (.obj trace) ∧
      h.nextUnusedRequirementId (.obj trace) tasks ∉ h.deliveredRequirementIds tasks := by
  have hfresh : h.nextUnusedRequirementId (.obj trace) tasks ∉ h.requirementIds trace ++ h.deliveredRequirementIds tasks :=
    nextUnused_not_reserved (.obj trace) tasks
  rw [List.mem_append, not_or] at hfresh
  refine ⟨fun hid => hfresh.1 ?_, hfresh.2⟩
  rw [hsound.ids] at hid
  obtain ⟨stored, hstored, heq⟩ := List.mem_map.mp hid
  rw [Host.requirementIds, List.mem_filter, requirementRecords, List.map_map]
  refine ⟨List.mem_map.mpr ⟨stored, hstored, (text_normalize (by decide) "").trans heq⟩, ?_⟩
  simpa using nextUnused_ne_empty _ _

/-! ### Proofs of an id that is not delivered -/

section

variable {tasks : List (Json φ)} {id : String}

theorem archivedProofs_undelivered (hne : id ≠ "") (hid : id ∉ h.deliveredRequirementIds tasks) : h.archivedProofs tasks id = [] := by
  rw [Host.archivedProofs, List.filter_eq_nil_iff]
  intro proof hproof hmatch
  rw [Bool.and_eq_true, beq_iff_eq] at hmatch
  obtain ⟨task, htask, hmem⟩ := List.mem_flatMap.mp hproof
  apply hid
  rw [Host.deliveredRequirementIds, List.mem_flatMap]
  refine ⟨task, htask, List.mem_append_right _ (List.mem_filter.mpr ⟨List.mem_map.mpr ⟨proof, hmem, hmatch.2⟩, ?_⟩)⟩
  simpa using hne

variable [FloatText φ]

theorem collisionIds_append {records : List (Fields φ)} {item : Fields φ} {hash : String} {oracles : List String}
    (hhash : h.requirementContractSha256 item = .ok hash) (horacles : h.linkTexts item "acceptance_oracles" = .ok oracles)
    (hproofs : h.archivedProofs tasks (h.text item "id" "") = []) :
    h.collisionIds (records ++ [item]) tasks = h.collisionIds records tasks := by
  have hnone (expected : String) (texts : List String) : h.anyConflict expected texts [] = .ok false := rfl
  have hbind {α β : Type} (a : α) (f : α → Except String β) : (Except.ok a >>= f) = f a := rfl
  rw [Host.collisionIds, Host.collisionIds, List.mapM_append]
  simp only [List.mapM_cons, List.mapM_nil, hhash, horacles, hproofs, ite_self, hnone, hbind, bind_assoc, pure_bind,
    Bool.false_eq_true, if_false, List.flatten_append, List.flatten_cons, List.flatten_nil, List.append_nil]

/-- An id that is not delivered conflicts with nothing. -/
theorem undelivered_uncollided {records : List (Fields φ)} {found : List String} (hne : id ≠ "")
    (hid : id ∉ h.deliveredRequirementIds tasks) (hfound : h.collisionIds records tasks = .ok found) : id ∉ found := by
  simp only [Host.collisionIds, bind_ok, pure_ok] at hfound
  obtain ⟨ids, hids, rfl⟩ := hfound
  rw [sortedTexts, (List.perm_insertionSort _ _).mem_iff, List.mem_dedup, List.mem_flatten]
  rintro ⟨entry, hentry, hmem⟩
  obtain ⟨item, _, hitem⟩ := mapM_mem hids entry hentry
  simp only [bind_ok, pure_ok] at hitem
  obtain ⟨expected, _, oracles, _, conflict, hconflict, rfl⟩ := hitem
  split at hmem
  · next hyes =>
      rw [List.mem_singleton] at hmem
      rw [← hmem, if_neg hne, archivedProofs_undelivered hne hid] at hconflict
      cases hconflict
      cases hyes
  · cases hmem

end

/-! ### A record under it -/

/-- The trace with one more record. -/
def addRequirement (trace item : Fields φ) : Fields φ :=
  match trace.lookup "requirements" with
  | some (.arr items) => setField trace "requirements" (.arr (items ++ [.obj item]))
  | _ => trace

section

variable [FloatText φ] {tasks : List (Json φ)} {previous current current' : ById φ} {id : String}

theorem Host.Valid.listed {trace : Fields φ} (hvalid : h.Valid (.obj trace)) : ∃ items, trace.lookup "requirements" = some (.arr items) := by
  obtain ⟨checkPatterns, hnone⟩ := hvalid
  simp only [Host.validateRequirementsTracePayload] at hnone
  split at hnone
  · next items hitems => exact ⟨items, hitems⟩
  · simp [pure_ok] at hnone

theorem storedRecords_addRequirement {trace : Fields φ} (hvalid : h.Valid (.obj trace)) (item : Fields φ) :
    storedRecords (addRequirement trace item) = storedRecords trace ++ [item] := by
  obtain ⟨items, hitems⟩ := hvalid.listed
  simp only [storedRecords, addRequirement, hitems, lookup_setField_self, List.filterMap_append]
  rfl

theorem retainedErrors_apart (happart : Apart current current' id) {reqId : String} {before : Fields φ} (hreq : reqId ≠ id) :
    h.retainedErrors previous current' tasks reqId before = h.retainedErrors previous current tasks reqId before := by
  rw [Host.retainedErrors, Host.retainedErrors, happart.others _ hreq]
  cases hlookup : current.lookup reqId with
  | none => rfl
  | some after => simp only [hasReciprocal_apart happart hreq hlookup]

theorem terminal_apart (happart : Apart current current' id) {proven : List String} {reqId : String} {before after : Fields φ}
    (hreq : reqId ≠ id) (hafter : current.lookup reqId = some after) :
    h.isTerminalAmbiguousContractQuarantine reqId before after previous current' proven =
      h.isTerminalAmbiguousContractQuarantine reqId before after previous current proven := by
  simp only [Host.isTerminalAmbiguousContractQuarantine, hasReciprocal_apart happart hreq hafter]

theorem collisionErrors_apart (happart : Apart current current' id) {reqId : String} (hreq : reqId ≠ id) :
    h.collisionErrors previous current' tasks reqId = h.collisionErrors previous current tasks reqId := by
  rw [Host.collisionErrors, Host.collisionErrors, Host.quarantinesUnchangedCollision, Host.quarantinesUnchangedCollision,
    happart.others _ hreq]
  cases hlookup : current.lookup reqId with
  | none => cases previous.lookup reqId <;> simp only
  | some after =>
      cases previous.lookup reqId with
      | none => simp only
      | some before => simp only [terminal_apart happart hreq hlookup, hasReciprocal_apart happart hreq hlookup]

omit [FloatText φ] in
theorem introducedErrors_nil : h.introducedErrors previous current tasks = [] ↔
    ∀ reqId ∈ current.map Prod.fst, reqId ∉ previous.map Prod.fst → reqId ∉ h.deliveredRequirementIds tasks := by
  rw [Host.introducedErrors, List.flatMap_eq_nil_iff]
  constructor
  · intro hnone reqId hreq hnew hdelivered
    have hok := hnone reqId ((List.perm_insertionSort _ _).mem_iff.mpr (List.mem_filter.mpr ⟨hreq, decide_eq_true hnew⟩))
    rw [errorIf_nil] at hok
    simp [hdelivered] at hok
  · intro hnone reqId hreq
    obtain ⟨hmem, hnew⟩ := List.mem_filter.mp ((List.perm_insertionSort _ _).mem_iff.mp hreq)
    rw [errorIf_nil]
    simpa using hnone reqId hmem (of_decide_eq_true hnew)

theorem transitions_eq (trace later : Fields φ) :
    h.validateRequirementContractTransitions tasks (.obj trace) (.obj later) = (do
      let retained ← (h.recordsOf (.obj trace)).mapM fun entry =>
        h.retainedErrors (h.recordsOf (.obj trace)) (h.recordsOf (.obj later)) tasks entry.1 entry.2
      let collisions ← h.collisionIds (requirementRecords later) tasks
      let unresolved ← collisions.mapM (h.collisionErrors (h.recordsOf (.obj trace)) (h.recordsOf (.obj later)) tasks)
      return h.introducedErrors (h.recordsOf (.obj trace)) (h.recordsOf (.obj later)) tasks ++ retained.flatten ++ unresolved.flatten) := rfl

/-- A new record apart from the others adds no error, if its id is not delivered. -/
theorem transition_addRequirement {trace item : Fields φ} (hvalid : h.Valid (.obj trace))
    (hvalid' : h.Valid (.obj (addRequirement trace item))) (hnew : h.text item "id" "" ∉ h.ids (.obj trace))
    (hid : h.text item "id" "" ∉ h.deliveredRequirementIds tasks) :
    h.validateRequirementContractTransitions tasks (.obj trace) (.obj (addRequirement trace item)) =
      h.validateRequirementContractTransitions tasks (.obj trace) (.obj trace) := by
  have hsound := sound_of_valid hvalid
  have hsound' := sound_of_valid hvalid'
  have hstored := storedRecords_addRequirement hvalid item
  have hrecords : requirementRecords (addRequirement trace item) = requirementRecords trace ++ [normalizeRequirementRecord item] := by
    rw [requirementRecords, hstored, List.map_append]
    rfl
  have hname : h.text (normalizeRequirementRecord item) "id" "" = h.text item "id" "" := text_normalize (by decide) ""
  have hrecordsOf : h.recordsOf (.obj (addRequirement trace item)) =
      h.recordsOf (.obj trace) ++ [(h.text item "id" "", normalizeRequirementRecord item)] := by
    rw [hsound'.recordsOf, hsound.recordsOf, hrecords, List.map_append, List.map_singleton, hname]
  have hrecorded : h.Recorded item := hsound'.recorded item (hstored ▸ List.mem_append_right _ List.mem_cons_self)
  have happart : Apart (h.recordsOf (.obj trace)) (h.recordsOf (.obj (addRequirement trace item))) (h.text item "id" "") := by
    constructor
    · intro other hother
      rw [hrecordsOf, List.lookup_append, lookup_cons_ne hother]
      simp
    · intro other record links _ hlookup hlinks
      exact hsound.unlinked hnew hlookup hlinks
  have hretained : (h.recordsOf (.obj trace)).mapM (fun entry => h.retainedErrors (h.recordsOf (.obj trace))
      (h.recordsOf (.obj (addRequirement trace item))) tasks entry.1 entry.2) =
      (h.recordsOf (.obj trace)).mapM fun entry => h.retainedErrors (h.recordsOf (.obj trace)) (h.recordsOf (.obj trace)) tasks
        entry.1 entry.2 := by
    apply mapM_congr
    intro entry hentry
    exact retainedErrors_apart happart fun heq => hnew (heq ▸ List.mem_map_of_mem hentry)
  have hcollisions : h.collisionIds (requirementRecords (addRequirement trace item)) tasks =
      h.collisionIds (requirementRecords trace) tasks := by
    obtain ⟨hash, hhash⟩ := hrecorded.hashed
    obtain ⟨oracles, horacles⟩ := hrecorded.oracleTexts
    have hproofs : h.archivedProofs tasks (h.text (normalizeRequirementRecord item) "id" "") = [] := by
      rw [hname]
      exact archivedProofs_undelivered hrecorded.named hid
    rw [hrecords]
    exact collisionIds_append hhash horacles hproofs
  have hunresolved (found : List String) (hfound : h.collisionIds (requirementRecords trace) tasks = .ok found) :
      found.mapM (h.collisionErrors (h.recordsOf (.obj trace)) (h.recordsOf (.obj (addRequirement trace item))) tasks) =
        found.mapM (h.collisionErrors (h.recordsOf (.obj trace)) (h.recordsOf (.obj trace)) tasks) := by
    apply mapM_congr
    intro reqId hreq
    refine collisionErrors_apart happart ?_
    rintro rfl
    exact undelivered_uncollided hrecorded.named hid hfound hreq
  have hintroduced : h.introducedErrors (h.recordsOf (.obj trace)) (h.recordsOf (.obj (addRequirement trace item))) tasks = [] := by
    rw [introducedErrors_nil, hrecordsOf]
    intro reqId hreq hfresh
    rw [List.map_append, List.mem_append, List.map_singleton, List.mem_singleton] at hreq
    rw [hreq.resolve_left hfresh]
    exact hid
  have hsame : h.introducedErrors (h.recordsOf (.obj trace)) (h.recordsOf (.obj trace)) tasks = [] :=
    introducedErrors_nil.mpr fun _ hreq hfresh => absurd hreq hfresh
  rw [transitions_eq, transitions_eq, hretained, hcollisions, hintroduced, hsame]
  cases hfound : h.collisionIds (requirementRecords trace) tasks with
  | error e => rfl
  | ok found =>
      have hbind {α β : Type} (a : α) (f : α → Except String β) : (Except.ok a >>= f) = f a := rfl
      simp only [hbind, hunresolved found hfound]

end

end AutoAgents.Requirements
