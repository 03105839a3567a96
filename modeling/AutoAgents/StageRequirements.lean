import AutoAgents.StageAttempts

/-! The requirements trace over the attempts of a phase. A transition is checked between the two ends of one attempt, without
the history of what was delivered, and only if the attempt gets that far and leaves a trace behind. -/

namespace AutoAgents.Stage

open Base
open Git (Path Bytes Entry)
open Requirements (Host plainHost plainRequirement replacedTraces deliveredTasks)

variable {φ : Type} [FloatText φ] {h : Host φ}

/-! ### Traces -/

/-- The trace that a text is; a text that cannot be read as one has no requirements. -/
def traceOf (text : Option (List Char)) : Base.Json φ :=
  if text.getD [] = [] then emptyTrace else ((decode (text.getD [])).getD .null)

/-- The trace of a workspace. -/
def requirementsTrace (links : Links) (ws : Workspace) : Base.Json φ :=
  match readTrace links ws with
  | .ok text => traceOf text
  | .error _ => .null

/-- What the requirements of a trace keep in a later one: their ids, the status of those that are superseded, and the contract
hash of those that are delivered. -/
structure Survives (h : Host φ) (tasks : List (Base.Json φ)) (before after : Base.Json φ) : Prop where
  kept : ∀ id ∈ h.ids before, id ∈ h.ids after
  superseded : ∀ id, h.Superseded before id → h.Superseded after id
  delivered : ∀ id ∈ h.deliveredRequirementIds tasks, ∀ hash, h.HasContract before id hash → h.HasContract after id hash

theorem Survives.refl (tasks : List (Base.Json φ)) (trace : Base.Json φ) : Survives h tasks trace trace :=
  ⟨fun _ hid => hid, fun _ hid => hid, fun _ _ _ hhash => hhash⟩

theorem Survives.trans {tasks : List (Base.Json φ)} {a b c : Base.Json φ} (hab : Survives h tasks a b)
    (hbc : Survives h tasks b c) : Survives h tasks a c where
  kept id hid := hbc.kept id (hab.kept id hid)
  superseded id hid := hbc.superseded id (hab.superseded id hid)
  delivered id hid hash hhash := hbc.delivered id hid hash (hab.delivered id hid hash hhash)

/-- A trace that is not an object has no requirements. -/
theorem survives_of_ids_nil {tasks : List (Base.Json φ)} {before after : Base.Json φ} (hnone : h.ids before = []) :
    Survives h tasks before after := by
  have hno (id : String) (item : Requirements.Fields φ) : (h.recordsOf before).lookup id ≠ some item := by
    intro hlookup
    have hmem := Requirements.ids_of_lookup hlookup
    simp [hnone] at hmem
  constructor
  · intro id hid
    simp [hnone] at hid
  · rintro id ⟨item, hitem, _⟩
    exact absurd hitem (hno id item)
  · rintro id _ hash ⟨item, hitem, _⟩
    exact absurd hitem (hno id item)

/-! ### One transition -/

theorem loads_ok {text : List Char} {trace : Base.Json φ} (hloads : loads text = .ok trace) : decode text = some trace := by
  unfold loads at hloads
  split at hloads
  · rw [Except.ok.injEq] at hloads
    rwa [← hloads]
  · cases hloads

theorem caught_ok {α : Type} {x : Except String α} {a : α} (hcaught : caught x = .ok a) : x = .ok a := by
  cases x with
  | ok b =>
      rw [caught, Except.ok.injEq] at hcaught
      rw [hcaught]
  | error message => cases hcaught

theorem decode_nil : decode ([] : List Char) = (none : Option (Base.Json φ)) := rfl

theorem traceOf_some {text : List Char} {trace : Base.Json φ} (hdecode : decode text = some trace) : traceOf (some text) = trace := by
  have hfilled : text ≠ [] := by
    rintro rfl
    rw [decode_nil] at hdecode
    cases hdecode
  simp [traceOf, hfilled, hdecode]

theorem earlierTrace_ok {text : List Char} {trace : Base.Json φ} (hok : earlierTrace text = .ok trace) : traceOf (some text) = trace := by
  unfold earlierTrace at hok
  split at hok
  · next hempty => simpa [traceOf, hempty] using hok
  · exact traceOf_some (loads_ok hok)

/-- A transition that passes loses no id, and no superseded record comes back. -/
theorem transition_keeps {before after : List Char} (hok : traceTransition h before after = .ok ()) :
    (∀ id ∈ h.ids (traceOf (some before)), id ∈ h.ids (traceOf (some after))) ∧
      ∀ id, h.Superseded (traceOf (some before)) id → h.Superseded (traceOf (some after)) id := by
  by_cases hsame : before = after
  · subst hsame
    exact ⟨fun _ hid => hid, fun _ hid => hid⟩
  · simp only [traceTransition, if_neg hsame, bind_ok, guard_ok, pure_ok] at hok
    obtain ⟨previous, hprevious, current, hcurrent, errors, herrors, more, hmore, hnone, _⟩ := hok
    obtain ⟨rfl, rfl⟩ := List.append_eq_nil_iff.mp (not_not.mp hnone)
    rw [earlierTrace_ok hprevious, traceOf_some (loads_ok hcurrent)]
    have hobject : ∃ fields, current = .obj fields := Requirements.Host.Valid.obj ⟨true, caught_ok herrors⟩
    by_cases hearlier : ∃ fields, previous = .obj fields
    · have hkeeps := (Requirements.step_keeps hearlier hobject (caught_ok hmore)).1
      exact ⟨fun id hid => (hkeeps id hid).kept, fun id hid => (hkeeps id hid.mem_ids).absorbing hid⟩
    · have hids : h.ids previous = [] := by
        cases previous with
        | obj fields => exact absurd ⟨fields, rfl⟩ hearlier
        | _ => rfl
      have hsurvives : Survives h [] previous current := survives_of_ids_nil hids
      exact ⟨hsurvives.kept, hsurvives.superseded⟩

/-! ### One attempt -/

section

variable {links : Links} {call : Call} {tasks : List (Base.Json φ)}

/-- The trace that is read depends on the files alone. -/
theorem requirementsTrace_congr {ws ws' : Workspace} (hfiles : ws.files = ws'.files) :
    (requirementsTrace links ws : Base.Json φ) = requirementsTrace links ws' := by
  cases ws
  cases ws'
  cases hfiles
  rfl

/-- What an accepted attempt does to the requirements that its checks do not see: the trace is not removed, unless it has none, and
the contracts of those that are delivered stay. -/
theorem accepted_survives_iff {found : Workspace} {a : Attempt} (hok : invoke links call h found a = .ok ()) :
    Survives h tasks (requirementsTrace links found) (requirementsTrace links a.left) ↔
      (readTrace links a.left = .ok none → h.ids (requirementsTrace links found) = []) ∧
        ∀ id ∈ h.deliveredRequirementIds tasks, ∀ hash,
          h.HasContract (requirementsTrace links found) id hash → h.HasContract (requirementsTrace links a.left) id hash := by
  obtain ⟨previous, current, hprevious, _, _, hcurrent, htransition, _⟩ := invoke_ok.mp hok
  constructor
  · intro hsurvives
    refine ⟨fun hremoved => ?_, hsurvives.delivered⟩
    have hafter : (requirementsTrace links a.left : Base.Json φ) = emptyTrace := by
      rw [requirementsTrace, hremoved]
      rfl
    have hkept := hsurvives.kept
    rw [hafter] at hkept
    exact List.eq_nil_iff_forall_not_mem.mpr fun id hid => absurd (hkept id hid) List.not_mem_nil
  · rintro ⟨hpresent, hdelivered⟩
    cases current with
    | none => exact survives_of_ids_nil (hpresent hcurrent)
    | some text =>
        have hbefore : (requirementsTrace links found : Base.Json φ) = traceOf (some (previous.getD [])) := by
          rw [requirementsTrace, prepare_ok hprevious]
          cases previous <;> rfl
        have hafter : (requirementsTrace links a.left : Base.Json φ) = traceOf (some text) := by
          rw [requirementsTrace, hcurrent]
        obtain ⟨hkept, hsuperseded⟩ := transition_keeps (htransition text rfl)
        rw [← hbefore, ← hafter] at hkept hsuperseded
        exact ⟨hkept, hsuperseded, hdelivered⟩

/-- An attempt that does no harm to the requirements: if it is refused, its worker leaves them as they were; if it is accepted, its
worker does not remove a trace that has some, nor change the contract of a delivered one, and the documents of the controller are
not written over the trace. -/
structure Preserves (h : Host φ) (links : Links) (call : Call) (tasks : List (Base.Json φ)) (found : Workspace) (a : Attempt) :
    Prop where
  refused : invoke links call h found a ≠ .ok () →
    Survives h tasks (requirementsTrace links found) (requirementsTrace links (leaves links call found a))
  present : invoke links call h found a = .ok () → readTrace links a.left = .ok none → h.ids (requirementsTrace links found) = []
  delivered : invoke links call h found a = .ok () → ∀ id ∈ h.deliveredRequirementIds tasks, ∀ hash,
    h.HasContract (requirementsTrace links found) id hash → h.HasContract (requirementsTrace links a.left) id hash
  documents : invoke links call h found a = .ok () →
    (requirementsTrace links (settled links a) : Base.Json φ) = requirementsTrace links a.left

theorem Preserves.accepted {found : Workspace} {a : Attempt} (hpreserves : Preserves h links call tasks found a)
    (hok : invoke links call h found a = .ok ()) :
    Survives h tasks (requirementsTrace links found) (requirementsTrace links a.left) :=
  (accepted_survives_iff hok).mpr ⟨hpreserves.present hok, hpreserves.delivered hok⟩

theorem goes_survives {found next : Workspace} {a : Attempt} (hpreserves : Preserves h links call tasks found a)
    (hgoes : Goes links call h found a next) :
    Survives h tasks (requirementsTrace links found) (requirementsTrace links next) := by
  cases hgoes with
  | refused herror => exact hpreserves.refused (by simp [herror])
  | accepted hok hfiles =>
      rw [requirementsTrace_congr hfiles, hpreserves.documents hok]
      exact hpreserves.accepted hok

end

/-! ### A phase -/

theorem requirements_survive {links : Links} {tool : Tool} {call : Call} {tasks : List (Base.Json φ)} (r : PhaseRun h links tool call)
    (hpreserves : System.Meets (fun found a _ => Preserves h links call tasks found a) r.trace)
    (hlast : Preserves h links call tasks r.found r.last) :
    Survives h tasks (requirementsTrace links r.entry) (requirementsTrace links r.final) := by
  have hearlier : Survives h tasks (requirementsTrace links r.entry) (requirementsTrace links r.found) := by
    refine r.run.invariant_of_meets (I := fun ws => Survives h tasks (requirementsTrace links r.entry) (requirementsTrace links ws))
      ?_ ?_ hpreserves
    · rintro ws rfl
      exact Survives.refl _ _
    · intro found a next hsurvives hpreserves hgoes
      exact hsurvives.trans (goes_survives hpreserves hgoes)
  rw [requirementsTrace_congr (closing_files r.advances), hlast.documents r.accepted]
  exact hearlier.trans (hlast.accepted r.accepted)

/-! ### A delivered requirement, replaced and dropped -/

theorem universalNewlines_plain {l : List Char} (hplain : ∀ c ∈ l, c ≠ '\r') : universalNewlines l = l := by
  fun_induction universalNewlines l with
  | case1 => rfl
  | case2 rest ih => exact absurd rfl (hplain _ List.mem_cons_self)
  | case3 rest _ ih => exact absurd rfl (hplain _ List.mem_cons_self)
  | case4 c rest _ _ ih => rw [ih fun d hd => hplain d (List.mem_cons_of_mem c hd)]

/-- The bytes of a document as it is written. -/
def textBytes (v : Base.Json FloatLiteral) : Bytes := (String.ofList v.encode).toByteArray.data.toList

def traceWorkspace (v : Base.Json FloatLiteral) : Workspace :=
  { emptyWorkspace with files := AList.singleton tracePath ⟨.regular, textBytes v⟩ }

theorem traceWorkspace_lookup (v : Base.Json FloatLiteral) (p : Path) :
    (traceWorkspace v).files.lookup p = if p = tracePath then some ⟨.regular, textBytes v⟩ else none := by
  by_cases hp : p = tracePath
  · rw [if_pos hp, hp]
    exact AList.lookup_insert ∅
  · rw [if_neg hp]
    exact AList.lookup_eq_none.mpr fun hmem => hp (List.mem_singleton.mp hmem)

theorem readTrace_workspace {v : Base.Json FloatLiteral} (hplain : ∀ c ∈ v.encode, c ≠ '\r') :
    readTrace noLinks (traceWorkspace v) = .ok (some v.encode) := by
  have hlinked : linked (traceWorkspace v) tracePath = false := by
    refine List.any_eq_false.mpr fun p _ => ?_
    rw [Workspace.isSymlink, traceWorkspace_lookup]
    split <;> simp
  have hdirectory : (traceWorkspace v).isDirectory tracePath = false := by
    simp [Workspace.isDirectory, traceWorkspace, AList.keys_singleton]
  have htext : String.fromUTF8? ⟨(textBytes v).toArray⟩ = some (String.ofList v.encode) :=
    dif_pos (String.ofList v.encode).isValidUTF8
  simp only [readTrace, hlinked, hdirectory, traceWorkspace_lookup, if_true, if_false, Bool.false_eq_true, Option.map_some, htext,
    String.toList_ofList, universalNewlines_plain hplain]

theorem number_no_return {text : List Char} (h : text.all isNumberChar = true) : '\r' ∉ text :=
  fun hr => absurd (List.all_eq_true.mp h _ hr) (by decide)

theorem string_no_return (s : List Char) : '\r' ∉ encodeString s := by
  have hescaped := Operator.escape_no_return s
  simp only [encodeString, List.mem_cons, List.mem_append, List.not_mem_nil, or_false, not_or]
  exact ⟨⟨by decide, hescaped⟩, by decide⟩

mutual
/-- The encoder escapes the returns in texts, and writes no others. -/
theorem encode_no_return : ∀ v : Base.Json φ, '\r' ∉ v.encode
  | .null => by simp [Json.encode]
  | .bool true => by simp [Json.encode]
  | .bool false => by simp [Json.encode]
  | .int n => number_no_return (encodeInt_chars n)
  | .float x => number_no_return (FloatText.repr_chars x)
  | .nonFinite x => by cases x <;> simp [Json.encode, NonFinite.text]
  | .str s => string_no_return s.toList
  | .arr items => by
      have hitems := items_no_return items
      simp [Json.encode, hitems]
  | .obj fields => by
      have hfields := fields_no_return fields
      simp [Json.encode, hfields]

theorem items_no_return : ∀ items : List (Base.Json φ), '\r' ∉ encodeItems items
  | [] => by simp [encodeItems]
  | [v] => encode_no_return v
  | v :: w :: rest => by
      have hv := encode_no_return v
      have hrest := items_no_return (w :: rest)
      simp [encodeItems, hv, hrest]

theorem fields_no_return : ∀ fields : List (String × Base.Json φ), '\r' ∉ encodeFields fields
  | [] => by simp [encodeFields]
  | [(k, v)] => by
      have hv := encode_no_return v
      simp [encodeFields, hv, string_no_return]
  | (k, v) :: field :: rest => by
      have hv := encode_no_return v
      have hrest := fields_no_return (field :: rest)
      simp [encodeFields, hv, hrest, string_no_return]
end

theorem encode_plain (v : Base.Json φ) : ∀ c ∈ v.encode, c ≠ '\r' := by
  rintro c hc rfl
  exact encode_no_return v hc

/-- The calls of the phase that writes the trace. -/
def clarifyCall : Call := { readmeCall with phase := .clarify }

theorem clarify_writes (v w : Base.Json FloatLiteral) :
    stageWrites (workspaceGuard noLinks (traceWorkspace v)) (workspaceGuard noLinks (traceWorkspace w)) clarifyCall.phase
      clarifyCall.scope = .ok () := by
  have hchanged (p : Path) (hp : p ∈ changedGuardPaths (workspaceGuard noLinks (traceWorkspace v))
      (workspaceGuard noLinks (traceWorkspace w))) : p = tracePath := by
    rcases mem_changed.mp hp with ⟨hname, _⟩ | ⟨hhead, _⟩ | ⟨hindex, _⟩
    · simpa [workspaceGuard, traceWorkspace, AList.keys_singleton] using hname
    · exact absurd rfl hhead
    · exact absurd rfl hindex
  refine stageWrites_ok.mpr ⟨⟨fun hp => ?_, fun hp => ?_⟩, fun p hp => ?_⟩
  · exact absurd (hchanged _ hp) (by decide)
  · exact absurd (hchanged _ hp) (by decide)
  · rw [hchanged p hp]
    decide +kernel

theorem invoke_clarify {v w : Base.Json FloatLiteral} {documents : List (Path × Entry)} (hv : ∀ c ∈ v.encode, c ≠ '\r')
    (hw : ∀ c ∈ w.encode, c ≠ '\r') :
    invoke noLinks clarifyCall plainHost (traceWorkspace v) ⟨traceWorkspace w, .returned, documents⟩ =
      traceTransition plainHost v.encode w.encode := by
  have hprepare : prepare noLinks clarifyCall (traceWorkspace v) = .ok (some v.encode) := by
    rw [prepare, readTrace_workspace hv]
    rfl
  have happroved : verifyApproved (traceWorkspace w) clarifyCall.approved = .ok () := rfl
  rw [invoke, hprepare]
  show (stageWrites _ _ _ _ >>= _) = _
  rw [clarify_writes]
  show (readTrace noLinks (traceWorkspace w) >>= _) = _
  rw [readTrace_workspace hw]
  show (traceTransition plainHost v.encode w.encode >>= fun _ => verifyApproved (traceWorkspace w) clarifyCall.approved) = _
  cases traceTransition plainHost v.encode w.encode with
  | ok _ => simp [bind, Except.bind, happroved]
  | error e => simp [bind, Except.bind]

theorem replacedTraces_distinct : ∀ i, (replacedTraces i).Distinct
  | 0 => by simp [replacedTraces, plainRequirement, Json.Distinct, DistinctItems, DistinctFields]
  | _ + 1 => by simp [replacedTraces, plainRequirement, Json.Distinct, DistinctItems, DistinctFields]

theorem requirementsTrace_replaced (i : Nat) :
    requirementsTrace noLinks (traceWorkspace (replacedTraces i)) = replacedTraces i := by
  rw [requirementsTrace, readTrace_workspace (encode_plain _)]
  exact traceOf_some (decode_encode (replacedTraces_distinct i))

example : plainHost.validateRequirementsTracePayload true (replacedTraces 0) = .ok [] := by decide +kernel

/-- Where nothing counts as delivered, the replacement is one too. -/
theorem replaced_undelivered :
    plainHost.validateRequirementContractTransitions [] (replacedTraces 0) (replacedTraces 1) = .ok [] := by decide +kernel

/-- Both texts are read back, so that only the checks themselves are run. -/
theorem traceTransition_replaced : traceTransition plainHost (replacedTraces 0).encode (replacedTraces 1).encode = .ok () := by
  have hread (i : Nat) : loads (replacedTraces i).encode = .ok (replacedTraces i) := by
    rw [loads, decode_encode (replacedTraces_distinct i)]
  have hfilled (i : Nat) : (replacedTraces i).encode ≠ [] := by
    intro hnil
    have hdecoded := decode_encode (replacedTraces_distinct i)
    rw [hnil, decode_nil] at hdecoded
    cases hdecoded
  have hvalid : plainHost.validateRequirementsTracePayload true (replacedTraces 1) = .ok [] := by decide +kernel
  unfold traceTransition
  split
  · rfl
  · rw [earlierTrace, if_neg (hfilled 0), hread]
    refine bind_ok.mpr ⟨_, rfl, bind_ok.mpr ⟨_, hread 1, bind_ok.mpr ⟨[], ?_, bind_ok.mpr ⟨[], ?_, rfl⟩⟩⟩⟩
    · rw [hvalid]
      rfl
    · rw [replaced_undelivered]
      rfl

theorem invoke_replaced : invoke noLinks clarifyCall plainHost (traceWorkspace (replacedTraces 0))
    ⟨traceWorkspace (replacedTraces 1), .returned, []⟩ = .ok () := by
  rw [invoke_clarify (encode_plain _) (encode_plain _)]
  exact traceTransition_replaced

/-- The worker adds the replacement of a delivered requirement. -/
def replacedRun {final : Workspace}
    (hfinal : closing clarifyCall plainTool (traceWorkspace (replacedTraces 1)) = .ok final) :
    PhaseRun plainHost noLinks plainTool clarifyCall where
  entry := traceWorkspace (replacedTraces 0)
  trace := []
  found := traceWorkspace (replacedTraces 0)
  run := .start rfl
  last := ⟨traceWorkspace (replacedTraces 1), .returned, []⟩
  final
  accepted := invoke_replaced
  advances := hfinal

theorem replaced_preserves : Preserves plainHost noLinks clarifyCall deliveredTasks
    (traceWorkspace (replacedTraces 0)) ⟨traceWorkspace (replacedTraces 1), .returned, []⟩ where
  refused hrefused := absurd invoke_replaced hrefused
  present _ hremoved := by
    rw [readTrace_workspace (encode_plain _)] at hremoved
    cases hremoved
  delivered _ id hdelivered hash hbefore := by
    rw [requirementsTrace_replaced 0] at hbefore
    rw [requirementsTrace_replaced 1]
    obtain ⟨item, hitem, hhash⟩ := hbefore
    have hid : id ∈ plainHost.ids (replacedTraces 0) := Requirements.ids_of_lookup hitem
    have hkeeps := (Requirements.replaced_accepted.step Nat.zero_lt_one).1 id hid
    obtain ⟨new, hnew⟩ := (Requirements.replaced_accepted.valid 1 le_rfl).contract hkeeps.kept
    rcases hkeeps.contract hdelivered hash new ⟨item, hitem, hhash⟩ hnew with rfl | ⟨_, _, _, harchived⟩
    · exact hnew
    · -- nothing is archived, so that no contract can be restored
      have hproofs : (plainHost.doneTasks deliveredTasks).flatMap Requirements.proofsOf = [] := rfl
      rw [Requirements.Host.verifiedHashes, hproofs] at harchived
      cases harchived
  documents _ := rfl

theorem requirements_survive_replaced : ∃ r : PhaseRun plainHost noLinks plainTool clarifyCall,
    Survives plainHost deliveredTasks (requirementsTrace noLinks r.entry) (requirementsTrace noLinks r.final) := by
  have hcloses : (closing clarifyCall plainTool (traceWorkspace (replacedTraces 1))).isOk = true := by decide +kernel
  obtain ⟨final, hfinal⟩ := exists_of_isOk hcloses
  exact ⟨replacedRun hfinal, requirements_survive (replacedRun hfinal) (fun _ hmem => absurd hmem List.not_mem_nil) replaced_preserves⟩

/-- The worker drops the requirement, which is refused, and the next one leaves the trace as it finds it. -/
theorem dropped_requirement_lost : ¬ ∀ (links : Links) (tool : Tool) (call : Call) (r : PhaseRun plainHost links tool call)
    (tasks : List (Base.Json FloatLiteral)),
    Survives plainHost tasks (requirementsTrace links r.entry) (requirementsTrace links r.final) := by
  intro hall
  have hempty := encode_plain (emptyTrace : Base.Json FloatLiteral)
  have hdrop : Goes noLinks clarifyCall plainHost (traceWorkspace (replacedTraces 0))
      ⟨traceWorkspace emptyTrace, .returned, []⟩ _ :=
    .refused (e := ⟨"requirement_contract", "Requirements changed incompatibly", .model⟩) (by
      rw [invoke_clarify (encode_plain _) hempty]
      decide +kernel)
  have hleaves : leaves noLinks clarifyCall (traceWorkspace (replacedTraces 0)) ⟨traceWorkspace emptyTrace, .returned, []⟩ =
      traceWorkspace emptyTrace := by
    have hprepare : prepare noLinks clarifyCall (traceWorkspace (replacedTraces 0)) = .ok (some (replacedTraces 0).encode) := by
      rw [prepare, readTrace_workspace (encode_plain _)]
      rfl
    exact leaves_left hprepare
  rw [hleaves] at hdrop
  have hcloses : (closing clarifyCall plainTool (traceWorkspace emptyTrace)).isOk = true := by decide +kernel
  obtain ⟨final, hfinal⟩ := exists_of_isOk hcloses
  have hsurvives := hall noLinks plainTool clarifyCall
    { entry := traceWorkspace (replacedTraces 0)
      trace := _
      found := traceWorkspace emptyTrace
      run := .step (.start rfl) hdrop
      last := ⟨traceWorkspace emptyTrace, .returned, []⟩
      final
      accepted := by
        rw [invoke_clarify hempty hempty]
        exact if_pos rfl
      advances := hfinal } []
  have hkept := hsurvives.kept "REQ-001"
  rw [requirementsTrace_replaced 0, requirementsTrace_congr (closing_files hfinal), requirementsTrace,
    readTrace_workspace hempty] at hkept
  exact absurd (hkept (by decide +kernel)) (by decide +kernel)

end AutoAgents.Stage
