import AutoAgents.PersistenceUpgrade

/-! The rebinding of a persistence decision that names requirements in the place of its targets: the decision and the
tasks that name it, the blocker that the mistake left, and the receipt. Checks of the documents, the configured targets
and the clock are parameters. -/

namespace AutoAgents.Rebind.Decision

open Base
open Requirements
open Operator (stripText)
open Verification (fromKeys)
open Upgrade (Documents Has has_setField field_setField_ne fromKeys_nodup fromKeys_eq mem_fromKeys listField mapM_forall₂)

/-! ### Targets -/

section Model

variable {φ : Type} (h : Host φ)

/-- An item that is a text and not blank, stripped. -/
def normalizedId : Json φ → Option String
  | .str text => if stripText text = "" then none else some (stripText text)
  | _ => none

/-- `_normalized_ids` -/
def normalizedIds : Json φ → List String
  | .arr items => fromKeys (items.filterMap normalizedId)
  | _ => []

/-- `_REQUIREMENT_ID_PATTERN.fullmatch` -/
def isRequirementId (text : String) : Bool :=
  match text.toList with
  | r :: e :: q :: '-' :: digit :: rest =>
      (r == 'R' || r == 'r') && (e == 'E' || e == 'e') && (q == 'Q' || q == 'q') && (digit :: rest).all Char.isDigit
  | _ => false

/-- `_legacy_requirement_targets` -/
def legacyRequirementTargets (targets : List String) : Bool := targets != [] && targets.all isRequirementId

def texts (values : List String) : Json φ := .arr (values.map .str)

def targetsOf (fields : Fields φ) : Json φ := field fields "target_ids" (.arr [])

def setTargets (fields : Fields φ) (targets : List String) : Fields φ := setField fields "target_ids" (texts targets)

/-! ### The decision -/

/-- `isinstance(item, dict) and str(item.get("id", "")).strip() == decision_id` -/
def isDecision (id : String) : Json φ → Bool
  | .obj decision => h.text decision "id" "" == id
  | _ => false

/-- `_matching_decision`, of the decisions of the trace. -/
def matchingDecision (id : String) (decisions : List (Json φ)) : Except String (Fields φ) :=
  match decisions.filter (isDecision h id) with
  | [.obj decision] =>
      if h.text decision "status" "" = "active" then .ok decision
      else .error ("persistence decision " ++ id ++ " must be active")
  | _ => .error ("persistence decision " ++ id ++ " must exist exactly once")

/-- `decision["target_ids"] = list(selected_target_ids)` -/
def bindDecision (id : String) (selected : List String) (item : Json φ) : Json φ :=
  match item with
  | .obj decision => if isDecision h id item = true then .obj (setTargets decision selected) else item
  | _ => item

/-! ### Tasks -/

/-- What a call is made for: the decision, the targets it had, and the targets that it gets. -/
structure Binding where
  id : String
  previous : List String
  selected : List String

/-- The change of a task that names the decision. -/
def boundChange (id : String) (task : Fields φ) : Option (Fields φ) :=
  match field task "persistence_change" .null with
  | .obj change => if h.text change "decision_id" "" = id then some change else none
  | _ => none

/-- One task of `_rebind_task_changes`, and its name if it is updated. -/
def rebindTask (b : Binding) (label : String) (indexed : Json φ × Nat) : Except String (Json φ × List String) :=
  match indexed.1 with
  | .obj task =>
      match boundChange h b.id task with
      | some change =>
          let existing := normalizedIds (targetsOf change)
          if existing = b.selected then .ok (.obj task, [])
          else if existing ≠ b.previous then
            .error (label ++ " task #" ++ toString (indexed.2 + 1) ++ ".persistence_change.target_ids do not match legacy decision "
              ++ b.id)
          else
            .ok (.obj (setField task "persistence_change" (.obj (setTargets change b.selected))),
              [h.show (field task "task_id" (.str ("#" ++ toString (indexed.2 + 1))))])
      | none => .ok (.obj task, [])
  | other => .ok (other, [])

/-- `_rebind_task_changes`, of the tasks of a document. -/
def rebindTasks (b : Binding) (label : String) (payload : Fields φ) : Except String (Fields φ × List String) :=
  match payload.lookup "tasks" with
  | none => .ok (payload, [])
  | some (.arr tasks) => do
      let done ← tasks.zipIdx.mapM (rebindTask h b label)
      return (setField payload "tasks" (.arr (done.map Prod.fst)), done.flatMap Prod.snd)
  | some _ => .error (label ++ " tasks must be a list")

/-! ### The run -/

def legacyMarkers : List String :=
  ["target_ids must reference persistence targets, not requirement IDs", "target_ids reference unconfigured targets: REQ-"]

def isLegacyBlocker (state : Fields φ) : Bool :=
  let blocker := match field state "active_blocker" (.obj []) with
    | .obj blocker => blocker
    | _ => []
  let reason := h.show (field blocker "reason" (.str "")) ++ "\n" ++ h.show (field state "last_error" (.str ""))
  h.text blocker "category" "" == "invalid_target_persistence_metadata" ||
    legacyMarkers.any fun marker => decide (marker.toList <:+: reason.toList)

/-- `_clear_legacy_blocker` -/
def clearLegacyBlocker (state : Fields φ) : Fields φ × Bool :=
  if isLegacyBlocker h state = true then
    let cleared := setField state "active_blocker" (.obj [])
    let pending := if h.text cleared "status" "" = "blocked" ∨ h.text cleared "status" "" = "failed" then
      setField cleared "status" (.str "pending") else cleared
    (setField pending "last_error" (.str ""), true)
  else (state, false)

def objectField (fields : Fields φ) (key : String) : Fields φ :=
  match field fields key (.obj []) with
  | .obj inner => inner
  | _ => []

def hasReceipt (receipts : Fields φ) (id : String) : Bool :=
  match receipts.lookup id with
  | some (.obj _) => true
  | _ => false

def receiptOf (b : Binding) (now : String) : Json φ :=
  .obj [("rebound_at", .str now), ("from_target_ids", texts b.previous), ("to_target_ids", texts b.selected)]

/-- The receipt of the rebinding. Where the run has no context, the context that is made is dropped. -/
def noteReceipt (b : Binding) (now : String) (state : Fields φ) : Fields φ :=
  if (state.lookup "resume_context").isSome = true then
    let context := objectField state "resume_context"
    let receipts := objectField context "persistence_rebinds"
    let noted := if b.previous ≠ b.selected ∨ hasReceipt receipts b.id = false then
      setField receipts b.id (receiptOf b now) else receipts
    setField state "resume_context" (.obj (setField context "persistence_rebinds" (.obj noted)))
  else state

/-! ### The call -/

structure Report where
  source : List String
  target : List String
  planTasks : List String
  stateTasks : List String
  blockerCleared : Bool
  noOp : Bool

/-- `list(dict.fromkeys(str(item).strip() for item in target_ids if str(item).strip()))` -/
def selectedTargets (targets : List String) : List String := fromKeys ((targets.map stripText).filter (· ≠ ""))

/-- The selection is not empty, and names configured targets and no requirement. -/
def checkSelection (configured : List String) (id : String) (selected : List String) : Except String Unit :=
  if id = "" then .error "decision_id must be non-empty"
  else if selected = [] then .error "at least one target_id is required"
  else if selected.any isRequirementId = true then
    .error ("selected target_ids must identify persistence targets, not requirement IDs: " ++
      ", ".intercalate (selected.filter isRequirementId))
  else if selected.any (fun target => !configured.contains target) = true then
    .error ("persistence target is not configured: " ++
      ", ".intercalate (selected.filter fun target => !configured.contains target) ++ "; run persistence-configure first")
  else .ok ()

def decisionsOf (trace : Fields φ) : Except String (List (Json φ)) :=
  match field trace "persistence_decisions" (.arr []) with
  | .arr decisions => .ok decisions
  | _ => .error "requirements trace persistence_decisions must be a list"

/-- What is edited before the checks: the documents, and what is reported. -/
def edit (id : String) (selected : List String) (now : String) (trace plan state : Fields φ) :
    Except String (Documents φ × Report) := do
  let decisions ← decisionsOf trace
  let decision ← matchingDecision h id decisions
  let previous := normalizedIds (targetsOf decision)
  if previous ≠ selected ∧ legacyRequirementTargets previous = false then
    .error ("persistence decision " ++ id ++ " does not contain a legacy REQ-* target set; refusing to change an established target binding")
  else do
    let b : Binding := ⟨id, previous, selected⟩
    let (plan, planTasks) ← rebindTasks h b "task plan" plan
    let (state, stateTasks) ← rebindTasks h b "run state" state
    let cleared := clearLegacyBlocker h state
    return (⟨.obj (setField trace "persistence_decisions" (.arr (decisions.map (bindDecision h id selected)))), .obj plan,
      .obj (noteReceipt b now cleared.1)⟩,
      { source := previous, target := selected, planTasks, stateTasks, blockerCleared := cleared.2,
        noOp := decide (previous = selected) && planTasks == [] && stateTasks == [] && !cleared.2 })

/-- `rebind_legacy_persistence_decision` up to the commit: the documents that are to be written, and what is reported. The
checks of the trace and of the plan are parameters. -/
def rebindDocuments (validate : Json φ → Json φ → Except String (List String)) (configured : List String) (now : String)
    (decisionId : String) (targets : List String) (documents : Documents φ) : Except String (Documents φ × Report) := do
  let id := stripText decisionId
  let selected := selectedTargets targets
  checkSelection configured id selected
  match documents.trace, documents.plan, documents.state with
  | .obj trace, .obj plan, .obj state => do
      let (edited, report) ← edit h id selected now trace plan state
      let errors ← validate edited.trace edited.plan
      if errors ≠ [] then .error ("persistence rebind validation failed:\n- " ++ "\n- ".intercalate (fromKeys errors))
      else return (edited, report)
  | .obj _, .obj _, _ => .error "run state is missing or invalid"
  | .obj _, _, _ => .error "task plan is missing or invalid"
  | _, _, _ => .error "requirements trace is missing or invalid"

/-- What is made of the stored documents where others are to be written: whether it raises, and what is stored. -/
abbrev Commit (φ : Type) := Documents φ → Documents φ → Except String Unit × Documents φ

/-- `rebind_legacy_persistence_decision` -/
def rebindLegacyPersistenceDecision (validate : Json φ → Json φ → Except String (List String)) (commit : Commit φ)
    (configured : List String) (now : String) (decisionId : String) (targets : List String) (stored : Documents φ) :
    Except String Report × Documents φ :=
  match rebindDocuments h validate configured now decisionId targets stored with
  | .error message => (.error message, stored)
  | .ok (edited, report) =>
      match commit edited stored with
      | (.ok (), left) => (.ok report, left)
      | (.error message, left) => (.error message, left)

end Model

/-! ### What a rebinding keeps -/

section

variable {φ : Type} (h : Host φ)

/-- All fields but one are the same. -/
def SameBut (key : String) (before after : Fields φ) : Prop := ∀ other, other ≠ key → after.lookup other = before.lookup other

def itemsOf : Json φ → List (Json φ)
  | .arr items => items
  | _ => []

/-- All that is in it are identifiers of requirements. -/
def WhollyRequirements (targets : Json φ) : Prop :=
  ∃ items, targets = .arr items ∧ ∀ item ∈ items, ∃ text, item = .str text ∧ isRequirementId (stripText text) = true

/-- The set is not replaced, or is one of requirements only. -/
def Replaceable (selected : List String) (targets : Json φ) : Prop :=
  (∀ item, item ∈ itemsOf targets ↔ item ∈ itemsOf (texts selected : Json φ)) ∨ WhollyRequirements targets

/-- The targets are the selected ones, all else is as it was, and what was replaced could be. -/
structure Retargeted (selected : List String) (before after : Fields φ) : Prop where
  same : SameBut "target_ids" before after
  exact : targetsOf after = texts selected
  replaceable : Replaceable selected (targetsOf before)

def DecisionRebound (id : String) (selected : List String) (before after : Json φ) : Prop :=
  match before with
  | .obj decision =>
      if isDecision h id before = true then ∃ decision', after = .obj decision' ∧ Retargeted selected decision decision'
      else after = before
  | _ => after = before

def TaskRebound (id : String) (selected : List String) (before after : Json φ) : Prop :=
  match before with
  | .obj task =>
      match boundChange h id task with
      | some change => ∃ task' change', after = .obj task' ∧ SameBut "persistence_change" task task' ∧
          field task' "persistence_change" .null = .obj change' ∧ Retargeted selected change change'
      | none => after = before
  | _ => after = before

/-- A document is the same but for the items of one list. -/
def Edited (key : String) (rebound : Json φ → Json φ → Prop) (before after : Json φ) : Prop :=
  ∃ fields fields', before = .obj fields ∧ after = .obj fields' ∧ SameBut key fields fields' ∧
    List.Forall₂ rebound (listField fields key) (listField fields' key)

/-- The decision and the tasks have the selected targets, and no set of others is replaced; all else of the trace and of the
plan is the same; and the same call once more changes nothing and says so. -/
structure Consistent (validate : Json φ → Json φ → Except String (List String)) (configured : List String)
    (decisionId : String) (targets : List String) (before after : Documents φ) : Prop where
  trace : Edited "persistence_decisions" (DecisionRebound h (stripText decisionId) (selectedTargets targets)) before.trace after.trace
  plan : Edited "tasks" (TaskRebound h (stripText decisionId) (selectedTargets targets)) before.plan after.plan
  state : ∃ state state', before.state = .obj state ∧ after.state = .obj state' ∧
    List.Forall₂ (TaskRebound h (stripText decisionId) (selectedTargets targets)) (listField state "tasks") (listField state' "tasks")
  again : ∀ now, ∃ report, rebindDocuments h validate configured now decisionId targets after = .ok (after, report) ∧
    report.noOp = true

/-- The targets that the decision has. -/
def decisionTargets (id : String) : Json φ → Option (Json φ)
  | .obj decision => if isDecision h id (.obj decision) = true then some (targetsOf decision) else none
  | _ => none

/-- The targets of the change of a task that names the decision. -/
def taskTargets (id : String) : Json φ → Option (Json φ)
  | .obj task => (boundChange h id task).map targetsOf
  | _ => none

def listOf (document : Json φ) (key : String) : List (Json φ) :=
  match document with
  | .obj fields => listField fields key
  | _ => []

/-- The decision has no targets but the selected ones, in any number, or requirements only; a task that names it has exactly
the selected list, or requirements only. -/
structure Clean (decisionId : String) (targets : List String) (documents : Documents φ) : Prop where
  decision : ∀ item ∈ listOf documents.trace "persistence_decisions", ∀ value ∈ decisionTargets h (stripText decisionId) item,
    Replaceable (selectedTargets targets) value
  tasks : ∀ task ∈ listOf documents.plan "tasks" ++ listOf documents.state "tasks",
    ∀ value ∈ taskTargets h (stripText decisionId) task,
      value = texts (selectedTargets targets) ∨ WhollyRequirements value

end

/-! ### Selections -/

section

variable {φ : Type} {h : Host φ}

theorem mem_normalizedIds {items : List (Json φ)} {id : String} :
    id ∈ normalizedIds (.arr items) ↔ ∃ text, .str text ∈ items ∧ stripText text ≠ "" ∧ id = stripText text := by
  rw [normalizedIds, mem_fromKeys, List.mem_filterMap]
  constructor
  · rintro ⟨item, hitem, hid⟩
    cases item with
    | str text =>
        rw [normalizedId] at hid
        split at hid
        · cases hid
        · rename_i hfilled
          exact ⟨text, hitem, hfilled, (Option.some.inj hid).symm⟩
    | _ => cases hid
  · rintro ⟨text, htext, hfilled, rfl⟩
    exact ⟨.str text, htext, if_neg hfilled⟩

/-- What is selected is stripped, not blank, and there once. -/
structure Selection (selected : List String) : Prop where
  stripped : ∀ target ∈ selected, stripText target = target ∧ target ≠ ""
  apart : selected.Nodup

theorem selection (targets : List String) : Selection (selectedTargets targets) := by
  refine ⟨fun target htarget => ?_, fromKeys_nodup _⟩
  rw [selectedTargets, mem_fromKeys, List.mem_filter, List.mem_map] at htarget
  obtain ⟨⟨text, _, rfl⟩, hfilled⟩ := htarget
  exact ⟨stripText_stripText text, by simpa using hfilled⟩

theorem Selection.normalizedIds_texts {selected : List String} (hselected : Selection selected) :
    normalizedIds (texts selected : Json φ) = selected := by
  have hmap : (selected.map (Json.str : String → Json φ)).filterMap normalizedId = selected := by
    rw [List.filterMap_map]
    calc selected.filterMap (normalizedId ∘ (Json.str : String → Json φ))
        = selected.filterMap some := List.filterMap_congr fun target htarget => by
          obtain ⟨hstrip, hfilled⟩ := hselected.stripped target htarget
          simp [normalizedId, hstrip, hfilled]
      _ = selected := List.filterMap_some
  rw [texts, normalizedIds, hmap, fromKeys_eq.mpr hselected.apart]

/-- A selection that was admitted. -/
structure Admitted (selected : List String) : Prop extends Selection selected where
  some : selected ≠ []
  targets : ∀ target ∈ selected, isRequirementId target = false

theorem admitted {configured targets : List String} {id : String}
    (hok : checkSelection configured id (selectedTargets targets) = .ok ()) : Admitted (selectedTargets targets) := by
  unfold checkSelection at hok
  split at hok
  · cases hok
  split at hok
  · cases hok
  rename_i hsome
  split at hok
  · cases hok
  rename_i hnone
  refine ⟨selection targets, hsome, fun target htarget => ?_⟩
  by_contra hrequirement
  exact hnone (List.any_eq_true.mpr ⟨target, htarget, by simpa using hrequirement⟩)

/-- What is wholly requirements has only requirements among its normalized identifiers. -/
theorem WhollyRequirements.all {targets : Json φ} (hwholly : WhollyRequirements targets) :
    ∀ id ∈ normalizedIds targets, isRequirementId id = true := by
  obtain ⟨items, rfl, hitems⟩ := hwholly
  intro id hid
  obtain ⟨text, htext, _, rfl⟩ := mem_normalizedIds.mp hid
  obtain ⟨_, heq, hrequirement⟩ := hitems _ htext
  cases heq
  exact hrequirement

theorem WhollyRequirements.not_selected {targets : Json φ} {selected : List String} (hwholly : WhollyRequirements targets)
    (hadmitted : Admitted selected) : normalizedIds targets ≠ selected := by
  intro hsame
  obtain ⟨target, htarget⟩ := List.exists_mem_of_ne_nil _ hadmitted.some
  have hrequirement := hwholly.all target (by rw [hsame]; exact htarget)
  rw [hadmitted.targets target htarget] at hrequirement
  cases hrequirement

/-- The items of targets that are replaced are not those that are selected. -/
theorem items_apart {targets : Json φ} {selected : List String} (hadmitted : Admitted selected)
    (hlegacy : legacyRequirementTargets (normalizedIds targets) = true) :
    ¬ ∀ item, item ∈ itemsOf targets ↔ item ∈ itemsOf (texts selected : Json φ) := by
  intro hsame
  unfold legacyRequirementTargets at hlegacy
  rw [Bool.and_eq_true, List.all_eq_true] at hlegacy
  obtain ⟨hsome, hall⟩ := hlegacy
  obtain ⟨id, hid⟩ := List.exists_mem_of_ne_nil _ (by simpa using hsome)
  have hrequirement := hall id hid
  cases targets with
  | arr items =>
      obtain ⟨text, htext, _, rfl⟩ := mem_normalizedIds.mp hid
      have hthere : (.str text : Json φ) ∈ selected.map Json.str := (hsame _).mp htext
      have htarget : text ∈ selected := by simpa using hthere
      rw [(hadmitted.stripped text htarget).1, hadmitted.targets text htarget] at hrequirement
      cases hrequirement
  | _ => cases hid

end

/-! ### What is edited -/

section

variable {φ : Type} {h : Host φ} {id : String} {selected : List String} {fields : Fields φ}

theorem setField_sameBut (fields : Fields φ) (key : String) (value : Json φ) : SameBut key fields (setField fields key value) :=
  fun _ hne => lookup_setField_ne fields hne

theorem targetsOf_setTargets (fields : Fields φ) (selected : List String) : targetsOf (setTargets fields selected) = texts selected :=
  (has_setField fields "target_ids" (texts selected)).field

theorem setTargets_again (fields : Fields φ) (selected : List String) :
    setTargets (setTargets fields selected) selected = setTargets fields selected :=
  (has_setField fields "target_ids" (texts selected)).setField_eq

theorem text_setTargets (fields : Fields φ) (selected : List String) {key : String} (hne : key ≠ "target_ids") (default : String) :
    h.text (setTargets fields selected) key default = h.text fields key default := by
  simp only [Host.text, setTargets, field_setField_ne hne]

theorem isDecision_setTargets : isDecision h id (.obj (setTargets fields selected)) = isDecision h id (.obj fields) := by
  simp only [isDecision, text_setTargets fields selected (by decide : "id" ≠ "target_ids")]

theorem setTargets_retargeted (hreplaceable : Replaceable selected (targetsOf fields)) :
    Retargeted selected fields (setTargets fields selected) where
  same := setField_sameBut fields "target_ids" _
  exact := targetsOf_setTargets fields selected
  replaceable := hreplaceable

/-! ### The decision -/

theorem isDecision_bound (item : Json φ) : isDecision h id (bindDecision h id selected item) = isDecision h id item := by
  cases item with
  | obj decision =>
      simp only [bindDecision]
      split
      · exact isDecision_setTargets
      · rfl
  | _ => rfl

theorem bindDecision_again (item : Json φ) :
    bindDecision h id selected (bindDecision h id selected item) = bindDecision h id selected item := by
  cases item with
  | obj decision =>
      by_cases hdecision : isDecision h id (.obj decision) = true
      · simp only [bindDecision, if_pos hdecision, isDecision_setTargets, setTargets_again]
      · simp only [bindDecision, if_neg hdecision]
  | _ => rfl

theorem bindDecision_rebound (item : Json φ) :
    DecisionRebound h id selected item (bindDecision h id selected item) ↔
      ∀ value ∈ decisionTargets h id item, Replaceable selected value := by
  cases item with
  | obj decision =>
      by_cases hdecision : isDecision h id (.obj decision) = true
      · simp only [DecisionRebound, bindDecision, decisionTargets, if_pos hdecision, Option.mem_some_iff, forall_eq']
        constructor
        · rintro ⟨_, _, hretargeted⟩
          exact hretargeted.replaceable
        · intro hreplaceable
          exact ⟨_, rfl, setTargets_retargeted hreplaceable⟩
      · simp [DecisionRebound, bindDecision, decisionTargets, hdecision]
  | _ => simp [DecisionRebound, bindDecision, decisionTargets]

/-- The decision that is bound is the one that was found, and active. -/
theorem matchingDecision_bound {decisions : List (Json φ)} {decision : Fields φ}
    (hok : matchingDecision h id decisions = .ok decision) :
    matchingDecision h id (decisions.map (bindDecision h id selected)) = .ok (setTargets decision selected) := by
  unfold matchingDecision at hok
  split at hok
  · rename_i found honly
    have hmem : .obj found ∈ decisions.filter (isDecision h id) := by rw [honly]; exact List.mem_singleton_self _
    have hfound : bindDecision h id selected (.obj found) = .obj (setTargets found selected) :=
      if_pos (List.mem_filter.mp hmem).2
    split at hok
    · rename_i hactive
      cases hok
      have hbound : (decisions.map (bindDecision h id selected)).filter (isDecision h id) = [.obj (setTargets decision selected)] := by
        rw [List.filter_map]
        simp only [Function.comp_def, isDecision_bound, honly, List.map_cons, List.map_nil, hfound]
      unfold matchingDecision
      simp only [hbound, text_setTargets decision selected (by decide : "status" ≠ "target_ids"), hactive, if_true]
    · cases hok
  · cases hok

/-! ### Tasks -/

section Tasks

variable {b : Binding} {label : String} {before after : Json φ} {i : Nat} {names : List String} {task change : Fields φ}

theorem boundChange_some (hchange : boundChange h id task = some change) :
    field task "persistence_change" .null = .obj change ∧ h.text change "decision_id" "" = id := by
  unfold boundChange at hchange
  split at hchange
  · rename_i found hfound
    split at hchange
    · rename_i hid
      cases hchange
      exact ⟨hfound, hid⟩
    · cases hchange
  · cases hchange

theorem boundChange_set (change : Fields φ) (hid : h.text change "decision_id" "" = id) :
    boundChange h id (setField task "persistence_change" (.obj (setTargets change selected))) = some (setTargets change selected) := by
  have hdecision : h.text (setTargets change selected) "decision_id" "" = id :=
    (text_setTargets change selected (by decide) "").trans hid
  unfold boundChange
  rw [(has_setField task "persistence_change" _).field]
  exact if_pos hdecision

/-- What becomes of a task that is edited: it is no object or names another decision, it has the targets already, or it had
those of the decision. -/
inductive TaskEdit (h : Host φ) (b : Binding) : Json φ → Json φ → List String → Prop
  | other {item : Json φ} (hother : ∀ fields, item ≠ .obj fields) : TaskEdit h b item item []
  | unbound {task : Fields φ} (hnone : boundChange h b.id task = none) : TaskEdit h b (.obj task) (.obj task) []
  | already {task change : Fields φ} (hchange : boundChange h b.id task = some change)
      (hsame : normalizedIds (targetsOf change) = b.selected) : TaskEdit h b (.obj task) (.obj task) []
  | rebound {task change : Fields φ} (name : String) (hchange : boundChange h b.id task = some change)
      (hprevious : normalizedIds (targetsOf change) = b.previous) (hne : b.previous ≠ b.selected) :
      TaskEdit h b (.obj task) (.obj (setField task "persistence_change" (.obj (setTargets change b.selected)))) [name]

theorem rebindTask_edit (hok : rebindTask h b label (before, i) = .ok (after, names)) : TaskEdit h b before after names := by
  unfold rebindTask at hok
  split at hok
  · rename_i task htask
    dsimp only at htask
    subst htask
    split at hok
    · rename_i change hchange
      dsimp only at hok
      split at hok
      · rename_i hsame
        cases hok
        exact .already hchange hsame
      · rename_i hne
        split at hok
        · cases hok
        · rename_i hprevious
          cases hok
          exact .rebound _ hchange (not_not.mp hprevious) fun hsame => hne ((not_not.mp hprevious).trans hsame)
    · rename_i hnone
      cases hok
      exact .unbound hnone
  · rename_i other hother
    cases hok
    exact .other fun fields heq => hother fields heq

/-- A task that was edited is not edited again, whatever the decision had before. -/
theorem TaskEdit.again (hedit : TaskEdit h b before after names) (hselected : Selection b.selected) (label : String) (i : Nat) :
    rebindTask h { b with previous := b.selected } label (after, i) = .ok (after, []) := by
  cases hedit with
  | other hother =>
      cases before with
      | obj fields => exact absurd rfl (hother fields)
      | _ => rfl
  | unbound hnone => simp only [rebindTask, hnone]
  | already hchange hsame => simp only [rebindTask, hchange, hsame, if_true]
  | @rebound task change name hchange hprevious hne =>
      have hnew : boundChange h b.id (setField task "persistence_change" (.obj (setTargets change b.selected))) =
          some (setTargets change b.selected) := boundChange_set change (boundChange_some hchange).2
      simp only [rebindTask, hnew, targetsOf_setTargets, hselected.normalizedIds_texts, if_true]

/-- Where only requirements are replaced, a task is bound as it should be if and only if it had the selected targets as they
are, or requirements only. -/
theorem TaskEdit.rebound_iff (hedit : TaskEdit h b before after names) (hadmitted : Admitted b.selected)
    (hlegacy : b.previous ≠ b.selected → legacyRequirementTargets b.previous = true) :
    TaskRebound h b.id b.selected before after ↔
      ∀ value ∈ taskTargets h b.id before, value = texts b.selected ∨ WhollyRequirements value := by
  cases hedit with
  | other hother =>
      cases before with
      | obj fields => exact absurd rfl (hother fields)
      | _ => simp [TaskRebound, taskTargets]
  | unbound hnone => simp [TaskRebound, taskTargets, hnone]
  | already hchange hsame =>
      simp only [TaskRebound, taskTargets, hchange, Option.map_some, Option.mem_some_iff, forall_eq']
      constructor
      · rintro ⟨task', change', htask, _, hfield, hretargeted⟩
        cases htask
        rw [(boundChange_some hchange).1] at hfield
        cases hfield
        exact .inl hretargeted.exact
      · rintro (hexact | hwholly)
        · refine ⟨_, _, rfl, fun _ _ => rfl, (boundChange_some hchange).1, fun _ _ => rfl, hexact, .inl fun item => ?_⟩
          rw [hexact]
        · exact absurd hsame (hwholly.not_selected hadmitted)
  | rebound name hchange hprevious hne =>
      simp only [TaskRebound, taskTargets, hchange, Option.map_some, Option.mem_some_iff, forall_eq']
      constructor
      · rintro ⟨_, _, _, _, _, hretargeted⟩
        rcases hretargeted.replaceable with hitems | hwholly
        · exact absurd hitems (items_apart hadmitted (by rw [hprevious]; exact hlegacy hne))
        · exact .inr hwholly
      · rintro (hexact | hwholly)
        · rw [hexact, hadmitted.normalizedIds_texts] at hprevious
          exact absurd hprevious.symm hne
        · exact ⟨_, _, rfl, setField_sameBut _ _ _, (has_setField _ _ _).field, setTargets_retargeted (.inr hwholly)⟩

variable {payload edited : Fields φ}

/-- Its tasks are edited one by one, and not once more, whatever else becomes of the document. -/
structure TasksEdit (h : Host φ) (b : Binding) (payload edited : Fields φ) : Prop where
  rest : SameBut "tasks" payload edited
  each : List.Forall₂ (fun before after => ∃ names, TaskEdit h b before after names) (listField payload "tasks") (listField edited "tasks")
  again : ∀ (label : String) (later : Fields φ), (∀ value, Has edited "tasks" value → Has later "tasks" value) →
    later.lookup "tasks" = edited.lookup "tasks" → Selection b.selected →
      rebindTasks h { b with previous := b.selected } label later = .ok (later, [])

theorem mapM_zipIdx {α β ε : Type} {f : α × Nat → Except ε β} {l : List α} {l' : List β} (hok : l.zipIdx.mapM f = .ok l') :
    List.Forall₂ (fun a b => ∃ i, f (a, i) = .ok b) l l' := by
  have heach := mapM_forall₂.mp hok
  have hfirst : l = l.zipIdx.map Prod.fst := (List.zipIdx_map_fst 0 l).symm
  rw [hfirst, List.forall₂_map_left_iff]
  exact heach.imp fun a b hab => ⟨a.2, hab⟩

theorem rebindTasks_edit (hok : rebindTasks h b label payload = .ok (edited, names)) : TasksEdit h b payload edited := by
  unfold rebindTasks at hok
  split at hok
  · rename_i hnone
    cases hok
    refine ⟨fun _ _ => rfl, by simp [listField, field, hnone], fun label later _ hlookup _ => ?_⟩
    simp only [rebindTasks, hlookup, hnone]
  · rename_i tasks htasks
    simp only [bind_ok, pure_ok, Prod.mk.injEq] at hok
    obtain ⟨done, hdone, rfl, rfl⟩ := hok
    have hhas := has_setField payload "tasks" (.arr (done.map Prod.fst))
    have hbefore : listField payload "tasks" = tasks := by simp [listField, field, htasks]
    have hafter : listField (setField payload "tasks" (.arr (done.map Prod.fst))) "tasks" = done.map Prod.fst := by
      simp [listField, hhas.field]
    have heach : List.Forall₂ (fun before after => ∃ names, TaskEdit h b before after names) tasks (done.map Prod.fst) := by
      rw [List.forall₂_map_right_iff]
      refine (mapM_zipIdx hdone).imp ?_
      rintro before ⟨after, names⟩ ⟨i, hi⟩
      exact ⟨names, rebindTask_edit hi⟩
    refine ⟨setField_sameBut _ _ _, by rw [hbefore, hafter]; exact heach, fun label later hlater _ hselected => ?_⟩
    have hlater := hlater _ hhas
    have hself : (done.map Prod.fst).zipIdx.mapM (rebindTask h { b with previous := b.selected } label) =
        .ok ((done.map Prod.fst).zipIdx.map fun indexed => (indexed.1, [])) := by
      rw [mapM_forall₂, List.forall₂_map_right_iff, List.forall₂_same]
      rintro ⟨after, i⟩ hafter
      obtain ⟨⟨_, names⟩, hmem, rfl⟩ := List.mem_map.mp (List.fst_mem_of_mem_zipIdx hafter)
      obtain ⟨⟨before, j⟩, _, hj⟩ := mapM_mem hdone _ hmem
      exact (rebindTask_edit hj).again hselected label i
    simp only [rebindTasks, hlater.lookup, hself, bind_ok, pure_ok]
    refine ⟨_, rfl, ?_⟩
    have hfirsts : ((done.map Prod.fst).zipIdx.map fun indexed => (indexed.1, ([] : List String))).map Prod.fst = done.map Prod.fst := by
      rw [List.map_map]
      exact List.zipIdx_map_fst 0 _
    rw [hfirsts, hlater.setField_eq]
    simp [List.flatMap_map]
  · cases hok

end Tasks

end

/-! ### The run -/

section

variable {φ : Type} {h : Host φ} {state : Fields φ}

theorem isLegacyBlocker_cleared (hblocker : Has state "active_blocker" (.obj [])) (herror : Has state "last_error" (.str "")) :
    isLegacyBlocker h state = false := by
  have hshort : ∀ marker ∈ legacyMarkers, ¬ marker.toList <:+: ['\n'] := by
    intro marker hmarker hinfix
    have hlength := hinfix.length_le
    have hlong : ∀ marker ∈ legacyMarkers, 1 < marker.toList.length := by decide
    exact absurd hlength (Nat.not_le.mpr (hlong marker hmarker))
  have hcategory : h.text ([] : Fields φ) "category" "" = "" := rfl
  have hreason : h.show (field ([] : Fields φ) "reason" (.str "")) = "" := rfl
  unfold isLegacyBlocker
  rw [hblocker.field, herror.field]
  simp only [hcategory, hreason]
  rw [Bool.or_eq_false_iff]
  constructor
  · decide
  · rw [List.any_eq_false]
    intro marker hmarker
    simpa [Host.show] using hshort marker hmarker

theorem isLegacyBlocker_congr {other : Fields φ} (hblocker : state.lookup "active_blocker" = other.lookup "active_blocker")
    (herror : state.lookup "last_error" = other.lookup "last_error") : isLegacyBlocker h state = isLegacyBlocker h other := by
  unfold isLegacyBlocker field
  rw [hblocker, herror]

/-- A run that was cleared is not cleared again. -/
theorem isLegacyBlocker_clear (state : Fields φ) : isLegacyBlocker h (clearLegacyBlocker h state).1 = false := by
  unfold clearLegacyBlocker
  split
  · dsimp only
    apply isLegacyBlocker_cleared
    · have hblocker := has_setField state "active_blocker" (.obj [])
      split
      · exact (hblocker.set (by decide) _).set (by decide) _
      · exact hblocker.set (by decide) _
    · exact has_setField _ _ _
  · rename_i hlegacy
    exact Bool.not_eq_true _ ▸ hlegacy

/-- What is kept of a field that is another one than those that are cleared. -/
theorem clear_keeps (h : Host φ) (state : Fields φ) {key : String} (hblocker : key ≠ "active_blocker") (hstatus : key ≠ "status") (herror : key ≠ "last_error") :
    (clearLegacyBlocker h state).1.lookup key = state.lookup key ∧
      ∀ value, Has state key value → Has (clearLegacyBlocker h state).1 key value := by
  unfold clearLegacyBlocker
  split
  · dsimp only
    split
    · refine ⟨?_, fun value hhas => ((hhas.set hblocker _).set hstatus _).set herror _⟩
      rw [lookup_setField_ne _ herror, lookup_setField_ne _ hstatus, lookup_setField_ne _ hblocker]
    · refine ⟨?_, fun value hhas => (hhas.set hblocker _).set herror _⟩
      rw [lookup_setField_ne _ herror, lookup_setField_ne _ hblocker]
  · exact ⟨rfl, fun _ hhas => hhas⟩

theorem noteReceipt_keeps (b : Binding) (now : String) (state : Fields φ) {key : String} (hne : key ≠ "resume_context") :
    (noteReceipt b now state).lookup key = state.lookup key ∧
      ∀ value, Has state key value → Has (noteReceipt b now state) key value := by
  unfold noteReceipt
  split
  · exact ⟨lookup_setField_ne _ hne, fun value hhas => hhas.set hne _⟩
  · exact ⟨rfl, fun _ hhas => hhas⟩

theorem objectField_set (fields inner : Fields φ) (key : String) : objectField (setField fields key (.obj inner)) key = inner := by
  simp only [objectField, (has_setField fields key (.obj inner)).field]

/-- A receipt that is there stays where the decision is bound already. -/
theorem noteReceipt_again {b b' : Binding} (hid : b'.id = b.id) (hbound : b'.previous = b'.selected) (now now' : String) :
    noteReceipt b' now' (noteReceipt b now state) = noteReceipt b now state := by
  by_cases hcontext : (state.lookup "resume_context").isSome = true
  · have hnoted : ∃ noted, hasReceipt noted b.id = true ∧ noteReceipt b now state = setField state "resume_context"
        (.obj (setField (objectField state "resume_context") "persistence_rebinds" (.obj noted))) := by
      refine ⟨_, ?_, if_pos hcontext⟩
      split
      · unfold hasReceipt
        rw [lookup_setField_self]
        rfl
      · rename_i hkept
        rw [not_or, Bool.not_eq_false] at hkept
        exact hkept.2
    obtain ⟨noted, hreceipt, hstate⟩ := hnoted
    rw [hstate]
    unfold noteReceipt
    rw [if_pos (by rw [lookup_setField_self]; rfl)]
    dsimp only
    rw [objectField_set, objectField_set, if_neg (by simp [hbound, hid, hreceipt]), (has_setField _ _ _).setField_eq,
      (has_setField _ _ _).setField_eq]
  · have hsame : noteReceipt b now state = state := if_neg hcontext
    rw [hsame]
    exact if_neg hcontext

end

/-! ### The call -/

theorem forall₂_iff {α β : Type} {R S : α → β → Prop} {p : α → Prop} {l : List α} {l' : List β} (hl : List.Forall₂ R l l')
    (heach : ∀ a b, R a b → (S a b ↔ p a)) : List.Forall₂ S l l' ↔ ∀ a ∈ l, p a := by
  induction hl with
  | nil => simp
  | cons hfirst _ ih => rw [List.forall₂_cons, List.forall_mem_cons, ih, heach _ _ hfirst]

section

variable {φ : Type} {h : Host φ} {id now : String} {selected : List String} {trace plan state : Fields φ} {edited : Documents φ}
  {report : Report}

/-- What an edit does. -/
structure Edit (h : Host φ) (id : String) (selected : List String) (now : String) (trace plan state : Fields φ)
    (edited : Documents φ) (found : List (Json φ)) (decision plan' state' : Fields φ) (b : Binding) : Prop where
  list : field trace "persistence_decisions" (.arr []) = .arr found
  matching : matchingDecision h id found = .ok decision
  binding : b = ⟨id, normalizedIds (targetsOf decision), selected⟩
  legacy : b.previous ≠ b.selected → legacyRequirementTargets b.previous = true
  plan : TasksEdit h b plan plan'
  state : TasksEdit h b state state'
  edited : edited = ⟨.obj (setField trace "persistence_decisions" (.arr (found.map (bindDecision h id selected)))), .obj plan',
    .obj (noteReceipt b now (clearLegacyBlocker h state').1)⟩

theorem edit_ok (hok : edit h id selected now trace plan state = .ok (edited, report)) :
    ∃ found decision plan' state' b, Edit h id selected now trace plan state edited found decision plan' state' b := by
  unfold edit at hok
  rw [bind_ok] at hok
  obtain ⟨found, hfound, hok⟩ := hok
  rw [bind_ok] at hok
  obtain ⟨decision, hmatching, hok⟩ := hok
  have hlist : field trace "persistence_decisions" (.arr []) = .arr found := by
    unfold decisionsOf at hfound
    split at hfound
    · rename_i hlist
      cases hfound
      exact hlist
    · cases hfound
  dsimp only at hok
  split at hok
  · cases hok
  · rename_i hallowed
    simp only [bind_ok, pure_ok, Prod.mk.injEq] at hok
    obtain ⟨⟨plan', planTasks⟩, hplan, ⟨state', stateTasks⟩, hstate, rfl, _⟩ := hok
    refine ⟨found, decision, plan', state', _, hlist, hmatching, rfl, fun hne => ?_, rebindTasks_edit hplan,
      rebindTasks_edit hstate, rfl⟩
    simpa [hne] using hallowed

/-- An edit that is made once more changes nothing, and says so. -/
theorem Edit.again {found : List (Json φ)} {decision plan' state' : Fields φ} {b : Binding}
    (hedit : Edit h id selected now trace plan state edited found decision plan' state' b) (hselected : Selection selected)
    (now' : String) :
    edit h id selected now' (setField trace "persistence_decisions" (.arr (found.map (bindDecision h id selected)))) plan'
        (noteReceipt b now (clearLegacyBlocker h state').1) =
      .ok (edited, { source := selected, target := selected, planTasks := [], stateTasks := [], blockerCleared := false, noOp := true }) := by
  have hbinding := hedit.binding
  have hsame : b.selected = selected := by rw [hbinding]
  have hlist : decisionsOf (setField trace "persistence_decisions" (.arr (found.map (bindDecision h id selected)))) =
      .ok (found.map (bindDecision h id selected)) := by
    rw [decisionsOf, (has_setField _ _ _).field]
  have hbound : (found.map (bindDecision h id selected)).map (bindDecision h id selected) = found.map (bindDecision h id selected) := by
    simp only [List.map_map, Function.comp_def, bindDecision_again]
  have hplan : rebindTasks h ⟨id, selected, selected⟩ "task plan" plan' = .ok (plan', []) := by
    have hagain := hedit.plan.again "task plan" plan' (fun _ hhas => hhas) rfl (hsame ▸ hselected)
    rwa [hbinding] at hagain
  have hstate : rebindTasks h ⟨id, selected, selected⟩ "run state" (noteReceipt b now (clearLegacyBlocker h state').1) =
      .ok (noteReceipt b now (clearLegacyBlocker h state').1, []) := by
    have hclear := clear_keeps h state' (by decide : "tasks" ≠ "active_blocker") (by decide) (by decide)
    have hnote := noteReceipt_keeps b now (clearLegacyBlocker h state').1 (by decide : "tasks" ≠ "resume_context")
    have hagain := hedit.state.again "run state" _ (fun value hhas => hnote.2 value (hclear.2 value hhas))
      (hnote.1.trans hclear.1) (hsame ▸ hselected)
    rwa [hbinding] at hagain ⊢
  have hcleared : clearLegacyBlocker h (noteReceipt b now (clearLegacyBlocker h state').1) =
      (noteReceipt b now (clearLegacyBlocker h state').1, false) := by
    have hblocker : isLegacyBlocker h (noteReceipt b now (clearLegacyBlocker h state').1) = false := by
      rw [← isLegacyBlocker_clear (h := h) state']
      exact isLegacyBlocker_congr
        (noteReceipt_keeps b now (clearLegacyBlocker h state').1 (by decide : "active_blocker" ≠ "resume_context")).1
        (noteReceipt_keeps b now (clearLegacyBlocker h state').1 (by decide : "last_error" ≠ "resume_context")).1
    rw [clearLegacyBlocker, hblocker]
    rfl
  unfold edit
  rw [hlist]
  simp only [bind_ok]
  refine ⟨_, rfl, _, matchingDecision_bound hedit.matching, ?_⟩
  rw [targetsOf_setTargets, hselected.normalizedIds_texts, if_neg (by simp)]
  simp only [hplan, hstate, bind_ok, pure_ok, hbound]
  refine ⟨_, rfl, _, rfl, ?_⟩
  have hreceipt : noteReceipt ⟨id, selected, selected⟩ now' (noteReceipt b now (clearLegacyBlocker h state').1) =
      noteReceipt b now (clearLegacyBlocker h state').1 := noteReceipt_again (by rw [hbinding]) rfl now now'
  simp only [hcleared, hreceipt, (has_setField _ _ _).setField_eq, hedit.edited]
  simp

section

variable {found : List (Json φ)} {decision plan' state' : Fields φ} {b : Binding}

theorem Edit.trace_iff (hedit : Edit h id selected now trace plan state edited found decision plan' state' b) :
    Edited "persistence_decisions" (DecisionRebound h id selected) (.obj trace) edited.trace ↔
      ∀ item ∈ listField trace "persistence_decisions", ∀ value ∈ decisionTargets h id item, Replaceable selected value := by
  have hfound : listField trace "persistence_decisions" = found := by simp only [listField, hedit.list]
  have hafter : listField (setField trace "persistence_decisions" (.arr (found.map (bindDecision h id selected))))
      "persistence_decisions" = found.map (bindDecision h id selected) := by
    simp only [listField, (has_setField _ _ _).field]
  have hall : List.Forall₂ (DecisionRebound h id selected) found (found.map (bindDecision h id selected)) ↔
      ∀ item ∈ found, ∀ value ∈ decisionTargets h id item, Replaceable selected value := by
    simp only [List.forall₂_map_right_iff, List.forall₂_same, bindDecision_rebound]
  rw [hfound, ← hall, hedit.edited]
  constructor
  · rintro ⟨fields, fields', hfields, hfields', _, heach⟩
    rwa [← Json.obj.inj hfields, ← Json.obj.inj hfields', hfound, hafter] at heach
  · intro heach
    exact ⟨_, _, rfl, rfl, setField_sameBut _ _ _, by rw [hfound, hafter]; exact heach⟩

theorem Edit.tasks_iff (hedit : Edit h id selected now trace plan state edited found decision plan' state' b)
    (hadmitted : Admitted selected) {payload payload' : Fields φ} (hpayload : TasksEdit h b payload payload') :
    List.Forall₂ (TaskRebound h id selected) (listField payload "tasks") (listField payload' "tasks") ↔
      ∀ task ∈ listField payload "tasks", ∀ value ∈ taskTargets h id task, value = texts selected ∨ WhollyRequirements value := by
  have hbinding := hedit.binding
  have hselected : b.selected = selected := by rw [hbinding]
  have hid : b.id = id := by rw [hbinding]
  refine forall₂_iff hpayload.each fun before after ⟨names, htask⟩ => ?_
  have hrebound := htask.rebound_iff (hselected ▸ hadmitted) hedit.legacy
  rwa [hselected, hid] at hrebound

theorem Edit.plan_iff (hedit : Edit h id selected now trace plan state edited found decision plan' state' b)
    (hadmitted : Admitted selected) :
    Edited "tasks" (TaskRebound h id selected) (.obj plan) edited.plan ↔
      ∀ task ∈ listField plan "tasks", ∀ value ∈ taskTargets h id task, value = texts selected ∨ WhollyRequirements value := by
  rw [← hedit.tasks_iff hadmitted hedit.plan, hedit.edited]
  constructor
  · rintro ⟨fields, fields', hfields, hfields', _, heach⟩
    rwa [← Json.obj.inj hfields, ← Json.obj.inj hfields'] at heach
  · intro heach
    exact ⟨_, _, rfl, rfl, hedit.plan.rest, heach⟩

theorem Edit.state_iff (hedit : Edit h id selected now trace plan state edited found decision plan' state' b)
    (hadmitted : Admitted selected) :
    (∃ before after, (.obj state : Json φ) = .obj before ∧ edited.state = .obj after ∧
        List.Forall₂ (TaskRebound h id selected) (listField before "tasks") (listField after "tasks")) ↔
      ∀ task ∈ listField state "tasks", ∀ value ∈ taskTargets h id task, value = texts selected ∨ WhollyRequirements value := by
  have hlist : listField (noteReceipt b now (clearLegacyBlocker h state').1) "tasks" = listField state' "tasks" := by
    have hnote := (noteReceipt_keeps b now (clearLegacyBlocker h state').1 (by decide : "tasks" ≠ "resume_context")).1
    have hclear := (clear_keeps h state' (by decide : "tasks" ≠ "active_blocker") (by decide) (by decide)).1
    simp only [listField, field, hnote, hclear]
  rw [← hedit.tasks_iff hadmitted hedit.state, hedit.edited, ← hlist]
  constructor
  · rintro ⟨fields, fields', hfields, hfields', heach⟩
    rwa [← Json.obj.inj hfields, ← Json.obj.inj hfields'] at heach
  · intro heach
    exact ⟨_, _, rfl, rfl, heach⟩

end

variable {validate : Json φ → Json φ → Except String (List String)} {configured targets : List String} {decisionId : String}
  {before after : Documents φ}

/-- The documents that are to be written are consistent with those that were read if and only if these are clean. -/
theorem rebindDocuments_consistent
    (hok : rebindDocuments h validate configured now decisionId targets before = .ok (after, report)) :
    Consistent h validate configured decisionId targets before after ↔ Clean h decisionId targets before := by
  obtain ⟨trace, plan, state⟩ := before
  unfold rebindDocuments at hok
  dsimp only at hok
  rw [bind_ok] at hok
  obtain ⟨⟨⟩, hcheck, hok⟩ := hok
  have hadmitted := admitted hcheck
  split at hok
  · rename_i trace plan state
    rw [bind_ok] at hok
    obtain ⟨⟨edited, _⟩, hedit, hok⟩ := hok
    rw [bind_ok] at hok
    obtain ⟨errors, hvalid, hok⟩ := hok
    split at hok
    · cases hok
    rename_i hnone
    cases hok
    obtain ⟨found, decision, plan', state', b, hedit⟩ := edit_ok hedit
    have hagain : ∀ now, ∃ report, rebindDocuments h validate configured now decisionId targets edited = .ok (edited, report) ∧
        report.noOp = true := by
      intro now'
      have hsecond := hedit.again hadmitted.toSelection now'
      refine ⟨⟨selectedTargets targets, selectedTargets targets, [], [], false, true⟩, ?_, rfl⟩
      have hdocuments := hedit.edited
      unfold rebindDocuments
      rw [hdocuments] at hsecond hvalid ⊢
      dsimp only at hsecond hvalid ⊢
      rw [hcheck, bind_ok]
      refine ⟨(), rfl, ?_⟩
      rw [hsecond, bind_ok]
      refine ⟨_, rfl, ?_⟩
      rw [bind_ok]
      exact ⟨errors, hvalid, if_neg hnone⟩
    constructor
    · rintro ⟨htrace, hplan, hstate, _⟩
      exact ⟨hedit.trace_iff.mp htrace,
        List.forall_mem_append.mpr ⟨(hedit.plan_iff hadmitted).mp hplan, (hedit.state_iff hadmitted).mp hstate⟩⟩
    · rintro ⟨hdecision, htasks⟩
      obtain ⟨hplan, hstate⟩ := List.forall_mem_append.mp htasks
      exact ⟨hedit.trace_iff.mpr hdecision, (hedit.plan_iff hadmitted).mpr hplan, (hedit.state_iff hadmitted).mpr hstate, hagain⟩
  · cases hok
  · cases hok
  · cases hok

/-- A rebinding that raises has written nothing, but for what a commit leaves that raises itself; one that succeeds is
consistent if and only if the decision had no targets but the selected ones, or requirements only, and each task that names
it had the selected list as it is, or requirements only. -/
theorem rebind_consistent (h : Host φ) (validate : Json φ → Json φ → Except String (List String)) (commit : Commit φ)
    (configured : List String) (now decisionId : String) (targets : List String) (stored : Documents φ)
    (hwritten : ∀ edited left, commit edited stored = (.ok (), left) → left = edited) :
    (∀ message left,
        rebindLegacyPersistenceDecision h validate commit configured now decisionId targets stored = (.error message, left) →
          left = stored ∨ ∃ edited, commit edited stored = (.error message, left)) ∧
      ∀ report left,
        rebindLegacyPersistenceDecision h validate commit configured now decisionId targets stored = (.ok report, left) →
          (Consistent h validate configured decisionId targets stored left ↔ Clean h decisionId targets stored) := by
  unfold rebindLegacyPersistenceDecision
  cases hdocuments : rebindDocuments h validate configured now decisionId targets stored with
  | error failure =>
      refine ⟨fun message left hraised => .inl ?_, fun report left hdone => ?_⟩
      · exact (Prod.mk.inj hraised).2.symm
      · cases (Prod.mk.inj hdone).1
  | ok done =>
      obtain ⟨edited, reported⟩ := done
      dsimp only
      split
      · rename_i kept hcommit
        refine ⟨fun message left hraised => ?_, fun report left hdone => ?_⟩
        · cases (Prod.mk.inj hraised).1
        · obtain ⟨_, rfl⟩ := Prod.mk.inj hdone
          rw [hwritten edited kept hcommit]
          exact rebindDocuments_consistent hdocuments
      · rename_i failure kept hcommit
        refine ⟨fun message left hraised => .inr ⟨edited, ?_⟩, fun report left hdone => ?_⟩
        · obtain ⟨hmessage, rfl⟩ := Prod.mk.inj hraised
          rw [← Except.error.inj hmessage, hcommit]
        · cases (Prod.mk.inj hdone).1

end

/-! ### A database -/

/-- One decision with these targets, one task that is planned, and one task of the run that names the decision. -/
def storedTargets (decision task : List (Json FloatLiteral)) : Documents FloatLiteral where
  trace := .obj [("version", .int 1), ("requirements", .arr []), ("persistence_decisions", .arr [.obj [("id", .str "PERSIST-001"),
    ("strategy", .str "initial_schema"), ("target_ids", .arr decision), ("status", .str "active"), ("source", .str "design")]])]
  plan := .obj [("tasks", .arr [.obj [("task_id", .str "t1"), ("title", .str "Store"), ("description", .str "Store the entries"),
    ("acceptance", .arr [.str "The entries are stored"]), ("status", .str "pending"), ("commit_message", .str "Store entries")]])]
  state := .obj [("tasks", .arr [.obj [("persistence_change", .obj [("decision_id", .str "PERSIST-001"), ("target_ids", .arr task)])]])]

def noErrors (_ _ : Json FloatLiteral) : Except String (List String) := .ok []

def written (edited _ : Documents FloatLiteral) : Except String Unit × Documents FloatLiteral := (.ok (), edited)

def rebound (decision task : List (Json FloatLiteral)) : Except String Report × Documents FloatLiteral :=
  rebindLegacyPersistenceDecision Upgrade.textHost noErrors written ["db"] "now" "PERSIST-001" ["db"] (storedTargets decision task)

theorem id_strip : stripText "PERSIST-001" = "PERSIST-001" := by decide

theorem selected_db : selectedTargets ["db"] = ["db"] := by decide

variable {decision task decision' task' : List (Json FloatLiteral)}

/-- A rebinding of the documents that is written. -/
theorem rebound_documents {edited : Documents FloatLiteral} {report : Report}
    (hok : rebindDocuments Upgrade.textHost noErrors ["db"] "now" "PERSIST-001" ["db"] (storedTargets decision task) = .ok (edited, report)) :
    rebound decision task = (.ok report, edited) := by
  unfold rebound rebindLegacyPersistenceDecision
  rw [hok]
  rfl

theorem documents_legacy : ∃ report, rebindDocuments Upgrade.textHost noErrors ["db"] "now" "PERSIST-001" ["db"]
    (storedTargets [.str "REQ-1"] [.str "REQ-1"]) = .ok (storedTargets [.str "db"] [.str "db"], report) :=
  ⟨_, rfl⟩

theorem documents_repeated : ∃ report, rebindDocuments Upgrade.textHost noErrors ["db"] "now" "PERSIST-001" ["db"]
    (storedTargets [.str "db"] [.str "db", .str "db"]) = .ok (storedTargets [.str "db"] [.str "db", .str "db"], report) :=
  ⟨_, rfl⟩

theorem written_left (edited left stored : Documents FloatLiteral) (hwritten : written edited stored = (.ok (), left)) :
    left = edited := (Prod.mk.inj hwritten).2.symm

theorem wholly_requirement : WhollyRequirements (.arr [.str "REQ-1"] : Json FloatLiteral) := by
  refine ⟨_, rfl, fun item hitem => ⟨"REQ-1", List.mem_singleton.mp hitem, ?_⟩⟩
  decide

section Stored

variable (decision task)

theorem stored_decisions : listOf (storedTargets decision task).trace "persistence_decisions" = [.obj [("id", .str "PERSIST-001"),
    ("strategy", .str "initial_schema"), ("target_ids", .arr decision), ("status", .str "active"), ("source", .str "design")]] := by
  simp [listOf, storedTargets, listField, field, List.lookup]

theorem stored_tasks : (listOf (storedTargets decision task).plan "tasks" ++ listOf (storedTargets decision task).state "tasks").filterMap
    (taskTargets Upgrade.textHost "PERSIST-001") = [.arr task] := by
  have hplan : listOf (storedTargets decision task).plan "tasks" = [.obj [("task_id", .str "t1"), ("title", .str "Store"),
      ("description", .str "Store the entries"), ("acceptance", .arr [.str "The entries are stored"]), ("status", .str "pending"),
      ("commit_message", .str "Store entries")]] := by
    simp [listOf, storedTargets, listField, field, List.lookup]
  have hstate : listOf (storedTargets decision task).state "tasks" =
      [.obj [("persistence_change", .obj [("decision_id", .str "PERSIST-001"), ("target_ids", .arr task)])]] := by
    simp [listOf, storedTargets, listField, field, List.lookup]
  have hnone : taskTargets Upgrade.textHost "PERSIST-001" (.obj [("task_id", .str "t1"), ("title", .str "Store"),
      ("description", .str "Store the entries"), ("acceptance", .arr [.str "The entries are stored"]), ("status", .str "pending"),
      ("commit_message", .str "Store entries")]) = none := by
    simp [taskTargets, boundChange, field, List.lookup]
  have hsome : taskTargets Upgrade.textHost "PERSIST-001"
      (.obj [("persistence_change", .obj [("decision_id", .str "PERSIST-001"), ("target_ids", .arr task)])]) = some (.arr task) := by
    simp [taskTargets, boundChange, field, List.lookup, Host.text, Host.show, id_strip, targetsOf]
  rw [hplan, hstate, List.singleton_append, List.filterMap_cons_none hnone, List.filterMap_cons_some hsome, List.filterMap_nil]

theorem stored_clean : Clean Upgrade.textHost "PERSIST-001" ["db"] (storedTargets decision task) ↔
    Replaceable ["db"] (.arr decision : Json FloatLiteral) ∧
      ((.arr task : Json FloatLiteral) = texts ["db"] ∨ WhollyRequirements (.arr task : Json FloatLiteral)) := by
  have hdecision : ∀ value, value ∈ decisionTargets Upgrade.textHost "PERSIST-001" (.obj [("id", .str "PERSIST-001"),
      ("strategy", .str "initial_schema"), ("target_ids", .arr decision), ("status", .str "active"), ("source", .str "design")]) ↔
        value = .arr decision := by
    intro value
    simp [decisionTargets, isDecision, Host.text, Host.show, field, List.lookup, id_strip, targetsOf, eq_comm]
  have htasks : ∀ value, (∃ item ∈ listOf (storedTargets decision task).plan "tasks" ++ listOf (storedTargets decision task).state "tasks",
      value ∈ taskTargets Upgrade.textHost "PERSIST-001" item) ↔ value = .arr task := by
    intro value
    rw [← List.mem_singleton, ← stored_tasks decision task, List.mem_filterMap]
    rfl
  constructor
  · intro hclean
    have hfirst := hclean.decision
    have hlast := hclean.tasks
    rw [id_strip, selected_db] at hfirst hlast
    rw [stored_decisions] at hfirst
    obtain ⟨item, hitem, hvalue⟩ := (htasks (.arr task)).mpr rfl
    exact ⟨hfirst _ (List.mem_singleton_self _) _ ((hdecision _).mpr rfl), hlast item hitem _ hvalue⟩
  · rintro ⟨hfirst, hlast⟩
    constructor
    · rw [id_strip, selected_db, stored_decisions]
      intro item hitem value hvalue
      rw [List.mem_singleton.mp hitem, hdecision] at hvalue
      rwa [hvalue]
    · rw [id_strip, selected_db]
      intro item hitem value hvalue
      rwa [(htasks value).mp ⟨item, hitem, hvalue⟩]

end Stored

theorem rebind_consistent_legacy : Consistent Upgrade.textHost noErrors ["db"] "PERSIST-001" ["db"]
    (storedTargets [.str "REQ-1"] [.str "REQ-1"]) (storedTargets [.str "db"] [.str "db"]) := by
  obtain ⟨report, hok⟩ := documents_legacy
  have hconsistent := rebind_consistent Upgrade.textHost noErrors written ["db"] "now" "PERSIST-001" ["db"]
    (storedTargets [.str "REQ-1"] [.str "REQ-1"]) fun edited left => written_left edited left _
  exact (hconsistent.2 report _ (rebound_documents hok)).mpr
    ((stored_clean _ _).mpr ⟨.inr wholly_requirement, .inr wholly_requirement⟩)

/-- A task of the run that has the target twice keeps it twice. -/
theorem repeated_target : ¬ ∀ report left, rebound [.str "db"] [.str "db", .str "db"] = (.ok report, left) →
    Consistent Upgrade.textHost noErrors ["db"] "PERSIST-001" ["db"] (storedTargets [.str "db"] [.str "db", .str "db"]) left := by
  intro hclaim
  obtain ⟨report, hok⟩ := documents_repeated
  have hclean := (rebindDocuments_consistent hok).mp (hclaim report _ (rebound_documents hok))
  rcases ((stored_clean _ _).mp hclean).2 with hexact | hwholly
  · simp [texts] at hexact
  · obtain ⟨items, hitems, hall⟩ := hwholly
    cases hitems
    obtain ⟨text, htext, hrequirement⟩ := hall (.str "db") List.mem_cons_self
    cases htext
    exact absurd hrequirement (by decide)

end AutoAgents.Rebind.Decision
