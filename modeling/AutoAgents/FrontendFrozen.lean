import AutoAgents.FrontendFidelity

/-! What an iteration without frontend work leaves as it was, where both validators report nothing. -/

namespace AutoAgents.Fidelity

open Base

variable {φ : Type} {r : Reader φ} {trace previous plan : Json φ} {q old : Fields φ}

/-! ### Contracts -/

/-- The contract fields of two requirements compare as equal. -/
def Reader.SameFields (r : Reader φ) (old q : Fields φ) : Prop :=
  ∀ key ∈ contractFields, r.differs ((old.lookup key).getD .null) ((q.lookup key).getD .null) = false

/-- The hashes of the contracts are one, where both requirements have one; else their fields are. -/
def Reader.SameContract (r : Reader φ) (old q : Fields φ) : Prop :=
  if r.contractHash old ≠ "" ∧ r.contractHash q ≠ "" then r.contractHash old = r.contractHash q else r.SameFields old q

theorem contractChanged_iff : r.contractChanged old q = false ↔ r.SameContract old q := by
  unfold Reader.contractChanged Reader.SameContract
  split
  · simp
  · simp [Reader.fieldsChanged, Reader.SameFields]

/-! ### Lookups -/

theorem exists_of_scopeRequested {b : Bool} (h : scopeRequested trace b = true) : ∃ fields, trace = .obj fields := by
  unfold scopeRequested at h
  split at h
  · next fields => exact ⟨fields, rfl⟩
  · cases h

theorem byId_some {id : String} (h : r.byId trace id = some old) : old ∈ requirements trace ∧ r.id old = id ∧ id ≠ "" := by
  unfold Reader.byId at h
  split at h
  · cases h
  · next hne =>
      have hid := List.find?_some h
      exact ⟨List.mem_reverse.mp (List.mem_of_find?_eq_some h), by simpa using hid, hne⟩

/-- What is classified is listed, if it passes the test. -/
theorem classified_mem {test : Fields φ → Bool} {classify : Fields φ → Except Raised Bool} {l found : List (Fields φ)}
    (h : classified test classify l = .ok found) (hq : q ∈ l) (htest : test q = true) (hclass : classify q = .ok true) :
    q ∈ found := by
  obtain ⟨parts, hparts, hfound⟩ := bind_ok.mp h
  obtain rfl := pure_ok.mp hfound
  obtain ⟨part, hpart, hclassified⟩ := mapM_mem_of_mem hparts q (List.mem_filter.mpr ⟨hq, htest⟩)
  rw [hclass] at hclassified
  obtain rfl : [q] = part := Except.ok.inj hclassified
  exact List.mem_flatten_of_mem hpart List.mem_cons_self

theorem mem_preservationOnlyIds {ids : List String} (h : r.preservationOnlyIds trace = .ok ids)
    (hscope : scopeRequested trace false = true) (hq : q ∈ requirements trace) (hactive : isActive q = true)
    (hmandatory : isMandatory q = true) (hid : r.id q ≠ "") (hfidelity : r.isFidelity q = .ok true)
    (hpreserves : r.isPreservationOnly q = .ok true) : r.id q ∈ ids := by
  unfold Reader.preservationOnlyIds at h
  simp only [hscope, Bool.true_eq_false, if_false] at h
  obtain ⟨found, hfound, hids⟩ := bind_ok.mp h
  obtain rfl := pure_ok.mp hids
  refine List.mem_map_of_mem (classified_mem hfound hq ?_ ?_)
  · simp [hactive, hmandatory, hid]
  · simp only [hfidelity]
    exact hpreserves

/-- No requirement is in scope without an identity. -/
theorem fidelityIds_named {ids : List String} (h : r.fidelityIds trace = .ok ids) : "" ∉ ids := by
  simp only [Reader.fidelityIds] at h
  split at h
  · obtain rfl := pure_ok.mp h
    simp
  · obtain ⟨legacy, -, hids⟩ := bind_ok.mp h
    obtain rfl := pure_ok.mp hids
    simp

/-! ### One requirement -/

theorem activeBefore_some {ids : List String} (h : r.activeBefore previous ids = .ok true) :
    ∃ id ∈ ids, ∃ old, r.byId previous id = some old ∧ isActive old = true ∧ r.isFidelity old = .ok true := by
  induction ids with
  | nil => cases h
  | cons id ids ih =>
      have hlater : r.activeBefore previous ids = .ok true → ∃ id' ∈ id :: ids, ∃ old, r.byId previous id' = some old ∧
          isActive old = true ∧ r.isFidelity old = .ok true := by
        intro h
        obtain ⟨id', hid', hold⟩ := ih h
        exact ⟨id', List.mem_cons_of_mem id hid', hold⟩
      unfold Reader.activeBefore at h
      split at h
      · exact hlater h
      · next old hold =>
          split at h
          · next hactive =>
              obtain ⟨fidelity, hfidelity, h⟩ := bind_ok.mp h
              split at h
              · next htrue => exact ⟨id, List.mem_cons_self, old, hold, hactive, by rw [hfidelity, htrue]⟩
              · exact hlater h
          · exact hlater h

/-- The requirement only preserves what an active contract of fidelity of the trace before asks for. -/
def Reader.Succeeds (r : Reader φ) (previous : Json φ) (q : Fields φ) : Prop :=
  r.isPreservationOnly q = .ok true ∧ ∃ superseded, r.supersedes q = .ok superseded ∧
    ∃ old ∈ requirements previous, r.id old ∈ superseded ∧ isActive old = true ∧ r.isFidelity old = .ok true

theorem preservesLineage_succeeds (h : r.preservesLineage previous q = .ok true) : r.Succeeds previous q := by
  obtain ⟨superseded, hsuperseded, h⟩ := bind_ok.mp h
  split at h
  · cases h
  · obtain ⟨preserves, hpreserves, h⟩ := bind_ok.mp h
    split at h
    · next htrue =>
        obtain ⟨id, hid, old, hold, hactive, hfidelity⟩ := activeBefore_some h
        obtain ⟨hmem, hname, -⟩ := byId_some hold
        exact ⟨by rw [hpreserves, htrue], superseded, hsuperseded, old, hmem, by rwa [hname], hactive, hfidelity⟩
    · cases h

theorem frozen_of_no_errors (h : r.frozenErrors previous q = .ok []) (hactive : isActive q = true)
    (hfidelity : r.isFidelity q = .ok true) :
    (∃ old ∈ requirements previous, r.id old = r.id q ∧ r.SameContract old q) ∨ r.Succeeds previous q := by
  obtain ⟨details, hdetails, hfound⟩ := bind_ok.mp hfidelity
  have hfound : details.found = true := pure_ok.mp hfound
  simp only [Reader.frozenErrors, hactive, hdetails, Bool.true_eq_false, if_false] at h
  obtain ⟨_, hsame, h⟩ := bind_ok.mp h
  obtain rfl := Except.ok.inj hsame
  simp only [hfound, Bool.true_eq_false, if_false] at h
  split at h
  · obtain ⟨preserves, hpreserves, h⟩ := bind_ok.mp h
    split at h
    · next htrue => exact Or.inr (preservesLineage_succeeds (by rw [hpreserves, htrue]))
    · cases h
  · next old hold =>
      obtain ⟨hmem, hname, -⟩ := byId_some hold
      have hsame := pure_ok.mp h
      refine Or.inl ⟨old, hmem, hname, contractChanged_iff.mp ?_⟩
      by_contra hchanged
      simp [hchanged] at hsame

/-! ### The validators -/

theorem frozen_of_no_scopeErrors (h : r.scopeErrors trace previous = .ok []) (hscope : scopeRequested trace false = true)
    (hprevious : previous ≠ .null) : ∀ q ∈ requirements trace, r.frozenErrors previous q = .ok [] := by
  intro q hq
  unfold Reader.scopeErrors at h
  split at h
  · exact absurd rfl hprevious
  · rw [if_pos hscope] at h
    obtain ⟨frozen, hfrozen, h⟩ := bind_ok.mp h
    obtain ⟨errors, herrors, hok⟩ := mapM_mem_of_mem hfrozen q hq
    rw [hok, List.flatten_eq_nil_iff.mp (pure_ok.mp h) errors herrors]

theorem unbound_of_no_bindingErrors {preserved : List String} {tasks : List (Json φ)}
    (h : r.bindingErrors preserved tasks = .ok []) (hsome : preserved ≠ []) :
    ∀ task ∈ tasks, ∃ index, r.taskErrors preserved index task = .ok [] := by
  intro task htask
  unfold Reader.bindingErrors at h
  rw [if_neg hsome] at h
  obtain ⟨errors, herrors, h⟩ := bind_ok.mp h
  obtain ⟨index, hindex⟩ : ∃ index, (task, index) ∈ tasks.zipIdx := by
    obtain ⟨n, hn, hget⟩ := List.mem_iff_getElem.mp htask
    refine ⟨n, List.mem_zipIdx_iff_getElem?.mpr ?_⟩
    rw [List.getElem?_eq_getElem hn, hget]
  obtain ⟨found, hfound, hok⟩ := mapM_mem_of_mem herrors (task, index) hindex
  refine ⟨index + 1, ?_⟩
  rw [hok, List.flatten_eq_nil_iff.mp (pure_ok.mp h) found hfound]

/-- What a trace without findings is known to have. -/
structure Reader.Faultless (r : Reader φ) (previous trace : Json φ) (inScope : List String) : Prop where
  ids : r.fidelityIds trace = .ok inScope
  frozen : ∀ q ∈ requirements trace, r.frozenErrors previous q = .ok []
  covered : surfaces trace ≠ [] → ∃ q ∈ requirements trace, isActive q = true ∧ isMandatory q = true ∧ r.id q ∈ inScope

theorem faultless {specText : String} (h : r.validateTrace trace specText previous = .ok [])
    (hscope : scopeRequested trace false = true) (hprevious : previous ≠ .null) : ∃ inScope, r.Faultless previous trace inScope := by
  obtain ⟨fields, rfl⟩ := exists_of_scopeRequested hscope
  obtain ⟨inScope, hids, h⟩ := bind_ok.mp h
  obtain ⟨frozen, hfrozen, h⟩ := bind_ok.mp h
  have hall := pure_ok.mp h
  simp only [List.append_eq_nil_iff] at hall
  obtain ⟨⟨⟨⟨hflat, -⟩, -⟩, -⟩, hcovered⟩ := hall
  refine ⟨inScope, hids, ?_, fun hsurfaces => ?_⟩
  · rw [hflat] at hfrozen
    exact frozen_of_no_scopeErrors hfrozen hscope hprevious
  · by_contra hnone
    have hactive : ((requirements (.obj fields)).filter fun q =>
        isActive q && isMandatory q && inScope.contains (r.id q)) = [] := by
      refine List.filter_eq_nil_iff.mpr fun q hq htest => hnone ⟨q, hq, ?_⟩
      simpa [and_assoc] using htest
    rw [if_pos ⟨hsurfaces, hactive⟩] at hcovered
    cases hcovered

theorem task_unbound {preserved ids : List String} {index : Nat} {task : Fields φ}
    (h : r.taskErrors preserved index (.obj task) = .ok []) (hdone : r.isDone task = false) (hbound : r.boundIds task = .ok ids) :
    ∀ id ∈ preserved, id ∉ ids := by
  simp only [Reader.taskErrors, hdone, Bool.false_eq_true, if_false, hbound] at h
  obtain ⟨_, hsame, h⟩ := bind_ok.mp h
  obtain rfl := Except.ok.inj hsame
  have hnone := pure_ok.mp h
  intro id hid hmem
  split at hnone
  · next hinvalid =>
      have hin : id ∈ ((ids.filter preserved.contains).eraseDups.mergeSort fun a b => decide (a ≤ b)) := by
        simp [hid, hmem]
      rw [hinvalid] at hin
      cases hin
  · cases hnone

/-- The requirements in scope are never so few that the errors of the tasks are dropped. -/
theorem bindings_faultless {fields : Fields φ} {history : List (Json φ)} {inScope preserved : List String}
    (htrace : r.Faultless previous trace inScope) (hscope : scopeRequested trace false = true)
    (h : r.validateTaskPlan (.obj fields) trace history = .ok []) (hpreserved : r.preservationOnlyIds trace = .ok preserved) :
    r.bindingErrors preserved (listField (.obj fields) "tasks") = .ok [] := by
  obtain ⟨fields', rfl⟩ := exists_of_scopeRequested hscope
  obtain ⟨_, hsame, h⟩ := bind_ok.mp h
  obtain rfl : preserved = _ := Except.ok.inj (hpreserved.symm.trans hsame)
  obtain ⟨errors, herrors, h⟩ := bind_ok.mp h
  suffices hnone : errors = [] by rwa [hnone] at herrors
  split at h
  · exact pure_ok.mp h
  · next hsurfaces =>
      obtain ⟨_, hids, h⟩ := bind_ok.mp h
      obtain rfl : inScope = _ := Except.ok.inj (htrace.ids.symm.trans hids)
      obtain ⟨q, hq, hactive, hmandatory, hid⟩ := htrace.covered hsurfaces
      have hnamed : r.id q ≠ "" := by
        intro hempty
        rw [hempty] at hid
        exact fidelityIds_named htrace.ids hid
      dsimp only at h
      split at h
      · next hrequired =>
          have hin : r.id q ∈ (((requirements (.obj fields')).filter fun q =>
              isActive q && isMandatory q && inScope.contains (r.id q)).map r.id).filter (· ≠ "") := by
            refine List.mem_filter.mpr ⟨List.mem_map_of_mem (List.mem_filter.mpr ⟨hq, ?_⟩), by simpa using hnamed⟩
            simp [hactive, hmandatory, hid]
          rw [hrequired] at hin
          cases hin
      · obtain ⟨evidence, -, h⟩ := bind_ok.mp h
        exact (List.append_eq_nil_iff.mp (pure_ok.mp h)).1

theorem boundIds_named {task : Fields φ} {ids : List String} (h : r.boundIds task = .ok ids) : "" ∉ ids := by
  obtain ⟨items, -, h⟩ := bind_ok.mp h
  obtain rfl := pure_ok.mp h
  intro hmem
  obtain ⟨item, -, hitem⟩ := List.mem_filterMap.mp hmem
  split at hitem
  · split at hitem
    · cases hitem
    · next hne => exact hne (Option.some.inj hitem)
  · cases hitem

/-- Where no frontend work is requested and neither validator reports anything, every active contract of fidelity is one
of the trace before, or only preserves such a one; and no open task binds what is only to be preserved. -/
theorem contracts_frozen {specText : String} {history : List (Json φ)} (hscope : scopeRequested trace false = true)
    (hprevious : previous ≠ .null) (htrace : r.validateTrace trace specText previous = .ok [])
    (hplan : r.validateTaskPlan plan trace history = .ok []) :
    (∀ q ∈ requirements trace, isActive q = true → r.isFidelity q = .ok true →
      (∃ old ∈ requirements previous, r.id old = r.id q ∧ r.SameContract old q) ∨ r.Succeeds previous q) ∧
    ∀ task, .obj task ∈ listField plan "tasks" → r.isDone task = false → ∀ ids, r.boundIds task = .ok ids →
      ∀ q ∈ requirements trace, isActive q = true → isMandatory q = true → r.isFidelity q = .ok true →
        r.isPreservationOnly q = .ok true → r.id q ∉ ids := by
  obtain ⟨inScope, hfaultless⟩ := faultless htrace hscope hprevious
  refine ⟨fun q hq hactive hfidelity => frozen_of_no_errors (hfaultless.frozen q hq) hactive hfidelity, ?_⟩
  intro task htask hdone ids hids q hq hactive hmandatory hfidelity hpreserves hbound
  have hnamed : r.id q ≠ "" := by
    intro hempty
    rw [hempty] at hbound
    exact boundIds_named hids hbound
  cases plan with
  | obj fields =>
      obtain ⟨preserved, hpreserved⟩ : ∃ preserved, r.preservationOnlyIds trace = .ok preserved := by
        obtain ⟨fields', rfl⟩ := exists_of_scopeRequested hscope
        obtain ⟨preserved, hpreserved, -⟩ := bind_ok.mp hplan
        exact ⟨preserved, hpreserved⟩
      have hin := mem_preservationOnlyIds hpreserved hscope hq hactive hmandatory hnamed hfidelity hpreserves
      have herrors := bindings_faultless hfaultless hscope hplan hpreserved
      obtain ⟨index, htaskErrors⟩ := unbound_of_no_bindingErrors herrors (List.ne_nil_of_mem hin) _ htask
      exact task_unbound htaskErrors hdone hids _ hin hbound
  | _ => cases htask

/-! ### A contract with a hash -/

def plainReader : Reader FloatLiteral := ⟨fun _ => 0, fun _ => "", fun s => String.ofList (s.toList.map Char.toLower)⟩

/-- A tagged requirement that is in force. -/
def panel (text hash : String) : Fields FloatLiteral :=
  [("id", .str "R1"), ("status", .str "active"), ("priority", .str "mandatory"), ("frontend_surface", .bool true),
    ("text", .str text), ("contract_sha256", .str hash)]

/-- An iteration without frontend work. -/
def unrequested (q : Fields FloatLiteral) : Json FloatLiteral :=
  .obj [("frontend_scope", .obj [("requested", .bool false)]), ("requirements", .arr [.obj q])]

/-- A plan with an open task. -/
def keepPlan : Json FloatLiteral := .obj [("tasks", .arr [.obj [("task_id", .str "T1"), ("requirement_ids", .arr [.str "R2"])]])]

theorem requirements_unrequested (q : Fields FloatLiteral) : requirements (unrequested q) = [q] := rfl

theorem contracts_frozen_panel : ∃ old ∈ requirements (unrequested (panel "keep" "h")), plainReader.id old = "R1" ∧
    plainReader.SameContract old (panel "keep" "h") := by
  have htrace : plainReader.validateTrace (unrequested (panel "keep" "h")) "" (unrequested (panel "keep" "h")) = .ok [] := by
    decide +kernel
  have hplan : plainReader.validateTaskPlan keepPlan (unrequested (panel "keep" "h")) [] = .ok [] := by decide +kernel
  have hfidelity : plainReader.isFidelity (panel "keep" "h") = .ok true := by decide +kernel
  obtain ⟨hfrozen, -⟩ := contracts_frozen (by decide +kernel) (fun h => by cases h) htrace hplan
  rcases hfrozen (panel "keep" "h") (by simp [requirements_unrequested]) (by decide +kernel) hfidelity with hsame | hsucceeds
  · exact hsame
  · exfalso
    have hplain : plainReader.isPreservationOnly (panel "keep" "h") = .ok false := by decide +kernel
    rw [Reader.Succeeds, hplain] at hsucceeds
    exact absurd hsucceeds.1 (by decide)

/-- A contract with another text passes under the hash of the one before it. -/
theorem stale_hash_passes : ∃ trace previous plan : Json FloatLiteral, scopeRequested trace false = true ∧
    plainReader.validateTrace trace "" previous = .ok [] ∧ plainReader.validateTaskPlan plan trace [] = .ok [] ∧
    ∃ q ∈ requirements trace, isActive q = true ∧ plainReader.isFidelity q = .ok true ∧
      ¬ ((∃ old ∈ requirements previous, plainReader.id old = plainReader.id q ∧ plainReader.SameFields old q) ∨
        plainReader.Succeeds previous q) := by
  refine ⟨unrequested (panel "red" "h"), unrequested (panel "blue" "h"), keepPlan, by decide +kernel, by decide +kernel,
    by decide +kernel, panel "red" "h", by simp [requirements_unrequested], by decide +kernel, by decide +kernel, ?_⟩
  rintro (⟨old, hold, -, hsame⟩ | hsucceeds)
  · obtain rfl : old = panel "blue" "h" := by simpa [requirements_unrequested] using hold
    exact absurd (hsame "text" (by decide)) (by decide +kernel)
  · have hplain : plainReader.isPreservationOnly (panel "red" "h") = .ok false := by decide +kernel
    rw [Reader.Succeeds, hplain] at hsucceeds
    exact absurd hsucceeds.1 (by decide)

end AutoAgents.Fidelity
