import AutoAgents.ContractDocument

/-! Contracts are encoded without loss. What is read back from the canonical text of a contract is the contract
with its fields in order; it has the same identity, and two contracts of one identity are the same. -/

namespace AutoAgents.Document

open Base

variable {φ : Type}

/-! ### Values -/

namespace Value

theorem jsonItems_eq (items : List (Value φ)) : jsonItems items = items.map toJson := by
  induction items with
  | nil => rfl
  | cons v rest ih => simp [jsonItems, ih]

theorem jsonFields_eq (fields : List (String × Value φ)) :
    jsonFields fields = fields.map fun field => (field.1, field.2.toJson) := by
  induction fields with
  | nil => rfl
  | cons field rest ih => simp [jsonFields, ih]

theorem ofItems_eq (items : List (Json φ)) : ofItems items = items.map ofJson := by
  induction items with
  | nil => rfl
  | cons v rest ih => simp [ofItems, ih]

theorem ofFields_eq (fields : List (String × Json φ)) : ofFields fields = fields.map fun field => (field.1, ofJson field.2) := by
  induction fields with
  | nil => rfl
  | cons field rest ih => simp [ofFields, ih]

theorem ofFields_keys (fields : List (String × Json φ)) : (ofFields fields).map Prod.fst = fields.map Prod.fst := by
  rw [ofFields_eq, List.map_map]
  rfl

mutual
/-- Freezing keeps the document. -/
@[simp] theorem toJson_freeze (v : Value φ) : v.freeze.toJson = v.toJson := by
  match v with
  | .dict fields => simp only [freeze, toJson, jsonFields_freezeFields fields]
  | .frozenDict fields => simp only [freeze, toJson, jsonFields_freezeFields fields]
  | .list items => simp only [freeze, toJson, jsonItems_freezeItems items]
  | .tuple items => simp only [freeze, toJson, jsonItems_freezeItems items]
  | .null => rfl
  | .bool _ => rfl
  | .int _ => rfl
  | .float _ => rfl
  | .nonFinite _ => rfl
  | .str _ => rfl

theorem jsonItems_freezeItems (items : List (Value φ)) : jsonItems (freezeItems items) = jsonItems items := by
  match items with
  | [] => rfl
  | v :: rest => simp only [freezeItems, jsonItems, toJson_freeze v, jsonItems_freezeItems rest]

theorem jsonFields_freezeFields (fields : List (String × Value φ)) : jsonFields (freezeFields fields) = jsonFields fields := by
  match fields with
  | [] => rfl
  | (k, v) :: rest => simp only [freezeFields, jsonFields, toJson_freeze v, jsonFields_freezeFields rest]
end

mutual
/-- So does thawing. -/
@[simp] theorem toJson_thaw (v : Value φ) : v.thaw.toJson = v.toJson := by
  match v with
  | .dict fields => simp only [thaw, toJson, jsonFields_thawFields fields]
  | .frozenDict fields => simp only [thaw, toJson, jsonFields_thawFields fields]
  | .list items => rfl
  | .tuple items => simp only [thaw, toJson, jsonItems_thawItems items]
  | .null => rfl
  | .bool _ => rfl
  | .int _ => rfl
  | .float _ => rfl
  | .nonFinite _ => rfl
  | .str _ => rfl

theorem jsonItems_thawItems (items : List (Value φ)) : jsonItems (thawItems items) = jsonItems items := by
  match items with
  | [] => rfl
  | v :: rest => simp only [thawItems, jsonItems, toJson_thaw v, jsonItems_thawItems rest]

theorem jsonFields_thawFields (fields : List (String × Value φ)) : jsonFields (thawFields fields) = jsonFields fields := by
  match fields with
  | [] => rfl
  | (k, v) :: rest => simp only [thawFields, jsonFields, toJson_thaw v, jsonFields_thawFields rest]
end

mutual
/-- What was loaded has every field once. -/
theorem ofJson_distinct (v : Json φ) : (ofJson v).toJson.Distinct := by
  match v with
  | .obj fields =>
      show (List.map Prod.fst _).Nodup ∧ DistinctFields _
      rw [jsonFields_eq, List.map_map, distinctFields_iff]
      refine ⟨objectOf_nodup (ofFields fields), fun field hfield => ?_⟩
      obtain ⟨old, hold, rfl⟩ := List.mem_map.mp hfield
      exact ofFields_distinct fields old (mem_objectOf hold)
  | .arr items =>
      show DistinctItems _
      rw [jsonItems_eq, distinctItems_iff]
      intro w hw
      obtain ⟨old, hold, rfl⟩ := List.mem_map.mp hw
      exact ofItems_distinct items old hold
  | .null => trivial
  | .bool _ => trivial
  | .int _ => trivial
  | .float _ => trivial
  | .nonFinite _ => trivial
  | .str _ => trivial

theorem ofItems_distinct (items : List (Json φ)) : ∀ v ∈ ofItems items, v.toJson.Distinct := by
  match items with
  | [] => exact fun _ h => nomatch h
  | v :: rest => exact List.forall_mem_cons.mpr ⟨ofJson_distinct v, ofItems_distinct rest⟩

theorem ofFields_distinct (fields : List (String × Json φ)) : ∀ field ∈ ofFields fields, field.2.toJson.Distinct := by
  match fields with
  | [] => exact fun _ h => nomatch h
  | (k, v) :: rest => exact List.forall_mem_cons.mpr ⟨ofJson_distinct v, ofFields_distinct rest⟩
end

mutual
/-- A document whose fields are distinct is loaded as it is. -/
theorem toJson_ofJson {v : Json φ} (h : v.Distinct) : (ofJson v).toJson = v := by
  match v, h with
  | .obj fields, h =>
      have hkeys : ((ofFields fields).map Prod.fst).Nodup := by
        rw [ofFields_keys]
        exact h.1
      rw [ofJson, objectOf_eq hkeys, toJson, jsonFields_ofFields h.2]
  | .arr items, h =>
      have hitems : DistinctItems items := h
      rw [ofJson, toJson, jsonItems_ofItems hitems]
  | .null, _ => rfl
  | .bool _, _ => rfl
  | .int _, _ => rfl
  | .float _, _ => rfl
  | .nonFinite _, _ => rfl
  | .str _, _ => rfl

theorem jsonItems_ofItems {items : List (Json φ)} (h : DistinctItems items) : jsonItems (ofItems items) = items := by
  match items, h with
  | [], _ => rfl
  | v :: rest, h => rw [ofItems, jsonItems, toJson_ofJson h.1, jsonItems_ofItems h.2]

theorem jsonFields_ofFields {fields : List (String × Json φ)} (h : DistinctFields fields) :
    jsonFields (ofFields fields) = fields := by
  match fields, h with
  | [], _ => rfl
  | (k, v) :: rest, h => rw [ofFields, jsonFields, toJson_ofJson h.1, jsonFields_ofFields h.2]
end

theorem Plain.distinct {v : Value φ} (h : v.Plain) : v.toJson.Distinct := by
  obtain ⟨document, rfl⟩ := h
  exact ofJson_distinct document

theorem Frozen.distinct {v : Value φ} (h : v.Frozen) : v.toJson.Distinct := by
  obtain ⟨fields, rfl⟩ := h
  rw [toJson_freeze]
  exact ofJson_distinct _

/-- The document of a frozen dict is an object. -/
theorem Frozen.document {v : Value φ} (h : v.Frozen) : ∃ fields, v.toJson = .obj fields := by
  obtain ⟨fields, rfl⟩ := h
  rw [toJson_freeze]
  exact ⟨_, rfl⟩

/-- The value that is loaded from the sorted document of another. -/
def reread (v : Value φ) : Value φ := ofJson v.toJson.sorted

theorem toJson_reread {v : Value φ} (h : v.toJson.Distinct) : v.reread.toJson = v.toJson.sorted := toJson_ofJson h.sorted

theorem reread_same {v : Value φ} (h : v.toJson.Distinct) : v.reread.Same v := by
  unfold Same
  rw [toJson_reread h, Json.sorted_sorted]

end Value

/-! ### Texts -/

theorem finiteFields_iff {fields : List (String × Json φ)} :
    finiteFields fields = true ↔ ∀ field ∈ fields, finite field.2 = true := by
  induction fields with
  | nil => simp [finiteFields]
  | cons field rest ih => simp [finiteFields, ih]

mutual
theorem finite_sorted (v : Json φ) : finite v.sorted = finite v := by
  match v with
  | .arr items => exact finiteItems_sorted items
  | .obj fields =>
      have hperm : finiteFields ((sortedFields fields).insertionSort byKey) = finiteFields (sortedFields fields) := by
        rw [Bool.eq_iff_iff, finiteFields_iff, finiteFields_iff]
        simp only [(List.perm_insertionSort byKey _).mem_iff]
      exact hperm.trans (finiteFields_sorted fields)
  | .null => rfl
  | .bool _ => rfl
  | .int _ => rfl
  | .float _ => rfl
  | .nonFinite _ => rfl
  | .str _ => rfl

theorem finiteItems_sorted (items : List (Json φ)) : finiteItems (sortedItems items) = finiteItems items := by
  match items with
  | [] => rfl
  | v :: rest => rw [sortedItems, finiteItems, finiteItems, finite_sorted v, finiteItems_sorted rest]

theorem finiteFields_sorted (fields : List (String × Json φ)) : finiteFields (sortedFields fields) = finiteFields fields := by
  match fields with
  | [] => rfl
  | (k, v) :: rest => rw [sortedFields, finiteFields, finiteFields, finite_sorted v, finiteFields_sorted rest]
end

/-- The field of a sorted object. -/
theorem lookup_inOrder (fields : List (String × Value φ)) (key : String) :
    ((sortedFields (Value.jsonFields fields)).insertionSort byKey).lookup key =
      (fields.lookup key).map fun v => v.toJson.sorted := by
  rw [lookup_sorted, Value.jsonFields_eq, lookup_map, Option.map_map]
  rfl

/-! ### Verification specifications -/

theorem named_purpose (purpose : Purpose) : named purposes purposeName (.str (purposeName purpose) : Json φ) = some purpose := by
  cases purpose <;> rfl

theorem named_cacheScope (scope : CacheScope) :
    named cacheScopes CacheScope.name (.str scope.name : Json φ) = some scope := by
  cases scope <;> rfl

theorem named_resultCacheScope (scope : ResultCacheScope) :
    named resultCacheScopes ResultCacheScope.name (.str scope.name : Json φ) = some scope := by
  cases scope <;> rfl

theorem named_mode (mode : Mode) : named modes modeName (.str (modeName mode) : Json φ) = some mode := by
  cases mode <;> rfl

theorem named_injective {α : Type} {members : List α} {name : α → String}
    (h : ∀ member, named members name (.str (name member) : Json φ) = some member) {a b : α} (hab : name a = name b) :
    a = b := by
  have ha := h a
  rw [hab, h b] at ha
  exact (Option.some.inj ha).symm

theorem sorted_texts (texts : List String) : sortedItems (Value.jsonItems (texts.map .str : List (Value φ))) = texts.map .str := by
  rw [Value.jsonItems_eq, sortedItems_eq, List.map_map, List.map_map]
  rfl

theorem texts_injective {texts other : List String} (h : (texts.map .str : List (Json φ)) = other.map .str) : texts = other :=
  List.map_injective_iff.mpr (fun _ _ => Json.str.inj) h

namespace VerificationSpec

theorem textsOf_map (texts : List String) : textsOf (texts.map .str : List (Json φ)) = some texts := by
  induction texts with
  | nil => rfl
  | cons text rest ih => rw [List.map_cons, textsOf, ih, Option.map_some]

/-- The specification as it is read back. -/
def reread (spec : VerificationSpec φ) : VerificationSpec φ where
  command := spec.command
  targets := spec.targets
  purpose := spec.purpose
  required := spec.required
  timeout := spec.timeout
  outputs := spec.outputs.map Value.reread
  cacheScope := spec.cacheScope
  resultCacheScope := spec.resultCacheScope
  command_given := spec.command_given
  timeout_positive := spec.timeout_positive
  outputs_plain v hv := by
    obtain ⟨old, -, rfl⟩ := List.mem_map.mp hv
    exact ⟨_, rfl⟩

theorem reread_same (spec : VerificationSpec φ) : spec.reread.Same spec where
  command := rfl
  targets := rfl
  purpose := rfl
  required := rfl
  timeout := rfl
  outputs := by
    rw [reread, List.forall₂_map_left_iff, List.forall₂_same]
    exact fun v hv => Value.reread_same (spec.outputs_plain v hv).distinct
  cacheScope := rfl
  resultCacheScope := rfl

/-- The constructor takes what it is given. -/
theorem build_reread (spec : VerificationSpec φ) :
    build (.str spec.command) (spec.targets.map .str) (.str (purposeName spec.purpose)) (.bool spec.required)
      (.int spec.timeout) (spec.outputs.map fun v => v.toJson.sorted) (.str spec.cacheScope.name)
      (.str spec.resultCacheScope.name) = .ok spec.reread := by
  unfold build
  simp only [dif_pos spec.command_given, named_purpose, dif_pos spec.timeout_positive, textsOf_map, named_cacheScope,
    named_resultCacheScope]
  have houtputs : Value.ofItems (spec.outputs.map fun v => v.toJson.sorted) = spec.outputs.map Value.reread := by
    rw [Value.ofItems_eq, List.map_map]
    rfl
  simp only [houtputs]
  rfl

/-- The fields that are left out say what their default says. -/
structure Written (fields : List (String × Json φ)) (spec : VerificationSpec φ) : Prop where
  command : fields.lookup "command" = some (.str spec.command)
  targets : fields.lookup "targets" = some (.arr (spec.targets.map .str))
  purpose : fields.lookup "purpose" = some (.str (purposeName spec.purpose))
  required : fields.lookup "required" = some (.bool spec.required)
  timeout : fields.lookup "timeout" = some (.int spec.timeout)
  outputs : get fields "outputs" (.arr []) = .arr (spec.outputs.map fun v => v.toJson.sorted)
  cacheScope : get fields "cache_scope" (.str "candidate") = .str spec.cacheScope.name
  resultCacheScope : get fields "result_cache_scope" (.str "candidate") = .str spec.resultCacheScope.name

theorem written (spec : VerificationSpec φ) :
    Written ((sortedFields (Value.jsonFields spec.dictFields)).insertionSort byKey) spec := by
  have houtputs : spec.dictFields.lookup "outputs" = if spec.outputs = [] then none else some (.list spec.outputs) := by
    unfold dictFields
    split_ifs <;> rfl
  have hcache : spec.dictFields.lookup "cache_scope" =
      if spec.cacheScope = .candidate then none else some (.str spec.cacheScope.name) := by
    unfold dictFields
    split_ifs <;> rfl
  have hresult : spec.dictFields.lookup "result_cache_scope" =
      if spec.resultCacheScope = .candidate then none else some (.str spec.resultCacheScope.name) := by
    unfold dictFields
    split_ifs <;> rfl
  refine ⟨?_, ?_, ?_, ?_, ?_, ?_, ?_, ?_⟩
  · rw [lookup_inOrder]
    rfl
  · rw [lookup_inOrder]
    show some (Json.arr (sortedItems (Value.jsonItems _))) = _
    rw [sorted_texts]
  · rw [lookup_inOrder]
    rfl
  · rw [lookup_inOrder]
    rfl
  · rw [lookup_inOrder]
    rfl
  · rw [get, lookup_inOrder, houtputs]
    by_cases hempty : spec.outputs = []
    · rw [if_pos hempty, hempty]
      rfl
    · rw [if_neg hempty]
      show Json.arr (sortedItems (Value.jsonItems _)) = _
      rw [Value.jsonItems_eq, sortedItems_eq, List.map_map]
      rfl
  · rw [get, lookup_inOrder, hcache]
    split_ifs with hcandidate
    · rw [hcandidate]
      rfl
    · rfl
  · rw [get, lookup_inOrder, hresult]
    split_ifs with hcandidate
    · rw [hcandidate]
      rfl
    · rfl

/-- A specification is read back from its sorted document. -/
theorem read_toDict (spec : VerificationSpec φ) : read spec.toDict.toJson.sorted = .ok spec.reread := by
  have h := spec.written
  show read (.obj ((sortedFields (Value.jsonFields spec.dictFields)).insertionSort byKey)) = _
  simp only [read, item, get, h.command, h.targets, h.purpose, h.required, h.timeout, Option.getD_some]
  have houtputs := h.outputs
  have hcache := h.cacheScope
  have hresult := h.resultCacheScope
  unfold get at houtputs hcache hresult
  rw [houtputs, hcache, hresult]
  exact spec.build_reread

theorem sorted_dictFields (spec : VerificationSpec φ) :
    sortedFields (Value.jsonFields spec.dictFields) =
      [("command", .str spec.command), ("targets", .arr (spec.targets.map .str)), ("purpose", .str (purposeName spec.purpose)),
          ("required", .bool spec.required), ("timeout", .int spec.timeout)] ++
        (if spec.outputs.map (fun v => v.toJson.sorted) = [] then []
          else [("outputs", .arr (spec.outputs.map fun v => v.toJson.sorted))]) ++
        (if spec.cacheScope = .candidate then [] else [("cache_scope", .str spec.cacheScope.name)]) ++
        if spec.resultCacheScope = .candidate then [] else [("result_cache_scope", .str spec.resultCacheScope.name)] := by
  have htargets : (Value.list (spec.targets.map .str) : Value φ).toJson.sorted = .arr (spec.targets.map .str) :=
    congrArg Json.arr (sorted_texts spec.targets)
  have houtputs : (Value.list spec.outputs).toJson.sorted = .arr (spec.outputs.map fun v => v.toJson.sorted) := by
    show Json.arr (sortedItems (Value.jsonItems _)) = _
    rw [Value.jsonItems_eq, sortedItems_eq, List.map_map]
    rfl
  rw [Value.jsonFields_eq, sortedFields_eq, List.map_map, dictFields]
  simp only [List.map_append, List.map_cons, List.map_nil, Function.comp_def, htargets, List.map_eq_nil_iff]
  congr 1
  · congr 1
    · congr 1
      split_ifs
      · rfl
      · rw [List.map_cons, houtputs, List.map_nil]
    · split_ifs <;> rfl
  · split_ifs <;> rfl

theorem forall₂_same_iff {values other : List (Value φ)} :
    List.Forall₂ Value.Same values other ↔ values.map (fun v => v.toJson.sorted) = other.map fun v => v.toJson.sorted := by
  rw [← List.forall₂_eq_eq_eq, List.forall₂_map_left_iff, List.forall₂_map_right_iff]
  rfl

/-- Specifications are the same just when their sorted documents are equal. -/
theorem same_iff {spec other : VerificationSpec φ} : spec.Same other ↔ spec.toDict.Same other.toDict := by
  constructor
  · intro h
    have houtputs := forall₂_same_iff.mp h.outputs
    show Json.obj ((sortedFields (Value.jsonFields spec.dictFields)).insertionSort byKey) =
      .obj ((sortedFields (Value.jsonFields other.dictFields)).insertionSort byKey)
    rw [sorted_dictFields spec, h.command, h.targets, h.purpose, h.required, h.timeout, houtputs, h.cacheScope,
      h.resultCacheScope, ← sorted_dictFields other]
  · intro h
    have hfields : (sortedFields (Value.jsonFields spec.dictFields)).insertionSort byKey =
        (sortedFields (Value.jsonFields other.dictFields)).insertionSort byKey := Json.obj.inj h
    have hspec := spec.written
    rw [hfields] at hspec
    have hother := other.written
    refine ⟨?_, ?_, ?_, ?_, ?_, ?_, ?_, ?_⟩
    · exact Json.str.inj (Option.some.inj (hspec.command.symm.trans hother.command))
    · exact texts_injective (Json.arr.inj (Option.some.inj (hspec.targets.symm.trans hother.targets)))
    · apply @named_injective φ _ purposes purposeName named_purpose
      exact Json.str.inj (Option.some.inj (hspec.purpose.symm.trans hother.purpose))
    · exact Json.bool.inj (Option.some.inj (hspec.required.symm.trans hother.required))
    · exact Json.int.inj (Option.some.inj (hspec.timeout.symm.trans hother.timeout))
    · exact forall₂_same_iff.mpr (Json.arr.inj (hspec.outputs.symm.trans hother.outputs))
    · apply @named_injective φ _ cacheScopes CacheScope.name named_cacheScope
      exact Json.str.inj (hspec.cacheScope.symm.trans hother.cacheScope)
    · apply @named_injective φ _ resultCacheScopes ResultCacheScope.name named_resultCacheScope
      exact Json.str.inj (hspec.resultCacheScope.symm.trans hother.resultCacheScope)

/-- No field of a specification is written twice. -/
theorem toDict_distinct (spec : VerificationSpec φ) : spec.toDict.toJson.Distinct := by
  show (List.map Prod.fst (Value.jsonFields spec.dictFields)).Nodup ∧ DistinctFields (Value.jsonFields spec.dictFields)
  rw [Value.jsonFields_eq, distinctFields_iff, List.map_map]
  constructor
  · unfold dictFields
    split_ifs <;> simp
  · intro field hfield
    obtain ⟨old, hold, rfl⟩ := List.mem_map.mp hfield
    have htargets : (Value.list (spec.targets.map .str) : Value φ).toJson.Distinct := by
      show DistinctItems (Value.jsonItems _)
      rw [Value.jsonItems_eq, distinctItems_iff, List.map_map]
      intro v hv
      obtain ⟨text, -, rfl⟩ := List.mem_map.mp hv
      trivial
    have houtputs : (Value.list spec.outputs).toJson.Distinct := by
      show DistinctItems (Value.jsonItems _)
      rw [Value.jsonItems_eq, distinctItems_iff]
      intro v hv
      obtain ⟨output, houtput, rfl⟩ := List.mem_map.mp hv
      exact (spec.outputs_plain output houtput).distinct
    simp only [dictFields, List.mem_append, List.mem_cons, List.not_mem_nil, or_false] at hold
    rcases hold with (((rfl | rfl | rfl | rfl | rfl) | hold) | hold) | hold
    · trivial
    · exact htargets
    · trivial
    · trivial
    · trivial
    · split_ifs at hold
      · cases hold
      · obtain rfl := List.mem_singleton.mp hold
        exact houtputs
    · split_ifs at hold
      · cases hold
      · obtain rfl := List.mem_singleton.mp hold
        trivial
    · split_ifs at hold
      · cases hold
      · obtain rfl := List.mem_singleton.mp hold
        trivial

end VerificationSpec

/-! ### Contracts -/

theorem list_document (items : List (Value φ)) : (Value.list items).toJson.sorted = .arr (items.map fun v => v.toJson.sorted) := by
  show Json.arr (sortedItems (Value.jsonItems _)) = _
  rw [Value.jsonItems_eq, sortedItems_eq, List.map_map]
  rfl

namespace ContractFields

variable {c d : ContractFields φ}

theorem sorted_dictFields (c : ContractFields φ) :
    sortedFields (Value.jsonFields c.dictFields) =
      [("schema", .int schema), ("workflow_id", c.workflowId.toJson.sorted), ("work_id", c.workId.toJson.sorted),
        ("mode", .str (modeName c.mode)), ("goal", .str c.goal), ("source", c.source.toJson.sorted),
        ("authorization", c.authorization.toJson.sorted), ("scope", .arr (c.scope.map .str)),
        ("checks", .arr (c.checks.map fun spec => spec.toDict.toJson.sorted)), ("inputs", c.inputs.toJson.sorted),
        ("parent_contract", c.parentContract.toJson.sorted)] := by
  have hscope : (Value.list (c.scope.map .str) : Value φ).toJson.sorted = .arr (c.scope.map .str) :=
    congrArg Json.arr (sorted_texts c.scope)
  have hchecks : (Value.list (c.checks.map VerificationSpec.toDict)).toJson.sorted =
      .arr (c.checks.map fun spec => spec.toDict.toJson.sorted) := by
    rw [list_document, List.map_map]
    rfl
  rw [Value.jsonFields_eq, sortedFields_eq, List.map_map, dictFields]
  simp only [List.map_cons, List.map_nil, Function.comp_def, hscope, hchecks, Value.toJson_thaw]
  rfl

theorem checks_same_iff {checks other : List (VerificationSpec φ)} :
    List.Forall₂ VerificationSpec.Same checks other ↔
      checks.map (fun spec => spec.toDict.toJson.sorted) = other.map fun spec => spec.toDict.toJson.sorted := by
  rw [← List.forall₂_eq_eq_eq, List.forall₂_map_left_iff, List.forall₂_map_right_iff]
  constructor
  · exact List.Forall₂.imp fun _ _ => VerificationSpec.same_iff.mp
  · exact List.Forall₂.imp fun _ _ => VerificationSpec.same_iff.mpr

/-- Contracts are the same just when their sorted documents are equal. -/
theorem same_iff : c.Same d ↔ c.toDict.Same d.toDict := by
  constructor
  · intro h
    show Json.obj ((sortedFields (Value.jsonFields c.dictFields)).insertionSort byKey) =
      .obj ((sortedFields (Value.jsonFields d.dictFields)).insertionSort byKey)
    have hworkflow : c.workflowId.toJson.sorted = d.workflowId.toJson.sorted := h.workflowId
    have hwork : c.workId.toJson.sorted = d.workId.toJson.sorted := h.workId
    have hsource : c.source.toJson.sorted = d.source.toJson.sorted := h.source
    have hauthorization : c.authorization.toJson.sorted = d.authorization.toJson.sorted := h.authorization
    have hinputs : c.inputs.toJson.sorted = d.inputs.toJson.sorted := h.inputs
    have hparent : c.parentContract.toJson.sorted = d.parentContract.toJson.sorted := h.parentContract
    rw [sorted_dictFields c, hworkflow, hwork, h.mode, h.goal, hsource, hauthorization, h.scope,
      checks_same_iff.mp h.checks, hinputs, hparent, ← sorted_dictFields d]
  · intro h
    have hfields := Json.obj.inj h
    have hlookup : ∀ key, (sortedFields (Value.jsonFields c.dictFields)).lookup key =
        (sortedFields (Value.jsonFields d.dictFields)).lookup key := by
      intro key
      rw [← lookup_insertionSort, ← lookup_insertionSort (sortedFields (Value.jsonFields d.dictFields)), hfields]
    simp only [sorted_dictFields] at hlookup
    refine ⟨?_, ?_, ?_, ?_, ?_, ?_, ?_, ?_, ?_, ?_⟩
    · exact Option.some.inj (hlookup "workflow_id")
    · exact Option.some.inj (hlookup "work_id")
    · apply @named_injective φ _ modes modeName named_mode
      exact Json.str.inj (Option.some.inj (hlookup "mode"))
    · exact Json.str.inj (Option.some.inj (hlookup "goal"))
    · exact Option.some.inj (hlookup "source")
    · exact Option.some.inj (hlookup "authorization")
    · exact texts_injective (Json.arr.inj (Option.some.inj (hlookup "scope")))
    · exact checks_same_iff.mpr (Json.arr.inj (Option.some.inj (hlookup "checks")))
    · exact Option.some.inj (hlookup "inputs")
    · exact Option.some.inj (hlookup "parent_contract")

end ContractFields

namespace Contract

variable {c d : Contract φ}

/-- No field of a contract is written twice. -/
theorem toDict_distinct (c : Contract φ) : c.toDict.toJson.Distinct := by
  show (List.map Prod.fst (Value.jsonFields c.dictFields)).Nodup ∧ DistinctFields (Value.jsonFields c.dictFields)
  rw [Value.jsonFields_eq, distinctFields_iff, List.map_map]
  constructor
  · simp [ContractFields.dictFields]
  · intro field hfield
    obtain ⟨old, hold, rfl⟩ := List.mem_map.mp hfield
    have hscope : (Value.list (c.scope.map .str) : Value φ).toJson.Distinct := by
      show DistinctItems (Value.jsonItems _)
      rw [Value.jsonItems_eq, distinctItems_iff, List.map_map]
      intro v hv
      obtain ⟨text, -, rfl⟩ := List.mem_map.mp hv
      trivial
    have hchecks : (Value.list (c.checks.map VerificationSpec.toDict)).toJson.Distinct := by
      show DistinctItems (Value.jsonItems _)
      rw [Value.jsonItems_eq, distinctItems_iff, List.map_map]
      intro v hv
      obtain ⟨spec, -, rfl⟩ := List.mem_map.mp hv
      exact spec.toDict_distinct
    simp only [ContractFields.dictFields, List.mem_cons, List.not_mem_nil, or_false] at hold
    rcases hold with rfl | rfl | rfl | rfl | rfl | rfl | rfl | rfl | rfl | rfl | rfl
    · trivial
    · exact c.workflowId_plain.distinct
    · exact c.workId_plain.distinct
    · trivial
    · trivial
    · exact c.source_plain.distinct
    · rw [Value.toJson_thaw]
      exact c.authorization_frozen.distinct
    · exact hscope
    · exact hchecks
    · rw [Value.toJson_thaw]
      exact c.inputs_frozen.distinct
    · exact c.parentContract_plain.distinct

/-- The fields of the contract as they are read back. -/
def rereadFields (c : Contract φ) : ContractFields φ where
  workflowId := c.workflowId.reread
  workId := c.workId.reread
  mode := c.mode
  goal := c.goal
  source := c.source.reread
  authorization := c.authorization.reread.freeze
  scope := c.scope
  checks := c.checks.map VerificationSpec.reread
  inputs := c.inputs.reread.freeze
  parentContract := c.parentContract.reread

theorem rereadFields_same (c : Contract φ) : c.rereadFields.Same c.toContractFields where
  workflowId := Value.reread_same c.workflowId_plain.distinct
  workId := Value.reread_same c.workId_plain.distinct
  mode := rfl
  goal := rfl
  source := Value.reread_same c.source_plain.distinct
  authorization := by
    have hsame := Value.reread_same c.authorization_frozen.distinct
    unfold Value.Same at hsame ⊢
    rwa [rereadFields, Value.toJson_freeze]
  scope := rfl
  checks := by
    rw [rereadFields, List.forall₂_map_left_iff, List.forall₂_same]
    exact fun spec _ => spec.reread_same
  inputs := by
    have hsame := Value.reread_same c.inputs_frozen.distinct
    unfold Value.Same at hsame ⊢
    rwa [rereadFields, Value.toJson_freeze]
  parentContract := Value.reread_same c.parentContract_plain.distinct

theorem rereadFields_finite (c : Contract φ) : finite c.rereadFields.toDict.toJson = true := by
  have hsame : c.rereadFields.toDict.toJson.sorted = c.toDict.toJson.sorted :=
    ContractFields.same_iff.mp c.rereadFields_same
  rw [← finite_sorted, hsame, finite_sorted]
  exact c.canonical_passes

theorem reread_frozen {v : Value φ} (h : v.Frozen) : v.reread.freeze.Frozen := by
  obtain ⟨fields, hfields⟩ := h.document
  refine ⟨(sortedFields fields).insertionSort byKey, ?_⟩
  rw [Value.reread, hfields]
  rfl

/-- The contract as it is read back. -/
def reread (c : Contract φ) : Contract φ where
  toContractFields := c.rereadFields
  goal_given := c.goal_given
  scope_relative := c.scope_relative
  workflowId_plain := ⟨_, rfl⟩
  workId_plain := ⟨_, rfl⟩
  source_plain := ⟨_, rfl⟩
  parentContract_plain := ⟨_, rfl⟩
  authorization_frozen := reread_frozen c.authorization_frozen
  inputs_frozen := reread_frozen c.inputs_frozen
  canonical_passes := c.rereadFields_finite

theorem reread_same (c : Contract φ) : c.reread.Same c.toContractFields := c.rereadFields_same

theorem build_reread {authorization inputs : List (String × Json φ)} (c : Contract φ)
    (hauthorization : c.authorization.toJson.sorted = .obj authorization) (hinputs : c.inputs.toJson.sorted = .obj inputs) :
    build c.workflowId.toJson.sorted c.workId.toJson.sorted (.str (modeName c.mode)) (.str c.goal) c.source.toJson.sorted
      authorization (c.scope.map .str) (c.checks.map VerificationSpec.reread) inputs c.parentContract.toJson.sorted
      (.int schema) = .ok c.reread := by
  unfold build
  simp only [named_mode, VerificationSpec.textsOf_map]
  rw [dif_pos ⟨trivial, c.goal_given⟩]
  have hfields : ({
      workflowId := Value.ofJson c.workflowId.toJson.sorted
      workId := Value.ofJson c.workId.toJson.sorted
      mode := c.mode
      goal := c.goal
      source := Value.ofJson c.source.toJson.sorted
      authorization := (Value.ofJson (.obj authorization)).freeze
      scope := c.scope
      checks := c.checks.map VerificationSpec.reread
      inputs := (Value.ofJson (.obj inputs)).freeze
      parentContract := Value.ofJson c.parentContract.toJson.sorted } : ContractFields φ) = c.rereadFields := by
    rw [← hauthorization, ← hinputs]
    rfl
  simp only [hfields, dif_pos c.rereadFields_finite, dif_pos c.scope_relative]
  rfl

theorem mapM_read (checks : List (VerificationSpec φ)) :
    (checks.map fun spec => spec.toDict.toJson.sorted).mapM VerificationSpec.read =
      .ok (checks.map VerificationSpec.reread) := by
  induction checks with
  | nil => rfl
  | cons spec rest ih =>
      rw [List.map_cons, List.mapM_cons, VerificationSpec.read_toDict, ih]
      rfl

/-- A contract is read back from its sorted document. -/
theorem read_toDict (c : Contract φ) : read c.toDict.toJson.sorted = .ok c.reread := by
  obtain ⟨authorization, hauthorization⟩ : ∃ fields, c.authorization.toJson.sorted = .obj fields := by
    obtain ⟨fields, hfields⟩ := c.authorization_frozen.document
    exact ⟨_, congrArg Json.sorted hfields⟩
  obtain ⟨inputs, hinputs⟩ : ∃ fields, c.inputs.toJson.sorted = .obj fields := by
    obtain ⟨fields, hfields⟩ := c.inputs_frozen.document
    exact ⟨_, congrArg Json.sorted hfields⟩
  show read (.obj ((sortedFields (Value.jsonFields c.dictFields)).insertionSort byKey)) = _
  have hlookup : ∀ key, ((sortedFields (Value.jsonFields c.dictFields)).insertionSort byKey).lookup key =
      (sortedFields (Value.jsonFields c.dictFields)).lookup key := lookup_insertionSort _
  rw [ContractFields.sorted_dictFields] at hlookup ⊢
  rw [hauthorization, hinputs] at hlookup ⊢
  have hbuilt := c.build_reread hauthorization hinputs
  unfold read
  simp only [item, get, hlookup]
  show (do
    let checks ← (c.checks.map fun spec : VerificationSpec φ => spec.toDict.toJson.sorted).mapM VerificationSpec.read
    build c.workflowId.toJson.sorted c.workId.toJson.sorted (.str (modeName c.mode)) (.str c.goal) c.source.toJson.sorted
      authorization (c.scope.map .str) checks inputs c.parentContract.toJson.sorted (.int schema)) = _
  rw [mapM_read]
  exact hbuilt

end Contract

/-! ### Texts of contracts -/

section

variable [FloatText φ] {sha256 : List Char → String} {c d : Contract φ}

theorem canonical_ok (c : Contract φ) : canonical c.toDict = .ok c.toDict.toJson.sorted.encode := by
  rw [canonical, if_pos c.canonical_passes]

theorem identity_ok (c : Contract φ) : c.identity sha256 = .ok (sha256 c.toDict.toJson.sorted.encode) := by
  rw [Contract.identity, digest, canonical_ok]
  rfl

theorem decode_canonical (c : Contract φ) : decode c.toDict.toJson.sorted.encode = some c.toDict.toJson.sorted :=
  decode_encode c.toDict_distinct.sorted

theorem reread_identity (c : Contract φ) : c.reread.identity sha256 = c.identity sha256 := by
  have hsame : c.reread.toDict.toJson.sorted = c.toDict.toJson.sorted := ContractFields.same_iff.mp c.reread_same
  rw [identity_ok, identity_ok, hsame]

theorem same_of_identity (hsha : Function.Injective sha256) (h : c.identity sha256 = d.identity sha256) :
    c.Same d.toContractFields := by
  rw [identity_ok, identity_ok] at h
  have htext := hsha (Except.ok.inj h)
  exact ContractFields.same_iff.mpr (encode_injective c.toDict_distinct.sorted d.toDict_distinct.sorted htext)

/-! ### The table of contracts -/

/-- Every row holds the canonical text of a contract, under its identity. -/
def Contracts.Sound (φ : Type) [FloatText φ] (sha256 : List Char → String) (contracts : Contracts) : Prop :=
  ∀ row ∈ contracts.rows, ∃ c : Contract φ, c.identity sha256 = .ok row.id ∧ canonical c.toDict = .ok row.payload

/-- A row that holds a contract is read as this contract. -/
theorem contract_found {contracts : Contracts} {row : ContractRow} (hrow : contracts.find row.id = some row)
    (hid : c.identity sha256 = .ok row.id) (hpayload : canonical c.toDict = .ok row.payload) :
    contracts.contract φ sha256 row.id = .ok c.reread := by
  rw [canonical_ok] at hpayload
  have hdecode : decode row.payload = some c.toDict.toJson.sorted := by
    rw [← Except.ok.inj hpayload, decode_canonical]
  unfold Contracts.contract
  simp only [hrow, hdecode, Contract.read_toDict]
  show (do
    let current ← c.reread.identity sha256
    if current ≠ row.id then .error (.control ⟨"integrity", "Contract checksum changed", .state⟩) else pure c.reread) = _
  rw [reread_identity, hid]
  exact if_neg (not_not.mpr rfl)

theorem store_ok (contracts : Contracts) (c : Contract φ) :
    contracts.store sha256 c = .ok (contracts.insertOrIgnore
      ⟨sha256 c.toDict.toJson.sorted.encode, c.toDict.toJson.sorted.encode⟩) := by
  unfold Contracts.store
  rw [identity_ok, canonical_ok]
  rfl

/-- Storing a contract keeps the table sound, keeps what is found, and lets the contract be found. -/
theorem store_sound {contracts contracts' : Contracts} (hsound : contracts.Sound φ sha256)
    (h : contracts.store sha256 c = .ok contracts') :
    contracts'.Sound φ sha256 ∧ (∀ id row, contracts.find id = some row → contracts'.find id = some row) ∧
      ∃ id row, c.identity sha256 = .ok id ∧ contracts'.find id = some row := by
  rw [store_ok] at h
  obtain rfl := Except.ok.inj h
  refine ⟨?_, ?_, ?_⟩
  · intro row hrow
    rcases Table.mem_insertOrIgnore.mp hrow with hold | ⟨rfl, -⟩
    · exact hsound row hold
    · exact ⟨c, identity_ok c, canonical_ok c⟩
  · intro id row hrow
    rw [Table.find_insertOrIgnore, hrow]
    split <;> rfl
  · exact ⟨_, _, identity_ok c, (Table.find_insertOrIgnore _ _ _).trans (if_pos rfl)⟩

/-- All contracts that were stored are found in the table. -/
theorem stored_found (stored : List (Contract φ)) {contracts : Contracts} (hsound : contracts.Sound φ sha256) :
    ∃ contracts', stored.foldlM (Contracts.store sha256) contracts = .ok contracts' ∧ contracts'.Sound φ sha256 ∧
      (∀ id row, contracts.find id = some row → contracts'.find id = some row) ∧
      ∀ c ∈ stored, ∃ id row, c.identity sha256 = .ok id ∧ contracts'.find id = some row := by
  induction stored generalizing contracts with
  | nil => exact ⟨contracts, rfl, hsound, fun _ _ h => h, fun _ h => nomatch h⟩
  | cons c rest ih =>
      have hstore : contracts.store sha256 c = .ok _ := store_ok contracts c
      obtain ⟨hnext, hkeeps, id, row, hid, hrow⟩ := store_sound hsound hstore
      obtain ⟨contracts', hrest, hsound', hkeeps', hfound⟩ := ih hnext
      refine ⟨contracts', ?_, hsound', fun id row h => hkeeps' id row (hkeeps id row h), ?_⟩
      · rw [List.foldlM_cons, hstore]
        exact hrest
      · intro d hd
        rcases List.mem_cons.mp hd with rfl | hd
        · exact ⟨id, row, hid, hkeeps' id row hrow⟩
        · exact hfound d hd

end

/-- Contracts are encoded without loss, and named by what they hold. A contract is read back from its canonical text
with the same fields and the same identity; whatever contracts are stored, each is found under its identity and
passes the checksum; and where digests name texts, contracts of one identity have the same fields. -/
theorem contracts_encoded {φ : Type} [FloatText φ] (sha256 : List Char → String) :
    (∀ c : Contract φ, ∃ text document d, canonical c.toDict = .ok text ∧ decode text = some document ∧
      Contract.read document = .ok d ∧ d.identity sha256 = c.identity sha256 ∧ d.Same c.toContractFields) ∧
    (∀ stored : List (Contract φ), ∃ contracts, stored.foldlM (Contracts.store sha256) Table.empty = .ok contracts ∧
      ∀ c ∈ stored, ∃ id d, c.identity sha256 = .ok id ∧ contracts.contract φ sha256 id = .ok d ∧
        d.identity sha256 = .ok id) ∧
    (Function.Injective sha256 → ∀ c d : Contract φ, c.identity sha256 = d.identity sha256 → c.Same d.toContractFields) := by
  refine ⟨?_, ?_, ?_⟩
  · intro c
    exact ⟨_, _, c.reread, canonical_ok c, decode_canonical c, c.read_toDict, reread_identity c, c.reread_same⟩
  · intro stored
    have hempty : Contracts.Sound φ sha256 Table.empty := fun _ hrow => nomatch hrow
    obtain ⟨contracts, hstored, hsound, -, hfound⟩ := stored_found stored hempty
    refine ⟨contracts, hstored, ?_⟩
    intro c hc
    obtain ⟨id, row, hid, hrow⟩ := hfound c hc
    obtain ⟨hmem, rfl⟩ := Table.find_some hrow
    obtain ⟨held, hheld, hpayload⟩ := hsound row hmem
    exact ⟨row.id, held.reread, hid, contract_found hrow hheld hpayload, (reread_identity held).trans hheld⟩
  · intro hsha c d
    exact same_of_identity hsha

/-! ### Two contracts of one identity -/

def pytestSpec : VerificationSpec FloatLiteral where
  command := "pytest -q"
  targets := ["tests/test_a.py"]
  purpose := .behavior
  required := true
  timeout := 600
  outputs := []
  cacheScope := .source
  resultCacheScope := .candidate
  command_given := by decide
  timeout_positive := by decide
  outputs_plain _ h := nomatch h

def repairFields (inputs : List (String × Json FloatLiteral)) : ContractFields FloatLiteral where
  workflowId := .str "w1"
  workId := .str "k1"
  mode := .fix
  goal := "Repair the parser"
  source := .str "abc"
  authorization := .frozenDict [("auto_approve", .bool true)]
  scope := ["src"]
  checks := [pytestSpec]
  inputs := (Value.ofJson (.obj inputs)).freeze
  parentContract := .str ""

def repairContract (inputs : List (String × Json FloatLiteral)) (h : finite (repairFields inputs).toDict.toJson = true) :
    Contract FloatLiteral where
  toContractFields := repairFields inputs
  goal_given := (by decide : Operator.strip "Repair the parser".toList ≠ [])
  scope_relative := (by decide : ["src"].all relativeText = true)
  workflowId_plain := ⟨.str "w1", rfl⟩
  workId_plain := ⟨.str "k1", rfl⟩
  source_plain := ⟨.str "abc", rfl⟩
  parentContract_plain := ⟨.str "", rfl⟩
  authorization_frozen := ⟨[("auto_approve", .bool true)], rfl⟩
  inputs_frozen := ⟨inputs, rfl⟩
  canonical_passes := h

def askedContract : Contract FloatLiteral :=
  repairContract [("request", .str "b"), ("answers", .arr [.int 1, .null])] (by decide)

def answeredContract : Contract FloatLiteral :=
  repairContract [("answers", .arr [.int 1, .null]), ("request", .str "b")] (by decide)

/-- A digest that names texts, and gives the text of these contracts the digest it has. -/
def repairDigest (text : List Char) : String :=
  if text = askedContract.toDict.toJson.sorted.encode then "65ab855bb3fd3156a9b0edac308c75aea4fb7653522755d7b57dd9a364418f38"
  else String.ofList ('-' :: text)

theorem repairDigest_injective : Function.Injective repairDigest := by
  have hother : ∀ text : List Char, "65ab855bb3fd3156a9b0edac308c75aea4fb7653522755d7b57dd9a364418f38" ≠ String.ofList ('-' :: text) := by
    intro text h
    have hhead : "65ab855bb3fd3156a9b0edac308c75aea4fb7653522755d7b57dd9a364418f38".toList.head? = some '-' := by
      rw [h, String.toList_ofList]
      rfl
    exact absurd hhead (by decide)
  intro text other h
  unfold repairDigest at h
  split_ifs at h with htext hthat hthat
  · rw [htext, hthat]
  · exact absurd h (hother other)
  · exact absurd h.symm (hother text)
  · exact List.cons.inj (String.ofList_injective h) |>.2

theorem contracts_encoded_repair : askedContract.Same answeredContract.toContractFields := by
  refine (contracts_encoded repairDigest).2.2 repairDigest_injective askedContract answeredContract ?_
  have hsame : askedContract.toDict.toJson.sorted = answeredContract.toDict.toJson.sorted := rfl
  rw [identity_ok, identity_ok, hsame]

end AutoAgents.Document
