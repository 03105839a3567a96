import AutoAgents.RequirementReplacements

/-! What a trace without errors looks like: records with ids of their own, whose contracts have hashes, and links that lead to
records of the trace. -/

namespace AutoAgents.Requirements

open Base
open Operator (stripText)

variable {φ : Type} {h : Host φ}

/-! ### Normalized records -/

/-- The fields that reading fills in. -/
def filledFields : List String :=
  ["oracle_type", "oracle_strength", "evidence_boundary", "forbidden_proxy_oracles", "supersedes", "superseded_by"]

theorem lookup_fill {item : Fields φ} {key other : String} {v : Json φ} {test : Bool} (hother : other ≠ key) :
    (if test = true then setField item key v else item).lookup other = item.lookup other := by
  split
  · exact lookup_setField_ne item hother
  · rfl

theorem lookup_setDefault_ne {item : Fields φ} {key other : String} {v : Json φ} (hother : other ≠ key) :
    (setDefault item key v).lookup other = item.lookup other := by
  unfold setDefault
  split
  · rfl
  · exact lookup_setField_ne item hother

theorem field_setDefault {item : Fields φ} {key : String} {v : Json φ} : field (setDefault item key v) key v = field item key v := by
  unfold setDefault
  split
  · rfl
  · next hmissing =>
      rw [Option.not_isSome_iff_eq_none] at hmissing
      rw [field, field, lookup_setField_self, hmissing, Option.getD_some, Option.getD_none]

theorem lookup_normalize {item : Fields φ} {key : String} (hkey : key ∉ filledFields) :
    (normalizeRequirementRecord item).lookup key = item.lookup key := by
  simp only [filledFields, List.mem_cons, List.not_mem_nil, or_false, not_or] at hkey
  obtain ⟨htype, hstrength, hboundary, hproxies, holder, hnewer⟩ := hkey
  rw [normalizeRequirementRecord, lookup_setDefault_ne hnewer, lookup_setDefault_ne holder]
  split
  · rw [lookup_setField_ne _ hproxies, lookup_fill hboundary, lookup_fill hstrength, lookup_fill htype]
  · rw [lookup_setField_ne _ hproxies, lookup_fill hboundary, lookup_fill hstrength, lookup_fill htype]
  · rw [lookup_fill hboundary, lookup_fill hstrength, lookup_fill htype]

theorem field_normalize {item : Fields φ} {key : String} (hkey : key ∉ filledFields) (v : Json φ) :
    field (normalizeRequirementRecord item) key v = field item key v := by
  rw [field, field, lookup_normalize hkey]

theorem text_normalize {item : Fields φ} {key : String} (hkey : key ∉ filledFields) (v : String) :
    h.text (normalizeRequirementRecord item) key v = h.text item key v := by
  rw [Host.text, Host.text, field_normalize hkey]

theorem supersededBy_normalize (item : Fields φ) :
    field (normalizeRequirementRecord item) "superseded_by" (.arr []) = field item "superseded_by" (.arr []) := by
  rw [normalizeRequirementRecord, field_setDefault, field, field, lookup_setDefault_ne (by decide)]
  split
  · rw [lookup_setField_ne _ (by decide), lookup_fill (by decide), lookup_fill (by decide), lookup_fill (by decide)]
  · rw [lookup_setField_ne _ (by decide), lookup_fill (by decide), lookup_fill (by decide), lookup_fill (by decide)]
  · rw [lookup_fill (by decide), lookup_fill (by decide), lookup_fill (by decide)]

/-! ### Traces without errors -/

/-- The check of the trace finds nothing, with or without the check of the patterns. -/
def Host.Valid [FloatText φ] (h : Host φ) (trace : Json φ) : Prop :=
  ∃ checkPatterns, h.validateRequirementsTracePayload checkPatterns trace = .ok []

/-- What the checks of single records give. -/
structure Host.Recorded (h : Host φ) (item : Fields φ) : Prop where
  named : h.text item "id" "" ≠ ""
  patterns : ∃ values, field item "forbidden_patterns" .null = .arr values
  oracles : ∃ values, field item "acceptance_oracles" .null = .arr values

theorem errorIf_nil {test : Bool} {message : String} : errorIf test message = [] ↔ test = false := by
  cases test <;> simp [errorIf]

theorem isListOf_list {test : Json φ → Bool} {v : Json φ} (hlist : isListOf test v = true) : ∃ values, v = .arr values := by
  cases v <;> first | exact ⟨_, rfl⟩ | cases hlist

theorem recorded_of_errors {checkPatterns : Bool} {seen : List String} {pre : String} {item : Fields φ}
    (hid : idErrors seen pre (h.text item "id" "") = []) (hrecord : h.recordErrors checkPatterns pre item = []) : h.Recorded item := by
  simp only [Host.recordErrors, List.append_eq_nil_iff, errorIf_nil, Bool.not_eq_false'] at hrecord
  refine ⟨?_, ?_, isListOf_list hrecord.1.1.1.1.1.1.1.1.1.1.1.2⟩
  · intro hempty
    simp [idErrors, hempty] at hid
  · have hpatterns := hrecord.1.1.1.1.1.1.2
    split at hpatterns
    · next values heq => exact ⟨values, heq⟩
    · cases hpatterns

theorem idErrors_fresh {seen : List String} {pre id : String} (hid : idErrors seen pre id = []) : id ∉ seen := by
  intro hseen
  rw [idErrors, if_pos hseen] at hid
  split at hid <;> cases hid

/-- Records without errors are objects, each with an id that no record before it has. -/
theorem recordsErrors_nil [FloatText φ] {checkPatterns : Bool} {mode : Int} {items : List (Json φ)} :
    ∀ {seen : List String} {index : Nat}, h.recordsErrors checkPatterns mode seen index items = .ok [] →
      (∀ item ∈ items.filterMap asFields, h.Recorded item ∧ h.text item "id" "" ∉ seen) ∧
        ((items.filterMap asFields).map fun item => h.text item "id" "").Nodup := by
  induction items with
  | nil =>
      intro seen index _
      exact ⟨fun _ hitem => (nomatch hitem), List.nodup_nil⟩
  | cons v rest ih =>
      intro seen index hnone
      cases v with
      | obj item =>
          simp only [Host.recordsErrors, bind_ok, pure_ok, List.append_eq_nil_iff] at hnone
          obtain ⟨identity, _, others, hothers, ⟨⟨hid, hrecord⟩, _⟩, rfl⟩ := hnone
          obtain ⟨hrest, hnodup⟩ := ih hothers
          constructor
          · intro other hother
            rcases List.mem_cons.mp hother with rfl | hmem
            · exact ⟨recorded_of_errors hid hrecord, idErrors_fresh hid⟩
            · exact ⟨(hrest other hmem).1, fun hseen => (hrest other hmem).2 (List.mem_cons_of_mem _ hseen)⟩
          · refine List.nodup_cons.mpr ⟨?_, hnodup⟩
            intro hsame
            obtain ⟨other, hother, heq⟩ := List.mem_map.mp hsame
            exact (hrest other hother).2 (heq ▸ List.mem_cons_self)
      | null | bool _ | int _ | float _ | nonFinite _ | str _ | arr _ =>
          simp only [Host.recordsErrors, bind_ok, pure_ok, reduceCtorEq, and_false, exists_false] at hnone

/-- A trace without errors: its ids are apart, and its links lead to its records. -/
structure Host.Sound (h : Host φ) (items : List (Fields φ)) : Prop where
  recorded : ∀ item ∈ items, h.Recorded item
  apart : (items.map fun item => h.text item "id" "").Nodup
  known : ∀ item ∈ items, ∀ links, strictRequirementLinks item "superseded_by" = some links →
    ∀ link ∈ links, link ∈ items.map fun item => h.text item "id" ""

theorem mem_linkNames {values : List (Json φ)} {name : String} (hname : name ∈ linkNames values) :
    ∃ s, .str s ∈ values ∧ stripText s = name := by
  obtain ⟨v, hv, heq⟩ := List.mem_filterMap.mp (List.mem_filter.mp hname).1
  cases v with
  | str s =>
      simp only [Option.some.injEq] at heq
      exact ⟨s, hv, heq⟩
  | null | bool _ | int _ | float _ | nonFinite _ | arr _ | obj _ => cases heq

theorem linkErrors_known {byId : ById φ} {id : String} {item : Fields φ} {links : List String}
    (hnone : h.linkErrors byId id item = .ok []) (hlinks : strictRequirementLinks item "superseded_by" = some links) :
    ∀ link ∈ links, link ∈ byId.map Prod.fst := by
  intro link hlink
  by_contra hunknown
  unfold strictRequirementLinks at hlinks
  split at hlinks
  · next values hvalues =>
      split at hlinks
      · cases hlinks
        obtain ⟨s, hs, rfl⟩ := mem_linkNames hlink
        have htexts : h.linkTexts item "superseded_by" = .ok (values.map fun v => stripText (h.show v)) := by
          have htruthy : h.truthy (Json.arr values) = true := by
            cases values with
            | nil => cases hs
            | cons v rest => rfl
          rw [Host.linkTexts, hvalues, Host.iterateOr, if_pos htruthy]
          rfl
        simp only [Host.linkErrors, htexts, bind_ok, pure_ok, Except.ok.injEq, exists_eq_left', List.append_eq_nil_iff] at hnone
        obtain ⟨supersedes, _, older, _, newer, hnewer, ⟨_, hflat⟩, _⟩ := hnone
        obtain ⟨errors, herrors, hok⟩ := mapM_mem_of_mem hnewer (stripText s) (List.mem_map.mpr ⟨_, hs, rfl⟩)
        rw [lookup_none hunknown] at hok
        cases hok
        exact absurd (List.flatten_eq_nil_iff.mp hflat _ herrors) (by simp)
      · cases hlinks
  · cases hlinks

theorem sound_of_checks [FloatText φ] {checkPatterns : Bool} {mode : Int} {items : List (Json φ)} {links : List (List String)}
    (hrecords : h.recordsErrors checkPatterns mode [] 1 items = .ok [])
    (hlinks : (objectOf (((items.filterMap asFields).filter fun item => h.text item "id" "" != "").map
      fun item => (h.text item "id" "", item))).mapM (fun entry => h.linkErrors
        (objectOf (((items.filterMap asFields).filter fun item => h.text item "id" "" != "").map
          fun item => (h.text item "id" "", item))) entry.1 entry.2) = .ok links)
    (hnone : links.flatten = []) : h.Sound (items.filterMap asFields) := by
  obtain ⟨hrecorded, hnodup⟩ := recordsErrors_nil hrecords
  refine ⟨fun item hitem => (hrecorded item hitem).1, hnodup, ?_⟩
  intro item hitem names hnames link hlink
  have hall : (items.filterMap asFields).filter (fun item => h.text item "id" "" != "") = items.filterMap asFields :=
    List.filter_eq_self.mpr fun other hother => by simpa using (hrecorded other hother).1.named
  have hids : ((items.filterMap asFields).map fun item => (h.text item "id" "", item)).map Prod.fst =
      (items.filterMap asFields).map fun item => h.text item "id" "" := by
    rw [List.map_map]
    rfl
  rw [hall, objectOf_eq (hids ▸ hnodup)] at hlinks
  obtain ⟨errors, herrors, hok⟩ := mapM_mem_of_mem hlinks _ (List.mem_map.mpr ⟨item, hitem, rfl⟩)
  rw [List.flatten_eq_nil_iff.mp hnone _ herrors] at hok
  exact hids ▸ linkErrors_known hok hnames link hlink

theorem sound_of_valid [FloatText φ] {trace : Fields φ} (hvalid : h.Valid (.obj trace)) : h.Sound (storedRecords trace) := by
  obtain ⟨checkPatterns, hnone⟩ := hvalid
  simp only [Host.validateRequirementsTracePayload] at hnone
  split at hnone
  · next items hitems =>
      have hstored : storedRecords trace = items.filterMap asFields := by rw [storedRecords, hitems]
      rw [hstored]
      split at hnone
      · simp only [bind_ok, pure_ok, List.append_eq_nil_iff] at hnone
        obtain ⟨_, _, _, hrecords, _, hlinks, ⟨_, rfl⟩, hflat⟩ := hnone
        exact sound_of_checks hrecords hlinks hflat
      · simp only [bind_ok, pure_ok, List.append_eq_nil_iff] at hnone
        obtain ⟨_, _, _, hrecords, _, hlinks, ⟨_, rfl⟩, hflat⟩ := hnone
        exact sound_of_checks hrecords hlinks hflat
  · simp [pure_ok] at hnone

/-- A list that is there is read whatever is read where none is. -/
theorem field_of_list {item : Fields φ} {key : String} {v : Json φ} {values : List (Json φ)}
    (hvalues : field item key .null = .arr values) : field item key v = .arr values := by
  unfold field at hvalues ⊢
  cases hlookup : item.lookup key with
  | none => rw [hlookup] at hvalues; cases hvalues
  | some w => rw [hlookup] at hvalues; exact hvalues

/-- Every record of a trace without errors has a contract hash. -/
theorem Host.Recorded.hashed [FloatText φ] {item : Fields φ} (hrecorded : h.Recorded item) :
    ∃ hash, h.requirementContractSha256 (normalizeRequirementRecord item) = .ok hash := by
  obtain ⟨values, hvalues⟩ := hrecorded.patterns
  have hpatterns : field (normalizeRequirementRecord item) "forbidden_patterns" (.arr []) = .arr values :=
    (field_normalize (by decide) _).trans (field_of_list hvalues)
  rw [Host.requirementContractSha256, Host.requirementContractPayload, hpatterns]
  exact ⟨_, rfl⟩

theorem Host.Recorded.oracleTexts {item : Fields φ} (hrecorded : h.Recorded item) :
    ∃ texts, h.linkTexts (normalizeRequirementRecord item) "acceptance_oracles" = .ok texts := by
  obtain ⟨values, hvalues⟩ := hrecorded.oracles
  have horacles : field (normalizeRequirementRecord item) "acceptance_oracles" (.arr []) = .arr values :=
    (field_normalize (by decide) _).trans (field_of_list hvalues)
  rw [Host.linkTexts, horacles, Host.iterateOr]
  split
  · exact ⟨_, rfl⟩
  · exact ⟨_, rfl⟩

/-! ### Records by their ids -/

/-- The records of a trace by their ids, as the transitions read them. -/
def Host.recordsOf (h : Host φ) : Json φ → ById φ
  | .obj trace => h.byId (requirementRecords trace)
  | _ => []

def Host.ids (h : Host φ) (trace : Json φ) : List String := (h.recordsOf trace).map Prod.fst

def Host.Superseded (h : Host φ) (trace : Json φ) (id : String) : Prop :=
  ∃ item, (h.recordsOf trace).lookup id = some item ∧ h.text item "status" "active" = "superseded"

/-- The record of the id has the contract hash. -/
def Host.HasContract [FloatText φ] (h : Host φ) (trace : Json φ) (id hash : String) : Prop :=
  ∃ item, (h.recordsOf trace).lookup id = some item ∧ h.requirementContractSha256 item = .ok hash

theorem Host.HasContract.unique [FloatText φ] {trace : Json φ} {id hash hash' : String} (hone : h.HasContract trace id hash)
    (hother : h.HasContract trace id hash') : hash = hash' := by
  obtain ⟨item, hitem, hhash⟩ := hone
  obtain ⟨item', hitem', hhash'⟩ := hother
  rw [hitem, Option.some.injEq] at hitem'
  subst hitem'
  rw [hhash, Except.ok.injEq] at hhash'
  exact hhash'

theorem Host.Valid.obj [FloatText φ] {trace : Json φ} (hvalid : h.Valid trace) : ∃ fields, trace = .obj fields := by
  obtain ⟨checkPatterns, hnone⟩ := hvalid
  cases trace with
  | obj fields => exact ⟨fields, rfl⟩
  | null | bool _ | int _ | float _ | nonFinite _ | str _ | arr _ => simp [Host.validateRequirementsTracePayload] at hnone

theorem ids_normalized (items : List (Fields φ)) :
    ((items.map normalizeRequirementRecord).map fun item => (h.text item "id" "", item)).map Prod.fst =
      items.map fun item => h.text item "id" "" := by
  rw [List.map_map, List.map_map]
  exact List.map_congr_left fun item _ => text_normalize (by decide) ""

theorem Host.Sound.recordsOf {trace : Fields φ} (hsound : h.Sound (storedRecords trace)) :
    h.recordsOf (.obj trace) = (requirementRecords trace).map fun item => (h.text item "id" "", item) := by
  rw [Host.recordsOf, Host.byId]
  apply objectOf_eq
  rw [requirementRecords, ids_normalized]
  exact hsound.apart

theorem Host.Sound.ids {trace : Fields φ} (hsound : h.Sound (storedRecords trace)) :
    h.ids (.obj trace) = (storedRecords trace).map fun item => h.text item "id" "" := by
  rw [Host.ids, hsound.recordsOf, requirementRecords, ids_normalized]

theorem Host.Sound.stored {trace : Fields φ} (hsound : h.Sound (storedRecords trace)) {id : String} {item : Fields φ}
    (hlookup : (h.recordsOf (.obj trace)).lookup id = some item) :
    ∃ stored ∈ storedRecords trace, normalizeRequirementRecord stored = item ∧ h.text stored "id" "" = id := by
  have hmem := mem_of_lookup hlookup
  rw [hsound.recordsOf, requirementRecords, List.map_map] at hmem
  obtain ⟨stored, hstored, heq⟩ := List.mem_map.mp hmem
  rw [Function.comp_apply, Prod.mk.injEq, text_normalize (by decide)] at heq
  exact ⟨stored, hstored, heq.2, heq.1⟩

/-- No record is linked to an id that the trace does not have. -/
theorem Host.Sound.unlinked {trace : Fields φ} (hsound : h.Sound (storedRecords trace)) {id other : String} {item : Fields φ}
    {links : List String} (hid : id ∉ h.ids (.obj trace)) (hlookup : (h.recordsOf (.obj trace)).lookup other = some item)
    (hlinks : strictRequirementLinks item "superseded_by" = some links) : id ∉ links := by
  obtain ⟨stored, hstored, rfl, _⟩ := hsound.stored hlookup
  rw [strictRequirementLinks, supersededBy_normalize] at hlinks
  rw [hsound.ids] at hid
  exact fun hlink => hid (hsound.known stored hstored links hlinks id hlink)

theorem lookup_of_ids {trace : Json φ} {id : String} (hid : id ∈ h.ids trace) : ∃ item, (h.recordsOf trace).lookup id = some item := by
  cases hlookup : (h.recordsOf trace).lookup id with
  | some item => exact ⟨item, rfl⟩
  | none =>
      obtain ⟨entry, hentry, rfl⟩ := List.mem_map.mp hid
      rw [List.lookup_eq_none_iff] at hlookup
      exact absurd (hlookup entry hentry) (by simp)

theorem ids_of_lookup {trace : Json φ} {id : String} {item : Fields φ} (hlookup : (h.recordsOf trace).lookup id = some item) :
    id ∈ h.ids trace :=
  List.mem_map.mpr ⟨_, mem_of_lookup hlookup, rfl⟩

theorem Host.Superseded.mem_ids {trace : Json φ} {id : String} (hsuperseded : h.Superseded trace id) : id ∈ h.ids trace := by
  obtain ⟨_, hlookup, _⟩ := hsuperseded
  exact ids_of_lookup hlookup

theorem Host.Valid.contract [FloatText φ] {trace : Json φ} {id : String} (hvalid : h.Valid trace) (hid : id ∈ h.ids trace) :
    ∃ hash, h.HasContract trace id hash := by
  obtain ⟨fields, rfl⟩ := hvalid.obj
  obtain ⟨item, hlookup⟩ := lookup_of_ids hid
  obtain ⟨stored, hstored, rfl, _⟩ := (sound_of_valid hvalid).stored hlookup
  obtain ⟨hash, hhash⟩ := ((sound_of_valid hvalid).recorded stored hstored).hashed
  exact ⟨hash, _, hlookup, hhash⟩

end AutoAgents.Requirements
