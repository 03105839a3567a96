import AutoAgents.BaseJsonRead

/-! Objects as maps: setting, removing and looking up fields, and the form of a document in which the fields of
every object stand in the order of their names. Two documents are the same, up to that order, when these forms
are equal. -/

namespace Base

variable {α : Type} {fields fields' : List (String × α)} {key other : String} {value : α}

/-! ### Fields -/

theorem setField_nodup (h : (fields.map Prod.fst).Nodup) : ((setField fields key value).map Prod.fst).Nodup := by
  by_cases hmem : key ∈ fields.map Prod.fst
  · have hkeys : (fields.map fun field => if field.1 = key then (key, value) else field).map Prod.fst =
        fields.map Prod.fst := by
      rw [List.map_map]
      apply List.map_congr_left
      intro field _
      by_cases heq : field.1 = key <;> simp [heq]
    unfold setField
    rwa [if_pos (by simpa [List.any_eq_true] using hmem), hkeys]
  · rw [setField_new hmem, List.map_append, List.nodup_append]
    refine ⟨h, List.nodup_singleton _, ?_⟩
    rintro a ha b hb rfl
    obtain rfl := List.mem_singleton.mp hb
    exact hmem ha

/-- A field of the result is the one that was set, or was there under another name. -/
theorem mem_setField {field : String × α} (h : field ∈ setField fields key value) :
    field = (key, value) ∨ field ∈ fields ∧ field.1 ≠ key := by
  unfold setField at h
  split at h
  · obtain ⟨old, hold, rfl⟩ := List.mem_map.mp h
    split
    · exact Or.inl rfl
    · next hne => exact Or.inr ⟨hold, hne⟩
  · next hnew =>
      rcases List.mem_append.mp h with hold | hnew'
      · refine Or.inr ⟨hold, fun heq => hnew ?_⟩
        exact List.any_eq_true.mpr ⟨field, hold, by simp [heq]⟩
      · exact Or.inl (List.mem_singleton.mp hnew')

theorem lookup_cons_ne {field : String × α} (h : other ≠ field.1) : (field :: fields).lookup other = fields.lookup other := by
  rw [List.lookup_cons, beq_eq_false_iff_ne.mpr h]

theorem lookup_cons_eq {field : String × α} : (field :: fields).lookup field.1 = some field.2 := by
  rw [List.lookup_cons, beq_self_eq_true]

theorem lookup_none (h : key ∉ fields.map Prod.fst) : fields.lookup key = none := by
  induction fields with
  | nil => rfl
  | cons field fields ih =>
      obtain ⟨hfirst, hlater⟩ := not_or.mp (mt List.mem_cons.mpr h)
      rw [lookup_cons_ne hfirst, ih hlater]

theorem lookup_setField_self (fields : List (String × α)) : (setField fields key value).lookup key = some value := by
  by_cases hmem : key ∈ fields.map Prod.fst
  · unfold setField
    rw [if_pos (by simpa [List.any_eq_true] using hmem)]
    induction fields with
    | nil => simp at hmem
    | cons field fields ih =>
        by_cases heq : field.1 = key
        · simp [heq]
        · have hlater : key ∈ fields.map Prod.fst := by
            rcases List.mem_cons.mp hmem with hfirst | hlater
            · exact absurd hfirst.symm heq
            · exact hlater
          rw [List.map_cons, if_neg heq, lookup_cons_ne (Ne.symm heq)]
          exact ih hlater
  · rw [setField_new hmem, List.lookup_append, lookup_none hmem]
    simp

theorem lookup_setField_ne (fields : List (String × α)) (h : other ≠ key) :
    (setField fields key value).lookup other = fields.lookup other := by
  unfold setField
  split
  · clear * - h
    induction fields with
    | nil => rfl
    | cons field fields ih =>
        rw [List.map_cons]
        by_cases hother : other = field.1
        · have hkey : field.1 ≠ key := fun heq => h (hother.trans heq)
          rw [if_neg hkey, hother, lookup_cons_eq, lookup_cons_eq]
        · rw [lookup_cons_ne hother]
          split
          · rw [lookup_cons_ne h, ih]
          · rw [lookup_cons_ne hother, ih]
  · rw [List.lookup_append, lookup_cons_ne h]
    simp

/-- A field is removed. -/
def popField (fields : List (String × α)) (key : String) : List (String × α) := fields.filter fun field => field.1 != key

theorem lookup_popField_ne (fields : List (String × α)) (h : other ≠ key) :
    (popField fields key).lookup other = fields.lookup other := by
  unfold popField
  induction fields with
  | nil => rfl
  | cons field fields ih =>
      rw [List.filter_cons]
      by_cases hother : other = field.1
      · have hkey : (field.1 != key) = true := by simpa [← hother] using h
        rw [if_pos hkey, hother, lookup_cons_eq, lookup_cons_eq]
      · rw [lookup_cons_ne hother]
        split
        · rw [lookup_cons_ne hother, ih]
        · exact ih

theorem popField_nodup (h : (fields.map Prod.fst).Nodup) : ((popField fields key).map Prod.fst).Nodup :=
  h.sublist (List.filter_sublist.map Prod.fst)

theorem lookup_map {β : Type} (f : α → β) (fields : List (String × α)) (key : String) :
    (fields.map fun field => (field.1, f field.2)).lookup key = (fields.lookup key).map f := by
  induction fields with
  | nil => rfl
  | cons field fields ih =>
      obtain ⟨k, v⟩ := field
      by_cases heq : key = k
      · subst heq
        simp
      · rw [List.map_cons, lookup_cons_ne heq, lookup_cons_ne heq, ih]

theorem mem_of_lookup (h : fields.lookup key = some value) : (key, value) ∈ fields := by
  obtain ⟨before, after, rfl, -⟩ := List.lookup_eq_some_iff.mp h
  simp

theorem lookup_of_mem (hnodup : (fields.map Prod.fst).Nodup) (h : (key, value) ∈ fields) : fields.lookup key = some value := by
  induction fields with
  | nil => cases h
  | cons field fields ih =>
      rw [List.map_cons, List.nodup_cons] at hnodup
      rcases List.mem_cons.mp h with rfl | hlater
      · simp
      · have hne : key ≠ field.1 := by
          rintro rfl
          exact hnodup.1 (List.mem_map.mpr ⟨_, hlater, rfl⟩)
        rw [lookup_cons_ne hne]
        exact ih hnodup.2 hlater

/-- The order of distinct fields does not matter. -/
theorem lookup_perm (hperm : fields.Perm fields') (hnodup : (fields.map Prod.fst).Nodup) (key : String) :
    fields.lookup key = fields'.lookup key := by
  have hnodup' : (fields'.map Prod.fst).Nodup := (hperm.map Prod.fst).nodup_iff.mp hnodup
  apply Option.ext
  intro value
  constructor
  · exact fun h => lookup_of_mem hnodup' (hperm.mem_iff.mp (mem_of_lookup h))
  · exact fun h => lookup_of_mem hnodup (hperm.mem_iff.mpr (mem_of_lookup h))

theorem objectOf_keeps {P : List (String × α) → Prop} {pairs : List (String × α)} (hnil : P [])
    (hset : ∀ fields, P fields → ∀ pair ∈ pairs, P (setField fields pair.1 pair.2)) : P (objectOf pairs) := by
  unfold objectOf
  exact List.foldlRecOn pairs _ hnil hset

theorem objectOf_nodup (pairs : List (String × α)) : ((objectOf pairs).map Prod.fst).Nodup :=
  objectOf_keeps (P := fun fields => (fields.map Prod.fst).Nodup) List.nodup_nil fun _ h _ _ => setField_nodup h

theorem mem_objectOf {pairs : List (String × α)} {field : String × α} (h : field ∈ objectOf pairs) : field ∈ pairs := by
  refine objectOf_keeps (P := fun fields => ∀ field ∈ fields, field ∈ pairs) (fun _ h => nomatch h) ?_ field h
  intro fields hfields pair hpair field hfield
  rcases mem_setField hfield with rfl | ⟨hold, -⟩
  · exact hpair
  · exact hfields field hold

/-! ### Sorted documents -/

/-- The order of fields by their names. -/
def byKey (field other : String × α) : Prop := field.1 ≤ other.1

instance : DecidableRel (byKey : String × α → String × α → Prop) := fun field other => inferInstanceAs (Decidable (field.1 ≤ other.1))

variable {φ : Type}

mutual
/-- The document with the fields of every object in the order of their names. -/
def Json.sorted : Json φ → Json φ
  | .arr items => .arr (sortedItems items)
  | .obj fields => .obj ((sortedFields fields).insertionSort byKey)
  | .null => .null
  | .bool b => .bool b
  | .int n => .int n
  | .float x => .float x
  | .nonFinite x => .nonFinite x
  | .str s => .str s

def sortedItems : List (Json φ) → List (Json φ)
  | [] => []
  | v :: rest => v.sorted :: sortedItems rest

def sortedFields : List (String × Json φ) → List (String × Json φ)
  | [] => []
  | (k, v) :: rest => (k, v.sorted) :: sortedFields rest
end

theorem sortedItems_eq (items : List (Json φ)) : sortedItems items = items.map Json.sorted := by
  induction items with
  | nil => rfl
  | cons v rest ih => simp [sortedItems, ih]

theorem sortedFields_eq (fields : List (String × Json φ)) :
    sortedFields fields = fields.map fun field => (field.1, field.2.sorted) := by
  induction fields with
  | nil => rfl
  | cons field rest ih => simp [sortedFields, ih]

theorem sortedFields_keys (fields : List (String × Json φ)) : (sortedFields fields).map Prod.fst = fields.map Prod.fst := by
  rw [sortedFields_eq, List.map_map]
  rfl

theorem lookup_sortedFields (fields : List (String × Json φ)) (key : String) :
    (sortedFields fields).lookup key = (fields.lookup key).map Json.sorted := by
  rw [sortedFields_eq, lookup_map]

theorem sortedFields_mem {fields : List (String × Json φ)} {field : String × Json φ} (h : field ∈ sortedFields fields) :
    ∃ v, (field.1, v) ∈ fields ∧ field.2 = v.sorted := by
  rw [sortedFields_eq] at h
  obtain ⟨old, hold, rfl⟩ := List.mem_map.mp h
  exact ⟨old.2, hold, rfl⟩

/-- A field is sorted in before those of its name. -/
theorem lookup_orderedInsert (field : String × α) (fields : List (String × α)) (key : String) :
    (fields.orderedInsert byKey field).lookup key = (field :: fields).lookup key := by
  induction fields with
  | nil => rfl
  | cons first fields ih =>
      rw [List.orderedInsert_cons]
      split
      · rfl
      · next hbefore =>
          have hne : first.1 ≠ field.1 := fun heq => hbefore (le_of_eq heq.symm)
          by_cases hfirst : key = first.1
          · subst hfirst
            rw [lookup_cons_eq, lookup_cons_ne hne, lookup_cons_eq]
          · rw [lookup_cons_ne hfirst, ih]
            by_cases hfield : key = field.1
            · subst hfield
              rw [lookup_cons_eq, lookup_cons_eq]
            · rw [lookup_cons_ne hfield, lookup_cons_ne hfield, lookup_cons_ne hfirst]

theorem lookup_insertionSort (fields : List (String × α)) (key : String) :
    (fields.insertionSort byKey).lookup key = fields.lookup key := by
  induction fields with
  | nil => rfl
  | cons field fields ih =>
      rw [List.insertionSort_cons, lookup_orderedInsert]
      by_cases hfield : key = field.1
      · subst hfield
        rw [lookup_cons_eq, lookup_cons_eq]
      · rw [lookup_cons_ne hfield, lookup_cons_ne hfield, ih]

/-- Looking up a field of a sorted object. -/
theorem lookup_sorted (fields : List (String × Json φ)) (key : String) :
    ((sortedFields fields).insertionSort byKey).lookup key = (fields.lookup key).map Json.sorted := by
  rw [lookup_insertionSort, lookup_sortedFields]

theorem byKey_total (field other : String × α) : byKey field other ∨ byKey other field := le_total field.1 other.1

instance : Std.Total (byKey : String × α → String × α → Prop) := ⟨byKey_total⟩

instance : IsTrans (String × α) byKey := ⟨fun _ _ _ => le_trans⟩

theorem sortedFields_insertionSort (fields : List (String × Json φ)) :
    sortedFields (fields.insertionSort byKey) = (sortedFields fields).insertionSort byKey := by
  rw [sortedFields_eq, sortedFields_eq]
  exact List.map_insertionSort byKey byKey _ _ fun _ _ _ _ => Iff.rfl

mutual
/-- Sorting a sorted document changes nothing. -/
theorem Json.sorted_sorted (v : Json φ) : v.sorted.sorted = v.sorted := by
  match v with
  | .arr items => rw [Json.sorted, Json.sorted, sortedItems_sorted items]
  | .obj fields =>
      rw [Json.sorted, Json.sorted, sortedFields_insertionSort, sortedFields_sorted fields]
      rw [(List.pairwise_insertionSort byKey (sortedFields fields)).insertionSort_eq]
  | .null => rfl
  | .bool _ => rfl
  | .int _ => rfl
  | .float _ => rfl
  | .nonFinite _ => rfl
  | .str _ => rfl

theorem sortedItems_sorted (items : List (Json φ)) : sortedItems (sortedItems items) = sortedItems items := by
  match items with
  | [] => rfl
  | v :: rest => rw [sortedItems, sortedItems, Json.sorted_sorted v, sortedItems_sorted rest]

theorem sortedFields_sorted (fields : List (String × Json φ)) : sortedFields (sortedFields fields) = sortedFields fields := by
  match fields with
  | [] => rfl
  | (k, v) :: rest => rw [sortedFields, sortedFields, Json.sorted_sorted v, sortedFields_sorted rest]
end

mutual
/-- Sorting keeps fields distinct. -/
theorem Json.Distinct.sorted {v : Json φ} (h : v.Distinct) : v.sorted.Distinct := by
  match v, h with
  | .arr items, h =>
      have hitems : DistinctItems items := h
      exact hitems.sorted
  | .obj fields, h =>
      obtain ⟨hnodup, hfields⟩ := (show (fields.map Prod.fst).Nodup ∧ DistinctFields fields from h)
      refine ⟨?_, ?_⟩
      · rw [((List.perm_insertionSort byKey _).map Prod.fst).nodup_iff, sortedFields_keys]
        exact hnodup
      · rw [distinctFields_iff]
        intro field hfield
        exact distinctFields_iff.mp hfields.sorted field ((List.perm_insertionSort byKey _).mem_iff.mp hfield)
  | .null, _ => trivial
  | .bool _, _ => trivial
  | .int _, _ => trivial
  | .float _, _ => trivial
  | .nonFinite _, _ => trivial
  | .str _, _ => trivial

theorem DistinctItems.sorted {items : List (Json φ)} (h : DistinctItems items) : DistinctItems (sortedItems items) := by
  match items, h with
  | [], _ => trivial
  | v :: rest, h => exact ⟨Json.Distinct.sorted h.1, DistinctItems.sorted h.2⟩

theorem DistinctFields.sorted {fields : List (String × Json φ)} (h : DistinctFields fields) :
    DistinctFields (sortedFields fields) := by
  match fields, h with
  | [], _ => trivial
  | (k, v) :: rest, h => exact ⟨Json.Distinct.sorted h.1, DistinctFields.sorted h.2⟩
end

end Base
