import AutoAgents.ProviderResearch

/-! Rounds of provider research. A round prepares its context from the lock, the model writes the next lock, and what the validation
stamps on it is the lock of the round that follows. The review compares some entries with what they were; the others are as the model
writes them. -/

namespace AutoAgents.Provider

open Base
open Operator (stripText)
open Requirements (Host Fields asFields errorIf strip_strip stripText_stripText)

variable {φ : Type}

/-! ### The references of a trace -/

/-- A value that was collected comes from one of the two lists. -/
theorem mem_collected {kept paths : List String} {path : String}
    (hmem : path ∈ paths.foldl (fun kept path => if path ∈ kept then kept else kept ++ [path]) kept) : path ∈ kept ∨ path ∈ paths := by
  induction paths generalizing kept with
  | nil => exact .inl hmem
  | cons first rest ih =>
      rw [List.foldl_cons] at hmem
      rcases ih hmem with hkept | hrest
      · split at hkept
        · exact .inl hkept
        · rcases List.mem_append.mp hkept with hkept | hfirst
          · exact .inl hkept
          · exact .inr (List.mem_cons.mpr (.inl (List.mem_singleton.mp hfirst)))
      · exact .inr (List.mem_cons_of_mem _ hrest)

theorem stripText_of_mem_paths {h : Host φ} {item : Fields φ} {path : String} (hpath : path ∈ h.providerReferencePaths item) :
    stripText path = path := by
  rcases mem_collected hpath with hnone | hmem
  · cases hnone
  · rcases List.mem_append.mp hmem with hlisted | hsingle
    · split at hlisted
      · obtain ⟨v, _, rfl⟩ := List.mem_map.mp (List.mem_filter.mp hlisted).1
        exact stripText_stripText _
      · cases hlisted
    · split at hsingle
      · obtain ⟨part, _, rfl⟩ := List.mem_map.mp (List.mem_filter.mp hsingle).1
        rw [stripText, String.toList_ofList, strip_strip]
      · cases hsingle

theorem stripText_of_required {s : Surroundings φ} {trace : Fields φ} {reference : String}
    (hrequired : reference ∈ requiredReferences s trace) : stripText reference = reference := by
  rw [requiredReferences, Requirements.sortedTexts, List.mem_insertionSort, List.mem_dedup] at hrequired
  obtain ⟨item, _, hpath⟩ := List.mem_flatMap.mp hrequired
  exact stripText_of_mem_paths hpath

/-! ### Lists whose items are related -/

section

variable {α β γ : Type} {R : α → β → Prop} {l : List α} {m : List β}

theorem related_trans {S : β → γ → Prop} {T : α → γ → Prop} {n : List γ} (hcompose : ∀ {a b c}, R a b → S b c → T a c)
    (hlm : List.Forall₂ R l m) (hmn : List.Forall₂ S m n) : List.Forall₂ T l n := by
  induction hlm generalizing n with
  | nil =>
      cases hmn
      exact .nil
  | cons hab _ ih =>
      cases hmn with
      | cons hbc hrest => exact .cons (hcompose hab hbc) (ih hrest)

theorem related_mem (hlm : List.Forall₂ R l m) : ∀ b ∈ m, ∃ a ∈ l, R a b := by
  induction hlm with
  | nil => simp
  | cons hab _ ih =>
      intro b hb
      rcases List.mem_cons.mp hb with rfl | hrest
      · exact ⟨_, List.mem_cons_self, hab⟩
      · obtain ⟨a, ha, hab⟩ := ih b hrest
        exact ⟨a, List.mem_cons_of_mem _ ha, hab⟩

/-- The first items that pass a test are related, if related items pass it alike. -/
theorem related_find {p : α → Bool} {q : β → Bool} (hsame : ∀ a b, R a b → q b = p a) (hlm : List.Forall₂ R l m) :
    l.find? p = none ∧ m.find? q = none ∨ ∃ a b, l.find? p = some a ∧ m.find? q = some b ∧ R a b := by
  induction hlm with
  | nil => exact .inl ⟨rfl, rfl⟩
  | @cons a b l m hab _ ih =>
      rw [List.find?_cons, List.find?_cons, hsame a b hab]
      cases hp : p a with
      | true => exact .inr ⟨a, b, rfl, rfl, hab⟩
      | false => exact ih

end

/-! ### Entries -/

/-- The entries of a lock. -/
def entriesOf (fields : Fields φ) : List (Fields φ) := fields.filterMap fun field => asFields field.2

def entries (lock : Lock φ) : List (Fields φ) :=
  match lock.lookup "references" with
  | some (.obj fields) => entriesOf fields
  | _ => []

theorem lockEntry_eq (h : Host φ) (lock : Lock φ) (reference : String) :
    lockEntry h lock reference = (entries lock).find? fun entry => pathOf h entry == reference := by
  unfold lockEntry entries entriesOf
  cases lock.lookup "references" with
  | none => rfl
  | some v => cases v <;> rfl

theorem references_entries {lock : Lock φ} {fields : Fields φ} (h : references lock = .ok fields) : entries lock = entriesOf fields := by
  unfold references Requirements.field at h
  unfold entries
  cases hlookup : lock.lookup "references" with
  | none =>
      rw [hlookup] at h
      rw [← Except.ok.inj h]
      rfl
  | some v =>
      rw [hlookup, Option.getD_some] at h
      cases v with
      | obj fields' =>
          rw [← Except.ok.inj h]
      | _ => cases h

theorem entries_setField (lock : Lock φ) (fields : Fields φ) : entries (Base.setField lock "references" (.obj fields)) = entriesOf fields := by
  rw [entries, lookup_setField_self]

section

variable (h : Host φ)

/-- The entry is an approved assumption. -/
def approved (entry : Fields φ) : Prop := h.text entry "status" "missing" = "assumption_approved"

/-- The reference is an approved assumption in the lock, or in the evidence that is retained for it. -/
def Granted (state : Lock φ × History φ) (reference : String) : Prop :=
  (∃ entry ∈ entries state.1, pathOf h entry = reference ∧ approved h entry) ∨
    ∃ kept ∈ state.2, kept.2.reference = reference ∧ approved h kept.2.entry

end

/-- The record of the review that the model wrote says that the evidence covers the requirements. -/
def covered (entry : Fields φ) : Bool :=
  match get entry "review" with
  | .obj review => isStr (get review "applicability") "covered"
  | _ => false

/-! ### What the controller writes -/

def controllerFields : List String :=
  ["evidence_snapshot", "retrieved_at", "freshness", "applicability_checked_at", "consumer_contract_sha256"]

/-- What the controller does not own is the same in both. -/
def Keeps (a b : Fields φ) : Prop := ∀ key ∉ controllerFields, b.lookup key = a.lookup key

theorem Keeps.refl (a : Fields φ) : Keeps a a := fun _ _ => rfl

theorem Keeps.trans {a b c : Fields φ} (hab : Keeps a b) (hbc : Keeps b c) : Keeps a c :=
  fun key hkey => (hbc key hkey).trans (hab key hkey)

theorem Keeps.setField {a b : Fields φ} (hab : Keeps a b) (key : String) (hkey : key ∈ controllerFields) (value : Base.Json φ) :
    Keeps a (Base.setField b key value) := fun other hother => by
  have hne : other ≠ key := fun heq => hother (heq.symm ▸ hkey)
  rw [lookup_setField_ne b hne]
  exact hab other hother

theorem Keeps.popField {a b : Fields φ} {key : String} (hab : Keeps a b) (hkey : key ∈ controllerFields) :
    Keeps a (Base.popField b key) := fun other hother => by
  have hne : other ≠ key := fun heq => hother (heq.symm ▸ hkey)
  rw [lookup_popField_ne b hne]
  exact hab other hother

section

variable {h : Host φ} {a b : Fields φ}

theorem Keeps.get (hab : Keeps a b) {key : String} (hkey : key ∉ controllerFields) : get b key = get a key := by
  rw [Provider.get, Provider.get, Requirements.field, Requirements.field, hab key hkey]

theorem Keeps.text (hab : Keeps a b) {key : String} (hkey : key ∉ controllerFields) (default : String) :
    h.text b key default = h.text a key default := by
  rw [Host.text, Host.text, Requirements.field, Requirements.field, hab key hkey]

theorem Keeps.pathOf (hab : Keeps a b) : pathOf h b = pathOf h a := hab.text (by decide) ""

theorem Keeps.approved (hab : Keeps a b) : approved h b ↔ approved h a := by
  rw [Provider.approved, Provider.approved, hab.text (by decide)]

theorem Keeps.covered (hab : Keeps a b) : covered b = covered a := by rw [Provider.covered, Provider.covered, hab.get (by decide)]

end

/-! ### What a round stamps -/

section

variable {s : Surroundings φ} {history history' : History φ} {text : String → Except String String}

/-- A record that is new to the evidence is about the entry. -/
theorem mem_retain {reference document : String} {entry : Fields φ} {kept : String × Evidence φ}
    (hkept : kept ∈ (retain s history reference document entry).2) :
    kept ∈ history ∨ kept.2.reference = reference ∧ Keeps entry kept.2.entry := by
  simp only [retain] at hkept
  split at hkept
  · exact .inl hkept
  · rcases List.mem_append.mp hkept with hold | hnew
    · exact .inl hold
    · rw [List.mem_singleton.mp hnew]
      exact .inr ⟨rfl, (Keeps.refl entry).popField (by decide)⟩

theorem keepRetrieval_keeps (item : Item φ) (outcome : Base.Json φ) {a b : Fields φ} (hab : Keeps a b) :
    Keeps a (keepRetrieval item outcome b) := by
  unfold keepRetrieval
  split
  · cases item.prior.lookup "retrieved_at" with
    | some retrieved => exact hab.setField _ (by decide) retrieved
    | none => exact hab.popField (by decide)
  · exact hab

theorem finishEntry_ok {reference : String} {item : Item φ} {entry entry' : Fields φ}
    (hok : finishEntry s text history reference item entry = .ok (entry', history')) :
    Keeps entry entry' ∧ ∀ kept ∈ history', kept ∈ history ∨ kept.2.reference = reference ∧ Keeps entry kept.2.entry := by
  have hsnapshot := (Keeps.refl entry).setField "evidence_snapshot" (by decide) (.str item.evidenceSnapshot)
  unfold finishEntry at hok
  obtain ⟨usable, _, hok⟩ := bind_ok.mp hok
  split at hok
  · obtain ⟨rfl, rfl⟩ := Prod.mk.inj (pure_ok.mp hok)
    exact ⟨hsnapshot, fun _ => .inl⟩
  · split at hok
    · next review _ =>
        obtain ⟨freshness, _, hok⟩ := bind_ok.mp hok
        have hreviewed := ((keepRetrieval_keeps item (get review "freshness") hsnapshot).setField "freshness" (by decide)
          (.obj freshness)).setField "applicability_checked_at" (by decide) (.str s.stamp)
        split at hok
        · obtain ⟨document, _, hok⟩ := bind_ok.mp hok
          obtain ⟨rfl, rfl⟩ := Prod.mk.inj (pure_ok.mp hok)
          have hstamped := hreviewed.setField "consumer_contract_sha256" (by decide) (.str item.consumerContract)
          refine ⟨hstamped.setField _ (by decide) _, fun kept hkept => ?_⟩
          rcases mem_retain hkept with hold | ⟨hreference, hkeeps⟩
          · exact .inl hold
          · exact .inr ⟨hreference, hstamped.trans hkeeps⟩
        · obtain ⟨rfl, rfl⟩ := Prod.mk.inj (pure_ok.mp hok)
          exact ⟨hreviewed, fun _ => .inl⟩
    · cases hok

/-- The record of evidence is about the entry, whose reference is under review. -/
def Retains (context : Context φ) (entry : Fields φ) (kept : Evidence φ) : Prop :=
  get entry "path" = .str kept.reference ∧ (∃ item, context.lookup kept.reference = some item) ∧ Keeps entry kept.entry

/-- What `finish` does to an entry: none of what the controller does not own changes, and nothing at all if its path is not under review. -/
def Finished (context : Context φ) (a b : Fields φ) : Prop :=
  Keeps a b ∧ (b = a ∨ ∃ reference item, get a "path" = .str reference ∧ context.lookup reference = some item)

theorem finishOne_ok {context : Context φ} {entry entry' : Fields φ}
    (hok : finishOne s text context history entry = .ok (entry', history')) :
    Finished context entry entry' ∧ ∀ kept ∈ history', kept ∈ history ∨ Retains context entry kept.2 := by
  have hsame (hsame : (.ok (entry, history) : Except String _) = .ok (entry', history')) :
      Finished context entry entry' ∧ ∀ kept ∈ history', kept ∈ history ∨ Retains context entry kept.2 := by
    obtain ⟨rfl, rfl⟩ := Prod.mk.inj (Except.ok.inj hsame)
    exact ⟨⟨Keeps.refl _, .inl rfl⟩, fun _ => .inl⟩
  unfold finishOne at hok
  split at hok
  · next reference hpath =>
      split at hok
      · next item hitem =>
          obtain ⟨hkeeps, hkept⟩ := finishEntry_ok hok
          refine ⟨⟨hkeeps, .inr ⟨reference, item, hpath, hitem⟩⟩, fun kept hmem => ?_⟩
          rcases hkept kept hmem with hold | ⟨rfl, hkeeps⟩
          · exact .inl hold
          · exact .inr ⟨hpath, ⟨item, hitem⟩, hkeeps⟩
      · exact hsame hok
  · cases hok
  · cases hok
  · exact hsame hok

theorem finish_ok {context : Context φ} {fields fields' : Fields φ} (hok : finish s text context history fields = .ok (fields', history')) :
    List.Forall₂ (Finished context) (entriesOf fields) (entriesOf fields') ∧
      ∀ kept ∈ history', kept ∈ history ∨ ∃ entry ∈ entriesOf fields, Retains context entry kept.2 := by
  induction fields generalizing history fields' with
  | nil =>
      obtain ⟨rfl, rfl⟩ := Prod.mk.inj (Except.ok.inj hok)
      exact ⟨.nil, fun _ => .inl⟩
  | cons field rest ih =>
      obtain ⟨key, v⟩ := field
      cases v with
      | obj entry =>
          unfold finish at hok
          obtain ⟨⟨entry', middle⟩, hentry, hok⟩ := bind_ok.mp hok
          obtain ⟨⟨rest', last⟩, hrest, hok⟩ := bind_ok.mp hok
          obtain ⟨rfl, rfl⟩ := Prod.mk.inj (pure_ok.mp hok)
          obtain ⟨hfirst, hmiddle⟩ := finishOne_ok hentry
          obtain ⟨hfinished, hkept⟩ := ih hrest
          refine ⟨.cons hfirst hfinished, fun kept hmem => ?_⟩
          rcases hkept kept hmem with hmem | ⟨entry, hentry, hnew⟩
          · rcases hmiddle kept hmem with hold | hnew
            · exact .inl hold
            · exact .inr ⟨entry, List.mem_cons_self, hnew⟩
          · exact .inr ⟨entry, List.mem_cons_of_mem _ hentry, hnew⟩
      | _ => cases hok

variable [FloatText φ] {trace : Fields φ} {required : List String}

/-- The consumer hash of the entry is stamped. -/
def Stamps (h : Host φ) (required : List String) (entry : Fields φ) : Prop :=
  pathOf h entry ∈ required ∧ pathOf h entry ≠ "" ∧ h.text entry "status" "" ∈ resolvedStatuses

/-- The entry records the hash of the present consumers of its reference. -/
def Bound (h : Host φ) (trace entry : Fields φ) : Prop :=
  ∃ hash, consumerContractSha256 h trace (pathOf h entry) = .ok hash ∧ h.text entry "consumer_contract_sha256" "" = stripText hash

omit [FloatText φ] in
theorem Keeps.stamps {a b : Fields φ} (hab : Keeps a b) : Stamps s.toHost required b ↔ Stamps s.toHost required a := by
  rw [Stamps, Stamps, hab.pathOf, hab.text (by decide)]

theorem stampEntry_ok {entry entry' : Fields φ} (hok : stampEntry s trace required entry = .ok entry') :
    Keeps entry entry' ∧ (Stamps s.toHost required entry → Bound s.toHost trace entry') ∧ (¬ Stamps s.toHost required entry → entry' = entry) := by
  simp only [stampEntry] at hok
  split at hok
  · next hnot =>
      have hfree : ¬ Stamps s.toHost required entry := by
        rintro ⟨hrequired, hfilled, hresolved⟩
        rcases hnot with hnot | hnot | hnot
        · exact hnot hrequired
        · exact hfilled hnot
        · exact hnot hresolved
      obtain rfl := pure_ok.mp hok
      exact ⟨Keeps.refl _, fun hstamps => absurd hstamps hfree, fun _ => rfl⟩
  · next hstamps =>
      simp only [not_or, not_not] at hstamps
      obtain ⟨hash, hhash, hok⟩ := bind_ok.mp hok
      obtain rfl := pure_ok.mp hok
      split
      · next hsame =>
          refine ⟨Keeps.refl _, fun _ => ⟨hash, hhash, ?_⟩, fun hnot => absurd hstamps hnot⟩
          rw [← hsame, Host.text, stripText_stripText]
      · have hkeeps := (Keeps.refl entry).setField "consumer_contract_sha256" (by decide) (.str hash)
        refine ⟨hkeeps, fun _ => ⟨hash, by rwa [hkeeps.pathOf], ?_⟩, fun hnot => absurd hstamps hnot⟩
        rw [Host.text, Requirements.field, lookup_setField_self]
        rfl

theorem stamp_ok {fields fields' : Fields φ} (hok : stamp s trace required fields = .ok fields') :
    List.Forall₂ (fun a b => stampEntry s trace required a = .ok b) (entriesOf fields) (entriesOf fields') := by
  induction fields generalizing fields' with
  | nil =>
      obtain rfl := Except.ok.inj hok
      exact .nil
  | cons field rest ih =>
      obtain ⟨key, v⟩ := field
      cases v with
      | obj entry =>
          unfold stamp at hok
          obtain ⟨entry', hentry, hok⟩ := bind_ok.mp hok
          obtain ⟨rest', hrest, hok⟩ := bind_ok.mp hok
          obtain rfl := pure_ok.mp hok
          exact .cons hentry (ih hrest)
      | _ =>
          obtain ⟨rest', hrest, hok⟩ := bind_ok.mp hok
          obtain rfl := pure_ok.mp hok
          have hsame := ih hrest
          exact hsame

/-- What a round makes of an entry of the lock that the model wrote. -/
structure Written (h : Host φ) (trace : Fields φ) (required : List String) (context : Context φ) (a b : Fields φ) : Prop where
  keeps : Keeps a b
  stamped : Stamps h required a → Bound h trace b
  untouched : ¬ Stamps h required a → (∀ reference, get a "path" = .str reference → context.lookup reference = none) → b = a

theorem written {context : Context φ} {a b c : Fields φ} (hfinished : Finished context a b)
    (hstamped : stampEntry s trace required b = .ok c) : Written s.toHost trace required context a c := by
  obtain ⟨hkeeps, hbound, hfree⟩ := stampEntry_ok hstamped
  refine ⟨hfinished.1.trans hkeeps, fun hstamps => hbound (hfinished.1.stamps.mpr hstamps), fun hnot houtside => ?_⟩
  rw [hfree fun hstamps => hnot (hfinished.1.stamps.mp hstamps)]
  rcases hfinished.2 with hsame | ⟨reference, item, hpath, hitem⟩
  · exact hsame
  · rw [houtside reference hpath] at hitem
    cases hitem

/-- What a validation that accepts makes of the lock and of the evidence. -/
theorem accepted_written {read : String → Except String (Option (List Char))} {context : Context φ} {lock lock' : Lock φ}
    {proposal : Proposal} (hok : validateProviderDocuments s read text context history trace lock proposal = .ok (lock', history')) :
    List.Forall₂ (Written s.toHost trace (requiredReferences s trace) context) (entries lock) (entries lock') ∧
      ∀ kept ∈ history', kept ∈ history ∨ ∃ entry ∈ entries lock, Retains context entry kept.2 := by
  obtain ⟨_, _, hwritten⟩ := validateProviderDocuments_ok hok
  rcases hwritten with ⟨hnone, rfl, rfl⟩ | ⟨fields, finished, stamped, hfields, hfinished, hstamped, rfl⟩
  · have hfree : ∀ a, ¬ Stamps s.toHost (requiredReferences s trace) a := by
      rintro a ⟨hrequired, _⟩
      rw [hnone] at hrequired
      exact List.not_mem_nil hrequired
    have hsame : ∀ a ∈ entries lock', Written s.toHost trace (requiredReferences s trace) context a a := fun a _ =>
      { keeps := Keeps.refl a, stamped := fun hstamps => absurd hstamps (hfree a), untouched := fun _ _ => rfl }
    exact ⟨List.forall₂_same.mpr hsame, fun _ => .inl⟩
  · rw [entries_setField, references_entries hfields]
    obtain ⟨hfinish, hkept⟩ := finish_ok hfinished
    have hstamp := stamp_ok hstamped
    have hrelated : List.Forall₂ (Written s.toHost trace (requiredReferences s trace) context) (entriesOf fields) (entriesOf stamped) := by
      refine related_trans ?_ hfinish hstamp
      intro a b c hab hbc
      exact written hab hbc
    exact ⟨hrelated, hkept⟩

end

/-! ### What a review compares -/

section

variable {s : Surroundings φ} {trace : Fields φ} {reference : String} {item : Item φ} {entry : Fields φ}

theorem errorIf_eq_nil {test : Bool} {message : String} : errorIf test message = [] ↔ test = false := by
  cases test <;> simp [errorIf]

/-- Evidence that is called covered keeps the status that it had. -/
theorem reviewErrors_status (hok : reviewErrors s reference item entry = .ok []) (hcovered : covered entry = true) :
    sameStatus (get entry "status") (get item.prior "status") = true := by
  unfold covered at hcovered
  cases hreview : get entry "review" with
  | obj review =>
      simp only [hreview] at hcovered
      have hgiven : (if s.truthy (.obj review) = true then (.obj review : Base.Json φ) else .obj []) = .obj review := by
        cases review <;> simp [Host.truthy]
      simp only [reviewErrors, hreview, hgiven] at hok
      split at hok
      · cases hok
      · split at hok
        · cases hok
        · split at hok
          · cases hok
          · simp only [assessmentErrors, hcovered, if_true, bind_ok, pure_ok] at hok
            obtain ⟨outcome, rfl, herrors⟩ := hok
            simp only [List.append_eq_nil_iff, errorIf_eq_nil, Bool.not_eq_eq_eq_not, Bool.not_false] at herrors
            exact herrors.1.1.2
  | _ => simp [hreview] at hcovered

theorem text_of_str {h : Host φ} {key value default : String} (hvalue : get entry key = .str value) :
    h.text entry key default = stripText value := by
  unfold get Requirements.field at hvalue
  cases hlookup : entry.lookup key with
  | none => simp [hlookup] at hvalue
  | some v =>
      rw [hlookup, Option.getD_some] at hvalue
      rw [Host.text, Requirements.field, hlookup, Option.getD_some, hvalue]
      rfl

theorem str_of_isStr {v : Base.Json φ} {text : String} (h : isStr v text = true) : v = .str text := by
  unfold isStr at h
  split at h
  · rw [beq_iff_eq.mp h]
  · cases h

theorem text_of_same {h : Host φ} {a b : Fields φ} (hsame : sameStatus (get a "status") (get b "status") = true) :
    h.text a "status" "missing" = h.text b "status" "missing" := by
  unfold sameStatus at hsame
  split at hsame
  · next left right ha hb =>
      rw [text_of_str ha, text_of_str hb, beq_iff_eq.mp hsame]
  · cases hsame

/-- The entry is what the review of the reference compares with the prior evidence, which was resolved. -/
def Compared (lock : Lock φ) (reference : String) (item : Item φ) (entry : Fields φ) : Prop :=
  (entries lock).find? (fun entry => isStr (get entry "path") reference) = some entry ∧
    inTexts resolvedStatuses (get item.prior "status") = .ok true

variable [FloatText φ]

theorem validate_mem {lock : Lock φ} {context : Context φ} (hok : validate s trace lock context = .ok []) :
    ∀ one ∈ context, validateOne s trace lock one.1 one.2 = .ok [] := by
  induction context with
  | nil => simp
  | cons first rest ih =>
      obtain ⟨errors, herrors, more, hmore, hnone⟩ := by simpa only [validate, bind_ok, pure_ok] using hok
      obtain ⟨rfl, rfl⟩ := List.append_eq_nil_iff.mp hnone
      intro one hone
      rcases List.mem_cons.mp hone with rfl | hrest
      · exact herrors
      · exact ih hmore one hrest

theorem compared_status {lock : Lock φ} (hok : validateOne s trace lock reference item = .ok [])
    (hcompared : Compared lock reference item entry) (hcovered : covered entry = true) :
    s.text entry "status" "missing" = s.text item.prior "status" "missing" := by
  obtain ⟨hfind, hresolved⟩ := hcompared
  obtain ⟨hash, _, hok⟩ := bind_ok.mp hok
  split at hok
  · cases pure_ok.mp hok
  · obtain ⟨fields, hfields, hok⟩ := bind_ok.mp hok
    obtain ⟨usable, husable, hok⟩ := bind_ok.mp hok
    obtain rfl : usable = true := Except.ok.inj (husable.symm.trans hresolved)
    rw [references_entries hfields] at hfind
    have hentry : entryFor fields reference = some entry := hfind
    rw [hentry, Option.getD_some] at hok
    exact text_of_same (reviewErrors_status hok hcovered)

end

/-! ### What a round prepares -/

section

variable [FloatText φ] {s : Surroundings φ} {text : String → Except String String} {trace : Fields φ} {lock : Lock φ} {fields : Fields φ}

/-- Every approval that the evidence holds is one of the lock, or of the evidence that there was. -/
def Earned (h : Host φ) (state : Lock φ × History φ) (history : History φ) : Prop :=
  ∀ kept ∈ history, approved h kept.2.entry → Granted h state kept.2.reference

omit [FloatText φ] in
theorem granted_entryFor {h : Host φ} {history : History φ} {reference : String} (hfields : references lock = .ok fields)
    (hstripped : stripText reference = reference) (happroved : approved h ((entryFor fields reference).getD [])) :
    Granted h (lock, history) reference := by
  cases hentry : entryFor fields reference with
  | none =>
      have hmissing : h.text ([] : Fields φ) "status" "missing" = "missing" := by
        rw [Host.text, Requirements.field]
        exact (by decide : stripText "missing" = "missing")
      rw [hentry, Option.getD_none, approved, hmissing] at happroved
      simp at happroved
  | some entry =>
      rw [hentry, Option.getD_some] at happroved
      have hpath : isStr (get entry "path") reference = true := by simpa using List.find?_some hentry
      refine .inl ⟨entry, ?_, ?_, happroved⟩
      · rw [references_entries hfields]
        exact List.mem_of_find?_eq_some hentry
      · rw [pathOf, text_of_str (str_of_isStr hpath), hstripped]

omit [FloatText φ] in
theorem retained_ok {history : History φ} {reference : String} {entry : Fields φ} {kept : Option (Evidence φ)}
    (hok : retained s history reference entry = .ok kept) : ∀ evidence, kept = some evidence →
      evidence.reference = reference ∧ ∃ name, (name, evidence) ∈ history := by
  rintro evidence rfl
  unfold retained at hok
  split at hok
  · next name _ =>
      split at hok
      · cases hlookup : history.lookup name with
        | none => simp [hlookup] at hok
        | some found =>
            simp only [hlookup] at hok
            split at hok
            · cases hok
            · next hsame =>
                obtain rfl := Option.some.inj (Except.ok.inj hok)
                simp only [not_or, not_not] at hsame
                exact ⟨hsame.1, name, mem_of_lookup hlookup⟩
      · cases hok
  · cases hok

/-- What the round takes for the prior evidence of a reference is approved only if the reference was. -/
theorem prepareOne_ok {history history' state : History φ} {reference : String} {item : Option (Item φ)}
    (hfields : references lock = .ok fields) (hstripped : stripText reference = reference) (hearned : Earned s.toHost (lock, state) history)
    (hok : prepareOne s text trace fields history reference = .ok (item, history')) :
    Earned s.toHost (lock, state) history' ∧
      ∀ one, item = some one → approved s.toHost one.prior → Granted s.toHost (lock, state) reference := by
  unfold prepareOne at hok
  obtain ⟨why, _, hok⟩ := bind_ok.mp hok
  split at hok
  · obtain ⟨rfl, rfl⟩ := Prod.mk.inj (pure_ok.mp hok)
    exact ⟨hearned, fun _ hnone => nomatch hnone⟩
  · obtain ⟨kept, hkept, hok⟩ := bind_ok.mp hok
    obtain ⟨prior, hprior, hok⟩ := bind_ok.mp hok
    obtain ⟨⟨snapshot, later⟩, hsnapshot, hok⟩ := bind_ok.mp hok
    obtain ⟨hash, _, hok⟩ := bind_ok.mp hok
    obtain ⟨rfl, rfl⟩ := Prod.mk.inj (pure_ok.mp hok)
    have hentry : approved s.toHost ((entryFor fields reference).getD []) → Granted s.toHost (lock, state) reference :=
      granted_entryFor hfields hstripped
    cases kept with
    | none =>
        obtain ⟨document, _, hretain⟩ := bind_ok.mp hsnapshot
        obtain rfl := Except.ok.inj hprior
        refine ⟨fun one hone happroved => ?_, ?_⟩
        · have hmem : one ∈ (retain s history reference document ((entryFor fields reference).getD [])).2 := by
            rw [pure_ok.mp hretain]
            exact hone
          rcases mem_retain hmem with hold | ⟨hreference, hkeeps⟩
          · exact hearned one hold happroved
          · rw [hreference]
            exact hentry (hkeeps.approved.mp happroved)
        · intro one hone happroved
          rw [← Option.some.inj hone] at happroved
          exact hentry happroved
    | some evidence =>
        obtain ⟨_, rfl⟩ := Prod.mk.inj (Except.ok.inj hsnapshot)
        obtain ⟨hreference, name, hmem⟩ := retained_ok hkept evidence rfl
        obtain ⟨usable, _, hprior⟩ := bind_ok.mp hprior
        refine ⟨hearned, ?_⟩
        intro one hone happroved
        rw [← Option.some.inj hone, ← pure_ok.mp hprior] at happroved
        split at happroved
        · rw [← hreference]
          exact hearned (name, evidence) hmem happroved
        · exact hentry happroved

theorem prepareAll_ok {history history' state : History φ} {needed : List String} {context : Context φ}
    (hfields : references lock = .ok fields) (hstripped : ∀ reference ∈ needed, stripText reference = reference)
    (hearned : Earned s.toHost (lock, state) history)
    (hok : prepareAll s text trace fields history needed = .ok (context, history')) :
    Earned s.toHost (lock, state) history' ∧
      ∀ one ∈ context, one.1 ∈ needed ∧ (approved s.toHost one.2.prior → Granted s.toHost (lock, state) one.1) := by
  induction needed generalizing history history' context with
  | nil =>
      obtain ⟨rfl, rfl⟩ := Prod.mk.inj (Except.ok.inj hok)
      exact ⟨hearned, by simp⟩
  | cons reference rest ih =>
      unfold prepareAll at hok
      obtain ⟨⟨item, middle⟩, hitem, hok⟩ := bind_ok.mp hok
      obtain ⟨⟨later, last⟩, hlater, hok⟩ := bind_ok.mp hok
      obtain ⟨rfl, rfl⟩ := Prod.mk.inj (pure_ok.mp hok)
      obtain ⟨hmiddle, hfirst⟩ := prepareOne_ok hfields (hstripped reference List.mem_cons_self) hearned hitem
      obtain ⟨hlast, hothers⟩ := ih (fun other hother => hstripped other (List.mem_cons_of_mem _ hother)) hmiddle hlater
      refine ⟨hlast, fun one hone => ?_⟩
      rcases List.mem_append.mp hone with hone | hone
      · cases item with
        | none => cases hone
        | some item =>
            obtain rfl := List.mem_singleton.mp hone
            exact ⟨List.mem_cons_self, hfirst item rfl⟩
      · obtain ⟨hneeded, hgranted⟩ := hothers one hone
        exact ⟨List.mem_cons_of_mem _ hneeded, hgranted⟩

theorem prepare_ok {history history' : History φ} {needed : List String} {context : Context φ}
    (hstripped : ∀ reference ∈ needed, stripText reference = reference)
    (hok : prepare s text trace lock history needed = .ok (context, history')) :
    Earned s.toHost (lock, history) history' ∧
      ∀ one ∈ context, one.1 ∈ needed ∧ (approved s.toHost one.2.prior → Granted s.toHost (lock, history) one.1) := by
  unfold prepare at hok
  obtain ⟨fields, hfields, hok⟩ := bind_ok.mp hok
  obtain ⟨⟨prepared, later⟩, hprepared, hok⟩ := bind_ok.mp hok
  obtain ⟨checks, _, hok⟩ := bind_ok.mp hok
  obtain ⟨context', hcontext, hok⟩ := bind_ok.mp hok
  obtain ⟨rfl, rfl⟩ := Prod.mk.inj (pure_ok.mp hok)
  have hstart : Earned s.toHost (lock, history) history := fun one hone happroved => .inr ⟨one, hone, rfl, happroved⟩
  obtain ⟨hearned, hprior⟩ := prepareAll_ok hfields hstripped hstart hprepared
  refine ⟨hearned, fun one hone => ?_⟩
  obtain ⟨before, hbefore, hsources⟩ := mapM_mem hcontext one hone
  obtain ⟨item, hitem, hone⟩ := bind_ok.mp hsources
  obtain rfl := pure_ok.mp hone
  obtain ⟨urls, _, hitem⟩ := bind_ok.mp hitem
  obtain rfl := pure_ok.mp hitem
  exact hprior before hbefore

end

/-! ### Rounds -/

/-- What comes to a round from outside: the clock, the trace, the texts of the documents before and after the model worked, the documents
as the validation reads them, the lock that the model wrote, and its reply. -/
structure Round (φ : Type) where
  clock : Clock φ
  trace : Fields φ
  before : String → Except String String
  after : String → Except String String
  read : String → Except String (Option (List Char))
  proposed : Lock φ
  proposal : Proposal

section

variable [FloatText φ] (s : Surroundings φ)

/-- The surroundings at the time of the round. -/
def Round.at (r : Round φ) : Surroundings φ := { s with toClock := r.clock }

/-- The context that the round prepares, and the evidence that it retains for it. -/
def Round.prepared (r : Round φ) (state : Lock φ × History φ) : Except String (Context φ × History φ) :=
  prepare (r.at s) r.before r.trace state.1 state.2 (requiredReferences s r.trace)

/-- The rounds that are accepted, from a lock and the evidence retained for it. -/
def rounds (start : Lock φ × History φ) : System (Lock φ × History φ) (Round φ) where
  start state := state = start
  step state r next := ∃ context history, r.prepared s state = .ok (context, history) ∧
    validateProviderDocuments (r.at s) r.read r.after context history r.trace r.proposed r.proposal = .ok next

/-- `provider_reference_status` -/
def referenceStatus (lock : Lock φ) (reference : String) : String :=
  ((lockEntry s.toHost lock reference).map (entryStatus s)).getD "missing"

/-- The reference has an entry, and it records the hash of its present consumers. -/
def BoundIn (trace : Fields φ) (lock : Lock φ) (reference : String) : Prop :=
  ∃ entry, lockEntry s.toHost lock reference = some entry ∧ Bound s.toHost trace entry

/-- The reference has an entry in the lock that the model wrote, and its consumer hash will be stamped. -/
def StampsIn (r : Round φ) (reference : String) : Prop :=
  ∃ entry, lockEntry s.toHost r.proposed reference = some entry ∧ Stamps s.toHost (requiredReferences s r.trace) entry

/-- A round grants no authority: what is approved after it was approved, what is called covered has its prior status, and what is not
under review is as it was. -/
structure Faithful (state : Lock φ × History φ) (r : Round φ) (next : Lock φ × History φ) (context : Context φ) : Prop where
  granted : ∀ entry ∈ entries next.1, approved s.toHost entry → Granted s.toHost state (pathOf s.toHost entry)
  covered : ∀ one ∈ context, ∀ entry, lockEntry s.toHost next.1 one.1 = some entry → covered entry = true →
    s.text entry "status" "missing" = s.text one.2.prior "status" "missing"
  outside : ∀ reference, (∀ one ∈ context, one.1 ≠ reference) → referenceStatus s next.1 reference = referenceStatus s state.1 reference ∧
    (BoundIn s r.trace next.1 reference ↔ BoundIn s r.trace state.1 reference)

/-- The model has left what the review does not compare as it was: the approvals, the statuses of what it calls covered, and the entries
of the references that are not under review, of which those that will be stamped had the stamp. -/
structure Untouched (state : Lock φ × History φ) (r : Round φ) (context : Context φ) : Prop where
  granted : ∀ entry ∈ entries r.proposed, approved s.toHost entry →
    (∃ one ∈ context, Compared r.proposed one.1 one.2 entry ∧ Provider.covered entry = true) ∨
      Granted s.toHost state (pathOf s.toHost entry)
  covered : ∀ one ∈ context, ∀ entry, lockEntry s.toHost r.proposed one.1 = some entry → Provider.covered entry = true →
    Compared r.proposed one.1 one.2 entry ∨ s.text entry "status" "missing" = s.text one.2.prior "status" "missing"
  status : ∀ reference, (∀ one ∈ context, one.1 ≠ reference) →
    referenceStatus s r.proposed reference = referenceStatus s state.1 reference
  stamped : ∀ reference, (∀ one ∈ context, one.1 ≠ reference) → StampsIn s r reference → BoundIn s r.trace state.1 reference
  unstamped : ∀ reference, (∀ one ∈ context, one.1 ≠ reference) → ¬ StampsIn s r reference →
    (BoundIn s r.trace r.proposed reference ↔ BoundIn s r.trace state.1 reference)

end

section

variable [FloatText φ] {s : Surroundings φ} {state next : Lock φ × History φ} {r : Round φ} {context : Context φ} {history : History φ}

/-- The entry of a reference before and after the stamps. -/
theorem lockEntry_written (reference : String)
    (hwritten : List.Forall₂ (Written s.toHost r.trace (requiredReferences s r.trace) context) (entries r.proposed) (entries next.1)) :
    lockEntry s.toHost r.proposed reference = none ∧ lockEntry s.toHost next.1 reference = none ∨
      ∃ a b, lockEntry s.toHost r.proposed reference = some a ∧ lockEntry s.toHost next.1 reference = some b ∧
        Written s.toHost r.trace (requiredReferences s r.trace) context a b := by
  rw [lockEntry_eq, lockEntry_eq]
  refine related_find ?_ hwritten
  intro a b hab
  rw [hab.keeps.pathOf]

omit [FloatText φ] in
theorem Keeps.entryStatus {a b : Fields φ} (hab : Keeps a b) : entryStatus s b = entryStatus s a := by
  rw [Provider.entryStatus, Provider.entryStatus, hab.text (by decide)]

theorem written_status {reference : String}
    (hwritten : List.Forall₂ (Written s.toHost r.trace (requiredReferences s r.trace) context) (entries r.proposed) (entries next.1)) :
    referenceStatus s next.1 reference = referenceStatus s r.proposed reference := by
  rcases lockEntry_written reference hwritten with ⟨hnone, hnone'⟩ | ⟨a, b, ha, hb, hab⟩
  · rw [referenceStatus, referenceStatus, hnone, hnone']
  · rw [referenceStatus, referenceStatus, ha, hb, Option.map_some, Option.map_some, hab.keeps.entryStatus]

/-- The entry of a reference that is not under review is not written, but for the stamp. -/
theorem written_bound {reference : String}
    (hwritten : List.Forall₂ (Written s.toHost r.trace (requiredReferences s r.trace) context) (entries r.proposed) (entries next.1))
    (hstripped : ∀ one ∈ context, stripText one.1 = one.1) (houtside : ∀ one ∈ context, one.1 ≠ reference) :
    (StampsIn s r reference → BoundIn s r.trace next.1 reference) ∧
      (¬ StampsIn s r reference → (BoundIn s r.trace next.1 reference ↔ BoundIn s r.trace r.proposed reference)) := by
  rcases lockEntry_written reference hwritten with ⟨hnone, hnone'⟩ | ⟨a, b, ha, hb, hab⟩
  · simp [StampsIn, BoundIn, hnone, hnone']
  · have hpath : pathOf s.toHost a = reference := by
      rw [lockEntry_eq] at ha
      exact beq_iff_eq.mp (by simpa using List.find?_some ha)
    refine ⟨fun ⟨entry, hentry, hstamps⟩ => ⟨b, hb, hab.stamped ?_⟩, fun hnot => ?_⟩
    · rwa [← Option.some.inj (hentry.symm.trans ha)]
    · have hfree : ∀ other, get a "path" = .str other → context.lookup other = none := by
        intro other hother
        by_contra hsome
        obtain ⟨item, hitem⟩ := Option.ne_none_iff_exists'.mp hsome
        have hone := mem_of_lookup hitem
        refine houtside _ hone ?_
        rw [← hpath, pathOf, text_of_str hother]
        exact (hstripped _ hone).symm
      have hsame : b = a := hab.untouched (fun hstamps => hnot ⟨a, ha, hstamps⟩) hfree
      rw [BoundIn, BoundIn, ha, hb, hsame]

omit [FloatText φ] in
theorem compared_path {lock : Lock φ} {one : String × Item φ} {entry : Fields φ} (hstripped : stripText one.1 = one.1)
    (hcompared : Compared lock one.1 one.2 entry) : pathOf s.toHost entry = one.1 := by
  have hpath : isStr (get entry "path") one.1 = true := by simpa using List.find?_some hcompared.1
  rw [pathOf, text_of_str (str_of_isStr hpath), hstripped]

/-- A round that is accepted grants no authority exactly if the model has left what the review does not compare as it was. -/
theorem faithful_iff (hcontext : ∀ one ∈ context, stripText one.1 = one.1 ∧ (approved s.toHost one.2.prior → Granted s.toHost state one.1))
    (hvalid : validate (r.at s) r.trace r.proposed context = .ok [])
    (hwritten : List.Forall₂ (Written s.toHost r.trace (requiredReferences s r.trace) context) (entries r.proposed) (entries next.1)) :
    Faithful s state r next context ↔ Untouched s state r context := by
  have hstripped : ∀ one ∈ context, stripText one.1 = one.1 := fun one hone => (hcontext one hone).1
  have hcompared : ∀ one ∈ context, ∀ entry, Compared r.proposed one.1 one.2 entry → covered entry = true →
      s.text entry "status" "missing" = s.text one.2.prior "status" "missing" := fun one hone entry hcompared hcovered =>
    compared_status (validate_mem hvalid one hone) hcompared hcovered
  constructor
  · intro hfaithful
    constructor
    case granted =>
      intro entry hentry happroved
      obtain ⟨entry', hentry', hab⟩ := related_mem hwritten.flip entry hentry
      have hgranted := hfaithful.granted entry' hentry' (hab.keeps.approved.mpr happroved)
      rw [hab.keeps.pathOf] at hgranted
      exact .inr hgranted
    case covered =>
      intro one hone entry hentry hcovered
      rcases lockEntry_written one.1 hwritten with ⟨hnone, _⟩ | ⟨a, b, ha, hb, hab⟩
      · simp [hnone] at hentry
      · obtain rfl := Option.some.inj (ha.symm.trans hentry)
        have hstatus := hfaithful.covered one hone b hb (hab.keeps.covered.trans hcovered)
        rw [hab.keeps.text (by decide)] at hstatus
        exact .inr hstatus
    case status =>
      intro reference houtside
      rw [← written_status hwritten]
      exact (hfaithful.outside reference houtside).1
    case stamped =>
      intro reference houtside hstamps
      exact (hfaithful.outside reference houtside).2.mp ((written_bound hwritten hstripped houtside).1 hstamps)
    case unstamped =>
      intro reference houtside hnot
      exact ((written_bound hwritten hstripped houtside).2 hnot).symm.trans (hfaithful.outside reference houtside).2
  · intro huntouched
    constructor
    case granted =>
      intro entry' hentry' happroved
      obtain ⟨entry, hentry, hab⟩ := related_mem hwritten entry' hentry'
      rw [hab.keeps.pathOf]
      rcases huntouched.granted entry hentry (hab.keeps.approved.mp happroved) with ⟨one, hone, hentry, hcovered⟩ | hgranted
      · rw [compared_path (hstripped one hone) hentry]
        apply (hcontext one hone).2
        rw [approved, ← hcompared one hone entry hentry hcovered]
        exact hab.keeps.approved.mp happroved
      · exact hgranted
    case covered =>
      intro one hone entry' hentry' hcovered
      rcases lockEntry_written one.1 hwritten with ⟨_, hnone⟩ | ⟨a, b, ha, hb, hab⟩
      · simp [hnone] at hentry'
      · obtain rfl := Option.some.inj (hb.symm.trans hentry')
        have hcovered' := hab.keeps.covered.symm.trans hcovered
        rw [hab.keeps.text (by decide)]
        rcases huntouched.covered one hone a ha hcovered' with hentry | hstatus
        · exact hcompared one hone a hentry hcovered'
        · exact hstatus
    case outside =>
      intro reference houtside
      obtain ⟨hstamps, hnot⟩ := written_bound hwritten hstripped houtside
      refine ⟨(written_status hwritten).trans (huntouched.status reference houtside), ?_⟩
      by_cases hin : StampsIn s r reference
      · exact iff_of_true (hstamps hin) (huntouched.stamped reference houtside hin)
      · exact (hnot hin).trans (huntouched.unstamped reference houtside hin)

/-- What the steps of a round have been through. -/
theorem round_ok {start : Lock φ × History φ} (hstep : (rounds s start).step state r next) :
    ∃ context history, r.prepared s state = .ok (context, history) ∧ Earned s.toHost state history ∧
      (∀ one ∈ context, stripText one.1 = one.1 ∧ (approved s.toHost one.2.prior → Granted s.toHost state one.1)) ∧
      validate (r.at s) r.trace r.proposed context = .ok [] ∧
      List.Forall₂ (Written s.toHost r.trace (requiredReferences s r.trace) context) (entries r.proposed) (entries next.1) ∧
      ∀ kept ∈ next.2, kept ∈ history ∨ ∃ entry ∈ entries r.proposed, Retains context entry kept.2 := by
  obtain ⟨context, history, hprepared, hvalid⟩ := hstep
  have hstripped : ∀ reference ∈ requiredReferences s r.trace, stripText reference = reference :=
    fun reference hreference => stripText_of_required hreference
  obtain ⟨hearned, hcontext⟩ := prepare_ok hstripped hprepared
  obtain ⟨hwritten, hkept⟩ := accepted_written hvalid
  refine ⟨context, history, hprepared, hearned, fun one hone => ?_, (validateProviderDocuments_ok hvalid).1, hwritten, hkept⟩
  obtain ⟨hneeded, hgranted⟩ := hcontext one hone
  exact ⟨hstripped _ hneeded, hgranted⟩

/-- A round that is faithful leaves no approval that was not there. -/
theorem granted_of_faithful (hearned : Earned s.toHost state history)
    (hcontext : ∀ one ∈ context, stripText one.1 = one.1)
    (hwritten : List.Forall₂ (Written s.toHost r.trace (requiredReferences s r.trace) context) (entries r.proposed) (entries next.1))
    (hkept : ∀ kept ∈ next.2, kept ∈ history ∨ ∃ entry ∈ entries r.proposed, Retains context entry kept.2)
    (hfaithful : Faithful s state r next context) {reference : String} (hgranted : Granted s.toHost next reference) :
    Granted s.toHost state reference := by
  rcases hgranted with ⟨entry, hentry, rfl, happroved⟩ | ⟨kept, hmem, rfl, happroved⟩
  · exact hfaithful.granted entry hentry happroved
  · rcases hkept kept hmem with hold | ⟨entry, hentry, hpath, ⟨item, hitem⟩, hkeeps⟩
    · exact hearned kept hold happroved
    · obtain ⟨entry', hentry', hab⟩ := related_mem hwritten.flip entry hentry
      have hgranted := hfaithful.granted entry' hentry' (hab.keeps.approved.mpr (hkeeps.approved.mp happroved))
      rw [hab.keeps.pathOf, pathOf, text_of_str hpath, hcontext _ (mem_of_lookup hitem)] at hgranted
      exact hgranted

end

section

variable [FloatText φ] (s : Surroundings φ)

/-- The law of a round, whose context is the one that it prepares. -/
def Lawful (state : Lock φ × History φ) (r : Round φ) (next : Lock φ × History φ) : Prop :=
  ∀ context history, r.prepared s state = .ok (context, history) → Faithful s state r next context

/-- The condition on what the model wrote in a round. -/
def Restrained (state : Lock φ × History φ) (r : Round φ) (_ : Lock φ × History φ) : Prop :=
  ∀ context history, r.prepared s state = .ok (context, history) → Untouched s state r context

variable {s}

theorem lawful_iff {start state next : Lock φ × History φ} {r : Round φ} (hstep : (rounds s start).step state r next) :
    Lawful s state r next ↔ Restrained s state r next := by
  obtain ⟨context, history, hprepared, _, hcontext, hvalid, hwritten, _⟩ := round_ok hstep
  have hiff := faithful_iff hcontext hvalid hwritten
  constructor
  · intro hlawful context' history' hprepared'
    obtain ⟨rfl, rfl⟩ := Prod.mk.inj (Except.ok.inj (hprepared.symm.trans hprepared'))
    exact hiff.mp (hlawful context history hprepared)
  · intro hrestrained context' history' hprepared'
    obtain ⟨rfl, rfl⟩ := Prod.mk.inj (Except.ok.inj (hprepared.symm.trans hprepared'))
    exact hiff.mpr (hrestrained context history hprepared)

theorem granted_of_lawful {start state next : Lock φ × History φ} {r : Round φ} (hstep : (rounds s start).step state r next)
    (hlawful : Lawful s state r next) {reference : String} (hgranted : Granted s.toHost next reference) :
    Granted s.toHost state reference := by
  obtain ⟨context, history, hprepared, hearned, hcontext, _, hwritten, hkept⟩ := round_ok hstep
  exact granted_of_faithful hearned (fun one hone => (hcontext one hone).1) hwritten hkept (hlawful context history hprepared) hgranted

/-- The rounds of a run grant no authority exactly if in each of them the model leaves what the review does not compare as it was. Then
what is approved at the end was approved at the start. -/
theorem authority_kept_iff (s : Surroundings φ) {start state : Lock φ × History φ}
    {trace : List (Taken (Lock φ × History φ) (Round φ))} (hrun : (rounds s start).Run trace state) :
    (System.Meets (Lawful s) trace ↔ System.Meets (Restrained s) trace) ∧
      (System.Meets (Restrained s) trace → ∀ reference, Granted s.toHost state reference → Granted s.toHost start reference) := by
  have hsame : System.Meets (Lawful s) trace ↔ System.Meets (Restrained s) trace :=
    forall₂_congr fun e he => lawful_iff (hrun.taken he).2
  refine ⟨hsame, fun hrestrained => ?_⟩
  refine hrun.invariant_of_meets (C := Lawful s)
    (I := fun state => ∀ reference, Granted s.toHost state reference → Granted s.toHost start reference) ?_ ?_ (hsame.mpr hrestrained)
  · rintro first rfl reference hgranted
    exact hgranted
  · intro state r next hearlier hlawful hstep reference hgranted
    exact hearlier reference (granted_of_lawful hstep hlawful hgranted)

end

/-! ### An approval that no operator gave -/

/-- A round in which the model writes the lock, and no document. -/
def lockRound (proposed : Lock FloatLiteral) : Round FloatLiteral where
  clock := plainSurroundings.toClock
  trace := providerFields
  before _ := .ok ""
  after _ := .ok ""
  read _ := .ok none
  proposed := proposed
  proposal := ⟨[], false⟩

/-- A lock with one entry, of the first version of the contract. -/
def legacyEntry (status hash : String) : Fields FloatLiteral :=
  [("path", .str providerReference), ("status", .str status), ("contract_version", .int 1), ("consumer_contract_sha256", .str hash)]

def legacyLock (status hash : String) : Lock FloatLiteral := [("references", .obj [("provider", .obj (legacyEntry status hash))])]

theorem entries_legacyLock (status hash : String) : entries (legacyLock status hash) = [legacyEntry status hash] := rfl

/-- Nothing of the lock is under review. -/
def isCalm (prepared : Except String (Context FloatLiteral × History FloatLiteral)) : Bool :=
  match prepared with
  | .ok ([], []) => true
  | _ => false

theorem eq_of_isCalm {prepared : Except String (Context FloatLiteral × History FloatLiteral)} (hcalm : isCalm prepared = true) :
    prepared = .ok ([], []) := by
  unfold isCalm at hcalm
  split at hcalm
  · rfl
  · cases hcalm

theorem lockRound_steps {proposed : Lock FloatLiteral} (start : Lock FloatLiteral × History FloatLiteral)
    {state : Lock FloatLiteral × History FloatLiteral}
    (hprepared : (lockRound proposed).prepared plainSurroundings state = .ok ([], []))
    (hends : (validateProviderDocuments plainSurroundings (fun _ => .ok none) (fun _ => .ok "") [] [] providerFields proposed
      ⟨[], false⟩).isOk = true) : ∃ next, (rounds plainSurroundings start).step state (lockRound proposed) next := by
  obtain ⟨next, hnext⟩ := exists_of_isOk hends
  exact ⟨next, [], [], hprepared, hnext⟩

/-- The hash of the present consumers of the reference. -/
def presentHash : String :=
  match consumerContractSha256 plainSurroundings.toHost providerFields providerReference with
  | .ok hash => hash
  | .error _ => ""

example : presentHash ≠ "" := by decide +kernel

theorem legacyEntry_bound (status : String) : Bound plainSurroundings.toHost providerFields (legacyEntry status presentHash) := by
  have hok : (consumerContractSha256 plainSurroundings.toHost providerFields providerReference).isOk = true := by decide +kernel
  obtain ⟨hash, hhash⟩ := exists_of_isOk hok
  have hpresent : presentHash = hash := by rw [presentHash, hhash]
  have hpath : pathOf plainSurroundings.toHost (legacyEntry status presentHash) = providerReference :=
    (text_of_str rfl).trans (by decide)
  rw [Bound, hpath, hhash, ← hpresent]
  exact ⟨presentHash, rfl, text_of_str rfl⟩

/-- A round that leaves the lock as it is, with nothing under review. -/
theorem untouched_same {status : String} {history : History FloatLiteral} :
    Untouched plainSurroundings (legacyLock status presentHash, history) (lockRound (legacyLock status presentHash)) [] where
  granted entry hentry happroved := .inr (.inl ⟨entry, hentry, rfl, happroved⟩)
  covered _ hnone := nomatch hnone
  status _ _ := rfl
  stamped reference _ hstamps := by
    obtain ⟨entry, hentry, _⟩ := hstamps
    refine ⟨entry, hentry, ?_⟩
    rw [lockEntry_eq] at hentry
    have hmem := List.mem_of_find?_eq_some hentry
    rw [lockRound, entries_legacyLock, List.mem_singleton] at hmem
    rw [hmem]
    exact legacyEntry_bound status
  unstamped _ _ _ := Iff.rfl

theorem authority_kept_present : ∃ (start state : Lock FloatLiteral × History FloatLiteral)
    (trace : List (Taken (Lock FloatLiteral × History FloatLiteral) (Round FloatLiteral))),
    trace ≠ [] ∧ System.Meets (Lawful plainSurroundings) trace ∧
      ∀ reference, Granted plainSurroundings.toHost state reference → Granted plainSurroundings.toHost start reference := by
  have hprepared : (lockRound (legacyLock "assumption_approved" presentHash)).prepared plainSurroundings
      (legacyLock "assumption_approved" presentHash, []) = .ok ([], []) := eq_of_isCalm (by decide +kernel)
  obtain ⟨next, hstep⟩ := lockRound_steps (legacyLock "assumption_approved" presentHash, []) hprepared (by decide +kernel)
  have hrestrained : Restrained plainSurroundings (legacyLock "assumption_approved" presentHash, [])
      (lockRound (legacyLock "assumption_approved" presentHash)) next := by
    intro context history hcontext
    obtain ⟨rfl, rfl⟩ := Prod.mk.inj (Except.ok.inj (hprepared.symm.trans hcontext))
    exact untouched_same
  have hrun := (System.Run.start rfl).step hstep
  obtain ⟨hiff, hkept⟩ := authority_kept_iff plainSurroundings hrun
  have hmeets : System.Meets (Restrained plainSurroundings) [⟨(legacyLock "assumption_approved" presentHash, []),
      lockRound (legacyLock "assumption_approved" presentHash), next⟩] := by
    intro taken htaken
    rwa [List.mem_singleton.mp htaken]
  exact ⟨_, _, _, List.cons_ne_nil _ _, hiff.mpr hmeets, hkept hmeets⟩

theorem assumption_self_approved : ¬ ∀ (start state : Lock FloatLiteral × History FloatLiteral)
    (trace : List (Taken (Lock FloatLiteral × History FloatLiteral) (Round FloatLiteral))),
    (rounds plainSurroundings start).Run trace state → System.Meets (Lawful plainSurroundings) trace ∧
      ∀ reference, Granted plainSurroundings.toHost state reference → Granted plainSurroundings.toHost start reference := by
  intro hall
  have hprepared : (lockRound (legacyLock "assumption_approved" "")).prepared plainSurroundings (legacyLock "verified" "", []) =
      .ok ([], []) := eq_of_isCalm (by decide +kernel)
  obtain ⟨next, hstep⟩ := lockRound_steps (legacyLock "verified" "", []) hprepared (by decide +kernel)
  obtain ⟨_, _, _, _, _, _, hwritten, _⟩ := round_ok hstep
  obtain ⟨entry, hentry, hkeeps⟩ := related_mem hwritten.flip (legacyEntry "assumption_approved" "") List.mem_cons_self
  have happroved : approved plainSurroundings.toHost entry := hkeeps.keeps.approved.mpr (by unfold approved; decide)
  have hgranted := (hall _ next _ ((System.Run.start rfl).step hstep)).2 _ (.inl ⟨entry, hentry, rfl, happroved⟩)
  rcases hgranted with ⟨found, hfound, _, hfoundApproved⟩ | ⟨_, hnone, _⟩
  · obtain rfl := List.mem_singleton.mp hfound
    exact absurd hfoundApproved (by unfold approved; decide)
  · cases hnone

end AutoAgents.Provider
