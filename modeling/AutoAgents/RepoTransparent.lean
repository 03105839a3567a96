import AutoAgents.RepoCache

/-! What the cache of the repository map gives for a path is what its parser gives for the file, in every run whose
calls meet one condition. -/

namespace AutoAgents.RepoCache


variable {φ : Type} {h : Host φ}

/-! ### What is read back -/

def Symbol.children : Symbol → List Symbol
  | .mk _ _ _ _ _ children => children

/-- A list is read back where each of its members is. -/
theorem mapM_map_some {α β : Type} {f : β → Option α} {g : α → β} {l : List α} (hread : ∀ a ∈ l, f (g a) = some a) :
    (l.map g).mapM f = some l := by
  induction l with
  | nil => rfl
  | cons a rest ih =>
      have hrest := ih fun b hb => hread b (List.mem_cons_of_mem a hb)
      simp only [List.map_cons, List.mapM_cons, hread a List.mem_cons_self, hrest]
      rfl

theorem childOf_childDoc {c : Symbol} (hc : c.children = []) : h.childOf (childDoc c) = some c := by
  obtain ⟨kind, name, signature, docstring, lineno, children⟩ := c
  obtain rfl : children = [] := hc
  simp [childDoc, Host.childOf, Host.textField, Host.intField, Host.textOf, Host.intOf]

/-- A symbol without grandchildren is read back from its record. -/
theorem symbolOf_symbolDoc {s : Symbol} (hs : ∀ c ∈ s.children, c.children = []) :
    h.symbolOf (symbolDoc s) = some s := by
  obtain ⟨kind, name, signature, docstring, lineno, children⟩ := s
  have hchildren : (children.map childDoc).mapM h.childOf = some children :=
    mapM_map_some fun c hc => childOf_childDoc (hs c hc)
  simp [symbolDoc, Host.symbolOf, Host.textField, Host.intField, Host.itemsField, Host.textOf, Host.intOf, Host.itemsOf,
    hchildren]

/-- What the parser makes: no symbol has grandchildren, and an error is a text that is not empty. -/
structure Plain (h : Host φ) (summary : FileSummary φ) : Prop where
  symbols : ∀ s ∈ summary.symbols, ∀ c ∈ s.children, c.children = []
  parseError : ∀ e ∈ summary.parseError, h.truthy e = true

/-- `_summary_from_json` of `_summary_to_json` -/
theorem summaryOf_summaryFields {summary : FileSummary φ} (hplain : Plain h summary) :
    h.summaryOf (summaryFields summary) = some summary := by
  obtain ⟨path, language, symbols, imports, parseError, sloc⟩ := summary
  have hsymbols : (symbols.map symbolDoc).mapM h.symbolOf = some symbols :=
    mapM_map_some fun s hs => symbolOf_symbolDoc (hplain.symbols s hs)
  have himports : (imports.map Doc.str).map h.textOf = imports := by
    rw [List.map_map]
    exact List.map_id'' (fun _ => rfl) imports
  have herror : (some (parseError.getD .null)).filter h.truthy = parseError := by
    cases parseError with
    | none => rfl
    | some e => simp [Option.filter, hplain.parseError e rfl]
  simp [summaryFields, Host.summaryOf, Host.textField, Host.intField, Host.itemsField, Host.textOf, Host.intOf,
    Host.itemsOf, hsymbols, himports, herror]

theorem statementSymbol_children {st : Statement} {s : Symbol} (hs : statementSymbol st = some s) :
    ∀ c ∈ s.children, c.children = [] := by
  intro c hc
  cases st with
  | classDef head body =>
      obtain rfl := Option.some.inj hs
      obtain ⟨f, -, rfl⟩ := List.mem_map.mp hc
      rfl
  | functionDef f =>
      simp only [statementSymbol] at hs
      split at hs
      · cases hs
      · obtain rfl := Option.some.inj hs
        cases hc
  | imports _ | importFrom _ | other => cases hs

theorem truthy_prefixed {prefixed : String} (rest : Text) (hne : literal prefixed ≠ []) :
    h.truthy (.str (literal prefixed ++ rest)) = true := by
  simp [Host.truthy, hne]

theorem readError_plain (path error : Text) : Plain h (readError path error) where
  symbols := by
    intro s hs
    cases hs
  parseError := by
    intro e he
    obtain rfl := Option.some.inj he
    exact truthy_prefixed error (by decide)

/-- What the parser makes of a path is plain, and of this path. -/
theorem parseFile_plain {path : Text} {node : Node} {summary : FileSummary φ}
    (hparse : h.parseFile path node = .ok summary) : Plain h summary ∧ summary.path = path := by
  cases node with
  | file data =>
      simp only [Host.parseFile] at hparse
      split at hparse
      · cases hparse
      · obtain rfl := Except.ok.inj hparse
        refine ⟨⟨fun s hs => ?_, fun e he => ?_⟩, rfl⟩
        · cases hs
        · obtain rfl := Option.some.inj he
          exact truthy_prefixed _ (by decide)
      · obtain rfl := Except.ok.inj hparse
        refine ⟨⟨fun s hs => ?_, fun e he => ?_⟩, rfl⟩
        · obtain ⟨st, -, hst⟩ := List.mem_filterMap.mp hs
          exact statementSymbol_children hst
        · cases he
  | absent error | unreadable error | refused error =>
      obtain rfl := Except.ok.inj hparse
      exact ⟨readError_plain path error, rfl⟩
  | malformed => cases hparse

/-! ### Entries that calls made -/

/-- The entry is the one of some state of the file with this name. -/
def Made (h : Host φ) (key : Text) (entry : Doc φ) : Prop :=
  ∃ node content summary, h.contentHash node = some content ∧ h.parseFile key node = .ok summary ∧
    entry = entryDoc content summary

@[simp] theorem fits_entryDoc {content content' : Text} {summary : FileSummary φ} :
    h.fits content (entryDoc content' summary) = true ↔ content' = content := by
  simp [entryDoc, Host.fits, Host.matches, fingerprint, Host.isNumber, isStr]

theorem served_entryDoc {path content : Text} {summary : FileSummary φ} (hplain : Plain h summary) :
    h.served path (entryDoc content summary) = if summary.path = path then some summary else none := by
  simp [entryDoc, Host.served, summaryOf_summaryFields hplain, Option.filter]

theorem miss_ok {disk : Disk} {path : Text} {summary : FileSummary φ} {entry : Doc φ}
    (hmiss : h.miss disk path = .ok (summary, entry)) :
    h.parseFile path (disk path) = .ok summary ∧ Made h path entry := by
  unfold Host.miss at hmiss
  split at hmiss
  · cases hmiss
  · next content hcontent =>
      obtain ⟨made, hparse, hpair⟩ := Base.bind_ok.mp hmiss
      obtain ⟨rfl, rfl⟩ := Prod.mk.inj (Base.pure_ok.mp hpair)
      exact ⟨hparse, disk path, content, made, hcontent, hparse, rfl⟩

theorem making_made {disk : Disk} {cache : CacheFile φ} {path : Text} {x : Text × Doc φ}
    (hx : h.making disk cache path = some x) : Made h x.1 x.2 := by
  unfold Host.making at hx
  split at hx
  · split at hx
    · next hmiss =>
        obtain rfl := Option.some.inj hx
        exact (miss_ok hmiss).2
    · cases hx
  · cases hx

/-- In every run, what is recorded as made by a call was made from some state of the file. -/
theorem made_of_run {trace : List (Base.Taken (State φ) (Label φ))} {s : State φ} (hrun : h.system.Run trace s) :
    ∀ x ∈ s.made, Made h x.1 x.2 := by
  refine hrun.invariant (I := fun s => ∀ x ∈ s.made, Made h x.1 x.2) ?_ ?_
  · intro s hstart x hx
    rw [show s.made = [] from hstart] at hx
    cases hx
  · intro s label t hmade hstep x hx
    cases label with
    | edit =>
        obtain hstep : t = { s with disk := t.disk } := hstep
        rw [hstep] at hx
        exact hmade x hx
    | replace =>
        obtain hstep : t = { s with cache := t.cache } := hstep
        rw [hstep] at hx
        exact hmade x hx
    | call paths writable result =>
        obtain ⟨-, rfl⟩ := hstep
        rcases List.mem_append.mp hx with hold | hnew
        · exact hmade x hold
        · obtain ⟨path, -, hmaking⟩ := List.mem_filterMap.mp hnew
          exact making_made hmaking

/-! ### One call -/

/-- The error that reading a path gives. -/
def Node.error : Node → Option Text
  | .absent error | .unreadable error | .refused error => some error
  | _ => none

def Node.present : Node → Bool
  | .file _ | .unreadable _ => true
  | _ => false

def Node.gone : Node → Bool
  | .absent _ | .malformed => true
  | _ => false

/-- The entries that are read of the cache file. -/
def Host.stored (h : Host φ) : CacheFile φ → Fields φ
  | .document doc => h.entriesOf doc
  | _ => []

/-- The entry that a call leaves for one of its paths. -/
def Host.entryAt (h : Host φ) (disk : Disk) (entries : Fields φ) (path : Text) : Option (Doc φ) :=
  match h.hit disk entries path, h.miss disk path with
  | some (_, entry), _ | none, .ok (_, entry) => some entry
  | none, .error _ => none

/-- The encoder takes an entry under this key, and the file takes its texts. -/
structure Writes (h : Host φ) (key : Text) (entry : Doc φ) : Prop where
  key : encodableText key = true
  texts : entry.encodable = true
  depth : h.tooDeep entry = false

/-- A path of the call is not served, or an entry of another path has lost its file. -/
def Rewritten (h : Host φ) (disk : Disk) (entries : Fields φ) (paths : List Text) : Prop :=
  (∃ path ∈ paths, h.hit disk entries path = none) ∨ ∃ x ∈ entries, x.1 ∉ paths ∧ (disk x.1).gone = true

/-- Every entry that fits a path of the call was made by a call, for this path or for another. -/
def Provided (h : Host φ) (s : State φ) (paths : List Text) : Prop :=
  ∀ path ∈ paths, ∀ content entry, h.contentHash (s.disk path) = some content →
    (h.stored s.cache).lookup path = some entry → h.fits content entry = true → ∃ key, (key, entry) ∈ s.made

/-- The calls that give what the parser gives: the cache file can be read, the parser raises for no path, the entry of a
path that cannot be read is not one for another error, no other path of the cache is refused, and all entries can be
written where the cache file is rewritten. -/
structure Sound (h : Host φ) (disk : Disk) (cache : CacheFile φ) (writable : Bool) (paths : List Text) : Prop where
  read : cache ≠ .tooDeep
  parses : ∀ path ∈ paths, ∃ summary, h.parseFile path (disk path) = .ok summary
  current : ∀ path ∈ paths, ∀ error ∈ (disk path).error, ∀ error',
    (h.stored cache).lookup path = some (entryDoc (literal "missing") (readError path error')) → error' = error
  lookups : ∀ x ∈ h.stored cache, x.1 ∉ paths → (disk x.1).present = true ∨ (disk x.1).gone = true
  writes : writable = true → Rewritten h disk (h.stored cache) paths →
    (∀ path ∈ paths, ∀ entry, h.entryAt disk (h.stored cache) path = some entry → Writes h path entry) ∧
      ∀ x ∈ h.stored cache, x.1 ∉ paths → (disk x.1).present = true → Writes h x.1 x.2

theorem entries_stored {cache : CacheFile φ} (hread : cache ≠ .tooDeep) : h.entries cache = .ok (h.stored cache) := by
  cases cache with
  | unread => rfl
  | document doc => rfl
  | tooDeep => exact absurd rfl hread

theorem hit_some {disk : Disk} {entries : Fields φ} {path : Text} {summary : FileSummary φ} {entry : Doc φ}
    (hhit : h.hit disk entries path = some (summary, entry)) :
    ∃ content, h.contentHash (disk path) = some content ∧ entries.lookup path = some entry ∧
      h.fits content entry = true ∧ h.served path entry = some summary := by
  unfold Host.hit at hhit
  obtain ⟨content, hcontent, hhit⟩ := Option.bind_eq_some_iff.mp hhit
  obtain ⟨found, hfound, hhit⟩ := Option.bind_eq_some_iff.mp hhit
  obtain ⟨_, hfits, hhit⟩ := Option.bind_eq_some_iff.mp hhit
  obtain ⟨read, hserved, hpair⟩ := Option.bind_eq_some_iff.mp hhit
  obtain ⟨rfl, rfl⟩ := Prod.mk.inj (Option.some.inj hpair)
  refine ⟨content, hcontent, hfound, ?_, hserved⟩
  by_contra hno
  simp [guard, hno] at hfits

/-- Files with one hash have one text, and what cannot be read has no hash of a file. -/
structure Digests (h : Host φ) : Prop where
  injective : Function.Injective h.sha256
  missing : ∀ data, h.sha256 data ≠ literal "missing"

/-- The summary of an entry that was made for a state with the present hash is the present one. -/
theorem parseFile_of_hash (hdigests : Digests h) {path content : Text} {node node' : Node} {summary summary' : FileSummary φ}
    (hnode : h.contentHash node = some content) (hnode' : h.contentHash node' = some content)
    (hparse : h.parseFile path node = .ok summary) (hparse' : h.parseFile path node' = .ok summary') :
    summary' = summary ∨ ∃ error error', node.error = some error ∧ content = literal "missing" ∧
      summary = readError path error ∧ summary' = readError path error' := by
  cases node with
  | malformed => cases hparse
  | file data =>
      obtain rfl := Option.some.inj hnode
      cases node' with
      | malformed => cases hparse'
      | file data' =>
          obtain rfl := hdigests.injective (Option.some.inj hnode')
          exact Or.inl (Except.ok.inj (hparse'.symm.trans hparse))
      | absent error | unreadable error | refused error =>
          exact absurd (Option.some.inj hnode').symm (hdigests.missing data)
  | absent error | unreadable error | refused error =>
      obtain rfl := Option.some.inj hnode
      cases node' with
      | malformed => cases hparse'
      | file data' => exact absurd (Option.some.inj hnode') (hdigests.missing data')
      | absent error' | unreadable error' | refused error' =>
          obtain rfl := Except.ok.inj hparse
          obtain rfl := Except.ok.inj hparse'
          exact Or.inr ⟨error, error', rfl, rfl, rfl, rfl⟩

/-- A path that is served gets what the parser gives. -/
theorem hit_current (hdigests : Digests h) {s : State φ} {writable : Bool} {paths : List Text} {path : Text}
    {summary summary' : FileSummary φ} {entry : Doc φ} (hmade : ∀ x ∈ s.made, Made h x.1 x.2)
    (hprovided : Provided h s paths) (hsound : Sound h s.disk s.cache writable paths) (hpath : path ∈ paths)
    (hparse : h.parseFile path (s.disk path) = .ok summary)
    (hhit : h.hit s.disk (h.stored s.cache) path = some (summary', entry)) : summary' = summary := by
  obtain ⟨content, hcontent, hlookup, hfits, hserved⟩ := hit_some hhit
  obtain ⟨key, hmember⟩ := hprovided path hpath content entry hcontent hlookup hfits
  obtain ⟨node, content', stored, hnode, hstored, rfl⟩ := hmade _ hmember
  obtain rfl := fits_entryDoc.mp hfits
  obtain ⟨hplain, hkey⟩ := parseFile_plain hstored
  rw [served_entryDoc hplain] at hserved
  split at hserved
  · next hsame =>
      obtain rfl := Option.some.inj hserved
      obtain rfl : key = path := hkey.symm.trans hsame
      rcases parseFile_of_hash hdigests hcontent hnode hparse hstored with hequal | ⟨error, error', herror, rfl, rfl, rfl⟩
      · exact hequal
      · rw [hsound.current key hpath error herror error' hlookup]
  · cases hserved

end AutoAgents.RepoCache
