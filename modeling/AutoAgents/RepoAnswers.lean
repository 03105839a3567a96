import AutoAgents.RepoTransparent

/-! The two loops of a call, and the summaries it returns, over all runs. -/

namespace AutoAgents.RepoCache

open Base (System)

variable {φ : Type} {h : Host φ} {disk : Disk} {entries : Fields φ}

/-! ### The paths of the call -/

theorem mem_put {fields : Fields φ} {key : Text} {v : Doc φ} {x : Text × Doc φ} :
    x ∈ put fields key v ↔ x ∈ fields ∧ x.1 ≠ key ∨ x = (key, v) := by
  simp [put]

theorem miss_of_parse {path : Text} {summary : FileSummary φ} (hparse : h.parseFile path (disk path) = .ok summary) :
    ∃ entry, h.miss disk path = .ok (summary, entry) := by
  unfold Host.miss
  cases hcontent : h.contentHash (disk path) with
  | some content => exact ⟨entryDoc content summary, by simp [hparse, Bind.bind, Except.bind, pure, Except.pure]⟩
  | none =>
      cases hnode : disk path with
      | malformed =>
          rw [hnode] at hparse
          cases hparse
      | file _ | absent _ | unreadable _ | refused _ =>
          rw [hnode] at hcontent
          cases hcontent

/-- A path whose served summary is the present one. -/
structure Answered (h : Host φ) (disk : Disk) (entries : Fields φ) (path : Text) (summary : FileSummary φ) : Prop where
  parse : h.parseFile path (disk path) = .ok summary
  hit : ∀ served entry, h.hit disk entries path = some (served, entry) → served = summary

theorem visit_ok {path : Text} {summary : FileSummary φ} (p : Progress φ) (hpath : Answered h disk entries path summary) :
    ∃ entry, h.entryAt disk entries path = some entry ∧
      h.visit disk entries p path =
        .ok ⟨p.summaries ++ [summary], put p.next path entry, p.dirty || (h.hit disk entries path).isNone⟩ := by
  obtain ⟨made, hmiss⟩ := miss_of_parse hpath.parse
  unfold Host.visit Host.entryAt
  cases hhit : h.hit disk entries path with
  | some found =>
      obtain ⟨served, entry⟩ := found
      obtain rfl := hpath.hit served entry hhit
      exact ⟨entry, rfl, by simp⟩
  | none => exact ⟨made, by simp [hmiss], by simp [hmiss, Bind.bind, Except.bind, pure, Except.pure]⟩

/-- After some paths: the next entries are theirs, and it is noted whether one of them was not served. -/
structure Visited (h : Host φ) (disk : Disk) (entries : Fields φ) (done : List Text) (p : Progress φ) : Prop where
  keys : ∀ path, path ∈ p.next.map Prod.fst ↔ path ∈ done
  next : ∀ x ∈ p.next, h.entryAt disk entries x.1 = some x.2
  dirty : p.dirty = true ↔ ∃ path ∈ done, h.hit disk entries path = none

theorem Visited.start : Visited h disk entries [] ({ } : Progress φ) where
  keys := by simp
  next := by simp
  dirty := by simp

theorem Visited.put {done : List Text} {p : Progress φ} (hp : Visited h disk entries done p) {path : Text} {entry : Doc φ}
    (hentry : h.entryAt disk entries path = some entry) (summaries : List (FileSummary φ)) :
    Visited h disk entries (done ++ [path])
      ⟨summaries, put p.next path entry, p.dirty || (h.hit disk entries path).isNone⟩ where
  keys := by
    intro key
    have hkey := hp.keys key
    simp only [List.mem_map, mem_put, List.mem_append, List.mem_singleton] at hkey ⊢
    constructor
    · rintro ⟨x, ⟨hx, -⟩ | rfl, rfl⟩
      · exact Or.inl (hkey.mp ⟨x, hx, rfl⟩)
      · exact Or.inr rfl
    · intro hmem
      by_cases hsame : key = path
      · exact ⟨(path, entry), Or.inr rfl, hsame.symm⟩
      · obtain ⟨x, hx, rfl⟩ := hkey.mpr (hmem.resolve_right hsame)
        exact ⟨x, Or.inl ⟨hx, hsame⟩, rfl⟩
  next := by
    intro x hx
    rcases mem_put.mp hx with ⟨hold, -⟩ | rfl
    · exact hp.next x hold
    · exact hentry
  dirty := by
    simp only [Bool.or_eq_true, hp.dirty, Option.isNone_iff_eq_none, List.mem_append, List.mem_singleton]
    constructor
    · rintro (⟨old, hold, hnone⟩ | hnone)
      · exact ⟨old, Or.inl hold, hnone⟩
      · exact ⟨path, Or.inr rfl, hnone⟩
    · rintro ⟨old, hold | rfl, hnone⟩
      · exact Or.inl ⟨old, hold, hnone⟩
      · exact Or.inr hnone

/-- The first loop returns the present summaries, in the order of the paths. -/
theorem visits_ok {paths : List Text} : ∀ {done : List Text} {p : Progress φ}, Visited h disk entries done p →
    (∀ path ∈ paths, ∃ summary, Answered h disk entries path summary) →
    ∃ summaries p', paths.foldlM (h.visit disk entries) p = .ok p' ∧ Visited h disk entries (done ++ paths) p' ∧
      p'.summaries = p.summaries ++ summaries ∧
      List.Forall₂ (fun path summary => h.parseFile path (disk path) = .ok summary) paths summaries := by
  induction paths with
  | nil =>
      intro done p hp _
      exact ⟨[], p, rfl, by simpa using hp, by simp, List.Forall₂.nil⟩
  | cons path rest ih =>
      intro done p hp hpaths
      obtain ⟨summary, hpath⟩ := hpaths path List.mem_cons_self
      obtain ⟨entry, hentry, hvisit⟩ := visit_ok p hpath
      have hput := hp.put hentry (p.summaries ++ [summary])
      obtain ⟨summaries, p', hfold, hp', hsummaries, hall⟩ :=
        ih hput fun other hother => hpaths other (List.mem_cons_of_mem path hother)
      refine ⟨summary :: summaries, p', ?_, ?_, ?_, List.Forall₂.cons hpath.parse hall⟩
      · rw [List.foldlM_cons, hvisit]
        exact hfold
      · simpa using hp'
      · simpa using hsummaries

/-! ### The other entries -/

/-- After some entries of the cache: those of the paths stay, one whose file is there is carried over, and it is noted
whether one has lost its file. -/
structure Carried (disk : Disk) (visited : Progress φ) (seen : Fields φ) (p : Progress φ) : Prop where
  summaries : p.summaries = visited.summaries
  stays : ∀ x ∈ visited.next, x ∈ p.next
  next : ∀ x ∈ p.next, x ∈ visited.next ∨
    x ∈ seen ∧ x.1 ∉ visited.next.map Prod.fst ∧ (disk x.1).present = true
  dirty : p.dirty = true → visited.dirty = true ∨
    ∃ x ∈ seen, x.1 ∉ visited.next.map Prod.fst ∧ (disk x.1).gone = true
  clean : p.dirty = false → visited.dirty = false ∧ ∀ x ∈ seen, x.1 ∈ p.next.map Prod.fst

theorem Carried.start (disk : Disk) (visited : Progress φ) : Carried disk visited [] visited where
  summaries := rfl
  stays := fun _ hx => hx
  next := fun _ hx => Or.inl hx
  dirty := Or.inl
  clean := fun hclean => ⟨hclean, by simp⟩

/-- One entry, unless the lookup of its path is refused. -/
theorem Carried.keep {visited p : Progress φ} {seen : Fields φ} (hp : Carried disk visited seen p) (x : Text × Doc φ)
    (hx : x.1 ∉ visited.next.map Prod.fst → (disk x.1).present = true ∨ (disk x.1).gone = true) :
    ∃ p', keepEntry disk p x = .ok p' ∧ Carried disk visited (seen ++ [x]) p' := by
  have hnext := fun y hy => (hp.next y hy).imp_right fun hseen => And.intro (List.mem_append_left [x] hseen.1) hseen.2
  have hdirty := fun hd => (hp.dirty hd).imp_right fun hseen =>
    Exists.imp (fun y hy => And.intro (List.mem_append_left [x] hy.1) hy.2) hseen
  by_cases hkey : x.1 ∈ p.next.map Prod.fst
  · refine ⟨p, by rw [keepEntry, if_pos hkey], hp.summaries, hp.stays, hnext, hdirty, fun hclean => ?_⟩
    obtain ⟨hvisited, hseen⟩ := hp.clean hclean
    refine ⟨hvisited, fun y hy => ?_⟩
    rcases List.mem_append.mp hy with hold | hnew
    · exact hseen y hold
    · rw [List.mem_singleton.mp hnew]
      exact hkey
  · have hother : x.1 ∉ visited.next.map Prod.fst := by
      intro hmem
      obtain ⟨y, hy, hsame⟩ := List.mem_map.mp hmem
      exact hkey (List.mem_map.mpr ⟨y, hp.stays y hy, hsame⟩)
    have hlast : x ∈ seen ++ [x] := List.mem_append_right seen List.mem_cons_self
    rw [keepEntry, if_neg hkey]
    have hpresent : (disk x.1).present = true → Carried disk visited (seen ++ [x]) { p with next := p.next ++ [x] } := by
      intro hthere
      refine ⟨hp.summaries, fun y hy => List.mem_append_left [x] (hp.stays y hy), fun y hy => ?_, hdirty, ?_⟩
      · rcases List.mem_append.mp hy with hold | hnew
        · exact hnext y hold
        · rw [List.mem_singleton.mp hnew]
          exact Or.inr ⟨hlast, hother, hthere⟩
      · intro hclean
        obtain ⟨hvisited, hseen⟩ := hp.clean hclean
        refine ⟨hvisited, fun y hy => ?_⟩
        rw [List.map_append]
        rcases List.mem_append.mp hy with hold | hnew
        · exact List.mem_append_left _ (hseen y hold)
        · exact List.mem_append_right _ (List.mem_map_of_mem hnew)
    have hgone : (disk x.1).gone = true → Carried disk visited (seen ++ [x]) { p with dirty := true } := by
      intro hlost
      refine ⟨hp.summaries, hp.stays, hnext, fun _ => Or.inr ⟨x, hlast, hother, hlost⟩, ?_⟩
      intro hclean
      cases hclean
    cases hnode : disk x.1 with
    | file _ => exact ⟨_, rfl, hpresent (by rw [hnode]; rfl)⟩
    | unreadable _ => exact ⟨_, rfl, hpresent (by rw [hnode]; rfl)⟩
    | absent _ => exact ⟨_, rfl, hgone (by rw [hnode]; rfl)⟩
    | malformed => exact ⟨_, rfl, hgone (by rw [hnode]; rfl)⟩
    | refused _ =>
        have hrefused := hx hother
        rw [hnode] at hrefused
        rcases hrefused with hfalse | hfalse <;> cases hfalse

theorem Carried.all {visited : Progress φ} {rest : Fields φ} : ∀ {seen : Fields φ} {p : Progress φ},
    Carried disk visited seen p →
    (∀ x ∈ rest, x.1 ∉ visited.next.map Prod.fst → (disk x.1).present = true ∨ (disk x.1).gone = true) →
    ∃ p', rest.foldlM (keepEntry disk) p = .ok p' ∧ Carried disk visited (seen ++ rest) p' := by
  induction rest with
  | nil =>
      intro seen p hp _
      exact ⟨p, rfl, by simpa using hp⟩
  | cons x rest ih =>
      intro seen p hp hrest
      obtain ⟨p₁, hkeep, hp₁⟩ := hp.keep x (hrest x List.mem_cons_self)
      obtain ⟨p₂, hfold, hp₂⟩ := ih hp₁ fun y hy => hrest y (List.mem_cons_of_mem x hy)
      refine ⟨p₂, ?_, by simpa using hp₂⟩
      rw [List.foldlM_cons, hkeep]
      exact hfold

/-! ### The file -/

theorem encodableFields_iff {fields : Fields φ} :
    encodableFields fields = true ↔ ∀ x ∈ fields, encodableText x.1 = true ∧ x.2.encodable = true := by
  induction fields with
  | nil => simp [encodableFields]
  | cons x rest ih => simp [encodableFields, ih]

theorem write_ok {writable : Bool} {cache : CacheFile φ} (hwrites : writable = true → ∀ x ∈ entries, Writes h x.1 x.2) :
    ∃ cache', h.write writable cache entries = .ok cache' := by
  unfold Host.write
  cases writable with
  | false => exact ⟨cache, rfl⟩
  | true =>
      have hall := hwrites rfl
      have htexts : encodableFields entries = true := encodableFields_iff.mpr fun x hx => ⟨(hall x hx).key, (hall x hx).texts⟩
      have hpayload : (payload entries).encodable = true := by
        have hversion : encodableText (literal "version") = true := by decide
        have hentries : encodableText (literal "entries") = true := by decide
        simp [payload, Doc.encodable, encodableFields, htexts, hversion, hentries]
      exact ⟨_, by rw [if_neg (by simp), if_pos ⟨hpayload, fun x hx => (hall x hx).depth⟩]⟩

theorem lookup_of_hit {path : Text} (hhit : h.hit disk entries path ≠ none) : ∃ entry, (path, entry) ∈ entries := by
  obtain ⟨⟨_, entry⟩, hsome⟩ := Option.ne_none_iff_exists'.mp hhit
  obtain ⟨-, -, hlookup, -⟩ := hit_some hsome
  obtain ⟨before, after, rfl, -⟩ := List.lookup_eq_some_iff.mp hlookup
  exact ⟨entry, List.mem_append_right before List.mem_cons_self⟩

/-- A cache file is rewritten only where a path is not served or an entry has lost its file. -/
theorem Carried.rewritten {visited p : Progress φ} {paths : List Text} (hvisited : Visited h disk entries paths visited)
    (hp : Carried disk visited entries p) (hrewrite : p.dirty = true ∨ sameKeys p.next entries = false) :
    Rewritten h disk entries paths := by
  cases hdirty : p.dirty with
  | true =>
      rcases hp.dirty hdirty with hmissed | ⟨x, hx, hother, hlost⟩
      · exact Or.inl (hvisited.dirty.mp hmissed)
      · exact Or.inr ⟨x, hx, fun hmem => hother ((hvisited.keys x.1).mpr hmem), hlost⟩
  | false =>
      obtain ⟨hclean, hseen⟩ := hp.clean hdirty
      have hserved : ∀ path ∈ paths, h.hit disk entries path ≠ none := by
        intro path hpath hnone
        have hmissed := hvisited.dirty.mpr ⟨path, hpath, hnone⟩
        rw [hclean] at hmissed
        cases hmissed
      have hleft : ∀ x ∈ p.next, ∃ y ∈ entries, y.1 = x.1 := by
        intro x hx
        rcases hp.next x hx with hold | ⟨hnew, -⟩
        · have hpath := (hvisited.keys x.1).mp (List.mem_map_of_mem hold)
          obtain ⟨entry, hmem⟩ := lookup_of_hit (hserved x.1 hpath)
          exact ⟨_, hmem, rfl⟩
        · exact ⟨x, hnew, rfl⟩
      have hright : ∀ x ∈ entries, ∃ y ∈ p.next, y.1 = x.1 := fun x hx => List.mem_map.mp (hseen x hx)
      have hsame : sameKeys p.next entries = true := by
        simp only [sameKeys, Bool.and_eq_true, List.all_eq_true, List.any_eq_true, beq_iff_eq]
        exact ⟨hleft, hright⟩
      rcases hrewrite with hbad | hbad
      · rw [hdirty] at hbad
        cases hbad
      · rw [hsame] at hbad
        cases hbad

/-! ### The call -/

/-- A call returns, for each of its paths, what the parser makes of the present file. -/
def Answers (h : Host φ) (disk : Disk) (paths : List Text) (result : Except Raised (List (FileSummary φ))) : Prop :=
  ∃ summaries, result = .ok summaries ∧
    List.Forall₂ (fun path summary => h.parseFile path (disk path) = .ok summary) paths summaries

theorem getOrBuild_answers (hdigests : Digests h) {s : State φ} {writable : Bool} {paths : List Text}
    (hmade : ∀ x ∈ s.made, Made h x.1 x.2) (hprovided : Provided h s paths)
    (hsound : Sound h s.disk s.cache writable paths) :
    Answers h s.disk paths ((h.getOrBuild s.disk s.cache writable paths).map Prod.fst) := by
  have hanswered : ∀ path ∈ paths, ∃ summary, Answered h s.disk (h.stored s.cache) path summary := by
    intro path hpath
    obtain ⟨summary, hparse⟩ := hsound.parses path hpath
    exact ⟨summary, hparse, fun _ _ hhit => hit_current hdigests hmade hprovided hsound hpath hparse hhit⟩
  obtain ⟨summaries, visited, hvisit, hvisited, hsummaries, hall⟩ := visits_ok Visited.start hanswered
  rw [List.nil_append] at hvisited
  obtain ⟨kept, hkeep, hkept⟩ := (Carried.start s.disk visited).all fun x hx hother =>
    hsound.lookups x hx fun hmem => hother ((hvisited.keys x.1).mpr hmem)
  rw [List.nil_append] at hkept
  have hreturned : kept.summaries = summaries := by
    rw [hkept.summaries, hsummaries]
    rfl
  refine ⟨summaries, ?_, hall⟩
  simp only [Host.getOrBuild, entries_stored hsound.read, hvisit, hkeep, Bind.bind, Except.bind]
  split
  · next hrewrite =>
      have hrewritten := hkept.rewritten hvisited hrewrite
      have hwrites : writable = true → ∀ x ∈ kept.next, Writes h x.1 x.2 := by
        intro hwritable x hx
        obtain ⟨hpaths, hothers⟩ := hsound.writes hwritable hrewritten
        rcases hkept.next x hx with hold | ⟨hnew, hother, hthere⟩
        · exact hpaths x.1 ((hvisited.keys x.1).mp (List.mem_map_of_mem hold)) x.2 (hvisited.next x hold)
        · exact hothers x hnew (fun hmem => hother ((hvisited.keys x.1).mpr hmem)) hthere
      obtain ⟨cache', hwrite⟩ : ∃ cache', h.write writable s.cache kept.next = .ok cache' := write_ok hwrites
      simp [hwrite, hreturned, pure, Except.pure, Except.map]
  · simp [hreturned, pure, Except.pure, Except.map]

/-- What the claim asks of the calls of a run, besides the condition. -/
def EntriesMade (h : Host φ) (s : State φ) (label : Label φ) (_ : State φ) : Prop :=
  ∀ paths writable result, label = .call paths writable result → Provided h s paths

def CallsSound (h : Host φ) (s : State φ) (label : Label φ) (_ : State φ) : Prop :=
  ∀ paths writable result, label = .call paths writable result → Sound h s.disk s.cache writable paths

/-- In every run of edits, replacements of the cache file and calls, where the calls are sound and the entries that fit
were made by calls, every call returns what the parser makes of the present files. -/
theorem transparent (hdigests : Digests h) {trace : List (Base.Taken (State φ) (Label φ))} {s : State φ}
    (hrun : h.system.Run trace s) (hmade : System.Meets (EntriesMade h) trace)
    (hsound : System.Meets (CallsSound h) trace) :
    ∀ e ∈ trace, ∀ paths writable result, e.label = .call paths writable result →
      Answers h e.before.disk paths result := by
  intro e he paths writable result hlabel
  obtain ⟨⟨earlier, hbefore⟩, hstep⟩ := hrun.taken he
  have hrecorded := made_of_run hbefore
  rw [hlabel] at hstep
  obtain ⟨rfl, -⟩ := hstep
  exact getOrBuild_answers hdigests hrecorded (hmade e he _ _ _ hlabel) (hsound e he _ _ _ hlabel)

/-! ### One file, with and without half a pair of surrogates -/

def bytes (s : String) : List UInt8 := (literal s).map UInt8.ofNat

def plainSource : String := "def f():\n    pass\n"

def surrogateSource : String := "def f():\n    \"\\ud800\"\n"

def functionNode (docstring : Text) : Definition := ⟨literal "f", literal "def f()", docstring, 1⟩

/-- A host with both files, whose digest is the file itself. -/
def plainHost : Host Unit where
  sha256 data := 48 :: data.map UInt8.toNat
  decode data := data.map UInt8.toNat
  parse text := .tree [.functionDef (functionNode (if text = literal surrogateSource then [0xD800] else []))]
  str _ := []
  int _ := none
  isInt _ _ := false
  tooDeep _ := false

theorem plainHost_digests : Digests plainHost where
  injective := by
    intro a b hsame
    exact List.map_injective_iff.mpr (fun _ _ => UInt8.toNat_inj.mp) (List.cons.inj hsame).2
  missing := by
    intro data hsame
    have hhead := (List.cons.inj (hsame.trans (show literal "missing" = 109 :: literal "issing" by decide))).1
    exact absurd hhead (by decide)

def oneFile (source : String) : Disk := fun path => if path = literal "f.py" then .file (bytes source) else .absent []

def beginning (source : String) : State Unit := ⟨oneFile source, .unread, []⟩

/-- The first call for the file. -/
def firstCall (source : String) (result : Except Raised (List (FileSummary Unit))) :
    Base.Taken (State Unit) (Label Unit) :=
  ⟨beginning source, .call [literal "f.py"] true result, plainHost.called (beginning source) [literal "f.py"] true⟩

theorem firstCall_run {source : String} {result : Except Raised (List (FileSummary Unit))}
    (hresult : result = (plainHost.getOrBuild (oneFile source) .unread true [literal "f.py"]).map Prod.fst) :
    plainHost.system.Run [firstCall source result] (plainHost.called (beginning source) [literal "f.py"] true) :=
  System.Run.step (System.Run.start rfl) ⟨hresult, rfl⟩

theorem firstCall_made (source : String) (result : Except Raised (List (FileSummary Unit))) :
    System.Meets (EntriesMade plainHost) [firstCall source result] := by
  intro e he paths writable result' _ path _ content entry _ hlookup
  obtain rfl := List.mem_singleton.mp he
  cases hlookup

def plainSummary : FileSummary Unit :=
  { path := literal "f.py", sloc := 3, symbols := [.mk (literal "function") (literal "f") (literal "def f()") [] 1 []] }

theorem plainFile_sound : Sound plainHost (oneFile plainSource) .unread true [literal "f.py"] where
  read := by
    intro hdeep
    cases hdeep
  parses := by
    intro path hpath
    obtain rfl := List.mem_singleton.mp hpath
    exact ⟨plainSummary, rfl⟩
  current := by
    intro path _ error _ error' hlookup
    cases hlookup
  lookups := by
    intro x hx
    cases hx
  writes := by
    refine fun _ _ => ⟨fun path hpath entry hentry => ?_, fun x hx => ?_⟩
    · obtain rfl := List.mem_singleton.mp hpath
      obtain rfl := Option.some.inj hentry
      exact ⟨by decide, by decide, rfl⟩
    · cases hx

theorem transparent_once : Answers plainHost (oneFile plainSource) [literal "f.py"] (.ok [plainSummary]) := by
  have hrun : plainHost.system.Run [firstCall plainSource (.ok [plainSummary])] _ := firstCall_run rfl
  refine transparent plainHost_digests hrun (firstCall_made _ _) ?_ _ List.mem_cons_self [literal "f.py"] true _ rfl
  intro e he paths writable result hlabel
  obtain rfl := List.mem_singleton.mp he
  obtain ⟨rfl, rfl, rfl⟩ := Label.call.inj hlabel
  exact plainFile_sound

theorem docstring_raises :
    (∃ summary, plainHost.parseFile (literal "f.py") (.file (bytes surrogateSource)) = .ok summary) ∧
      ¬ ∀ trace s, plainHost.system.Run trace s → System.Meets (EntriesMade plainHost) trace →
        ∀ e ∈ trace, ∀ paths writable result, e.label = .call paths writable result →
          Answers plainHost e.before.disk paths result := by
  refine ⟨⟨_, rfl⟩, fun hall => ?_⟩
  have hrun : plainHost.system.Run [firstCall surrogateSource (.error .write)] _ := firstCall_run rfl
  obtain ⟨_, hok, -⟩ := hall _ _ hrun (firstCall_made _ _) _ List.mem_cons_self [literal "f.py"] true _ rfl
  cases hok

end AutoAgents.RepoCache
