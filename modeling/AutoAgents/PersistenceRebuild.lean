import AutoAgents.PersistenceAttempts

/-! What a rebuild removes. Every path lies strictly inside the project as it resolves, and no component of it is a link.
The ignore patterns are asked without the index, so that a tracked file may lie at the path or below it. -/

namespace AutoAgents.Persistence

open Base (FloatText Leaves)
open Proofs (Path Node Machine Fault)

/-! ### Resolved paths -/

/-- The components of a path are names. -/
def Normal (path : Path) : Prop := ∀ part ∈ path, part ≠ "" ∧ part ≠ "." ∧ part ≠ ".."

theorem Normal.dropLast {path : Path} (h : Normal path) : Normal path.dropLast :=
  fun part hpart => h part (List.dropLast_subset path hpart)

theorem Normal.snoc {path : Path} {part : String} (h : Normal path) (hpart : part ≠ "" ∧ part ≠ "." ∧ part ≠ "..") :
    Normal (path ++ [part]) := by
  intro other hother
  rcases List.mem_append.mp hother with hold | hnew
  · exact h other hold
  · rwa [List.mem_singleton.mp hnew]

theorem realFrom_normal {m : Machine} {active : List Path} {follow : List Path → Path → List String → Path × Bool}
    (hfollow : ∀ active place parts reached, Normal place → follow active place parts = (reached, true) → Normal reached)
    {parts : List String} {place reached : Path} (hplace : Normal place)
    (h : realFrom m active follow place parts = (reached, true)) : Normal reached := by
  induction parts generalizing place with
  | nil =>
      rw [realFrom] at h
      cases h
      exact hplace
  | cons part rest ih =>
      rw [realFrom] at h
      split at h
      · exact ih hplace h
      next hdot =>
      split at h
      · exact ih hplace.dropLast h
      next hup =>
      split at h
      · next target hlink =>
          split at h
          · simp at h
          split at h
          · next link hreached =>
              refine ih (hfollow _ _ _ _ ?_ hreached) h
              split
              · exact fun _ hmem => absurd hmem List.not_mem_nil
              · exact hplace
          · simp at h
      · exact ih (hplace.snoc ⟨fun he => hdot (.inl he), fun he => hdot (.inr he), hup⟩) h

theorem resolvePath_normal {m : Machine} {path place : Path} (h : resolvePath m path = some place) : Normal place := by
  suffices hwithin : ∀ links active from' parts reached, Normal from' →
      realWithin m links active from' parts = (reached, true) → Normal reached by
    unfold resolvePath at h
    split at h
    · next reached hreached =>
        cases h
        exact hwithin _ _ _ _ _ (fun _ hmem => absurd hmem List.not_mem_nil) hreached
    · cases h
  intro links
  induction links with
  | zero =>
      intro active from' parts reached _ hreached
      simp [realWithin] at hreached
  | succ links ih =>
      intro active from' parts reached hfrom hreached
      exact realFrom_normal (fun active place parts reached hnormal hstep => ih active place parts reached hnormal hstep) hfrom
        hreached

/-- A path of names without links leads to itself. -/
theorem walkFrom_plain {m : Machine} {follow : Bool} {restart : Path → List String → Except Fault Path} {place reached : Path}
    {parts : List String} (hnormal : Normal parts) (hplain : Plain m (place ++ parts))
    (h : m.walkFrom follow restart place parts = .ok reached) : reached = place ++ parts := by
  induction parts generalizing place with
  | nil =>
      rw [Machine.walkFrom] at h
      exact (Except.ok.inj h).symm.trans (List.append_nil place).symm
  | cons part rest ih =>
      obtain ⟨hempty, hdot, hup⟩ := hnormal part List.mem_cons_self
      rw [Machine.walkFrom, if_neg (by simp [hempty, hdot]), if_neg hup] at h
      have happend : place ++ part :: rest = (place ++ [part]) ++ rest := by rw [List.append_assoc, List.singleton_append]
      have hrest : Normal rest := fun other hother => hnormal other (List.mem_cons_of_mem _ hother)
      split at h
      · rw [happend]
        exact ih hrest (happend ▸ hplain) h
      · next target hlink =>
          exact absurd hlink (hplain _ (happend ▸ List.prefix_append _ rest) target)
      · split at h
        · next hlast =>
            cases h
            rw [hlast]
        · cases h
      · cases h
      · cases h

/-- Without links it does not matter whether links are followed. -/
theorem walkFrom_follow {m : Machine} {follow follow' : Bool} {restart restart' : Path → List String → Except Fault Path}
    {place : Path} {parts : List String} (hnormal : Normal parts) (hplain : Plain m (place ++ parts)) :
    m.walkFrom follow restart place parts = m.walkFrom follow' restart' place parts := by
  induction parts generalizing place with
  | nil => rw [Machine.walkFrom, Machine.walkFrom]
  | cons part rest ih =>
      obtain ⟨hempty, hdot, hup⟩ := hnormal part List.mem_cons_self
      have happend : place ++ part :: rest = (place ++ [part]) ++ rest := by rw [List.append_assoc, List.singleton_append]
      have hrest : Normal rest := fun other hother => hnormal other (List.mem_cons_of_mem _ hother)
      have hnames : ¬ (part = "" ∨ part = ".") := by simp [hempty, hdot]
      rw [Machine.walkFrom, Machine.walkFrom, if_neg hnames, if_neg hup, if_neg hnames, if_neg hup]
      cases hnode : m.node (place ++ [part]) with
      | none => rfl
      | some node =>
          cases node with
          | directory => exact ih hrest (happend ▸ hplain)
          | symlink target => exact absurd hnode (hplain _ (happend ▸ List.prefix_append _ rest) target)
          | file data mode => rfl
          | denied errno => rfl

theorem look_follow {m : Machine} {path : Path} (hnormal : Normal path) (hplain : Plain m path) :
    m.look true path = m.look false path := by
  have hfrom : Plain m ([] ++ path) := hplain
  have hsame : m.resolve true path = m.resolve false path := walkFrom_follow hnormal hfrom
  unfold Machine.look
  rw [hsame]

theorem resolve_plain {m : Machine} {follow : Bool} {path reached : Path} (hnormal : Normal path) (hplain : Plain m path)
    (h : m.resolve follow path = .ok reached) : reached = path := by
  have hfrom : Plain m ([] ++ path) := hplain
  exact walkFrom_plain hnormal hfrom h

/-- What is seen at a path of names without links is what stands there. -/
theorem look_plain {m : Machine} {follow : Bool} {path : Path} {node : Node} (hnormal : Normal path) (hplain : Plain m path)
    (h : m.look follow path = .ok node) : m.node path = some node := by
  obtain ⟨place, hplace, hnode⟩ := Base.bind_ok.mp h
  rw [resolve_plain hnormal hplain hplace] at hnode
  split at hnode
  · next found hfound =>
      rw [hfound]
      exact congrArg some (Except.ok.inj hnode)
  · cases hnode

theorem isSymlink_plain {m : Machine} {path : Path} (hnormal : Normal path) (hplain : Plain m path) :
    isSymlink m path ≠ .ok true := by
  unfold isSymlink
  split
  · next target hlook => exact absurd (look_plain hnormal hplain hlook) (hplain path (List.prefix_refl path) target)
  all_goals simp

/-! ### The configured paths -/

/-- What is known of a path that is to be removed, from the files it was derived on. -/
structure Disposable (ignored : Ignored) (w : World) (projectRoot path : Path) : Prop where
  inside : ∃ root, resolvePath w.files projectRoot = some root ∧ root <+: path ∧ path ≠ root ∧
    ignored w root (path.drop root.length) = true
  plain : Plain w.files path
  normal : Normal path

variable {ignored : Ignored} {environ : String → Option String} {w : World} {projectRoot : Path} {target : Target}

theorem resolve_ok {m : Machine} {path place : Path} : resolve m path = .ok place ↔ resolvePath m path = some place := by
  unfold resolve
  split
  · next reached h => rw [h, Except.ok.injEq, Option.some.injEq]
  · next h => rw [h]; simp

theorem validated_disposable {root candidate path : Path} (hroot : resolvePath w.files projectRoot = some root)
    (h : validatedDestructivePath ignored w root candidate = .ok path) : Disposable ignored w projectRoot path := by
  unfold validatedDestructivePath at h
  split at h
  · simp [refused] at h
  obtain ⟨linked, -, h⟩ := Base.bind_ok.mp h
  split at h
  · simp [refused] at h
  obtain ⟨resolved, hresolved, h⟩ := Base.bind_ok.mp h
  split at h
  · simp [refused] at h
  next hinside =>
  split at h
  · simp [refused] at h
  next hstrict =>
  split at h
  · simp [refused] at h
  next hignored =>
  obtain rfl := Base.pure_ok.mp h
  have hplace := resolve_ok.mp hresolved
  rw [Bool.not_eq_false] at hinside hignored
  refine ⟨⟨root, hroot, List.isPrefixOf_iff_prefix.mp hinside, ?_, hignored⟩, resolvePath_plain hplace, resolvePath_normal hplace⟩
  rintro rfl
  exact hstrict (List.drop_length)

theorem destructive_disposable {paths : List Path} (h : destructiveTargetPaths ignored environ w projectRoot target = .ok paths) :
    ∀ path ∈ paths, Disposable ignored w projectRoot path := by
  have hmany : ∀ {root : Path} {texts : List String} {found : List Path} {candidate : String → Path},
      resolvePath w.files projectRoot = some root →
      (texts.mapM fun text => validatedDestructivePath ignored w root (candidate text)) = .ok found →
      ∀ path ∈ found, Disposable ignored w projectRoot path := by
    intro root texts found candidate hroot hfound path hpath
    obtain ⟨text, -, htext⟩ := Base.mapM_mem hfound path hpath
    exact validated_disposable hroot htext
  unfold destructiveTargetPaths at h
  split at h
  · obtain ⟨root, hroot, h⟩ := Base.bind_ok.mp h
    have hroot := resolve_ok.mp hroot
    obtain ⟨raw, -, h⟩ := Base.bind_ok.mp h
    obtain ⟨first, hfirst, h⟩ := Base.bind_ok.mp h
    obtain ⟨beside, hbeside, h⟩ := Base.bind_ok.mp h
    obtain ⟨associated, hassociated, h⟩ := Base.bind_ok.mp h
    obtain rfl := Base.pure_ok.mp h
    intro path hpath
    rw [List.mem_reverse, List.mem_dedup, List.mem_reverse, List.mem_cons, List.mem_append] at hpath
    rcases hpath with rfl | hpath | hpath
    · exact validated_disposable hroot hfirst
    · exact hmany hroot hbeside path hpath
    · exact hmany hroot hassociated path hpath
  · obtain ⟨root, hroot, h⟩ := Base.bind_ok.mp h
    exact hmany (resolve_ok.mp hroot) h

/-! ### Removing -/

theorem lookup_filter_key {α β : Type} [BEq α] [LawfulBEq α] {entries : List (α × β)} {keep : α → Bool} {key : α} {value : β}
    (h : (entries.filter fun entry => keep entry.1).lookup key = some value) : entries.lookup key = some value := by
  induction entries with
  | nil => exact h
  | cons entry rest ih =>
      rw [List.filter_cons] at h
      by_cases hkey : key = entry.1
      · subst hkey
        split at h
        · rw [List.lookup_cons, beq_self_eq_true] at h ⊢
          exact h
        · next hdropped =>
            -- every entry of this name is dropped
            obtain ⟨before, after, hsplit, -⟩ := List.lookup_eq_some_iff.mp h
            have hmem : (entry.1, value) ∈ rest.filter fun entry => keep entry.1 := by simp [hsplit]
            exact absurd (List.mem_filter.mp hmem).2 hdropped
      · have hne : (key == entry.1) = false := by simpa using hkey
        rw [List.lookup_cons, hne]
        split at h
        · rw [List.lookup_cons, hne] at h
          exact ih h
        · exact ih h

theorem removeTree_node {stuck : Path → Bool} {path place : Path} {m : Machine} {node : Node}
    (h : (removeTree stuck path m).node place = some node) : m.node place = some node := by
  unfold Machine.node at h ⊢
  split at h
  · next hroot => rwa [if_pos hroot]
  · next hroot =>
      rw [if_neg hroot]
      exact @lookup_filter_key _ _ _ _ m.entries (fun place => !path.isPrefixOf place || stuck place) _ _ h

theorem Plain.removeTree {stuck : Path → Bool} {path place : Path} {m : Machine} (h : Plain m place) :
    Plain (removeTree stuck path m) place :=
  fun part hpart target hlink => h part hpart target (removeTree_node hlink)

/-- No tracked file lies at the path or below it. -/
def Untracked (w : World) (path : Path) : Prop := ∀ name ∈ w.tracked, ¬ path <+: name

variable {φ : Type} {host : Host φ} {root : Path} {s t : Site}

/-- What is known of a removed path: it was listed, strictly inside the project as it resolved then, and as it is removed no
component of it is a link. -/
structure Confined (host : Host φ) (root : Path) (log : List Event) (target : Target) (path : Path) (w : World) : Prop where
  inside : ∃ paths before place, .listed target paths before ∈ log ∧ path ∈ paths ∧
    resolvePath before.files root = some place ∧ place <+: path ∧ path ≠ place ∧
      host.ignored before place (path.drop place.length) = true
  plain : Plain w.files path

/-- The paths that a log shows as removed are confined, and they are those it came to and found. -/
structure Tidy (host : Host φ) (root : Path) (log : List Event) : Prop where
  removed : ∀ target path w, .removed target path w ∈ log →
    Confined host root log target path w ∧ .visited target path w ∈ log ∧ existsAt w.files path = .ok true
  visited : ∀ target path w, .visited target path w ∈ log → existsAt w.files path = .ok true → .removed target path w ∈ log

theorem Confined.append {log later : List Event} {path : Path} {w : World} (h : Confined host root log target path w) :
    Confined host root (log ++ later) target path w := by
  obtain ⟨paths, before, place, hlisted, hrest⟩ := h.inside
  exact ⟨⟨paths, before, place, List.mem_append_left later hlisted, hrest⟩, h.plain⟩

theorem Tidy.nil : Tidy host root [] :=
  ⟨fun _ _ _ h => absurd h List.not_mem_nil, fun _ _ _ h => absurd h List.not_mem_nil⟩

/-- An event that is neither a removal nor a visit. -/
def Event.aside : Event → Bool
  | .visited _ _ _ | .removed _ _ _ => false
  | _ => true

theorem Tidy.aside {log later : List Event} (h : Tidy host root log) (hlater : ∀ event ∈ later, event.aside = true) :
    Tidy host root (log ++ later) := by
  have hnone : ∀ {event : Event}, event.aside = false → event ∈ log ++ later → event ∈ log := by
    intro event haside hevent
    refine (List.mem_append.mp hevent).resolve_right fun hmem => ?_
    rw [hlater event hmem] at haside
    cases haside
  constructor
  · intro target path w hremoved
    obtain ⟨hconfined, hvisited, hexists⟩ := h.removed target path w (hnone rfl hremoved)
    exact ⟨hconfined.append, List.mem_append_left later hvisited, hexists⟩
  · intro target path w hvisited hexists
    exact List.mem_append_left later (h.visited target path w (hnone rfl hvisited) hexists)

/-- One path was come to, and nothing was found there. -/
theorem Tidy.missed {log : List Event} {path : Path} {w : World} (h : Tidy host root log)
    (hmissed : existsAt w.files path ≠ .ok true) : Tidy host root (log ++ [.visited target path w]) := by
  constructor
  · intro target' path' w' hremoved
    have hold : Event.removed target' path' w' ∈ log := by simpa using hremoved
    obtain ⟨hconfined, hvisited, hexists⟩ := h.removed target' path' w' hold
    exact ⟨hconfined.append, List.mem_append_left _ hvisited, hexists⟩
  · intro target' path' w' hvisited hexists
    rcases List.mem_append.mp hvisited with hold | hnew
    · exact List.mem_append_left _ (h.visited target' path' w' hold hexists)
    · cases List.mem_singleton.mp hnew
      exact absurd hexists hmissed

/-- One path was come to and removed. -/
theorem Tidy.gone {log : List Event} {path : Path} {w : World} (h : Tidy host root log)
    (hconfined : Confined host root log target path w) (hexists : existsAt w.files path = .ok true) :
    Tidy host root (log ++ [.visited target path w] ++ [.removed target path w]) := by
  constructor
  · intro target' path' w' hremoved
    rcases List.mem_append.mp hremoved with hbefore | hnew
    · have hold : Event.removed target' path' w' ∈ log := by simpa using hbefore
      obtain ⟨hconfined, hvisited, hexists⟩ := h.removed target' path' w' hold
      exact ⟨hconfined.append.append, by simp [hvisited], hexists⟩
    · cases List.mem_singleton.mp hnew
      exact ⟨hconfined.append.append, by simp, hexists⟩
  · intro target' path' w' hvisited hexists'
    have hmem : Event.visited target' path' w' ∈ log ∨ Event.visited target' path' w' = .visited target path w := by
      simpa using hvisited
    rcases hmem with hold | hnew
    · simp [h.visited target' path' w' hold hexists']
    · cases hnew
      simp

theorem existsAt_seen {m : Machine} {path : Path} (hnormal : Normal path) (hplain : Plain m path) (h : existsAt m path = .ok true) :
    isSymlink m path = .ok false := by
  have hstat : ∃ node, m.stat path = .ok node := by
    unfold existsAt Machine.exists? at h
    cases hstat : m.stat path with
    | ok node => exact ⟨node, rfl⟩
    | error fault =>
        rw [hstat] at h
        cases fault <;> cases h
  obtain ⟨node, hnode⟩ := hstat
  have hseen : m.lstat path = .ok node := (look_follow hnormal hplain).symm.trans hnode
  cases hlinked : isSymlink m path with
  | ok linked =>
      cases linked with
      | false => rfl
      | true => exact absurd hlinked (isSymlink_plain hnormal hplain)
  | error e =>
      unfold isSymlink at hlinked
      rw [hseen] at hlinked
      cases node <;> cases hlinked

/-- What removing one path leaves: a tidy log, and no link where there was none. -/
theorem removePath_tidy {path : Path} (htidy : Tidy host root s.log) (hnormal : Normal path)
    (hconfined : Confined host root s.log target path s.world) :
    Leaves (host.removePath target path) s
      (fun _ t => Tidy host root t.log ∧ (∃ later, t.log = s.log ++ later) ∧
        ∀ other, Plain s.world.files other → Plain t.world.files other)
      fun _ t => Tidy host root t.log := by
  unfold Host.removePath
  refine Leaves.bind (P := fun a m => s = a ∧ s = m) ⟨rfl, rfl⟩ ?_
  rintro _ _ ⟨rfl, rfl⟩
  refine Leaves.bind (P := fun _ m => m = { s with log := s.log ++ [.visited target path s.world] }) rfl ?_
  rintro _ _ rfl
  refine Leaves.bind_iff.mpr ?_
  cases hexists : existsAt s.world.files path with
  | error e => exact htidy.missed (by rw [hexists]; simp)
  | ok found =>
      refine Leaves.pure_iff.mpr ?_
      cases found with
      | false => exact ⟨htidy.missed (by rw [hexists]; simp), ⟨_, rfl⟩, fun _ h => h⟩
      | true =>
          rw [if_pos rfl, existsAt_seen hnormal hconfined.plain hexists]
          have hgone := htidy.gone hconfined hexists
          refine Leaves.bind_iff.mpr (Leaves.pure_iff.mpr ?_)
          rw [if_neg Bool.false_ne_true]
          refine Leaves.bind_iff.mpr ?_
          refine Leaves.bind (P := fun _ m => m.log = s.log ++ [.visited target path s.world] ++ [.removed target path s.world] ∧
            ∀ other, Plain s.world.files other → Plain m.world.files other) ⟨rfl, fun _ h => h.removeTree⟩ ?_
          intro _ m ⟨hlog, hplain⟩
          split
          · show Tidy host root m.log
            rwa [hlog]
          · exact ⟨by rwa [hlog], ⟨_, hlog.trans (List.append_assoc _ _ _)⟩, hplain⟩

theorem removePaths_tidy {here : Path} {paths listed : List Path} {before : World} (htidy : Tidy host root s.log)
    (hlisted : .listed target listed before ∈ s.log)
    (hpaths : ∀ path ∈ paths, path ∈ listed ∧ Disposable host.ignored before root path ∧ Plain s.world.files path) :
    Leaves (host.removePaths here target paths) s (fun _ t => Tidy host root t.log) fun _ t => Tidy host root t.log := by
  induction paths generalizing s with
  | nil => exact htidy
  | cons path rest ih =>
      obtain ⟨hmem, hdisposable, hplain⟩ := hpaths path List.mem_cons_self
      obtain ⟨place, hplace, hbelow, hstrict, hignored⟩ := hdisposable.inside
      have hconfined : Confined host root s.log target path s.world :=
        ⟨⟨listed, before, place, hlisted, hmem, hplace, hbelow, hstrict, hignored⟩, hplain⟩
      unfold Host.removePaths
      refine Leaves.bind (removePath_tidy htidy hdisposable.normal hconfined) ?_
      rintro _ m ⟨hm, ⟨later, hlater⟩, hkept⟩
      split
      · exact hm
      refine Leaves.bind_iff.mpr ((ih hm ?_ ?_).mono (fun _ _ h => h) fun _ _ h => h)
      · rw [hlater]
        exact List.mem_append_left later hlisted
      · intro other hother
        obtain ⟨hmem, hdisposable, hplain⟩ := hpaths other (List.mem_cons_of_mem _ hother)
        exact ⟨hmem, hdisposable, hkept other hplain⟩

theorem deleteTarget_tidy (htidy : Tidy host root s.log) :
    Leaves (host.deleteTarget root target) s (fun _ t => Tidy host root t.log) fun _ t => Tidy host root t.log := by
  unfold Host.deleteTarget
  refine Leaves.bind (P := fun _ m => m = { s with activeStep := "delete" }) rfl ?_
  rintro _ _ rfl
  refine Leaves.bind (P := fun a m => a = { s with activeStep := "delete" } ∧ m = { s with activeStep := "delete" }) ⟨rfl, rfl⟩ ?_
  rintro _ _ ⟨rfl, rfl⟩
  refine Leaves.bind_iff.mpr ?_
  cases hpaths : destructiveTargetPaths host.ignored host.environ s.world root target with
  | error e => exact htidy
  | ok paths =>
      refine Leaves.pure_iff.mpr ?_
      have hlisted : Tidy host root (s.log ++ [.listed target paths s.world]) := htidy.aside (by simp [Event.aside])
      refine Leaves.bind (P := fun _ m => m.log = s.log ++ [.listed target paths s.world] ∧ m.world = s.world) ⟨rfl, rfl⟩ ?_
      intro _ m ⟨hlog, hworld⟩
      split
      · refine Leaves.bind (P := fun _ u => u.log = s.log ++ [.listed target paths s.world] ∧ u.world = s.world) ⟨hlog, hworld⟩ ?_
        intro _ u ⟨hlog, hworld⟩
        have hlogged : .listed target paths s.world ∈ u.log := by simp [hlog]
        refine removePaths_tidy (by rwa [hlog]) hlogged ?_
        intro path hpath
        have hdisposable := destructive_disposable hpaths path hpath
        exact ⟨hpath, hdisposable, hworld ▸ hdisposable.plain⟩
      · show Tidy host root m.log
        rwa [hlog]

/-- The rule for what neither removes nor comes to a path. -/
theorem Since.tidy (h : Since (fun event => event.aside = true) s t) (htidy : Tidy host root s.log) : Tidy host root t.log := by
  obtain ⟨later, hlater, haside, -⟩ := h.log
  rw [hlater]
  exact htidy.aside haside

theorem tidy_of_since {α : Type} {act : Action α} {Q : α → Site → Prop} (htidy : Tidy host root s.log)
    (h : Leaves act s (fun a t => Since (fun event => event.aside = true) s t ∧ Q a t)
      fun _ t => Since (fun event => event.aside = true) s t) :
    Leaves act s (fun _ t => Tidy host root t.log) fun _ t => Tidy host root t.log :=
  h.mono (fun _ _ h => h.1.tidy htidy) fun _ _ h => h.tidy htidy

variable [FloatText φ] {change : Change} {config : Config}

theorem targetSteps_tidy (htidy : Tidy host root s.log) :
    Leaves (host.targetSteps root change target) s (fun _ t => Tidy host root t.log) fun _ t => Tidy host root t.log := by
  have hran : ∀ step argv outcome, (Event.ran target step argv outcome).aside = true := fun _ _ _ => rfl
  unfold Host.targetSteps
  refine Leaves.bind (tidy_of_since htidy (statusTarget_leaves hran)) ?_
  intro status m hm
  refine Leaves.bind (P := fun _ u => Tidy host root u.log) ?_ ?_
  · unfold Host.changeTarget
    split
    · unfold Host.rebuild
      refine Leaves.bind (tidy_of_since hm (resetTarget_leaves hran)) ?_
      intro reset u hu
      refine Leaves.bind (deleteTarget_tidy hu) ?_
      intro deleted v hv
      exact Leaves.bind (tidy_of_since hv (initTarget_leaves hran)) fun _ _ h => h
    split
    · exact tidy_of_since hm (initTarget_leaves hran)
    · exact tidy_of_since hm (migrate_leaves hran)
  intro changed u hu
  exact Leaves.bind (tidy_of_since hu (verifyTarget_leaves hran)) fun _ _ h => h

theorem runTargets_tidy {targets : List Target} (htidy : Tidy host root s.log) :
    Leaves (host.runTargets root change targets) s (fun _ t => Tidy host root t.log) fun _ t => Tidy host root t.log := by
  induction targets generalizing s with
  | nil => exact htidy
  | cons target rest ih =>
      unfold Host.runTargets
      refine Leaves.bind (P := fun _ m => Tidy host root m.log) ?_ fun _ m hm => ?_
      · unfold Host.runTarget
        split
        · exact htidy
        refine Leaves.tryCatch_iff.mpr ((targetSteps_tidy htidy).mono (fun _ _ h => h) fun e t ht => ?_)
        refine Leaves.bind_iff.mpr ?_
        cases e <;> exact ht
      · exact Leaves.bind (ih hm) fun _ _ h => h

/-- The log of an action is tidy, at either end, for the project as it resolves at the start. -/
theorem execute_tidy (world : World) :
    Leaves (host.executePersistenceAction change config) (.fresh world)
      (fun _ t => ∀ place, resolvePath world.files host.projectRoot = some place → Tidy host place t.log)
      fun _ t => ∀ place, resolvePath world.files host.projectRoot = some place → Tidy host place t.log := by
  unfold Host.executePersistenceAction
  refine Leaves.bind (P := fun a m => Site.fresh world = a ∧ Site.fresh world = m) ⟨rfl, rfl⟩ ?_
  rintro _ _ ⟨rfl, rfl⟩
  refine Leaves.bind_iff.mpr ?_
  cases hroot : resolve (Site.fresh world).world.files host.projectRoot with
  | error e => exact fun _ _ => .nil
  | ok root =>
      have hplace : ∀ place, resolvePath world.files host.projectRoot = some place → place = root :=
        fun place h => Option.some.inj (h.symm.trans (resolve_ok.mp hroot))
      refine Leaves.pure_iff.mpr ?_
      refine Leaves.mono (Q := fun _ t => Tidy host root t.log) (E := fun _ t => Tidy host root t.log) ?_
        (fun _ _ h place heq => hplace place heq ▸ h) fun _ _ h place heq => hplace place heq ▸ h
      split
      · exact Tidy.nil
      refine Leaves.bind (P := fun _ m => Tidy host root m.log) ?_ fun targets m hm => Leaves.bind (runTargets_tidy hm) fun _ _ h => h
      have hchecked : ∀ {t : Site}, Checked (.fresh world) t → Tidy host root t.log := by
        intro t ht
        obtain ⟨later, hlater, hall⟩ := ht.log
        rw [hlater]
        refine Tidy.nil.aside fun event hevent => ?_
        have hcollects := (hall event hevent).1
        cases event <;> first | rfl | cases hcollects
      refine Leaves.tryCatch_iff.mpr ((preflight_leaves root change config).mono (fun _ _ h => hchecked h.1) fun e t ht => ?_)
      cases e <;> exact hchecked ht

/-- Every path that was removed lay strictly inside the project, was reached through no link, and was neither a file that git
tracks nor a directory with one. -/
def Disposed (host : Host φ) (root : Path) (log : List Event) : Prop :=
  ∀ target path w, .removed target path w ∈ log → Confined host root log target path w ∧ Untracked w path

/-- Wherever the action came to a path that existed, git tracked no file at it or below it. -/
def Clear (log : List Event) : Prop :=
  ∀ target path w, .visited target path w ∈ log → existsAt w.files path = .ok true → Untracked w path

omit [FloatText φ] in
theorem Tidy.disposed_iff {log : List Event} (h : Tidy host root log) : Disposed host root log ↔ Clear log := by
  constructor
  · intro hdisposed target path w hvisited hexists
    exact (hdisposed target path w (h.visited target path w hvisited hexists)).2
  · intro hclear target path w hremoved
    obtain ⟨hconfined, hvisited, hexists⟩ := h.removed target path w hremoved
    exact ⟨hconfined, hclear target path w hvisited hexists⟩

/-- A rebuild of the file of the first version. -/
def cleanBreak : Change := { strategy := some "clean_break", targetIds := some ["db"] }

def fileTarget : Target := { localTarget with interfaceVersion := 1 }

/-- The file is tracked, although a pattern matches its name. -/
def trackedWorld : World := { projectWorld with tracked := [["project", "data.db"]] }

end AutoAgents.Persistence
