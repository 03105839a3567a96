import AutoAgents.EngineOutcomes
import AutoAgents.WorkspaceCandidate

/-! The tasks that start together. The scheduler compares their declared paths; a candidate may also hold
the declared outputs of its checks, which the scheduler does not compare. -/

namespace AutoAgents

open Base
open Git

/-! ### Names below two prefixes -/

theorem rstrip_prefix {s : Path} (h : rstrip s ≠ [""]) : rstrip s <+: s := by
  have hsuffix : (s.reverse.dropWhile (· == "")).reverse <+: s := by
    rw [← List.reverse_suffix, List.reverse_reverse]
    exact List.dropWhile_suffix _
  unfold rstrip at h ⊢
  split at h
  · exact absurd rfl h
  · exact hsuffix

theorem below_iff {s p : Path} : below s p = true ↔ rstrip s <+: p ∧ rstrip s ≠ p := by
  simp only [below, Bool.and_eq_true, List.isPrefixOf_iff_prefix, bne_iff_ne, ne_eq]

/-- The name of a product file is not absolute. -/
theorem head_of_product {p : Path} (h : productPath p = true) : ¬ [""] <+: p := by
  rintro ⟨rest, rfl⟩
  have hrelative := productPath_relative h
  simp [relative] at hrelative

/-- Two declared paths that take in one product name overlap, slashes at their ends or not. -/
theorem overlaps_of_scoped {a b p : Path} (hproduct : productPath p = true)
    (ha : p = a ∨ below a p = true) (hb : p = b ∨ below b p = true) : overlaps a b = true := by
  simp only [overlaps, Bool.or_eq_true, beq_iff_eq]
  rcases ha with rfl | ha
  · rcases hb with rfl | hb
    · exact Or.inl (Or.inl rfl)
    · exact Or.inl (Or.inr hb)
  rcases hb with rfl | hb
  · exact Or.inr ha
  obtain ⟨hap, -⟩ := below_iff.mp ha
  obtain ⟨hbp, -⟩ := below_iff.mp hb
  have hplain : ∀ s, rstrip s <+: p → rstrip s <+: s := fun s hs =>
    rstrip_prefix fun hempty => head_of_product hproduct (hempty ▸ hs)
  have haself := hplain a hap
  have hbself := hplain b hbp
  by_cases hsame : a = b
  · exact Or.inl (Or.inl hsame)
  by_cases hba : below b a = true
  · exact Or.inl (Or.inr hba)
  -- Of two prefixes of one name, the shorter one is the prefix of the other.
  refine Or.inr ?_
  rcases List.prefix_or_prefix_of_prefix hap hbp with hab | hab
  · refine below_iff.mpr ⟨hab.trans hbself, fun heq => ?_⟩
    rw [below_iff, not_and, not_not] at hba
    have hshort : rstrip b <+: rstrip a := heq ▸ hbself
    have hequal := hab.eq_of_length (Nat.le_antisymm hab.length_le hshort.length_le)
    exact hsame ((hba (hequal ▸ haself)).symm.trans (hequal.symm.trans heq))
  · rw [below_iff, not_and, not_not] at hba
    have heq := hba (hab.trans haself)
    refine below_iff.mpr ⟨?_, fun hcontra => ?_⟩
    · have hlong : rstrip a <+: rstrip b := heq ▸ haself
      exact hlong.trans hbself
    · have hlong : rstrip a <+: rstrip b := heq ▸ haself
      have hequal := hab.eq_of_length (Nat.le_antisymm hab.length_le hlong.length_le)
      exact hsame (heq.symm.trans (hequal.trans hcontra))

/-! ### The scopes of a batch -/

/-- No declared path of one task overlaps one of the other. -/
def Task.Apart (t u : Task) : Prop := ∀ a ∈ t.paths, ∀ b ∈ u.paths, overlaps a b = false

theorem overlaps_comm (a b : Path) : overlaps a b = overlaps b a := by
  have hbeq : (a == b) = (b == a) := by
    by_cases h : a = b
    · rw [h]
    · rw [beq_false_of_ne h, beq_false_of_ne (Ne.symm h)]
  simp only [overlaps, hbeq, Bool.or_assoc, Bool.or_comm (below a b)]

theorem Task.Apart.symm {t u : Task} (h : t.Apart u) : u.Apart t := fun a ha b hb => by
  rw [overlaps_comm]
  exact h b hb a ha

/-- The scheduler keeps the tasks it has chosen apart, and takes none without paths. -/
theorem chooseBatch_apart {available : Nat} {tasks batch : List Task} {paths : List Path}
    (hbatch : batch.Pairwise Task.Apart) (hpaths : ∀ t ∈ batch, t.paths ≠ [] ∧ ∀ a ∈ t.paths, a ∈ paths) :
    (chooseBatch available tasks batch paths).Pairwise Task.Apart ∧
      ∀ t ∈ chooseBatch available tasks batch paths, t.paths ≠ [] := by
  induction tasks generalizing batch paths with
  | nil => exact ⟨hbatch, fun t ht => (hpaths t ht).1⟩
  | cons task tasks ih =>
      unfold chooseBatch
      split
      · exact ih hbatch hpaths
      · next hclear =>
          rw [not_or, Bool.not_eq_true] at hclear
          have hnext : (batch ++ [task]).Pairwise Task.Apart := by
            refine List.pairwise_append.mpr ⟨hbatch, List.pairwise_singleton _ _, fun t ht u hu => ?_⟩
            obtain rfl := List.mem_singleton.mp hu
            intro a ha b hb
            have hnone := List.any_eq_false.mp hclear.2 b hb
            rw [Bool.not_eq_true] at hnone
            have hfree := List.any_eq_false.mp hnone a ((hpaths t ht).2 a ha)
            rw [overlaps_comm]
            simpa using hfree
          split
          · refine ⟨hnext, fun t ht => ?_⟩
            rcases List.mem_append.mp ht with hold | hnew
            · exact (hpaths t hold).1
            · rw [List.mem_singleton.mp hnew]
              exact hclear.1
          · refine ih hnext fun t ht => ?_
            rcases List.mem_append.mp ht with hold | hnew
            · exact ⟨(hpaths t hold).1, fun a ha => List.mem_append_left _ ((hpaths t hold).2 a ha)⟩
            · rw [List.mem_singleton.mp hnew]
              exact ⟨hclear.1, fun a ha => List.mem_append_right _ ha⟩

/-- The tasks of one batch are apart, and none is without paths. -/
theorem batch_pairwise (available : Nat) (ready : List Task) :
    (chooseBatch available ready [] []).Pairwise Task.Apart ∧ ∀ t ∈ chooseBatch available ready [] [], t.paths ≠ [] :=
  chooseBatch_apart List.Pairwise.nil fun _ hnone => absurd hnone List.not_mem_nil

/-- Two different tasks of one batch are apart. -/
theorem batch_apart {available : Nat} {ready : List Task} {t u : Task}
    (ht : t ∈ chooseBatch available ready [] []) (hu : u ∈ chooseBatch available ready [] [])
    (hne : t ≠ u) : t.Apart u := by
  have : Std.Symm Task.Apart := ⟨fun _ _ h => h.symm⟩
  exact (batch_pairwise available ready).1.forall ht hu hne

theorem batch_scoped {available : Nat} {ready : List Task} {t : Task}
    (ht : t ∈ chooseBatch available ready [] []) : t.paths ≠ [] := (batch_pairwise available ready).2 t ht

/-! ### What a candidate takes -/

/-- A name that a candidate under the contract may hold: a declared output, or a name in scope. -/
def Contract.accepts (c : Contract) (p : Path) : Bool :=
  productPath p && (c.outputs.contains p || inScope c.scope p)

/-- Some worktree has a candidate under the contract that holds the name. -/
def Contract.Takes (c : Contract) (p : Path) : Prop :=
  ∃ (tool : Tool) (ws : Workspace) (source : Commit) (note : String) (taken : Candidate) (ws' : Workspace),
    candidate tool ws source c.outputs c.scope none note = .ok (taken, ws') ∧ p ∈ taken.paths

/-- A worktree of an empty commit in which a worker has written one file. -/
def freshFile (p : Path) : Workspace where
  head := .initial ∅ "source"
  index := ∅
  files := AList.singleton p ⟨.regular, []⟩
  ignored _ := false

theorem freshFile_lookup (p q : Path) :
    (freshFile p).files.lookup q = if q = p then some ⟨.regular, []⟩ else none := by
  by_cases h : q = p
  · rw [if_pos h, h]
    exact AList.lookup_insert ∅
  · rw [if_neg h]
    exact AList.lookup_eq_none.mpr fun hmem => h (List.mem_singleton.mp hmem)

/-- A candidate of the worktree with one new file names that file alone. -/
theorem freshFile_listed {p : Path} (hproduct : productPath p = true) (outputs : List Path) :
    ∀ q, q ∈ (freshFile p).listed plainTool (.initial ∅ "source") outputs ↔ q = p := by
  intro q
  have hothers : (freshFile p).others = [p] := rfl
  have hdiff : (freshFile p).diffNames plainTool (.initial ∅ "source") = [] := rfl
  have hchanged : ∀ q, q ∈ (freshFile p).changed plainTool (.initial ∅ "source") ↔ q = p := by
    intro q
    rw [Workspace.changed, mem_sortNames, hdiff, hothers, List.nil_append, List.mem_filter,
      List.mem_append, List.mem_singleton]
    constructor
    · rintro ⟨rfl | hdocs, -⟩
      · rfl
      · exact List.mem_singleton.mp (List.mem_of_mem_filter hdocs)
    · rintro rfl
      exact ⟨Or.inl rfl, hproduct⟩
  rw [Workspace.listed, mem_sortNames, List.mem_append, hchanged]
  refine ⟨fun h => h.elim id fun hfile => ?_, Or.inl⟩
  have hboth := (List.mem_filter.mp hfile).2
  rw [Bool.and_eq_true, Workspace.isFile, freshFile_lookup] at hboth
  by_contra hne
  rw [if_neg hne] at hboth
  exact absurd hboth.2 (by decide)

theorem Contract.takes_of_accepts {c : Contract} {p : Path}
    (houtputs : ∀ q ∈ c.outputs, productPath q = true) (h : c.accepts p = true) : c.Takes p := by
  simp only [Contract.accepts, Bool.and_eq_true, Bool.or_eq_true] at h
  obtain ⟨hproduct, haccepted⟩ := h
  have hlisted := freshFile_listed hproduct c.outputs
  have hforbidden : (freshFile p).forbidden plainTool (.initial ∅ "source") = [] := by
    have hothers : (freshFile p).others = [p] := rfl
    have hdiff : (freshFile p).diffNames plainTool (.initial ∅ "source") = [] := rfl
    rw [Workspace.forbidden, hothers, hdiff]
    simp [hproduct]
  have hsafe : c.outputs.forM (freshFile p).safeFile = .ok () := by
    refine forM_ok.mpr fun q hq => ?_
    have hlink : ∀ r, (freshFile p).isSymlink r = false := by
      intro r
      rw [Workspace.isSymlink, freshFile_lookup]
      split <;> rfl
    have hplain : (q :: ancestors q).any (freshFile p).isSymlink = false :=
      List.any_eq_false.mpr fun r _ => by simp only [hlink, Bool.false_eq_true, not_false_eq_true]
    rw [Workspace.safeFile, houtputs q hq, hplain]
    rfl
  have hinside : (freshFile p).outside ((freshFile p).listed plainTool (.initial ∅ "source") c.outputs) c.outputs
      c.scope none = [] := by
    refine List.filter_eq_nil_iff.mpr fun q hq => ?_
    obtain rfl := (hlisted q).mp hq
    rcases haccepted with hout | hin
    · rw [hout]
      simp
    · rw [hin]
      simp
  have hmatched : (freshFile p).matched ((freshFile p).listed plainTool (.initial ∅ "source") c.outputs) =
      true := by
    refine List.all_eq_true.mpr fun q hq => ?_
    obtain rfl := (hlisted q).mp hq
    exact List.any_eq_true.mpr ⟨q, List.mem_append_right _ (List.mem_singleton.mpr rfl),
      List.isPrefixOf_iff_prefix.mpr List.prefix_rfl⟩
  exact ⟨_, _, _, "candidate", _, _, candidate_of_inside hforbidden hsafe hinside hmatched,
    (hlisted p).mpr rfl⟩

theorem Contract.accepts_of_takes {c : Contract} {p : Path} (hscope : c.scope ≠ []) (h : c.Takes p) :
    c.accepts p = true := by
  obtain ⟨tool, ws, source, note, taken, ws', hcandidate, hp⟩ := h
  obtain ⟨-, -, hinside, -, hpaths, -⟩ := candidate_ok hcandidate
  rw [hpaths] at hp
  have hkept := List.filter_eq_nil_iff.mp (hinside hscope) p hp
  rw [Contract.accepts, Workspace.listed_product hp, Bool.true_and]
  cases hout : c.outputs.contains p with
  | true => rfl
  | false =>
      rw [hout] at hkept
      simpa using hkept

/-- A candidate under a contract with a scope takes the names that the contract accepts. -/
theorem Contract.takes_iff {c : Contract} {p : Path} (hscope : c.scope ≠ [])
    (houtputs : ∀ q ∈ c.outputs, productPath q = true) : c.Takes p ↔ c.accepts p = true :=
  ⟨Contract.accepts_of_takes hscope, Contract.takes_of_accepts houtputs⟩

/-! ### The contracts of planned tasks -/

/-- The declared outputs of the checks of a task. -/
def Task.outputs (task : Task) : List Path := task.checks.flatMap (·.outputs)

/-- The contract that the child of a planned task is bound to. -/
def Task.Binds (task : Task) (c : Contract) : Prop :=
  ∃ workflow id source authorization parent checks, task.checks.mapM DB.readSpec = .ok checks ∧
    Contract.build workflow id .fix task.goal source authorization task.paths checks
      { plannedTask := some task.taskId, persistenceChange := task.persistenceChange } parent = .ok c

theorem readSpec_outputs {value : RawCheck} {spec : VerificationSpec} (h : DB.readSpec value = .ok spec) :
    spec.outputs = value.outputs := by
  unfold DB.readSpec at h
  split at h
  · split at h
    · cases h
    · split at h
      · cases h
        rfl
      · cases h
  · cases h

theorem mapM_outputs {values : List RawCheck} {specs : List VerificationSpec}
    (h : values.mapM DB.readSpec = .ok specs) :
    specs.flatMap (·.outputs) = values.flatMap (·.outputs) := by
  induction values generalizing specs with
  | nil =>
      simp only [List.mapM_nil, pure_ok] at h
      subst h
      rfl
  | cons value values ih =>
      simp only [List.mapM_cons, bind_ok, pure_ok] at h
      obtain ⟨spec, hspec, rest, hrest, rfl⟩ := h
      rw [List.flatMap_cons, List.flatMap_cons, readSpec_outputs hspec, ih hrest]

/-- The scope and the outputs of a planned child are those its task declares. -/
theorem Task.Binds.declared {task : Task} {c : Contract} (h : task.Binds c) :
    c.scope = task.paths ∧ ∀ p, p ∈ c.outputs ↔ p ∈ task.outputs := by
  obtain ⟨workflow, id, source, authorization, parent, checks, hchecks, hbuild⟩ := h
  obtain ⟨-, -, -, -, -, -, hscope, hsame, -⟩ := Contract.build_eq_ok hbuild
  refine ⟨hscope, fun p => ?_⟩
  rw [Contract.outputs, List.mem_dedup, hsame, mapM_outputs hchecks]
  rfl

theorem compileCheck_outputs {commands : Commands} {value : RawCheck} {spec : VerificationSpec}
    (h : compileCheck commands value = .ok spec) : ∀ p ∈ spec.outputs, productPath p = true := by
  simp only [compileCheck, guard_ok] at h
  obtain ⟨-, -, -, -, houtputs, -, h⟩ := h
  intro p hp
  rw [readSpec_outputs h] at hp
  by_contra hforeign
  exact houtputs (List.any_eq_true.mpr ⟨p, hp, by simpa using hforeign⟩)

/-- The checks of an accepted plan declare product files only. -/
theorem PlanAccepted.outputs_product {tasks : List Task} (h : PlanAccepted tasks) {task : Task}
    (htask : task ∈ tasks) : ∀ p ∈ task.outputs, productPath p = true := by
  obtain ⟨commands, replied, -, htasks, -⟩ := h
  obtain ⟨raw, -, hraw⟩ := mapM_mem htasks task htask
  simp only [planTask, guard_ok, bind_ok, pure_ok] at hraw
  obtain ⟨-, checks, hchecks, -, -, rfl⟩ := hraw
  intro p hp
  obtain ⟨value, hvalue, hp⟩ := List.mem_flatMap.mp hp
  obtain ⟨spec, hspec, rfl⟩ := List.mem_map.mp hvalue
  obtain ⟨declared, -, hcompiled⟩ := mapM_mem hchecks spec hspec
  exact compileCheck_outputs hcompiled p hp

/-! ### Parallel tasks -/

/-- No declared output of the first task is an output of the second, or lies in its paths. -/
def Task.Clear (t u : Task) : Prop := ∀ p ∈ t.outputs, p ∉ u.outputs ∧ inScope u.paths p = false

instance (t u : Task) : Decidable (t.Clear u) := inferInstanceAs (Decidable (∀ p ∈ t.outputs, _))

/-- Scopes that are apart take in no common product name. -/
theorem Task.Apart.disjoint {t u : Task} (h : t.Apart u) {p : Path} (hproduct : productPath p = true)
    (ht : inScope t.paths p = true) (hu : inScope u.paths p = true) : False := by
  obtain ⟨a, ha, hpa⟩ := List.any_eq_true.mp ht
  obtain ⟨b, hb, hpb⟩ := List.any_eq_true.mp hu
  simp only [Bool.or_eq_true, beq_iff_eq] at hpa hpb
  have hoverlap := overlaps_of_scoped hproduct hpa hpb
  rw [h a ha b hb] at hoverlap
  cases hoverlap

/-- **Tasks of one batch cannot take the same file exactly when the outputs of each are clear of the
other.** -/
theorem parallel_tasks_disjoint_iff {tasks ready : List Task} {available : Nat} {t u : Task}
    {c d : Contract} (hplan : PlanAccepted tasks) (hready : ∀ task ∈ ready, task ∈ tasks)
    (ht : t ∈ chooseBatch available ready [] []) (hu : u ∈ chooseBatch available ready [] [])
    (hne : t ≠ u) (hc : t.Binds c) (hd : u.Binds d) :
    (¬ ∃ p, c.Takes p ∧ d.Takes p) ↔ t.Clear u ∧ u.Clear t := by
  have hmem : ∀ task, task ∈ chooseBatch available ready [] [] → task ∈ tasks := fun task h =>
    hready task ((chooseBatch_mem h).resolve_right List.not_mem_nil)
  obtain ⟨hcscope, hcoutputs⟩ := hc.declared
  obtain ⟨hdscope, hdoutputs⟩ := hd.declared
  have hcproduct : ∀ p ∈ c.outputs, productPath p = true := fun p hp =>
    hplan.outputs_product (hmem t ht) p ((hcoutputs p).mp hp)
  have hdproduct : ∀ p ∈ d.outputs, productPath p = true := fun p hp =>
    hplan.outputs_product (hmem u hu) p ((hdoutputs p).mp hp)
  have hctakes : ∀ p, c.Takes p ↔ productPath p = true ∧ (p ∈ t.outputs ∨ inScope t.paths p = true) := by
    intro p
    rw [Contract.takes_iff (hcscope ▸ batch_scoped ht) hcproduct, Contract.accepts, hcscope, Bool.and_eq_true,
      Bool.or_eq_true, List.contains_iff_mem, hcoutputs]
  have hdtakes : ∀ p, d.Takes p ↔ productPath p = true ∧ (p ∈ u.outputs ∨ inScope u.paths p = true) := by
    intro p
    rw [Contract.takes_iff (hdscope ▸ batch_scoped hu) hdproduct, Contract.accepts, hdscope, Bool.and_eq_true,
      Bool.or_eq_true, List.contains_iff_mem, hdoutputs]
  simp only [hctakes, hdtakes]
  constructor
  · intro hnone
    refine ⟨fun p hp => ?_, fun p hp => ?_⟩
    · have hproduct := hplan.outputs_product (hmem t ht) p hp
      rw [← Bool.not_eq_true, ← not_or]
      exact fun hother => hnone ⟨p, ⟨hproduct, Or.inl hp⟩, hproduct, hother⟩
    · have hproduct := hplan.outputs_product (hmem u hu) p hp
      rw [← Bool.not_eq_true, ← not_or]
      exact fun hother => hnone ⟨p, ⟨hproduct, hother⟩, hproduct, Or.inl hp⟩
  · rintro ⟨htu, hut⟩ ⟨p, ⟨hproduct, hct⟩, -, hdu⟩
    rcases hct with hout | hin
    · obtain ⟨hnot, hscope⟩ := htu p hout
      rcases hdu with hout' | hin'
      · exact hnot hout'
      · rw [hscope] at hin'
        cases hin'
    · rcases hdu with hout' | hin'
      · have hscope := (hut p hout').2
        rw [hscope] at hin
        cases hin
      · exact (batch_apart ht hu hne).disjoint hproduct hin hin'

/-- A planned task over one directory, with one check and its outputs. -/
def directoryTask (id directory : String) (outputs : List Path) : Task where
  taskId := id
  goal := "Change " ++ directory
  paths := [["src", directory, ""]]
  checks := [{ command := "pytest tests/" ++ directory, outputs }]

/-- Two directories without outputs are changed in parallel, and no file is taken twice. -/
theorem parallel_directories_disjoint : ∃ c d : Contract,
    (directoryTask "a" "a" []).Binds c ∧ (directoryTask "b" "b" []).Binds d ∧ ¬ ∃ p, c.Takes p ∧ d.Takes p := by
  have hplan : PlanAccepted [directoryTask "a" "a" [], directoryTask "b" "b" []] :=
    ⟨⟨fun _ => [], fun _ => true, fun command => command⟩,
      [directoryTask "a" "a" [], directoryTask "b" "b" []], by decide, rfl, rfl⟩
  have hbatch : chooseBatch 2 [directoryTask "a" "a" [], directoryTask "b" "b" []] [] [] =
      [directoryTask "a" "a" [], directoryTask "b" "b" []] := by decide
  have hc : ∃ c, (directoryTask "a" "a" []).Binds c :=
    ⟨_, "flow", "first", .initial ∅ "base", {}, [], _, rfl, rfl⟩
  have hd : ∃ d, (directoryTask "b" "b" []).Binds d :=
    ⟨_, "flow", "second", .initial ∅ "base", {}, [], _, rfl, rfl⟩
  obtain ⟨c, hc⟩ := hc
  obtain ⟨d, hd⟩ := hd
  have hfirst : directoryTask "a" "a" [] ∈
      chooseBatch 2 [directoryTask "a" "a" [], directoryTask "b" "b" []] [] [] := hbatch ▸ List.mem_cons_self
  have hsecond : directoryTask "b" "b" [] ∈
      chooseBatch 2 [directoryTask "a" "a" [], directoryTask "b" "b" []] [] [] :=
    hbatch ▸ List.mem_cons_of_mem _ List.mem_cons_self
  exact ⟨c, d, hc, hd, (parallel_tasks_disjoint_iff hplan (fun _ h => h) hfirst hsecond (by decide) hc hd).mpr
    ⟨by decide, by decide⟩⟩

/-- Two directories whose checks declare one output are changed in parallel, and both children take it. -/
theorem parallel_output_shared : ∃ (t u : Task) (c d : Contract) (p : Path), PlanAccepted [t, u] ∧ t ≠ u ∧
    t ∈ chooseBatch 2 [t, u] [] [] ∧ u ∈ chooseBatch 2 [t, u] [] [] ∧ t.Binds c ∧ u.Binds d ∧
    c.Takes p ∧ d.Takes p := by
  have hplan : PlanAccepted [directoryTask "a" "a" [["reports", "out.json"]],
      directoryTask "b" "b" [["reports", "out.json"]]] :=
    ⟨⟨fun _ => [], fun _ => true, fun command => command⟩,
      [directoryTask "a" "a" [["reports", "out.json"]], directoryTask "b" "b" [["reports", "out.json"]]],
      by decide, rfl, rfl⟩
  have hc : ∃ c, (directoryTask "a" "a" [["reports", "out.json"]]).Binds c :=
    ⟨_, "flow", "first", .initial ∅ "base", {}, [], _, rfl, rfl⟩
  have hd : ∃ d, (directoryTask "b" "b" [["reports", "out.json"]]).Binds d :=
    ⟨_, "flow", "second", .initial ∅ "base", {}, [], _, rfl, rfl⟩
  obtain ⟨c, hc⟩ := hc
  obtain ⟨d, hd⟩ := hd
  have htakes : ∀ {task : Task} {e : Contract}, task.Binds e → task.outputs = [["reports", "out.json"]] →
      e.Takes ["reports", "out.json"] := by
    intro task e he houtputs
    have hmem : ∀ p, p ∈ e.outputs ↔ p = ["reports", "out.json"] := by
      intro p
      rw [he.declared.2, houtputs, List.mem_singleton]
    refine Contract.takes_of_accepts (fun p hp => ?_) ?_
    · rw [(hmem p).mp hp]
      decide
    · rw [Contract.accepts, List.contains_iff_mem.mpr ((hmem _).mpr rfl), Bool.true_or]
      decide
  exact ⟨_, _, c, d, ["reports", "out.json"], hplan, by decide, by decide, by decide, hc, hd,
    htakes hc rfl, htakes hd rfl⟩

end AutoAgents
