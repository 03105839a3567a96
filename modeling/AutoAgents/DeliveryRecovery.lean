import AutoAgents.DeliveryEffects

/-! Recovery of an interrupted delivery. Between two effects every delivered name is still what it was,
or already what the commit shows, unless its bytes are written and its executable bit is not: then the
journal fits neither, and the delivery is refused from there on. -/

namespace AutoAgents

open Base
open Git

local instance lawfulRecoveryPath : LawfulBEq Path := inferInstance

/-! ### Placing one name -/

/-- The files once a name is what the commit shows, with the directories it lies in. -/
def placed (files : Files) (p : Path) (identity : Identity) : Files := fun q =>
  if q = p then identity.node
  else if identity ≠ .missing ∧ q ∈ ancestors p ∧ files q = none then some .directory
  else files q

theorem placed_self (files : Files) (p : Path) (identity : Identity) :
    placed files p identity p = identity.node := if_pos rfl

theorem placed_of_some {files : Files} {p q : Path} {identity : Identity} {node : Node}
    (hne : q ≠ p) (h : files q = some node) : placed files p identity q = some node := by
  unfold placed
  rw [if_neg hne, if_neg]
  · exact h
  · rintro ⟨-, -, hnone⟩
    rw [h] at hnone
    cases hnone

theorem placed_of_not_ancestor {files : Files} {p q : Path} {identity : Identity} (hne : q ≠ p)
    (h : q ∉ ancestors p) : placed files p identity q = files q := by
  unfold placed
  rw [if_neg hne, if_neg fun hboth => h hboth.2.1]

theorem placed_of_none {files : Files} {p q : Path} {identity : Identity} (hne : q ≠ p)
    (h : files q = none) :
    placed files p identity q = none ∨ placed files p identity q = some .directory := by
  unfold placed
  rw [if_neg hne]
  split
  · exact Or.inr rfl
  · exact Or.inl h

namespace Effect

variable {s s' : Shared} {p q : Path} {identity : Identity}

theorem mkdir_files (s : Shared) (p : Path) (h : blocked s.files p = false) :
    (mkdir p).apply s = some { s with files := withParents s.files p } := by
  simp only [apply, h, Bool.false_eq_true, if_false]

theorem unlink_files (s : Shared) (p : Path) :
    (unlink p).apply s = if blocked s.files p ∨ s.files p = some .directory then none
      else some { s with files := Function.update s.files p none } := rfl

theorem writeBytes_files {data : Bytes} {node : Node} (h : written data (s.files p) = some node) :
    (writeBytes p data).apply s =
      some { s with files := Function.update s.files p (some node) } := by
  simp only [apply, h, Option.map_some]

theorem writeBytes_raises {data : Bytes} (h : written data (s.files p) = none) :
    (writeBytes p data).apply s = none := by
  simp only [apply, h, Option.map_none]

theorem chmod_files {executable : Bool} {node : Node} (h : moded executable (s.files p) = some node) :
    (chmod p executable).apply s =
      some { s with files := Function.update s.files p (some node) } := by
  simp only [apply, h, Option.map_some]

/-- `write_bytes` to a file, or to nothing, leaves the old mode or the mode of a new file. -/
theorem written_node (data : Bytes) (i : Identity) :
    ∃ executable, written data i.node = some (.file data executable) := by
  cases i with
  | missing => exact ⟨false, rfl⟩
  | file _ executable => exact ⟨executable, rfl⟩

/-- What placing a name does, when nothing stands in its way. -/
theorem run_place (hnode : ∃ i : Identity, s.files p = i.node) (h : blocked s.files p = false) :
    run s (place p identity) = some { s with files := placed s.files p identity } := by
  obtain ⟨i, hi⟩ := hnode
  cases identity with
  | missing =>
      have hfile : s.files p ≠ some .directory := by
        rw [hi]
        cases i <;> simp [Identity.node]
      simp only [place, run_cons, unlink_files, h, hfile, Bool.false_eq_true, or_self, if_false,
        Option.bind_some]
      refine congrArg (fun files => some { s with files }) (funext fun q => ?_)
      simp only [placed, Function.update_apply, Identity.node, ne_eq, not_true_eq_false, false_and, if_false]
  | file data executable =>
      obtain ⟨x, hwritten⟩ := written_node data i
      -- The directories above the name are made; the name itself is not one of them.
      obtain ⟨made, hmade⟩ : ∃ made : Shared, made = { s with files := withParents s.files p } := ⟨_, rfl⟩
      have hself : made.files p = i.node := by
        rw [hmade, ← hi]
        exact withParents_self s.files p
      obtain ⟨bytes, hbytes⟩ : ∃ bytes : Shared, bytes =
          { made with files := Function.update made.files p (some (.file data x)) } := ⟨_, rfl⟩
      have hmoded : moded executable (bytes.files p) = some (.file data executable) := by
        simp only [hbytes, Function.update_self, moded]
      rw [place, run_cons, mkdir_files s p h, ← hmade, Option.bind_some, run_cons,
        writeBytes_files (hself ▸ hwritten), ← hbytes, Option.bind_some, run_cons, chmod_files hmoded,
        Option.bind_some, hbytes, hmade]
      refine congrArg (fun files => some { s with files }) (funext fun q => ?_)
      by_cases hq : q = p
      · rw [hq, placed_self, Function.update_self]
        rfl
      · simp only [placed, withParents, Function.update_apply, hq, if_false, ne_eq, reduceCtorEq,
          not_false_eq_true, true_and]

/-- A file cannot be written where a directory or a link stands. -/
theorem run_place_file_none {data : Bytes} {executable : Bool} {node : Node}
    (hnode : s.files p = some node) (hwritten : written data (some node) = none)
    (h : blocked s.files p = false) : run s (place p (.file data executable)) = none := by
  have hself : withParents s.files p p = some node := (withParents_self s.files p).trans hnode
  have hraises : written data (withParents s.files p p) = none := by rw [hself, hwritten]
  rw [place, run_cons, mkdir_files s p h, Option.bind_some, run_cons, writeBytes_raises hraises,
    Option.bind_none]

/-- What a placement that raised nothing has found, and done. -/
theorem run_place_ok (h : run s (place p identity) = some s') :
    blocked s.files p = false ∧ s' = { s with files := placed s.files p identity } := by
  cases hblocked : blocked s.files p with
  | true =>
      cases identity <;> simp only [place, run_cons, apply, hblocked, true_or, if_true, Option.bind_none,
        reduceCtorEq] at h
  | false =>
      refine ⟨rfl, ?_⟩
      by_cases hnode : ∃ i : Identity, s.files p = i.node
      · rw [run_place hnode hblocked] at h
        exact (Option.some.inj h).symm
      · cases hfile : s.files p with
        | none => exact absurd ⟨.missing, hfile⟩ hnode
        | some node =>
            cases node with
            | file data executable => exact absurd ⟨.file data executable, hfile⟩ hnode
            | directory =>
                cases identity with
                | missing =>
                    rw [place, run_cons, unlink_files, if_pos (Or.inr hfile)] at h
                    cases h
                | file data executable =>
                    rw [run_place_file_none hfile rfl hblocked] at h
                    cases h
            | symlink target =>
                cases identity with
                | missing =>
                    simp only [place, run_cons, unlink_files, hblocked, hfile, Bool.false_eq_true,
                      reduceCtorEq, Option.some.injEq, or_self, if_false, Option.bind_some] at h
                    cases h
                    refine congrArg (fun files => { s with files }) (funext fun q => ?_)
                    simp only [placed, Function.update_apply, Identity.node, ne_eq, not_true_eq_false,
                      false_and, if_false]
                | file data executable =>
                    rw [run_place_file_none hfile rfl hblocked] at h
                    cases h

/-! ### Placing all names -/

theorem placeAll_append (shown : Path → Identity) (first second : List Path) :
    placeAll shown (first ++ second) = placeAll shown first ++ placeAll shown second :=
  List.flatMap_append

theorem run_placeAll_cons {shown : Path → Identity} {names : List Path} :
    run s (placeAll shown (p :: names)) =
      (run s (place p (shown p))).bind fun mid => run mid (placeAll shown names) := by
  rw [placeAll, List.flatMap_cons, run_append]
  rfl

variable {shown : Path → Identity} {names : List Path}

/-- Placing other names keeps what stands at a name. -/
theorem run_placeAll_of_some {node : Node} (h : run s (placeAll shown names) = some s')
    (hq : q ∉ names) (hnode : s.files q = some node) : s'.files q = some node := by
  induction names generalizing s with
  | nil =>
      cases h
      exact hnode
  | cons p names ih =>
      rw [run_placeAll_cons] at h
      obtain ⟨mid, hmid, hrest⟩ := Option.bind_eq_some_iff.mp h
      obtain ⟨-, rfl⟩ := run_place_ok hmid
      obtain ⟨hne, hnot⟩ := not_or.mp (List.mem_cons.not.mp hq)
      exact ih hrest hnot (placed_of_some hne hnode)

/-- Placing names that lie elsewhere leaves a name alone. -/
theorem run_placeAll_other (h : run s (placeAll shown names) = some s') (hq : q ∉ names)
    (habove : ∀ p ∈ names, q ∉ ancestors p) : s'.files q = s.files q := by
  induction names generalizing s with
  | nil =>
      cases h
      rfl
  | cons p names ih =>
      rw [run_placeAll_cons] at h
      obtain ⟨mid, hmid, hrest⟩ := Option.bind_eq_some_iff.mp h
      obtain ⟨-, rfl⟩ := run_place_ok hmid
      obtain ⟨hne, hnot⟩ := not_or.mp (List.mem_cons.not.mp hq)
      rw [ih hrest hnot fun p' hp' => habove p' (List.mem_cons_of_mem _ hp')]
      exact placed_of_not_ancestor hne (habove p List.mem_cons_self)

/-- A file that was placed stays, while other names are placed. -/
theorem run_placeAll_file {data : Bytes} {executable : Bool} (hnodup : names.Nodup)
    (h : run s (placeAll shown names) = some s') (hq : q ∈ names)
    (hshown : shown q = .file data executable) : s'.files q = some (.file data executable) := by
  induction names generalizing s with
  | nil => cases hq
  | cons p names ih =>
      rw [run_placeAll_cons] at h
      obtain ⟨mid, hmid, hrest⟩ := Option.bind_eq_some_iff.mp h
      obtain ⟨-, rfl⟩ := run_place_ok hmid
      obtain ⟨hnot, hnodup⟩ := List.nodup_cons.mp hnodup
      rcases List.mem_cons.mp hq with rfl | hmem
      · refine run_placeAll_of_some hrest hnot ?_
        show placed s.files q (shown q) q = _
        rw [placed_self, hshown]
        rfl
      · exact ih hnodup hrest hmem

theorem run_placeAll_rest (h : run s (placeAll shown names) = some s') :
    s'.ref = s.ref ∧ s'.index = s.index ∧ s'.journal = s.journal := by
  induction names generalizing s with
  | nil =>
      cases h
      exact ⟨rfl, rfl, rfl⟩
  | cons p names ih =>
      rw [run_placeAll_cons] at h
      obtain ⟨mid, hmid, hrest⟩ := Option.bind_eq_some_iff.mp h
      obtain ⟨-, rfl⟩ := run_place_ok hmid
      obtain ⟨href, hindex, hjournal⟩ := ih hrest
      exact ⟨href, hindex, hjournal⟩

/-- Nothing stands where a delivered name needs a directory. -/
def Clear (files : Files) (shown : Path → Identity) (names : List Path) : Prop :=
  ∀ p ∈ names, ∀ q ∈ ancestors p,
    (q ∈ names → shown q = .missing) ∧ (q ∉ names → files q = none ∨ files q = some .directory)

/-- A directory of the commit is shown as a text, so that it does not count as missing. -/
def Directories (shown : Path → Identity) : Prop :=
  ∀ p q, shown p ≠ .missing → q ∈ ancestors p → shown q ≠ .missing

/-- What the files may be between two effects: a file or nothing at a delivered name, and elsewhere
what was there, or a directory made for a delivered name. -/
structure Between (files : Files) (shown : Path → Identity) (names : List Path) (mid : Files) : Prop where
  listed : ∀ q ∈ names, ∃ i : Identity, mid q = i.node
  others : ∀ q ∉ names, mid q = files q ∨
    files q = none ∧ (∃ p ∈ names, shown p ≠ .missing ∧ q ∈ ancestors p) ∧ mid q = some .directory

variable {files : Files}

theorem Between.refl (h : ∀ q ∈ names, ∃ i : Identity, files q = i.node) :
    Between files shown names files := ⟨h, fun _ _ => Or.inl rfl⟩

/-- The directories made for a name leave the delivered names alone: a delivered directory of a
delivered file would be missing, and shown. -/
theorem withParents_listed {mid : Files} (hclear : Clear files shown names) (hdirs : Directories shown)
    (hp : p ∈ names) (hshown : shown p ≠ .missing) (hq : q ∈ names) : withParents mid p q = mid q := by
  refine if_neg ?_
  rintro ⟨habove, -⟩
  exact hdirs p q hshown habove ((hclear p hp q habove).1 hq)

theorem Between.withParents {mid : Files} (h : Between files shown names mid)
    (hclear : Clear files shown names) (hdirs : Directories shown) (hp : p ∈ names)
    (hshown : shown p ≠ .missing) : Between files shown names (withParents mid p) where
  listed q hq := by
    rw [withParents_listed hclear hdirs hp hshown hq]
    exact h.listed q hq
  others q hq := by
    unfold AutoAgents.withParents
    split
    · next hmade =>
        obtain ⟨habove, hnone⟩ := hmade
        rcases h.others q hq with hsame | ⟨-, -, hdir⟩
        · exact Or.inr ⟨hsame ▸ hnone, ⟨p, hp, hshown, habove⟩, rfl⟩
        · rw [hdir] at hnone
          cases hnone
    · exact h.others q hq

theorem Between.update {mid : Files} (h : Between files shown names mid) (hp : p ∈ names)
    (identity : Identity) : Between files shown names (Function.update mid p identity.node) where
  listed q hq := by
    by_cases hqp : q = p
    · exact ⟨identity, by rw [hqp, Function.update_self]⟩
    · rw [Function.update_of_ne hqp]
      exact h.listed q hq
  others q hq := by
    have hqp : q ≠ p := fun heq => hq (heq ▸ hp)
    rw [Function.update_of_ne hqp]
    exact h.others q hq

theorem placed_missing (mid : Files) (p : Path) :
    placed mid p .missing = Function.update mid p Identity.missing.node := by
  funext q
  simp only [placed, Function.update_apply, ne_eq, not_true_eq_false, false_and, if_false]

theorem placed_file (mid : Files) (p : Path) (data : Bytes) (executable : Bool) :
    placed mid p (.file data executable) =
      Function.update (withParents mid p) p (Identity.file data executable).node := by
  funext q
  simp only [placed, withParents, Function.update_apply, ne_eq, reduceCtorEq, not_false_eq_true, true_and]

/-- Placing one more name. -/
theorem Between.placed {mid : Files} (h : Between files shown names mid) (hclear : Clear files shown names)
    (hdirs : Directories shown) (hp : p ∈ names) : Between files shown names (placed mid p (shown p)) := by
  cases hshown : shown p with
  | missing =>
      rw [placed_missing]
      exact h.update hp _
  | file data executable =>
      rw [placed_file]
      exact (h.withParents hclear hdirs hp (by rw [hshown]; exact Identity.noConfusion)).update hp _

theorem placed_listed {mid : Files} (hclear : Clear files shown names) (hdirs : Directories shown)
    (hp : p ∈ names) (hq : q ∈ names) (hqp : q ≠ p) : placed mid p (shown p) q = mid q := by
  cases hshown : shown p with
  | missing => rw [placed_missing, Function.update_of_ne hqp]
  | file data executable =>
      rw [placed_file, Function.update_of_ne hqp,
        withParents_listed hclear hdirs hp (by rw [hshown]; exact Identity.noConfusion) hq]

/-- Once every directory above it has been dealt with, nothing blocks a name. -/
theorem Between.not_blocked {mid : Files} (h : Between files shown names mid)
    (hclear : Clear files shown names) (hp : p ∈ names)
    (hdone : ∀ q ∈ ancestors p, q ∈ names → mid q = none) : blocked mid p = false := by
  simp only [blocked, List.any_eq_false, Bool.not_eq_true]
  intro q hq
  by_cases hmem : q ∈ names
  · rw [hdone q hq hmem]
    rfl
  · rcases (hclear p hp q hq).2 hmem with hnone | hdir
    · rcases h.others q hmem with hsame | ⟨-, -, hmade⟩
      · rw [hsame, hnone]
        rfl
      · rw [hmade]
        rfl
    · rcases h.others q hmem with hsame | ⟨hnone, -, -⟩
      · rw [hsame, hdir]
        rfl
      · rw [hnone] at hdir
        cases hdir

/-- The files once all names are what the commit shows. -/
structure Settled (files : Files) (shown : Path → Identity) (names : List Path) (final : Files) : Prop where
  listed : ∀ q ∈ names, final q = (shown q).node
  made : ∀ q ∉ names, files q = none → (∃ p ∈ names, shown p ≠ .missing ∧ q ∈ ancestors p) →
    final q = some .directory
  kept : ∀ q ∉ names, ¬ (files q = none ∧ ∃ p ∈ names, shown p ≠ .missing ∧ q ∈ ancestors p) →
    final q = files q

theorem Settled.unique {final final' : Files} (h : Settled files shown names final)
    (h' : Settled files shown names final') : final' = final := by
  funext q
  by_cases hq : q ∈ names
  · rw [h.listed q hq, h'.listed q hq]
  · by_cases hmade : files q = none ∧ ∃ p ∈ names, shown p ≠ .missing ∧ q ∈ ancestors p
    · rw [h.made q hq hmade.1 hmade.2, h'.made q hq hmade.1 hmade.2]
    · rw [h.kept q hq hmade, h'.kept q hq hmade]

/-- It does not matter between which effects the placing starts. -/
theorem Settled.of_between {mid final : Files} (hbetween : Between files shown names mid)
    (h : Settled mid shown names final) : Settled files shown names final where
  listed := h.listed
  made q hq hnone hneeded := by
    rcases hbetween.others q hq with hsame | ⟨-, -, hdir⟩
    · exact h.made q hq (hsame.trans hnone) hneeded
    · have hthere : ¬ (mid q = none ∧ ∃ p ∈ names, shown p ≠ .missing ∧ q ∈ ancestors p) := by
        rw [hdir]
        rintro ⟨hnone', -⟩
        cases hnone'
      rw [h.kept q hq hthere, hdir]
  kept q hq hnot := by
    rcases hbetween.others q hq with hsame | ⟨hnone, hneeded, -⟩
    · rw [← hsame]
      exact h.kept q hq (hsame ▸ hnot)
    · exact absurd ⟨hnone, hneeded⟩ hnot

/-- Placing names succeeds from any point between two effects: the induction is on the names still to
be placed, with those before them in place. -/
theorem run_placeAll_from (before : List Path) {after : List Path} (hlisted : Listed (before ++ after))
    (hclear : Clear files shown (before ++ after)) (hdirs : Directories shown)
    (hbetween : Between files shown (before ++ after) s.files)
    (hdone : ∀ q ∈ before, s.files q = (shown q).node) :
    ∃ final, run s (placeAll shown after) = some final ∧
      (∀ q ∈ before ++ after, final.files q = (shown q).node) ∧
      (∀ q ∉ before ++ after, s.files q = none →
        (∃ p ∈ after, shown p ≠ .missing ∧ q ∈ ancestors p) → final.files q = some .directory) ∧
      (∀ q ∉ before ++ after, ¬ (s.files q = none ∧ ∃ p ∈ after, shown p ≠ .missing ∧ q ∈ ancestors p) →
        final.files q = s.files q) := by
  induction after generalizing before s with
  | nil =>
      refine ⟨s, rfl, fun q hq => ?_, fun q _ _ hneeded => ?_, fun q _ _ => rfl⟩
      · rw [List.append_nil] at hq
        exact hdone q hq
      · obtain ⟨p, hp, -⟩ := hneeded
        cases hp
  | cons p after ih =>
      have hp : p ∈ before ++ p :: after := List.mem_append_right _ List.mem_cons_self
      have hlater := (List.pairwise_append.mp hlisted).2.1
      -- The names above `p` are listed before it, so they have been placed.
      have hblocked : blocked s.files p = false := by
        refine hbetween.not_blocked hclear hp fun q hq hmem => ?_
        have hbefore : q ∈ before := by
          rcases List.mem_append.mp hmem with hbefore | hrest
          · exact hbefore
          · obtain ⟨hbelow, -, hne⟩ := mem_ancestors.mp hq
            rcases List.mem_cons.mp hrest with heq | hafter
            · exact absurd heq hne
            · exact absurd hbelow ((List.pairwise_cons.mp hlater).1 q hafter)
        rw [hdone q hbefore, (hclear p hp q hq).1 hmem]
        rfl
      have hplace : run s (place p (shown p)) = some { s with files := placed s.files p (shown p) } :=
        run_place (hbetween.listed p hp) hblocked
      have hmid := hbetween.placed hclear hdirs hp
      have hsplit : (before ++ [p]) ++ after = before ++ p :: after := by
        rw [List.append_assoc, List.singleton_append]
      have hdone' : ∀ q ∈ before ++ [p], placed s.files p (shown p) q = (shown q).node := by
        intro q hq
        rcases List.mem_append.mp hq with hbefore | hself
        · have hqp : q ≠ p := by
            rintro rfl
            exact (List.pairwise_append.mp hlisted).2.2 q hbefore q List.mem_cons_self List.prefix_rfl
          rw [placed_listed hclear hdirs hp (List.mem_append_left _ hbefore) hqp]
          exact hdone q hbefore
        · rw [List.mem_singleton.mp hself]
          exact placed_self _ _ _
      rw [run_placeAll_cons, hplace, Option.bind_some]
      obtain ⟨final, hrun, hall, hmade, hkept⟩ := ih (before ++ [p])
        (s := { s with files := placed s.files p (shown p) }) (hsplit ▸ hlisted) (hsplit ▸ hclear)
        (hsplit ▸ hmid) hdone'
      rw [hsplit] at hall hmade hkept
      refine ⟨final, hrun, hall, fun q hq hnone hneeded => ?_, fun q hq hnot => ?_⟩
      · have hqp : q ≠ p := fun heq => hq (heq ▸ hp)
        by_cases hnow : placed s.files p (shown p) q = none
        · obtain ⟨p', hp', hshown, habove⟩ := hneeded
          rcases List.mem_cons.mp hp' with rfl | hafter
          · unfold placed at hnow
            rw [if_neg hqp, if_pos ⟨hshown, habove, hnone⟩] at hnow
            cases hnow
          · exact hmade q hq hnow ⟨p', hafter, hshown, habove⟩
        · rw [hkept q hq fun hboth => hnow hboth.1]
          exact (placed_of_none hqp hnone).resolve_left hnow
      · have hqp : q ≠ p := fun heq => hq (heq ▸ hp)
        have hsame : placed s.files p (shown p) q = s.files q := by
          unfold placed
          rw [if_neg hqp, if_neg]
          rintro ⟨hshown, habove, hnone⟩
          exact hnot ⟨hnone, p, List.mem_cons_self, hshown, habove⟩
        refine (hkept q hq ?_).trans hsame
        rintro ⟨hnone, p', hp', hrest⟩
        exact hnot ⟨hsame ▸ hnone, p', List.mem_cons_of_mem _ hp', hrest⟩

/-- Placing all names, from any point between two effects, settles the files. -/
theorem run_placeAll (hlisted : Listed names) (hclear : Clear files shown names)
    (hdirs : Directories shown) (hbetween : Between files shown names s.files) :
    ∃ final, run s (placeAll shown names) = some final ∧ Settled files shown names final.files := by
  obtain ⟨final, hrun, hall, hmade, hkept⟩ := run_placeAll_from [] hlisted hclear hdirs
    hbetween fun _ h => absurd h List.not_mem_nil
  exact ⟨final, hrun, Settled.of_between hbetween ⟨hall, hmade, hkept⟩⟩

end Effect

/-! ### The whole of `finish_delivery` -/

open Effect

theorem shown_directories (tool : Tool) (c : Commit) : Directories (tool.shown c) := by
  intro p q hshown habove
  have hdirectory : c.directory q = true := by
    unfold Tool.shown at hshown
    split at hshown
    · next entry hentry =>
        refine List.any_eq_true.mpr ⟨p, ?_, decide_eq_true habove⟩
        exact AList.lookup_isSome.mp (by rw [show c.tree.lookup p = some entry from hentry]; rfl)
    · split at hshown
      · next hdir =>
          obtain ⟨r, hr, hbelow⟩ := List.any_eq_true.mp hdir
          exact List.any_eq_true.mpr ⟨r, hr, decide_eq_true
            (ancestors_trans (of_decide_eq_true hbelow) habove)⟩
      · exact absurd rfl hshown
  unfold Tool.shown
  rw [hdirectory]
  split
  · exact Identity.noConfusion
  · exact Identity.noConfusion

/-- The journal fits what stands at a name after its bytes are written, whatever its mode is then. -/
def Recoverable (before shown : Identity) : Prop :=
  match before, shown with
  | .missing, .file _ executable => executable = false
  | .file data executable, .file data' executable' => executable = executable' ∨ data = data'
  | _, .missing => True

/-- The checkout between two effects of a delivery. -/
structure Underway (tool : Tool) (s : Shared) (j : Journal) (mid : Shared) : Prop where
  ref : mid.ref = j.base ∨ mid.ref = j.revision
  index : ∀ p, covers j.paths p = false → mid.index p = s.index p
  listed : ∀ p ∈ j.paths,
    mid.files p = (j.before p).node ∨ mid.files p = (tool.shown j.revision p).node
  between : Between s.files (tool.shown j.revision) j.paths mid.files

/-- The checkout after a delivery. -/
structure Finished (tool : Tool) (s : Shared) (j : Journal) (final : Shared) : Prop where
  ref : final.ref = j.revision
  index : ∀ p, final.index p = if covers j.paths p then j.revision.at p else s.index p
  files : Settled s.files (tool.shown j.revision) j.paths final.files

variable {tool : Tool} {s mid final : Shared} {j : Journal}

theorem linked_of_node {files : Files} {p : Path} {i : Identity} (h : files p = i.node) :
    linked files p = false := by
  unfold linked
  rw [h]
  cases i <;> rfl

/-- From any point between two effects, `finish_delivery` completes the delivery. -/
theorem Underway.finish (h : Underway tool s j mid) (hproduct : ∀ p ∈ j.paths, productPath p = true)
    (hclear : Clear s.files (tool.shown j.revision) j.paths) :
    finishEffects tool mid j = .ok (deliveryEffects tool mid j) ∧
      ∃ final, run mid (deliveryEffects tool mid j) = some final ∧ Finished tool s j final := by
  have hcheck : ∀ p ∈ j.paths, checkDelivered tool mid j p = .ok () := by
    refine fun p hp => checkDelivered_ok.mpr ⟨hproduct p hp, fun q hq => ?_, h.listed p hp⟩
    by_cases hmem : q ∈ j.paths
    · obtain ⟨i, hi⟩ := h.between.listed q hmem
      exact linked_of_node hi
    · have hplain : mid.files q = none ∨ mid.files q = some .directory := by
        rcases h.between.others q hmem with hsame | ⟨-, -, hdir⟩
        · rw [hsame]
          exact (hclear p hp q hq).2 hmem
        · exact Or.inr hdir
      unfold linked
      rcases hplain with hnone | hdir
      · rw [hnone]
        rfl
      · rw [hdir]
        rfl
  obtain ⟨start, hstart⟩ : ∃ start : Shared, start = if mid.ref = j.base then { mid with ref := j.revision }
      else mid := ⟨_, rfl⟩
  have hfiles : start.files = mid.files := by rw [hstart]; split <;> rfl
  have hindex : start.index = mid.index := by rw [hstart]; split <;> rfl
  have href : start.ref = j.revision := by
    rw [hstart]
    split
    · rfl
    · next hne => exact h.ref.resolve_left hne
  have hrunRef : run mid (if mid.ref = j.base then [.updateRef j.revision] else []) = some start := by
    rw [hstart]
    split <;> rfl
  have hready : Between s.files (tool.shown j.revision) j.paths start.files := hfiles ▸ h.between
  obtain ⟨placedAll, hplaced, hsettled⟩ := run_placeAll j.candidate.listed hclear
    (shown_directories tool j.revision) hready
  obtain ⟨hrefAll, hindexAll, -⟩ := run_placeAll_rest hplaced
  refine ⟨finishEffects_ok.mpr ⟨h.ref, hcheck, rfl⟩,
    { placedAll with
      index := fun p => if covers j.paths p then j.revision.at p else placedAll.index p
      journal := some { j with materialized := true } }, ?_, hrefAll.trans href, fun p => ?_, hsettled⟩
  · rw [deliveryEffects, run_append, run_append, hrunRef, Option.bind_some]
    change ((run start (placeAll (tool.shown j.revision) j.candidate.paths)).bind _) = _
    rw [hplaced]
    rfl
  · show (if covers j.paths p = true then j.revision.at p else placedAll.index p) = _
    split
    · rfl
    · next hout => rw [hindexAll, hindex, h.index p (by simpa using hout)]

/-! ### Crash points -/

/-- An update of one delivered name, to what it was or to what it shall be. -/
theorem Underway.update (h : Underway tool s j mid) {p : Path} (hp : p ∈ j.paths) {files : Files}
    {i : Identity} (hfiles : Between s.files (tool.shown j.revision) j.paths files)
    (hsame : ∀ q ∈ j.paths, files q = mid.files q)
    (hi : i.node = (j.before p).node ∨ i.node = (tool.shown j.revision p).node) :
    Underway tool s j { mid with files := Function.update files p i.node } where
  ref := h.ref
  index := h.index
  listed q hq := by
    show Function.update files p i.node q = _ ∨ Function.update files p i.node q = _
    by_cases hqp : q = p
    · rw [hqp, Function.update_self]
      exact hi
    · rw [Function.update_of_ne hqp, hsame q hq]
      exact h.listed q hq
  between := hfiles.update hp i

/-- The executable bit in between is that of the file before, or that of a new file. -/
theorem recoverable_written {before shown : Identity} {data : Bytes} {executable x : Bool}
    {node : Option Node} (hshown : shown = .file data executable) (hrec : Recoverable before shown)
    (hnode : node = before.node ∨ node = shown.node) (hwritten : written data node = some (.file data x)) :
    (Identity.file data x).node = before.node ∨ (Identity.file data x).node = shown.node := by
  subst hshown
  rcases hnode with rfl | rfl
  · cases before with
    | missing =>
        obtain rfl : executable = false := hrec
        cases hwritten
        exact Or.inr rfl
    | file data' executable' =>
        cases hwritten
        rcases hrec with rfl | rfl
        · exact Or.inr rfl
        · exact Or.inl rfl
  · cases hwritten
    exact Or.inr rfl

/-- Stopping while one name is placed. -/
theorem Underway.place_take (h : Underway tool s j mid) (hclear : Clear s.files (tool.shown j.revision) j.paths)
    {p : Path} (hp : p ∈ j.paths) (hrec : Recoverable (j.before p) (tool.shown j.revision p)) {k : Nat}
    {mid' : Shared} (hrun : run mid ((place p (tool.shown j.revision p)).take k) = some mid') :
    Underway tool s j mid' := by
  have hdirs := shown_directories tool j.revision
  cases hshown : tool.shown j.revision p with
  | missing =>
      rw [hshown] at hrun
      match k with
      | 0 =>
          cases hrun
          exact h
      | k + 1 =>
          have hfull : run mid (place p .missing) = some mid' := by
            rwa [place, List.take_succ_cons, List.take_nil] at hrun
          obtain ⟨-, rfl⟩ := run_place_ok hfull
          rw [placed_missing]
          exact h.update hp h.between (fun _ _ => rfl) (Or.inr (by rw [hshown]))
  | file data executable =>
      have hne : tool.shown j.revision p ≠ .missing := by
        rw [hshown]
        exact Identity.noConfusion
      rw [hshown] at hrun
      obtain ⟨i, hi⟩ := h.between.listed p hp
      have hmade := h.between.withParents hclear hdirs hp hne
      have hkept : ∀ q ∈ j.paths, AutoAgents.withParents mid.files p q = mid.files q :=
        fun q hq => withParents_listed hclear hdirs hp hne hq
      cases hblocked : blocked mid.files p with
      | true =>
          cases k with
          | zero =>
              cases hrun
              exact h
          | succ k =>
              rw [place, List.take_succ_cons, run_cons, Effect.apply, hblocked] at hrun
              cases hrun
      | false =>
          obtain ⟨x, hwritten⟩ := written_node data i
          have hself : written data (AutoAgents.withParents mid.files p p) = some (.file data x) := by
            rw [withParents_self, hi, hwritten]
          match k with
          | 0 =>
              cases hrun
              exact h
          | 1 =>
              rw [place, List.take_succ_cons, run_cons, mkdir_files mid p hblocked] at hrun
              cases hrun
              refine ⟨h.ref, h.index, fun q hq => ?_, hmade⟩
              simp only [hkept q hq]
              exact h.listed q hq
          | 2 =>
              rw [place, List.take_succ_cons, run_cons, mkdir_files mid p hblocked, Option.bind_some,
                List.take_succ_cons, run_cons, writeBytes_files hself] at hrun
              cases hrun
              exact h.update (i := .file data x) hp hmade hkept
                (recoverable_written hshown hrec (h.listed p hp) (hi.symm ▸ hwritten))
          | k + 3 =>
              have hfull : run mid (place p (.file data executable)) = some mid' := by
                rwa [place, List.take_succ_cons, List.take_succ_cons, List.take_succ_cons, List.take_nil]
                  at hrun
              obtain ⟨-, rfl⟩ := run_place_ok hfull
              rw [placed_file]
              exact h.update hp hmade hkept (Or.inr (by rw [hshown]))

/-- Stopping while the names are placed. -/
theorem Underway.placeAll_take (h : Underway tool s j mid)
    (hclear : Clear s.files (tool.shown j.revision) j.paths) {names : List Path}
    (hnames : ∀ p ∈ names, p ∈ j.paths ∧ Recoverable (j.before p) (tool.shown j.revision p)) {k : Nat}
    {mid' : Shared} (hrun : run mid ((placeAll (tool.shown j.revision) names).take k) = some mid') :
    Underway tool s j mid' := by
  induction names generalizing mid k with
  | nil =>
      rw [placeAll, List.flatMap_nil, List.take_nil] at hrun
      cases hrun
      exact h
  | cons p names ih =>
      obtain ⟨hp, hrec⟩ := hnames p List.mem_cons_self
      rw [placeAll, List.flatMap_cons, List.take_append, run_append] at hrun
      obtain ⟨one, hone, hrest⟩ := Option.bind_eq_some_iff.mp hrun
      exact ih (h.place_take hclear hp hrec hone)
        (fun p' hp' => hnames p' (List.mem_cons_of_mem _ hp')) hrest

/-- The checkout when a delivery starts. -/
theorem Underway.start (href : s.ref = j.base) (hbefore : ∀ p ∈ j.paths, s.files p = (j.before p).node) :
    Underway tool s j { s with journal := some j } where
  ref := Or.inl href
  index _ _ := rfl
  listed p hp := Or.inl (hbefore p hp)
  between := Between.refl fun p hp => ⟨j.before p, hbefore p hp⟩

/-- Stopping between any two effects of the delivery. -/
theorem Underway.deliveryEffects_take (h : Underway tool s j mid)
    (hclear : Clear s.files (tool.shown j.revision) j.paths)
    (hrec : ∀ p ∈ j.paths, Recoverable (j.before p) (tool.shown j.revision p)) {k : Nat} {mid' : Shared}
    (hrun : run mid ((deliveryEffects tool mid j).take k) = some mid') : Underway tool s j mid' := by
  rw [deliveryEffects, List.append_assoc, List.take_append, run_append] at hrun
  obtain ⟨first, hfirst, hrun⟩ := Option.bind_eq_some_iff.mp hrun
  rw [List.take_append, run_append] at hrun
  obtain ⟨second, hsecond, hthird⟩ := Option.bind_eq_some_iff.mp hrun
  have hmoved : Underway tool s j first := by
    split at hfirst
    · match k with
      | 0 =>
          cases hfirst
          exact h
      | k + 1 =>
          rw [List.take_succ_cons, List.take_nil] at hfirst
          cases hfirst
          exact ⟨Or.inr rfl, h.index, h.listed, h.between⟩
    · rw [List.take_nil] at hfirst
      cases hfirst
      exact h
  have hplaced := hmoved.placeAll_take hclear (fun p hp => ⟨hp, hrec p hp⟩) hsecond
  -- What is left resets the index at delivered names, and writes the journal.
  have htail : ∀ {n : Nat}, run second ([.reset j.revision j.paths,
      .journal { j with materialized := true }].take n) = some mid' → Underway tool s j mid' := by
    intro n hn
    match n with
    | 0 =>
        cases hn
        exact hplaced
    | 1 =>
        cases hn
        refine ⟨hplaced.ref, fun p hp => ?_, hplaced.listed, hplaced.between⟩
        exact (if_neg (by simpa using hp)).trans (hplaced.index p hp)
    | n + 2 =>
        rw [List.take_succ_cons, List.take_succ_cons, List.take_nil] at hn
        cases hn
        refine ⟨hplaced.ref, fun p hp => ?_, hplaced.listed, hplaced.between⟩
        exact (if_neg (by simpa using hp)).trans (hplaced.index p hp)
  exact htail hthird

/-! ### The condition for recovery -/

theorem finishDelivery_ok {delivery : Delivery} :
    finishDelivery tool s j = .ok (final, delivery) ↔
      finishEffects tool s j = .ok (deliveryEffects tool s j) ∧
        run s (deliveryEffects tool s j) = some final ∧ delivery = ⟨j.revision, j.paths⟩ := by
  unfold finishDelivery
  rw [bind_ok]
  constructor
  · rintro ⟨effects, heffects, hrun⟩
    obtain rfl := (finishEffects_ok.mp heffects).2.2
    split at hrun
    · next s' hs' =>
        cases hrun
        exact ⟨heffects, hs', rfl⟩
    · cases hrun
  · rintro ⟨heffects, hrun, rfl⟩
    refine ⟨_, heffects, ?_⟩
    rw [hrun]
    rfl

theorem Finished.same (h : Finished tool s j final) {final' : Shared} (h' : Finished tool s j final') :
    final'.ref = final.ref ∧ final'.files = final.files ∧ final'.index = final.index :=
  ⟨h'.ref.trans h.ref.symm, h.files.unique h'.files, funext fun p => (h'.index p).trans (h.index p).symm⟩

/-- The delivery completes; and stopped before, between or after its effects, it completes from its
journal, with the same branch, files and index. -/
def Recovers (tool : Tool) (s : Shared) (j : Journal) : Prop :=
  ∃ final delivery, finishDelivery tool { s with journal := some j } j = .ok (final, delivery) ∧
    ∀ k, ∃ mid, run { s with journal := some j }
        ((deliveryEffects tool { s with journal := some j } j).take k) = some mid ∧
      ∃ final', finishDelivery tool mid j = .ok (final', delivery) ∧
        final'.ref = final.ref ∧ final'.files = final.files ∧ final'.index = final.index

theorem run_take {effects : List Effect} (h : run s effects = some final) (k : Nat) :
    ∃ mid, run s (effects.take k) = some mid := by
  rw [← List.take_append_drop k effects, run_append] at h
  obtain ⟨mid, hmid, -⟩ := Option.bind_eq_some_iff.mp h
  exact ⟨mid, hmid⟩

/-- The effects before, for and after one name. -/
theorem deliveryEffects_split (tool : Tool) (s : Shared) {before after : List Path} {p : Path} (h : j.paths = before ++ p :: after) :
    ∃ lead rest start, deliveryEffects tool s j = lead ++ (placeAll (tool.shown j.revision) before ++
        (place p (tool.shown j.revision p) ++ rest)) ∧
      run s lead = some start ∧ start.files = s.files := by
  refine ⟨if s.ref = j.base then [updateRef j.revision] else [],
    placeAll (tool.shown j.revision) after ++
      [reset j.revision j.paths, journal { j with materialized := true }],
    if s.ref = j.base then { s with ref := j.revision } else s, ?_, ?_, ?_⟩
  · rw [deliveryEffects, h, placeAll_append, placeAll, placeAll, placeAll, List.flatMap_cons]
    simp only [List.append_assoc]
  · split <;> rfl
  · split <;> rfl

/-- What has been placed by the time a name is reached. -/
theorem run_reaches {p : Path} (hp : p ∈ j.paths) (hrun : run s (deliveryEffects tool s j) = some final) :
    ∃ before after first, j.paths = before ++ p :: after ∧
      (∃ start, start.files = s.files ∧
        run start (placeAll (tool.shown j.revision) before) = some first) ∧
      (∃ m rest, ∀ k, run s ((deliveryEffects tool s j).take (m + k)) =
        run first ((place p (tool.shown j.revision p) ++ rest).take k)) ∧
      ∃ mid, run first (place p (tool.shown j.revision p)) = some mid := by
  obtain ⟨before, after, hsplit⟩ := List.append_of_mem hp
  obtain ⟨lead, rest, start, heffects, hstart, hfiles⟩ := deliveryEffects_split tool s hsplit
  rw [heffects, run_append, hstart, Option.bind_some, run_append] at hrun
  obtain ⟨first, hfirst, hrest⟩ := Option.bind_eq_some_iff.mp hrun
  rw [run_append] at hrest
  obtain ⟨mid, hmid, -⟩ := Option.bind_eq_some_iff.mp hrest
  refine ⟨before, after, first, hsplit, ⟨start, hfiles, hfirst⟩,
    ⟨lead.length + (placeAll (tool.shown j.revision) before).length, rest, fun k => ?_⟩, mid, hmid⟩
  rw [heffects, Nat.add_assoc, List.take_length_add_append, run_append, hstart, Option.bind_some,
    List.take_length_add_append, run_append, hfirst, Option.bind_some]

/-- A delivery that completes found nothing in the way of a delivered name. -/
theorem clear_of_run (hrun : run s (deliveryEffects tool s j) = some final) :
    Clear s.files (tool.shown j.revision) j.paths := by
  intro p hp q hq
  obtain ⟨before, after, first, hsplit, ⟨start, hfiles, hfirst⟩, -, mid, hmid⟩ := run_reaches hp hrun
  obtain ⟨hblocked, -⟩ := run_place_ok hmid
  have hplain : ∀ node, first.files q = some node → node = .directory := by
    intro node hnode
    have := (List.any_eq_false.mp hblocked) q hq
    simpa [hnode] using this
  have hlisted : Listed j.paths := j.candidate.listed
  rw [hsplit] at hlisted
  obtain ⟨hbefore, hafter, -⟩ := List.pairwise_append.mp hlisted
  obtain ⟨hbelow, -, hne⟩ := mem_ancestors.mp hq
  constructor
  · intro hmem
    cases hshown : tool.shown j.revision q with
    | missing => rfl
    | file data executable =>
        rw [hsplit] at hmem
        have hq : q ∈ before := by
          rcases List.mem_append.mp hmem with hq | hq
          · exact hq
          · rcases List.mem_cons.mp hq with heq | hq
            · exact absurd heq hne
            · exact absurd hbelow ((List.pairwise_cons.mp hafter).1 q hq)
        have hnodup : before.Nodup := hbefore.imp fun {a b} hnot (heq : a = b) => hnot (heq ▸ List.prefix_rfl)
        exact absurd (hplain _ (run_placeAll_file hnodup hfirst hq hshown)) Node.noConfusion
  · intro hmem
    cases hnode : s.files q with
    | none => exact Or.inl rfl
    | some node =>
        have hq : q ∉ before := fun hq => hmem (hsplit ▸ List.mem_append_left _ hq)
        have := hplain node (run_placeAll_of_some hfirst hq (by rw [hfiles, hnode]))
        exact Or.inr (by rw [this])

/-- Stopped when the bytes of a name are written and its mode is not, a delivery that recovers has left
the name as it was, or as it shall be. -/
theorem recoverable_of_recovers (h : Recovers tool s j)
    (hbefore : ∀ p ∈ j.paths, s.files p = (j.before p).node) :
    ∀ p ∈ j.paths, Recoverable (j.before p) (tool.shown j.revision p) := by
  intro p hp
  obtain ⟨final, delivery, hfinish, hcrash⟩ := h
  obtain ⟨-, hrun, -⟩ := finishDelivery_ok.mp hfinish
  obtain ⟨before, after, first, hsplit, ⟨start, hfiles, hfirst⟩, htake, mid, hmid⟩ := run_reaches hp hrun
  obtain ⟨hblocked, -⟩ := run_place_ok hmid
  cases hshown : tool.shown j.revision p with
  | missing => cases j.before p <;> trivial
  | file data executable =>
      have hlisted : Listed j.paths := j.candidate.listed
      rw [hsplit] at hlisted
      obtain ⟨-, -, hlater⟩ := List.pairwise_append.mp hlisted
      -- The name itself has not been touched yet.
      have hsame : first.files p = (j.before p).node := by
        rw [run_placeAll_other hfirst, hfiles]
        · exact hbefore p hp
        · exact fun hmem => hlater p hmem p List.mem_cons_self List.prefix_rfl
        · exact fun q hq habove => hlater q hq p List.mem_cons_self (mem_ancestors.mp habove).1
      obtain ⟨x, hwritten⟩ := written_node data (j.before p)
      have hself : written data (withParents first.files p p) = some (.file data x) := by
        rw [withParents_self, hsame, hwritten]
      obtain ⟨m, rest, htake⟩ := htake
      obtain ⟨stopped, hstopped, final', hfinish', -⟩ := hcrash (m + 2)
      have hwrote : stopped.files p = some (.file data x) := by
        rw [htake, hshown, place, List.cons_append, List.cons_append, List.take_succ_cons,
          List.take_succ_cons, List.take_zero, run_cons, mkdir_files first p hblocked, Option.bind_some,
          run_cons, writeBytes_files hself, Option.bind_some] at hstopped
        cases hstopped
        exact Function.update_self _ _ _
      have hcheck := (finishEffects_ok.mp (finishDelivery_ok.mp hfinish').1).2.1 p hp
      have hknown := (checkDelivered_ok.mp hcheck).2.2
      rw [hwrote, hshown] at hknown
      cases hprior : j.before p with
      | missing =>
          rw [hprior] at hwritten hknown
          cases hwritten
          rcases hknown with hbefore | hshown
          · cases hbefore
          · cases hshown
            rfl
      | file data' executable' =>
          rw [hprior] at hwritten hknown
          cases hwritten
          rcases hknown with hbefore | hshown
          · cases hbefore
            exact Or.inr rfl
          · cases hshown
            exact Or.inl rfl

/-- **Delivery is recoverable exactly when no name needs two effects that the journal tells apart.** For
every delivery that was admitted: it completes, and completes in the same way from every point between
two of its effects, if and only if every delivered name is a product file, nothing stands where a
delivered name needs a directory, and no delivered name is a new executable file or changes its bytes
and its executable bit together. -/
theorem delivery_recovers_iff {base : SourceRecord} {deliveryHead : Option Commit} {note : String}
    {candidate : Candidate} (h : admitDelivery tool s base deliveryHead note candidate = .ok j) :
    Recovers tool s j ↔ (∀ p ∈ candidate.paths, productPath p = true) ∧
      Clear s.files (tool.shown j.revision) candidate.paths ∧
      ∀ p ∈ candidate.paths, Recoverable (j.before p) (tool.shown j.revision p) := by
  obtain ⟨href, rfl, -, hbefore⟩ := admitDelivery_ok h
  have hstart : Underway tool s j { s with journal := some j } := Underway.start href.symm hbefore
  constructor
  · intro hrecovers
    have hrec := recoverable_of_recovers hrecovers hbefore
    obtain ⟨final, delivery, hfinish, -⟩ := hrecovers
    obtain ⟨heffects, hrun, -⟩ := finishDelivery_ok.mp hfinish
    exact ⟨fun p hp => (checkDelivered_ok.mp ((finishEffects_ok.mp heffects).2.1 p hp)).1,
      clear_of_run (s := { s with journal := some j }) hrun, hrec⟩
  · rintro ⟨hproduct, hclear, hrec⟩
    obtain ⟨heffects, final, hrun, hfinished⟩ := hstart.finish hproduct hclear
    refine ⟨final, _, finishDelivery_ok.mpr ⟨heffects, hrun, rfl⟩, fun k => ?_⟩
    obtain ⟨mid, hmid⟩ := run_take hrun k
    have hunderway := hstart.deliveryEffects_take hclear hrec hmid
    obtain ⟨heffects', final', hrun', hfinished'⟩ := hunderway.finish hproduct hclear
    exact ⟨mid, hmid, final', finishDelivery_ok.mpr ⟨heffects', hrun', rfl⟩, hfinished.same hfinished'⟩

/-! ### One new file -/

/-- A checkout with an empty first commit. -/
def emptyCheckout : Shared where
  ref := .initial ∅ "first"
  index := fun _ => none
  files := fun _ => none

def emptySource : SourceRecord := ⟨some (.initial ∅ "first"), []⟩

/-- A candidate that adds one file to an empty source. -/
def newFile (p : Path) (entry : Entry) : Candidate where
  source := .initial ∅ "snapshot"
  revision := .after (.initial ∅ "snapshot") (AList.singleton p entry) "candidate"
  paths := [p]
  listed := listed_singleton p

/-- The journal of its delivery into the empty checkout. -/
def newFileJournal (p : Path) (entry : Entry) : Journal where
  base := .initial ∅ "first"
  revision := .after (.initial ∅ "first") (AList.singleton p entry) "fix"
  before := fun _ => .missing
  candidate := newFile p entry

/-- A new plain file is delivered in the same way from every crash point. -/
theorem delivery_recovers_plain :
    Recovers plainTool emptyCheckout (newFileJournal ["docs", "note.md"] ⟨.regular, [110]⟩) := by
  have hallowed : admitDelivery plainTool emptyCheckout emptySource none "fix"
      (newFile ["docs", "note.md"] ⟨.regular, [110]⟩) =
        .ok (newFileJournal ["docs", "note.md"] ⟨.regular, [110]⟩) := rfl
  refine (delivery_recovers_iff hallowed).mpr ⟨by decide, ?_, ?_⟩
  · intro p hp q hq
    obtain rfl := List.mem_singleton.mp hp
    have hq : q = ["docs"] := by simpa [ancestors] using hq
    subst hq
    exact ⟨by decide, fun _ => Or.inl rfl⟩
  · intro p hp
    obtain rfl := List.mem_singleton.mp hp
    exact (rfl : false = false)

/-- Stopped after the bytes of a new script are written and before its mode is, the delivery is refused
from then on. -/
theorem delivery_script_refused : ∃ j mid,
    admitDelivery plainTool emptyCheckout emptySource none "fix" (newFile ["run.sh"] ⟨.executable, [35]⟩) =
      .ok j ∧
    run { emptyCheckout with journal := some j }
      ((deliveryEffects plainTool { emptyCheckout with journal := some j } j).take 3) = some mid ∧
    finishDelivery plainTool mid j = .error
      ⟨"delivery_conflict", "Product changed during interrupted delivery", .reconciliation⟩ :=
  ⟨_, _, rfl, rfl, rfl⟩

end AutoAgents