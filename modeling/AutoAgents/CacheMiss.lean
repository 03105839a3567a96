import AutoAgents.ProofCache

/-! What a lookup of the proof cache leaves in the project where it finds no result. -/

namespace AutoAgents.Proofs

/-- The same files and directories. -/
def Machine.Same (m m' : Machine) : Prop := ∀ path, m'.node path = m.node path

theorem Machine.Same.refl (m : Machine) : m.Same m := fun _ => rfl

/-- What is the same at the end was the same on the way, where nothing is taken away. -/
theorem Machine.Same.between {m m₁ m₂ : Machine} (h : m.Same m₂) (h₁ : m.Kept m₁) (h₂ : m₁.Kept m₂) : m.Same m₁ := by
  intro path
  cases hnode : m.node path with
  | some node => exact h₁ path node hnode
  | none =>
    cases hnode₁ : m₁.node path with
    | none => rfl
    | some node =>
      have hlast := h path
      rw [h₂ path node hnode₁, hnode] at hlast
      cases hlast

/-! ### One artifact -/

/-- Every part of the path is a directory. -/
def AllDirectories (m : Machine) (place : Path) : List String → Prop
  | [] => True
  | part :: rest => m.node (place ++ [part]) = some .directory ∧ AllDirectories m (place ++ [part]) rest

/-- Every part of the path stands, up to the first that is no directory. -/
def Standing (m : Machine) (place : Path) : List String → Prop
  | [] => True
  | part :: rest =>
      m.node (place ++ [part]) ≠ none ∧ (m.node (place ++ [part]) = some .directory → Standing m (place ++ [part]) rest)

theorem openDirectories_all {m : Machine} {place : Path} {parts : List String} (h : AllDirectories m place parts) :
    openDirectories m place parts = (m, some (place ++ parts)) := by
  induction parts generalizing place with
  | nil => rw [openDirectories, List.append_nil]
  | cons part rest ih =>
    rw [openDirectories, h.1]
    simp only
    rw [ih h.2, List.append_assoc, List.singleton_append]

/-- The last part of a path is looked at where the others are directories. -/
theorem standing_snoc {m : Machine} {place : Path} {parts : List String} {last : String} :
    Standing m place (parts ++ [last]) ↔
      Standing m place parts ∧ (AllDirectories m place parts → m.node (place ++ parts ++ [last]) ≠ none) := by
  induction parts generalizing place with
  | nil => simp [Standing, AllDirectories]
  | cons part rest ih =>
    have hplace : place ++ part :: rest ++ [last] = place ++ [part] ++ rest ++ [last] := by simp
    rw [List.cons_append, Standing, Standing, AllDirectories, ih, hplace]
    tauto

theorem openDirectories_standing {m : Machine} {place : Path} {parts : List String} (h : Standing m place parts) :
    (openDirectories m place parts).1 = m ∧ ((openDirectories m place parts).2 ≠ none → AllDirectories m place parts) := by
  induction parts generalizing place with
  | nil => exact ⟨rfl, fun _ => trivial⟩
  | cons part rest ih =>
    obtain ⟨hnode, hrest⟩ := h
    unfold openDirectories
    split
    · rename_i hnone
      exact absurd hnone hnode
    · rename_i hdirectory
      obtain ⟨hsame, hall⟩ := ih (hrest hdirectory)
      exact ⟨hsame, fun hopen => ⟨hdirectory, hall hopen⟩⟩
    · exact ⟨rfl, fun hopen => absurd rfl hopen⟩

/-- A missing part is made, and is still there at the end. -/
theorem standing_of_same {m : Machine} {place : Path} {parts : List String}
    (h : m.Same (openDirectories m place parts).1) : Standing m place parts := by
  induction parts generalizing place with
  | nil => trivial
  | cons part rest ih =>
    unfold openDirectories at h
    split at h
    · rename_i hnone
      have hmade := openDirectories_kept (m.put (place ++ [part]) .directory) (place ++ [part]) rest _ _
        (@Machine.node_put_self m (place ++ [part]) .directory (by simp))
      rw [h (place ++ [part]), hnone] at hmade
      cases hmade
    · rename_i hdirectory
      refine ⟨?_, fun _ => ih h⟩
      rw [hdirectory]
      simp
    · rename_i node hnotDirectory hnode
      refine ⟨?_, fun hdirectory => absurd hdirectory ?_⟩
      · rw [hnode]
        simp
      · rw [hnode]
        simpa using hnotDirectory

section

variable (sha256 : String → String) (blobs : String → Option String) (root : Path) (modes : Modes)

/-- Refused before a directory is opened: a bad name, a bad digest, no such blob or a corrupt one, or no project. -/
def RefusedOutright (m : Machine) (name expected : String) : Prop :=
  (pathParts name = [] ∨ isAbsolute name = true ∨ ".." ∈ pathParts name) ∨ fullDigest expected = false ∨
    (∀ data, blobs expected = some data → sha256 data ≠ expected) ∨ m.node root ≠ some .directory

/-- The artifact is where it belongs, with its content and its mode. -/
def InPlace (m : Machine) (name expected : String) : Prop :=
  ¬ RefusedOutright sha256 blobs root m name expected ∧ AllDirectories m root (pathParts name).dropLast ∧
    m.Holds sha256 root modes name expected

/-- The artifact cannot be put back, and nothing is made for it: it is refused outright, or each part of its path
stands, up to one that is no directory, and it is not in place. -/
def Blocked (m : Machine) (name expected : String) : Prop :=
  RefusedOutright sha256 blobs root m name expected ∨
    Standing m root (pathParts name) ∧ ¬ InPlace sha256 blobs root modes m name expected

/-- The first artifact that is not in place is blocked. -/
def Stopped (m : Machine) : Artifacts → Prop
  | [] => False
  | (name, expected) :: rest =>
      Blocked sha256 blobs root modes m name expected ∨
        InPlace sha256 blobs root modes m name expected ∧ Stopped m rest

variable {sha256 blobs root modes}

theorem restoreArtifact_refused {m : Machine} {name expected : String}
    (h : RefusedOutright sha256 blobs root m name expected) :
    restoreArtifact sha256 blobs root modes m name expected = (m, false) := by
  unfold restoreArtifact
  split
  · rfl
  rename_i hname
  split
  · rfl
  rename_i hdigest
  split
  · rfl
  rename_i data hblob
  split
  · rfl
  rename_i hdata
  split
  · rfl
  rename_i hroot
  rcases h with h | h | h | h
  · exact absurd h hname
  · exact absurd h hdigest
  · exact absurd (h data hblob) hdata
  · exact absurd h hroot

/-- What happens to an artifact that is not refused outright. -/
theorem restoreArtifact_open {m : Machine} {name expected : String}
    (h : ¬ RefusedOutright sha256 blobs root m name expected) : ∃ data,
    restoreArtifact sha256 blobs root modes m name expected =
      match openDirectories m root (pathParts name).dropLast with
      | (m, none) => (m, false)
      | (m, some _) =>
          match m.node (root ++ pathParts name) with
          | none => (m.put (root ++ pathParts name) (.file data (modeOf modes name)), true)
          | some (.file existing current) =>
              (m, sha256 existing == expected && current &&& 0o777 == modeOf modes name)
          | some _ => (m, false) := by
  unfold RefusedOutright at h
  push Not at h
  obtain ⟨hname, hdigest, ⟨data, hblob, hdata⟩, hroot⟩ := h
  refine ⟨data, ?_⟩
  unfold restoreArtifact
  have hbad : ¬ (pathParts name = [] ∨ isAbsolute name = true ∨ ".." ∈ pathParts name) := by
    push Not
    exact hname
  rw [if_neg hbad, if_neg hdigest, hblob]
  simp only [hdata, hroot, ne_eq, not_true_eq_false, if_false]
  cases hopen : openDirectories m root (pathParts name).dropLast with
  | mk m' opened =>
    cases opened with
    | none => rfl
    | some parent =>
      have hpath : parent ++ (pathParts name).getLast?.toList = root ++ pathParts name := by
        rw [openDirectories_place hopen, List.append_assoc, List.getLast?_eq_getLast_of_ne_nil hname.1]
        exact congrArg (root ++ ·) (List.dropLast_append_getLast hname.1)
      cases hnode : m'.node (root ++ pathParts name) with
      | none => simp only [hpath, hnode]
      | some node => cases node <;> simp only [hpath, hnode]

theorem pathParts_split {name expected : String} {m : Machine} (h : ¬ RefusedOutright sha256 blobs root m name expected) :
    ∃ last, pathParts name = (pathParts name).dropLast ++ [last] := by
  have hparts : pathParts name ≠ [] := fun hnil => h (.inl (.inl hnil))
  exact ⟨_, (List.dropLast_append_getLast hparts).symm⟩

/-- Where everything on the way stands, nothing is made, and the artifact goes through where it is in place. -/
theorem restoreArtifact_standing {m : Machine} {name expected : String}
    (h : ¬ RefusedOutright sha256 blobs root m name expected) (hstanding : Standing m root (pathParts name)) :
    (restoreArtifact sha256 blobs root modes m name expected).1 = m ∧
      ((restoreArtifact sha256 blobs root modes m name expected).2 = true ↔
        InPlace sha256 blobs root modes m name expected) := by
  obtain ⟨last, hlast⟩ := pathParts_split h
  obtain ⟨data, hrestore⟩ := @restoreArtifact_open sha256 blobs root modes m name expected h
  rw [hlast, standing_snoc] at hstanding
  obtain ⟨hsame, hall⟩ := openDirectories_standing hstanding.1
  rw [List.append_assoc, ← hlast] at hstanding
  rw [hrestore]
  unfold InPlace
  cases hopen : openDirectories m root (pathParts name).dropLast with
  | mk m' opened =>
    rw [hopen] at hsame hall
    cases hsame
    cases opened with
    | none =>
      refine ⟨rfl, iff_of_false (by simp) ?_⟩
      rintro ⟨-, hdirectories, -⟩
      rw [openDirectories_all hdirectories] at hopen
      cases hopen
    | some parent =>
      have hdirectories := hall (by simp)
      have hnode := hstanding.2 hdirectories
      simp only [h, hdirectories, not_false_eq_true, true_and]
      unfold Machine.Holds
      cases hfound : m'.node (root ++ pathParts name) with
      | none => exact absurd hfound hnode
      | some node =>
        cases node with
        | file existing current => simp
        | directory => simp
        | symlink target => simp
        | denied errno => simp

theorem standing_of_restore {m : Machine} {name expected : String}
    (h : ¬ RefusedOutright sha256 blobs root m name expected)
    (hsame : m.Same (restoreArtifact sha256 blobs root modes m name expected).1) : Standing m root (pathParts name) := by
  obtain ⟨last, hlast⟩ := pathParts_split h
  obtain ⟨data, hrestore⟩ := @restoreArtifact_open sha256 blobs root modes m name expected h
  have hkept := openDirectories_kept m root (pathParts name).dropLast
  rw [hrestore] at hsame
  rw [hlast, standing_snoc, List.append_assoc, ← hlast]
  cases hopen : openDirectories m root (pathParts name).dropLast with
  | mk m' opened =>
    have hstanding : m.Same m' → Standing m root (pathParts name).dropLast := by
      intro hm'
      apply standing_of_same
      rw [hopen]
      exact hm'
    rw [hopen] at hsame hkept
    cases opened with
    | none =>
      refine ⟨hstanding hsame, fun hdirectories => ?_⟩
      rw [openDirectories_all hdirectories] at hopen
      cases hopen
    | some parent =>
      simp only at hsame
      cases hfound : m'.node (root ++ pathParts name) with
      | none =>
        -- the file is made, so that it was there
        rw [hfound] at hsame
        have hput := hsame (root ++ pathParts name)
        rw [Machine.node_put_self (by rw [hlast]; simp)] at hput
        refine ⟨hstanding (hsame.between hkept (Machine.Kept.put _ hfound)), fun _ => ?_⟩
        rw [← hput]
        simp
      | some node =>
        rw [hfound] at hsame
        have hm' : m.Same m' := by
          cases node <;> exact hsame
        refine ⟨hstanding hm', fun _ => ?_⟩
        rw [← hm' (root ++ pathParts name), hfound]
        simp

/-- What is put back of one artifact leaves the tree as it is exactly if the artifact is blocked or in place. -/
theorem restoreArtifact_same {m : Machine} {name expected : String} :
    m.Same (restoreArtifact sha256 blobs root modes m name expected).1 ↔
      Blocked sha256 blobs root modes m name expected ∧
          restoreArtifact sha256 blobs root modes m name expected = (m, false) ∨
        InPlace sha256 blobs root modes m name expected ∧
          restoreArtifact sha256 blobs root modes m name expected = (m, true) := by
  by_cases hrefused : RefusedOutright sha256 blobs root m name expected
  · have hrestore := @restoreArtifact_refused sha256 blobs root modes m name expected hrefused
    rw [hrestore]
    exact iff_of_true (.refl m) (.inl ⟨.inl hrefused, rfl⟩)
  · constructor
    · intro hsame
      have hstanding := standing_of_restore hrefused hsame
      obtain ⟨hm, hplace⟩ := @restoreArtifact_standing sha256 blobs root modes m name expected hrefused hstanding
      by_cases hin : InPlace sha256 blobs root modes m name expected
      · exact .inr ⟨hin, Prod.ext hm (hplace.mpr hin)⟩
      · exact .inl ⟨.inr ⟨hstanding, hin⟩, Prod.ext hm (Bool.eq_false_iff.mpr fun htrue => hin (hplace.mp htrue))⟩
    · rintro (⟨-, hrestore⟩ | ⟨-, hrestore⟩)
      · rw [hrestore]
        exact .refl m
      · rw [hrestore]
        exact .refl m

theorem inPlace_standing {m : Machine} {name expected : String} (h : InPlace sha256 blobs root modes m name expected) :
    Standing m root (pathParts name) := by
  obtain ⟨last, hlast⟩ := pathParts_split h.1
  have hall : ∀ {place : Path} {parts : List String}, AllDirectories m place parts → Standing m place parts := by
    intro place parts
    induction parts generalizing place with
    | nil => exact fun _ => trivial
    | cons part rest ih =>
      intro hparts
      refine ⟨?_, fun _ => ih hparts.2⟩
      rw [hparts.1]
      simp
  rw [hlast, standing_snoc, List.append_assoc, ← hlast]
  obtain ⟨-, hdirectories, data, mode, hnode, -⟩ := h
  refine ⟨hall hdirectories, fun _ => ?_⟩
  rw [hnode]
  simp

/-! ### All artifacts of a certificate -/

/-- Where the first artifact that is not in place is blocked, nothing is made. -/
theorem restoreArtifacts_stopped {m : Machine} {artifacts : Artifacts} (h : Stopped sha256 blobs root modes m artifacts) :
    restoreArtifacts sha256 blobs root modes m artifacts = (m, false) := by
  induction artifacts with
  | nil => exact h.elim
  | cons artifact rest ih =>
    obtain ⟨name, expected⟩ := artifact
    unfold restoreArtifacts
    rcases h with hblocked | ⟨hin, hrest⟩
    · have hrestore : restoreArtifact sha256 blobs root modes m name expected = (m, false) := by
        rcases hblocked with hrefused | ⟨hstanding, hnot⟩
        · exact restoreArtifact_refused hrefused
        · by_cases hrefused : RefusedOutright sha256 blobs root m name expected
          · exact restoreArtifact_refused hrefused
          · obtain ⟨hm, hplace⟩ := @restoreArtifact_standing sha256 blobs root modes m name expected hrefused hstanding
            exact Prod.ext hm (Bool.eq_false_iff.mpr fun htrue => hnot (hplace.mp htrue))
      rw [hrestore]
    · obtain ⟨hm, hplace⟩ := @restoreArtifact_standing sha256 blobs root modes m name expected hin.1 (inPlace_standing hin)
      have hrestore : restoreArtifact sha256 blobs root modes m name expected = (m, true) :=
        Prod.ext hm (hplace.mpr hin)
      rw [hrestore]
      exact ih hrest

theorem stopped_of_same {m : Machine} {artifacts : Artifacts}
    (hfail : (restoreArtifacts sha256 blobs root modes m artifacts).2 = false)
    (hsame : m.Same (restoreArtifacts sha256 blobs root modes m artifacts).1) :
    Stopped sha256 blobs root modes m artifacts := by
  induction artifacts with
  | nil => cases hfail
  | cons artifact rest ih =>
    obtain ⟨name, expected⟩ := artifact
    have hkept := (@restoreArtifact_spec sha256 blobs root modes m name expected).1
    have hturn := @restoreArtifact_same sha256 blobs root modes m name expected
    unfold restoreArtifacts at hfail hsame
    cases hrestore : restoreArtifact sha256 blobs root modes m name expected with
    | mk m' done =>
      rw [hrestore] at hfail hsame hkept hturn
      cases done with
      | false =>
        rcases hturn.mp hsame with ⟨hblocked, -⟩ | ⟨-, heq⟩
        · exact .inl hblocked
        · cases heq
      | true =>
        have hrest := (@restoreArtifacts_spec sha256 blobs root modes m' rest).1
        rcases hturn.mp (hsame.between hkept hrest) with ⟨-, heq⟩ | ⟨hin, heq⟩
        · cases heq
        · cases heq
          exact .inr ⟨hin, ih hfail hsame⟩

end

/-! ### A lookup -/

variable (reader : Reader)

/-- The certificates of the candidates whose inputs match, up to an error. -/
def triedCandidates (cache : Cache) (m : Machine) : List (SuccessRow × CertificateRow) → List Certificate
  | [] => []
  | (row, certificate) :: rest =>
      match cacheMatches reader cache m row.observedInputs with
      | .error _ => []
      | .ok false => triedCandidates cache m rest
      | .ok true => certificate.resultPayload :: triedCandidates cache m rest

/-- The certificates that the lookup may put back, in turn, by the files before it. -/
def triedCertificates (cache : Cache) (moment : Moment) (db : Database) (request : Request) : List Certificate :=
  if "unavailable:".toList.isPrefixOf cache.environmentFingerprint.toList then []
  else if cache.disabled then []
  else if request.resultCacheScope = "off" then []
  else if moment.databaseFails then []
  else match (db.certificates.find (requestKey reader cache moment request)).filter
      (fun row => decide (moment.now - cache.maxAgeSeconds ≤ row.updatedAt)) with
    | some row =>
        match if row.resultPayload.observedInputs = [] then .ok true
          else cacheMatches reader cache moment.machine row.resultPayload.observedInputs with
        | .ok true => [row.resultPayload]
        | _ => []
    | none =>
        if permitsObserved request.resultCacheScope = false then []
        else triedCandidates reader cache moment.machine
          (candidateRows cache moment db (requestIdentity reader cache moment request))

/-- The first artifact of the certificate that is not in place is blocked. -/
def CertificateStopped (cache : Cache) (moment : Moment) (payload : Certificate) : Prop :=
  Stopped reader.sha256 moment.blobs cache.projectRoot payload.artifactModes moment.machine payload.artifacts

variable {reader} {cache : Cache} {moment : Moment}

theorem restore_kept (m : Machine) (payload : Certificate) : m.Kept (cache.restore reader moment m payload).1 :=
  (@restoreArtifacts_spec reader.sha256 moment.blobs cache.projectRoot payload.artifactModes m payload.artifacts).1

theorem tryCandidates_kept (m : Machine) (rows : List (SuccessRow × CertificateRow)) :
    m.Kept (tryCandidates reader cache moment m rows).1 := by
  induction rows generalizing m with
  | nil => exact .refl m
  | cons candidate rest ih =>
    obtain ⟨row, certificate⟩ := candidate
    have hkept := @restore_kept reader cache moment m certificate.resultPayload
    unfold tryCandidates
    split
    · exact .refl m
    · exact ih m
    · split
      · rename_i m' hrestore
        rw [hrestore] at hkept
        exact hkept
      · rename_i m' hrestore
        rw [hrestore] at hkept
        exact hkept.trans (ih m')

/-- Candidates none of which is taken leave the tree as it is exactly if each of those tried is stopped. -/
theorem tryCandidates_same {rows : List (SuccessRow × CertificateRow)}
    (hnone : ∀ payload, (tryCandidates reader cache moment moment.machine rows).2 ≠ .ok (some payload)) :
    moment.machine.Same (tryCandidates reader cache moment moment.machine rows).1 ↔
      ∀ payload ∈ triedCandidates reader cache moment.machine rows, CertificateStopped reader cache moment payload := by
  induction rows with
  | nil => exact iff_of_true (.refl _) nofun
  | cons candidate rest ih =>
    obtain ⟨row, certificate⟩ := candidate
    unfold tryCandidates at hnone ⊢
    unfold triedCandidates
    cases hmatch : cacheMatches reader cache moment.machine row.observedInputs with
    | error fault => exact iff_of_true (.refl _) nofun
    | ok found =>
      rw [hmatch] at hnone
      cases found with
      | false => exact ih hnone
      | true =>
        have hkept := @restore_kept reader cache moment moment.machine certificate.resultPayload
        simp only [List.forall_mem_cons] at hnone ⊢
        cases hrestore : cache.restore reader moment moment.machine certificate.resultPayload with
        | mk m' done =>
          rw [hrestore] at hnone hkept
          cases done with
          | true => exact absurd rfl (hnone certificate.resultPayload)
          | false =>
            simp only at hnone ⊢
            constructor
            · intro hsame
              have hm' := hsame.between hkept (tryCandidates_kept m' rest)
              have hstopped : CertificateStopped reader cache moment certificate.resultPayload := by
                refine stopped_of_same ?_ ?_
                · exact congrArg Prod.snd hrestore
                · rw [show restoreArtifacts reader.sha256 moment.blobs cache.projectRoot
                    certificate.resultPayload.artifactModes moment.machine certificate.resultPayload.artifacts =
                      (m', false) from hrestore]
                  exact hm'
              have heq : m' = moment.machine :=
                (congrArg Prod.fst hrestore).symm.trans (congrArg Prod.fst (restoreArtifacts_stopped hstopped))
              rw [heq] at hsame hnone
              exact ⟨hstopped, (ih hnone).mp hsame⟩
            · rintro ⟨hstopped, hrest⟩
              have heq : m' = moment.machine :=
                (congrArg Prod.fst hrestore).symm.trans (congrArg Prod.fst (restoreArtifacts_stopped hstopped))
              rw [heq] at hnone ⊢
              exact (ih hnone).mpr hrest

theorem lookupExact_same {request : Request} {payload : Certificate}
    (hnone : (lookupExact reader cache moment request payload).result = none) :
    moment.machine.Same (lookupExact reader cache moment request payload).machine ↔
      ((if payload.observedInputs = [] then .ok true else cacheMatches reader cache moment.machine payload.observedInputs) =
        .ok true → CertificateStopped reader cache moment payload) := by
  unfold lookupExact at hnone ⊢
  simp only at hnone ⊢
  generalize hfound : (if payload.observedInputs = [] then .ok true
    else cacheMatches reader cache moment.machine payload.observedInputs) = found at hnone ⊢
  cases found with
  | error fault => exact iff_of_true (.refl _) nofun
  | ok found =>
    cases found with
    | false => exact iff_of_true (.refl _) nofun
    | true =>
      simp only [true_implies]
      cases hrestore : cache.restore reader moment moment.machine payload with
      | mk m' done =>
        rw [hrestore] at hnone
        cases done with
        | true => cases hnone
        | false =>
          have hall : restoreArtifacts reader.sha256 moment.blobs cache.projectRoot payload.artifactModes
              moment.machine payload.artifacts = (m', false) := hrestore
          constructor
          · intro hsame
            refine stopped_of_same (congrArg Prod.snd hall) ?_
            rw [hall]
            exact hsame
          · intro hstopped
            have hm' := restoreArtifacts_stopped hstopped
            rw [hall] at hm'
            cases hm'
            exact .refl _

theorem lookupObserved_same {db : Database} {request : Request}
    (hnone : (lookupObserved reader cache moment db request).result = none) :
    moment.machine.Same (lookupObserved reader cache moment db request).machine ↔
      (permitsObserved request.resultCacheScope = true →
        ∀ payload ∈ triedCandidates reader cache moment.machine
          (candidateRows cache moment db (requestIdentity reader cache moment request)),
          CertificateStopped reader cache moment payload) := by
  unfold lookupObserved at hnone ⊢
  by_cases hscope : permitsObserved request.resultCacheScope = false
  · rw [if_pos hscope]
    exact iff_of_true (.refl _) fun htrue => by simp [hscope] at htrue
  · rw [if_neg hscope] at hnone ⊢
    have hcandidates := @tryCandidates_same reader cache moment
      (candidateRows cache moment db (requestIdentity reader cache moment request))
    simp only [Bool.not_eq_false] at hscope
    simp only [hscope, true_implies] at hnone ⊢
    revert hnone hcandidates
    cases tryCandidates reader cache moment moment.machine
        (candidateRows cache moment db (requestIdentity reader cache moment request)) with
    | mk m' answer =>
      intro hnone hcandidates
      cases answer with
      | error fault => exact hcandidates nofun
      | ok found =>
        cases found with
        | none => exact hcandidates (by simp)
        | some payload => cases hnone

theorem lookup_kept (db : Database) (request : Request) :
    moment.machine.Kept (lookupWithReason reader cache moment db request).machine := by
  have hrefl := Machine.Kept.refl moment.machine
  unfold lookupWithReason
  split_ifs
  · exact hrefl
  · exact hrefl
  · exact hrefl
  · exact hrefl
  · split
    · rename_i row _
      have hkept := @restore_kept reader cache moment moment.machine row.resultPayload
      unfold lookupExact
      simp only
      split
      · exact hrefl
      · exact hrefl
      · split
        · rename_i m' hrestore
          rw [hrestore] at hkept
          exact hkept
        · rename_i m' hrestore
          rw [hrestore] at hkept
          exact hkept
    · have hkept := @tryCandidates_kept reader cache moment moment.machine
        (candidateRows cache moment db (requestIdentity reader cache moment request))
      unfold lookupObserved
      split_ifs
      · exact hrefl
      · simp only
        split
        · rename_i m' fault htry
          rw [htry] at hkept
          exact hkept
        · rename_i m' payload htry
          rw [htry] at hkept
          exact hkept
        · rename_i m' htry
          rw [htry] at hkept
          exact hkept

def textReader : Reader := ⟨id, fun _ _ _ _ => false⟩

/-- A content that is its own digest. -/
def sameText (c : Char) : String := String.ofList (List.replicate 64 c)

/-- The files when a result is recorded. -/
def builtMachine : Machine :=
  ⟨[(["work", "new", "a.txt"], .file (sameText 'a') 0o644), (["work", "new"], .directory),
    (["work", "b.txt"], .file (sameText 'b') 0o644), (["work"], .directory)]⟩

/-- The same project without the first artifact, and with another content in the second one. -/
def editedMachine : Machine := ⟨[(["work", "b.txt"], .file (sameText 'c') 0o644), (["work"], .directory)]⟩

def artifactMoment (m : Machine) (now : Int) : Moment where
  machine := m
  blobs := some
  takesBlob _ := true
  now := now
  policy := "policy"

def artifactRequest : Request := ⟨"pytest", "source", "source", "exact", "metadata"⟩

def artifactResult : CommandResult where
  command := "pytest"
  ok := true
  returncode := 0
  artifacts := [("new/a.txt", sameText 'a'), ("b.txt", sameText 'b')]

def artifactCache : Cache := { projectRoot := ["work"] }

def artifactDatabase : Database :=
  databaseAfter textReader [.record artifactCache (artifactMoment builtMachine 10) artifactRequest artifactResult]

/-- The lookup in the edited project: no result, and the folder of the first artifact. -/
theorem edited_outcome :
    (lookupWithReason textReader artifactCache (artifactMoment editedMachine 20) artifactDatabase
        artifactRequest).result.isNone = true ∧
      (lookupWithReason textReader artifactCache (artifactMoment editedMachine 20) artifactDatabase
        artifactRequest).reason = "artifact_missing_or_conflicting" ∧
      (lookupWithReason textReader artifactCache (artifactMoment editedMachine 20) artifactDatabase
        artifactRequest).machine.node ["work", "new"] = some .directory := by
  decide +kernel

end AutoAgents.Proofs
