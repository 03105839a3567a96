import AutoAgents.BaseRun
import AutoAgents.OperatorAnswers

/-! What an answer under one key leaves of the answer under another key. A change of one key touches a name of
the secrets file and some paths; where the other answer looks at none of these, and the secrets file stays
readable, the other answer is as it was. -/

namespace AutoAgents.Operator

open Base

variable {φ : Type} [FloatText φ] {w : World φ} {s s' t : Store φ}

/-! ### One key in two states -/

/-- The paths that an answer looks at. -/
def lookedPlaces (w : World φ) (record : Fields φ) : List Place :=
  let value := w.show ((record.lookup "value").getD .null)
  [w.place (stripText (w.field record "artifact_path")), w.place (w.show ((record.lookup "runtime_path").getD .null)),
    w.place value, w.place (stripText value)]

/-- The names under which an answer looks for its secret. -/
def lookedNames (w : World φ) (record : Fields φ) : List String :=
  [w.field record "secret_env", stripText (w.field record "secret_env")]

/-- What a key reads is the same in both states. -/
inductive Agrees (w : World φ) (key : String) (s s' : Store φ) : Prop
  | same : s' = s → Agrees w key s s'
  | absent : s.get key = .ok none → s'.get key = .ok none → Agrees w key s s'
  | present {record record' : Fields φ} : s.get key = .ok (some record) → s'.get key = .ok (some record') →
      (∀ name, record'.lookup name = record.lookup name) →
      (w.field record "secret_env" ≠ "" → ∀ name ∈ lookedNames w record,
        (readSecrets φ s'.secrets).map (·.lookup name) = (readSecrets φ s.secrets).map (·.lookup name)) →
      (∀ place ∈ lookedPlaces w record, s'.isFile place = s.isFile place ∧ s'.exists place = s.exists place) →
      Agrees w key s s'

omit [FloatText φ] in
theorem field_congr {record record' : Fields φ} (h : ∀ name, record'.lookup name = record.lookup name) (name : String) :
    w.field record' name = w.field record name := by
  unfold World.field
  rw [h]

theorem Agrees.trans {key : String} (h : Agrees w key s t) (h' : Agrees w key t s') : Agrees w key s s' := by
  cases h with
  | same heq => rwa [heq] at h'
  | absent hs ht =>
      cases h' with
      | same heq => exact .absent hs (by rwa [heq])
      | absent _ hs' => exact .absent hs hs'
      | present ht' _ _ _ _ =>
          rw [ht] at ht'
          cases ht'
  | @present record record' hs ht hfields hsecrets hplaces =>
      cases h' with
      | same heq => exact .present hs (by rwa [heq]) hfields (by rwa [heq]) (by rwa [heq])
      | absent ht' _ =>
          rw [ht] at ht'
          cases ht'
      | @present _ record'' ht' hs' hfields' hsecrets' hplaces' =>
          rw [ht] at ht'
          cases ht'
          have hnames : lookedNames w record' = lookedNames w record := by
            unfold lookedNames
            rw [field_congr hfields]
          have hlooked : lookedPlaces w record' = lookedPlaces w record := by
            unfold lookedPlaces
            rw [field_congr hfields, hfields, hfields]
          rw [field_congr hfields, hnames] at hsecrets'
          rw [hlooked] at hplaces'
          refine .present hs hs' (fun name => (hfields' name).trans (hfields name)) ?_ ?_
          · exact fun hsecret name hname => (hsecrets' hsecret name hname).trans (hsecrets hsecret name hname)
          · intro place hplace
            obtain ⟨hfile, hexists⟩ := hplaces place hplace
            obtain ⟨hfile', hexists'⟩ := hplaces' place hplace
            exact ⟨hfile'.trans hfile, hexists'.trans hexists⟩

/-- A secret is found alike. -/
theorem secret_bind {name : String} {read read' : Except String Secrets} {β : Type}
    (f : Option String → Except String β) (h : read'.map (·.lookup name) = read.map (·.lookup name)) :
    (read' >>= fun secrets => f (secrets.lookup name)) = (read >>= fun secrets => f (secrets.lookup name)) := by
  cases read <;> cases read' <;> simp only [Except.map, reduceCtorEq, Except.error.injEq, Except.ok.injEq] at h
  · rw [h]
  · show f _ = f _
    rw [h]

/-- What a record says depends on what its fields hold, on its secret, and on the files that it names. -/
theorem valueOf_congr {record record' : Fields φ} (hfields : ∀ name, record'.lookup name = record.lookup name)
    (hsecrets : w.field record "secret_env" ≠ "" → ∀ name ∈ lookedNames w record,
      (readSecrets φ s'.secrets).map (·.lookup name) = (readSecrets φ s.secrets).map (·.lookup name))
    (hplaces : ∀ place ∈ lookedPlaces w record, s'.isFile place = s.isFile place ∧ s'.exists place = s.exists place)
    (projection : Projection) : w.valueOf s' record' projection = w.valueOf s record projection := by
  unfold World.valueOf
  cases projection with
  | value =>
      simp only [field_congr hfields, hfields]
      by_cases hsecret : stripText (w.field record "secret_env") = ""
      · rw [if_neg (not_not.mpr hsecret), if_neg (not_not.mpr hsecret)]
      · have hne : w.field record "secret_env" ≠ "" := by
          intro hempty
          rw [hempty, stripText_empty] at hsecret
          exact hsecret rfl
        rw [if_pos hsecret, if_pos hsecret]
        exact secret_bind (fun value => .ok value) (hsecrets hne _ (List.mem_cons_of_mem _ (List.mem_singleton.mpr rfl)))
  | runtimePath =>
      simp only [hfields]
      cases hpath : record.lookup "runtime_path" with
      | none => rfl
      | some v =>
          have hplace := (hplaces (w.place (w.show v)) (by simp [lookedPlaces, hpath])).1
          simp only [hplace]
  | artifactPath => simp only [field_congr hfields]
  | version => simp only [hfields]
  | sha256 => simp only [hfields]

theorem Agrees.valueFor {key : String} (h : Agrees w key s s') (projection : Projection) :
    w.valueFor s' key projection = w.valueFor s key projection := by
  unfold World.valueFor
  cases h with
  | same heq => rw [heq]
  | absent hs hs' => rw [hs, hs']
  | present hs hs' hfields hsecrets hplaces =>
      rw [hs, hs']
      exact valueOf_congr hfields hsecrets hplaces projection

omit [FloatText φ] in
theorem number_congr {record record' : Fields φ} (h : ∀ name, record'.lookup name = record.lookup name) (name : String) :
    w.number record' name = w.number record name := by
  unfold World.number
  rw [h]

omit [FloatText φ] in
theorem validateAnswer_congr {request : Request} {value : Json φ}
    (h : s'.exists (w.place (stripText (w.show value))) = s.exists (w.place (stripText (w.show value)))) :
    w.validateAnswer s' request value = w.validateAnswer s request value := by
  unfold World.validateAnswer
  simp only [h]

theorem validRecord_congr {record record' : Fields φ} (hfields : ∀ name, record'.lookup name = record.lookup name)
    (hsecrets : w.field record "secret_env" ≠ "" → ∀ name ∈ lookedNames w record,
      (readSecrets φ s'.secrets).map (·.lookup name) = (readSecrets φ s.secrets).map (·.lookup name))
    (hplaces : ∀ place ∈ lookedPlaces w record, s'.isFile place = s.isFile place ∧ s'.exists place = s.exists place)
    (request : Request) : w.validRecord s' request record' = w.validRecord s request record := by
  have hartifact := (hplaces (w.place (stripText (w.field record "artifact_path"))) (by simp [lookedPlaces])).1
  have hvalue := (hplaces (w.place (w.show ((record.lookup "value").getD .null))) (by simp [lookedPlaces])).2
  have htext := (hplaces (w.place (stripText (w.show ((record.lookup "value").getD .null)))) (by simp [lookedPlaces])).2
  unfold World.validRecord
  rw [number_congr hfields]
  congr 1
  funext version
  simp only [field_congr hfields, hfields, validateAnswer_congr htext, hartifact, hvalue]
  by_cases hempty : w.field record "secret_env" = ""
  · simp only [hempty, if_true]
  · have hsame := secret_bind (fun value => if value.getD "" = "" then
        (.ok (false, "the stored secret is unavailable") : Except String (Bool × String)) else .ok (true, ""))
      (hsecrets hempty _ List.mem_cons_self)
    simp only [if_neg hempty]
    split
    · rfl
    · split
      · rfl
      · split
        · exact hsame
        · rfl

theorem Agrees.isValid {key : String} (h : Agrees w key s s') {request : Request} (hkey : request.key = key) :
    w.isValid s' request = w.isValid s request := by
  unfold World.isValid
  rw [hkey]
  cases h with
  | same heq => rw [heq]
  | absent hs hs' => rw [hs, hs']
  | present hs hs' hfields hsecrets hplaces =>
      rw [hs, hs']
      exact validRecord_congr hfields hsecrets hplaces request

/-! ### Changes of one key -/

/-- A call of `save_answer` or `remove`. -/
inductive Change (φ : Type)
  | save (request : Request) (value : Json φ) (source now : String)
  | remove (key : String)

namespace Change

def key : Change φ → String
  | save request _ _ _ => request.key
  | remove key => key

/-- What the call leaves behind, whether it is refused or not. -/
def apply (w : World φ) (s : Store φ) : Change φ → Store φ
  | save request value source now => (w.saveAnswer request value source now s).2
  | remove key => (w.remove key s).2

/-- The name in the secrets file that the call sets or removes. -/
def secretName (w : World φ) (s : Store φ) : Change φ → Option String
  | save request _ _ _ => if request.isSecret = true then some (secretEnvKey request.key) else none
  | remove key =>
      match s.get key with
      | .ok (some record) =>
          let name := stripText (w.field record "secret_env")
          if name = "" then none else some name
      | _ => none

/-- The text that the call stores as a secret. -/
def secretText (w : World φ) (s : Store φ) : Change φ → Option String
  | save request value _ _ =>
      match w.validateAnswer s request value with
      | .ok (.str text, "") => some text
      | _ => none
  | remove _ => none

/-- The call writes an attestation. -/
def attests (w : World φ) (request : Request) (value : Json φ) : Prop :=
  request.kind = .attestation ∧ request.isSecret = false ∧ w.parseBoolean value = some true

instance (w : World φ) (request : Request) (value : Json φ) : Decidable (attests w request value) :=
  inferInstanceAs (Decidable (_ ∧ _ ∧ _))

/-- The attestation that the call writes or unlinks. -/
def artifact (w : World φ) (s : Store φ) : Change φ → Option Place
  | save request value _ _ => if attests w request value then some (w.place (w.attestationPath request.requestId)) else none
  | remove key =>
      match s.get key with
      | .ok (some record) =>
          let path := stripText (w.field record "artifact_path")
          if path ≠ "" ∧ w.inRoot path = true then some (w.place path) else none
      | _ => none

/-- The places where the call may make a file or a folder appear, or a file disappear. The records are
written in any case, and they are there where another key has one. -/
def places (w : World φ) (s : Store φ) (c : Change φ) : List Place :=
  (if s.gitignore = true then [] else [.gitignore]) ++
    (if s.secrets.isSome = true ∨ c.secretName w s = none then [] else [.secrets]) ++
    (if s.attestations = true then [] else [.attestations]) ++
    match c with
    | save _ _ _ _ => ((c.artifact w s).filter fun place => !s.isFile place).toList
    | remove _ => ((c.artifact w s).filter s.isFile).toList

end Change

/-- The call has nothing in common with the answer that is stored under another key: no name in the secrets
file and no file; and it leaves the secrets readable. -/
structure Apart (w : World φ) (s : Store φ) (c : Change φ) (record : Fields φ) : Prop where
  inOrder : ∀ field ∈ record, field.2.sorted = field.2
  name : w.field record "secret_env" ≠ "" → ∀ name ∈ c.secretName w s, name ∉ lookedNames w record
  readable : w.field record "secret_env" ≠ "" → ∀ name ∈ c.secretName w s,
    (∀ text ∈ c.secretText w s, clean text = true) ∧
      ∀ secrets, readSecrets φ s.secrets = .ok secrets → ∀ entry ∈ secrets, entry.1 ≠ name → clean entry.2 = true
  file : w.field record "secret_env" ≠ "" → c.artifact w s ≠ some .secrets
  places : ∀ place ∈ lookedPlaces w record, place ∉ c.places w s

/-- A rewritten secrets file says of other names what it said. -/
theorem readSecrets_rewritten {secrets written : Secrets} {other : String}
    (hread : readSecrets φ s.secrets = .ok secrets) (hwritten : written.Named)
    (hclean : ∀ entry ∈ written, clean entry.2 = true) (hlookup : written.lookup other = secrets.lookup other) :
    (readSecrets φ (some (writeSecrets written))).map (·.lookup other) =
      (readSecrets φ s.secrets).map (·.lookup other) := by
  rw [readSecrets_clean hwritten hclean, hread]
  show Except.ok ((written.insertionSort byName).lookup other) = Except.ok (secrets.lookup other)
  rw [← hlookup, lookup_perm (sorted_perm written).symm hwritten.nodup]

/-- What `save_answer` can leave behind. -/
inductive Saved (w : World φ) (request : Request) (value : Json φ) (s : Store φ) : Store φ → Prop
  | refused : Saved w request value s s
  | secret {records : List (String × Fields φ)} {secrets : Secrets} {text : String} {record : Fields φ} :
      s.records = .ok records → w.validateAnswer s request value = .ok (.str text, "") → request.isSecret = true →
      readSecrets φ s.secrets = .ok secrets →
      Saved w request value s ((s.writeSecrets (setField secrets (secretEnvKey request.key) text)).writeRecords
        (setField records request.key record))
  | plain {records : List (String × Fields φ)} {record : Fields φ} : s.records = .ok records →
      Saved w request value s (s.writeRecords (setField records request.key record))
  | folder {records : List (String × Fields φ)} : Change.attests w request value → s.records = .ok records →
      Saved w request value s { s with attestations := true }
  | attested {records : List (String × Fields φ)} {record : Fields φ} : Change.attests w request value →
      s.records = .ok records →
      Saved w request value s
        (({ s with attestations := true }.writeFile (w.place (w.attestationPath request.requestId))).writeRecords
          (setField records request.key record))

theorem saveAnswer_saved (request : Request) (value : Json φ) (source now : String) (s : Store φ) :
    Saved w request value s (w.saveAnswer request value source now s).2 := by
  unfold World.saveAnswer
  simp only
  split
  · exact .refused
  · next normalized records record hprepared =>
      obtain ⟨⟨answer, error⟩, hvalidate, hrest⟩ := Base.bind_ok.mp hprepared
      simp only at hrest
      split at hrest
      · cases hrest
      · next herror =>
          have herror : error = "" := not_not.mp herror
          subst herror
          obtain ⟨found, hrecords, hrest⟩ := Base.bind_ok.mp hrest
          obtain ⟨revision, -, hrest⟩ := Base.bind_ok.mp hrest
          cases hrest
          split
          · next hsecret =>
              split
              · next text =>
                  split
                  · exact .refused
                  · next secrets hread => exact .secret hrecords hvalidate hsecret hread
              · exact .refused
          · next hplain =>
              split
              · next hattests =>
                  have hattests : Change.attests w request value := by
                    refine ⟨hattests.1, by simpa using hplain, ?_⟩
                    unfold World.validateAnswer at hvalidate
                    rw [if_pos (Or.inr (Or.inl hattests.1))] at hvalidate
                    split at hvalidate
                    · exact absurd (Prod.mk.inj (Except.ok.inj hvalidate)).2 (by decide)
                    · next parsed hparsed =>
                        obtain ⟨rfl, -⟩ := Prod.mk.inj (Except.ok.inj hvalidate)
                        have htrue := hattests.2
                        cases parsed with
                        | true => exact hparsed
                        | false => cases htrue
                  unfold World.writeAttestation
                  simp only
                  split
                  · next herror =>
                      split at herror
                      · cases herror
                        exact .folder hattests hrecords
                      · cases herror
                  · next path s' hwritten =>
                      split at hwritten
                      · cases hwritten
                      · cases hwritten
                        exact .attested hattests hrecords
              · exact .plain hrecords

/-- What `remove` can leave behind. -/
inductive Removed (w : World φ) (key : String) (s : Store φ) : Store φ → Prop
  | refused : Removed w key s s
  | done {records : List (String × Fields φ)} {record : Fields φ} {t u : Store φ} : s.records = .ok records →
      records.lookup key = some record →
      (t = s ∧ stripText (w.field record "secret_env") = "" ∨ ∃ secrets, readSecrets φ s.secrets = .ok secrets ∧
        stripText (w.field record "secret_env") ≠ "" ∧
          t = s.writeSecrets (popField secrets (stripText (w.field record "secret_env")))) →
      (u = t ∨ stripText (w.field record "artifact_path") ≠ "" ∧
        w.inRoot (stripText (w.field record "artifact_path")) = true ∧
          t.isFile (w.place (stripText (w.field record "artifact_path"))) = true ∧
            u = t.unlink (w.place (stripText (w.field record "artifact_path")))) →
      Removed w key s (u.writeRecords (popField records key))

theorem remove_removed (key : String) (s : Store φ) : Removed w key s (w.remove key s).2 := by
  unfold World.remove
  split
  · exact .refused
  · next records hrecords =>
      split
      · exact .refused
      · next record hrecord =>
          simp only
          by_cases hname : stripText (w.field record "secret_env") = ""
          · rw [if_neg (not_not.mpr hname)]
            simp only
            split
            · next hartifact => exact .done hrecords hrecord (Or.inl ⟨rfl, hname⟩) (Or.inr ⟨hartifact.1, hartifact.2.1, hartifact.2.2, rfl⟩)
            · exact .done hrecords hrecord (Or.inl ⟨rfl, hname⟩) (Or.inl rfl)
          · rw [if_pos hname]
            cases hread : readSecrets φ s.secrets with
            | error error => exact .refused
            | ok secrets =>
                show Removed w key s (Store.writeRecords (if _ then _ else _) _)
                split
                · next hartifact =>
                    exact .done hrecords hrecord (Or.inr ⟨secrets, hread, hname, rfl⟩)
                      (Or.inr ⟨hartifact.1, hartifact.2.1, hartifact.2.2, rfl⟩)
                · exact .done hrecords hrecord (Or.inr ⟨secrets, hread, hname, rfl⟩) (Or.inl rfl)

/-! ### One call -/

omit [FloatText φ] in
/-- A place where no file came or went, and no folder. -/
theorem same_place {place : Place} (hfile : s'.isFile place = s.isFile place)
    (hfolder : place = .attestations → s'.attestations = s.attestations) :
    s'.isFile place = s.isFile place ∧ s'.exists place = s.exists place := by
  refine ⟨hfile, ?_⟩
  unfold Store.exists
  rw [hfile]
  cases place with
  | attestations => rw [hfolder rfl]
  | _ => rfl

omit [FloatText φ] in
theorem isFile_inputs {record : Fields φ} {key : String} (h : s.get key = .ok (some record)) :
    s.isFile .inputs = true := by
  cases hinputs : s.inputs with
  | missing =>
      unfold Store.get Store.records at h
      rw [hinputs] at h
      cases h
  | unreadable =>
      unfold Store.isFile
      rw [hinputs]
  | holds v =>
      unfold Store.isFile
      rw [hinputs]

/-- The records were written, and what another key looks at is as it was. -/
theorem agrees_of_write {records records' : List (String × Fields φ)} {key : String} (hrecords : s.records = .ok records)
    (hlookup : records'.lookup key = records.lookup key)
    (hpresent : ∀ record, records.lookup key = some record → (∀ field ∈ record, field.2.sorted = field.2) ∧
      (w.field record "secret_env" ≠ "" → ∀ name ∈ lookedNames w record,
        (readSecrets φ t.secrets).map (·.lookup name) = (readSecrets φ s.secrets).map (·.lookup name)) ∧
      ∀ place ∈ lookedPlaces w record, place ≠ .inputs → (t.writeRecords records').isFile place = s.isFile place ∧
        (place = .attestations → t.attestations = s.attestations)) : Agrees w key s (t.writeRecords records') := by
  have hget : s.get key = .ok (records.lookup key) := get_some hrecords
  have hget' := get_writeRecords t records' key
  rw [hlookup] at hget'
  cases hrecord : records.lookup key with
  | none =>
      rw [hrecord] at hget hget'
      exact .absent hget hget'
  | some record =>
      rw [hrecord] at hget hget'
      obtain ⟨hsorted, hsecrets, hplaces⟩ := hpresent record hrecord
      refine .present hget hget' (lookup_readBack hsorted) hsecrets fun place hplace => ?_
      by_cases hinputs : place = .inputs
      · subst hinputs
        refine same_place ?_ nofun
        rw [isFile_inputs hget]
        rfl
      · obtain ⟨hfile, hfolder⟩ := hplaces place hplace hinputs
        exact same_place hfile hfolder

/-- What it means for a place not to be touched by a call. -/
structure Untouched (w : World φ) (s : Store φ) (c : Change φ) (place : Place) : Prop where
  gitignore : place = .gitignore → s.gitignore = true
  secrets : place = .secrets → s.secrets.isSome = true ∨ c.secretName w s = none
  folder : place = .attestations → s.attestations = true

omit [FloatText φ] in
theorem untouched {c : Change φ} {place : Place} (h : place ∉ c.places w s) : Untouched w s c place := by
  simp only [Change.places, List.mem_append, not_or] at h
  obtain ⟨⟨⟨hgitignore, hsecrets⟩, hfolder⟩, -⟩ := h
  refine ⟨?_, ?_, ?_⟩
  · rintro rfl
    by_contra hmissing
    simp [hmissing] at hgitignore
  · rintro rfl
    by_contra hmissing
    simp [hmissing] at hsecrets
  · rintro rfl
    by_contra hmissing
    simp [hmissing] at hfolder

omit [FloatText φ] in
theorem notMem_save {request : Request} {value : Json φ} {source now : String} {place : Place}
    (h : place ∉ (Change.save request value source now).places w s) (hattests : Change.attests w request value) :
    place = w.place (w.attestationPath request.requestId) → s.isFile place = true := by
  rintro rfl
  simp only [Change.places, List.mem_append, not_or] at h
  by_contra hmissing
  have hmissing : s.isFile (w.place (w.attestationPath request.requestId)) = false := by simpa using hmissing
  exact h.2 (by simp [Change.artifact, hattests, hmissing])

variable {key : String} {c : Change φ}

omit [FloatText φ] in
theorem isFile_writeFile_other {place other : Place} (hne : place ≠ other) (hgitignore : place = .gitignore → s.gitignore = true) :
    (s.writeFile other).isFile place = s.isFile place := by
  cases place with
  | gitignore => cases other <;> simp [Store.writeFile, Store.isFile, hgitignore rfl]
  | secrets =>
      cases other with
      | secrets => exact absurd rfl hne
      | _ => rfl
  | file name =>
      cases other with
      | file other =>
          have hname : name ≠ other := fun heq => hne (congrArg Place.file heq)
          simp only [Store.writeFile, Store.isFile]
          split
          · rfl
          · simp [hname]
      | _ => rfl
  | inputs => cases other <;> rfl
  | attestations => rfl
  | folder => rfl

omit [FloatText φ] in
theorem isFile_writeFile_self {place : Place} (h : s.isFile place = true) : (s.writeFile place).isFile place = true := by
  cases place with
  | file name =>
      have hmem : s.files.contains name = true := h
      simp only [Store.writeFile, Store.isFile, hmem, if_true]
  | gitignore => rfl
  | secrets => rfl
  | inputs => exact h
  | attestations => cases h
  | folder => cases h

omit [FloatText φ] in
theorem isFile_writeRecords {records : List (String × Fields φ)} {place : Place} (hinputs : place ≠ .inputs)
    (hgitignore : place = .gitignore → s.gitignore = true) : (s.writeRecords records).isFile place = s.isFile place := by
  cases place with
  | gitignore => exact (hgitignore rfl).symm
  | inputs => exact absurd rfl hinputs
  | _ => rfl

omit [FloatText φ] in
theorem gitignore_writeFile (s : Store φ) (place : Place) : (s.writeFile place).gitignore = true := by
  cases place <;> rfl

theorem save_agrees {request : Request} {value : Json φ} {source now : String} (hne : request.key ≠ key)
    (hapart : ∀ record, s.get key = .ok (some record) → Apart w s (.save request value source now) record)
    (h : Saved w request value s s') : Agrees w key s s' := by
  cases h with
  | refused => exact .same rfl
  | @secret records secrets text record hrecords hvalidate hsecret hread =>
      refine agrees_of_write hrecords (lookup_setField_ne records (Ne.symm hne)) fun found hfound => ?_
      have hget : s.get key = .ok (records.lookup key) := get_some hrecords
      rw [hfound] at hget
      have hthis := hapart found hget
      have hname : (Change.save request value source now).secretName w s = some (secretEnvKey request.key) := by
        simp [Change.secretName, hsecret]
      refine ⟨hthis.inOrder, fun hsecret name hlooked => ?_, fun place hplace hinputs => ?_⟩
      · obtain ⟨htext, hold⟩ := hthis.readable hsecret _ hname
        refine readSecrets_rewritten hread (setField_named (readSecrets_named hread) (secretEnvKey_env request.key)) ?_ ?_
        · intro entry hentry
          rcases mem_setField hentry with rfl | ⟨hmem, hother⟩
          · exact htext text (by simp [Change.secretText, hvalidate])
          · exact hold secrets hread entry hmem hother
        · apply lookup_setField_ne
          rintro rfl
          exact hthis.name hsecret _ hname hlooked
      · have huntouched := untouched (hthis.places place hplace)
        refine ⟨?_, fun _ => rfl⟩
        cases place with
        | gitignore => exact (huntouched.gitignore rfl).symm
        | secrets =>
            rcases huntouched.secrets rfl with hsome | hnone
            · exact hsome.symm
            · rw [hname] at hnone
              cases hnone
        | inputs => exact absurd rfl hinputs
        | _ => rfl
  | @plain records record hrecords =>
      refine agrees_of_write hrecords (lookup_setField_ne records (Ne.symm hne)) fun found hfound => ?_
      have hget : s.get key = .ok (records.lookup key) := get_some hrecords
      rw [hfound] at hget
      have hthis := hapart found hget
      refine ⟨hthis.inOrder, fun _ _ _ => rfl, fun place hplace hinputs => ⟨?_, fun _ => rfl⟩⟩
      cases place with
      | gitignore => exact ((untouched (hthis.places _ hplace)).gitignore rfl).symm
      | inputs => exact absurd rfl hinputs
      | _ => rfl
  | @folder records hattests hrecords =>
      have hget : s.get key = .ok (records.lookup key) := get_some hrecords
      cases hfound : records.lookup key with
      | none =>
          rw [hfound] at hget
          exact .absent hget hget
      | some found =>
          rw [hfound] at hget
          refine .present hget hget (fun _ => rfl) (fun _ _ _ => rfl) fun place hplace => same_place ?_ ?_
          · cases place <;> rfl
          · intro hfolder
            exact ((untouched ((hapart found hget).places place hplace)).folder hfolder).symm
  | @attested records record hattests hrecords =>
      refine agrees_of_write hrecords (lookup_setField_ne records (Ne.symm hne)) fun found hfound => ?_
      have hget : s.get key = .ok (records.lookup key) := get_some hrecords
      rw [hfound] at hget
      have hthis := hapart found hget
      refine ⟨hthis.inOrder, fun hsecret _ _ => ?_, fun place hplace hinputs => ?_⟩
      · have hfile := hthis.file hsecret
        simp only [Change.artifact, if_pos hattests, ne_eq, Option.some.injEq] at hfile
        have hsame : ({ s with attestations := true }.writeFile (w.place (w.attestationPath request.requestId))).secrets =
            s.secrets := by
          cases hwritten : w.place (w.attestationPath request.requestId) with
          | secrets => exact absurd hwritten hfile
          | _ => rfl
        rw [hsame]
      · have huntouched := untouched (hthis.places place hplace)
        have hnew := notMem_save (hthis.places place hplace) hattests
        have hsame : ∀ place, ({ s with attestations := true } : Store φ).isFile place = s.isFile place := by
          intro place
          cases place <;> rfl
        constructor
        · rw [isFile_writeRecords hinputs fun _ => gitignore_writeFile _ _]
          by_cases hartifact : place = w.place (w.attestationPath request.requestId)
          · have hthere := hnew hartifact
            subst hartifact
            rw [isFile_writeFile_self (by rw [hsame, hthere]), hthere]
          · have hgitignore : place = .gitignore → ({ s with attestations := true } : Store φ).gitignore = true :=
              huntouched.gitignore
            rw [isFile_writeFile_other hartifact hgitignore, hsame]
        · intro hfolder
          rw [huntouched.folder hfolder]
          cases w.place (w.attestationPath request.requestId) <;> rfl

omit [FloatText φ] in
theorem isFile_unlink {place other : Place} (hne : place ≠ other) : (s.unlink other).isFile place = s.isFile place := by
  cases place with
  | gitignore =>
      cases other with
      | gitignore => exact absurd rfl hne
      | _ => rfl
  | secrets =>
      cases other with
      | secrets => exact absurd rfl hne
      | _ => rfl
  | inputs =>
      cases other with
      | inputs => exact absurd rfl hne
      | _ => rfl
  | file name =>
      cases other with
      | file other =>
          have hname : name ≠ other := fun heq => hne (congrArg Place.file heq)
          simp [Store.unlink, Store.isFile, List.contains_eq_mem, hname]
      | _ => rfl
  | attestations => rfl
  | folder => rfl

theorem remove_agrees {gone : String} (hne : gone ≠ key)
    (hapart : ∀ record, s.get key = .ok (some record) → Apart w s (.remove gone) record)
    (h : Removed w gone s s') : Agrees w key s s' := by
  cases h with
  | refused => exact .same rfl
  | @done records record t u hrecords hrecord hsecret hartifact =>
      refine agrees_of_write hrecords (lookup_popField_ne records (Ne.symm hne)) fun found hfound => ?_
      have hget : s.get key = .ok (records.lookup key) := get_some hrecords
      have hgone : s.get gone = .ok (records.lookup gone) := get_some hrecords
      rw [hfound] at hget
      rw [hrecord] at hgone
      have hthis := hapart found hget
      refine ⟨hthis.inOrder, fun hlooks name hlooked => ?_, fun place hplace hinputs => ?_⟩
      · have hu : u.secrets = t.secrets := by
          rcases hartifact with rfl | ⟨hpath, hroot, -, rfl⟩
          · rfl
          · have hfile := hthis.file hlooks
            simp only [Change.artifact, hgone, if_pos (And.intro hpath hroot), ne_eq, Option.some.injEq] at hfile
            cases hplace : w.place (stripText (w.field record "artifact_path")) with
            | secrets => exact absurd hplace hfile
            | _ => rfl
        rw [hu]
        rcases hsecret with ⟨rfl, -⟩ | ⟨secrets, hread, hname, rfl⟩
        · rfl
        · have hsome : (Change.remove gone).secretName w s = some (stripText (w.field record "secret_env")) := by
            simp [Change.secretName, hgone, hname]
          obtain ⟨-, hold⟩ := hthis.readable hlooks _ hsome
          have hnamed := readSecrets_named hread
          refine readSecrets_rewritten hread ⟨?_, popField_nodup hnamed.nodup⟩ ?_ ?_
          · exact fun entry hentry => hnamed.env entry (List.mem_of_mem_filter hentry)
          · intro entry hentry
            obtain ⟨hmem, hother⟩ := List.mem_filter.mp hentry
            exact hold secrets hread entry hmem (by simpa using hother)
          · apply lookup_popField_ne
            rintro rfl
            exact hthis.name hlooks _ hsome hlooked
      · have huntouched := untouched (hthis.places place hplace)
        have ht : place ≠ .gitignore → t.isFile place = s.isFile place := by
          intro hgitignore
          rcases hsecret with ⟨rfl, -⟩ | ⟨secrets, -, hname, rfl⟩
          · rfl
          · cases place with
            | gitignore => exact absurd rfl hgitignore
            | secrets =>
                rcases huntouched.secrets rfl with hsome | hnone
                · exact hsome.symm
                · simp [Change.secretName, hgone, hname] at hnone
            | _ => rfl
        have hfolder : t.attestations = s.attestations := by
          rcases hsecret with ⟨rfl, -⟩ | ⟨secrets, -, -, rfl⟩ <;> rfl
        constructor
        · by_cases hgitignore : place = .gitignore
          · subst hgitignore
            exact (huntouched.gitignore rfl).symm
          · rw [isFile_writeRecords hinputs fun heq => absurd heq hgitignore, ← ht hgitignore]
            rcases hartifact with rfl | ⟨hpath, hroot, hthere, rfl⟩
            · rfl
            · apply isFile_unlink
              rintro rfl
              rw [ht hgitignore] at hthere
              have hmem := hthis.places _ hplace
              simp only [Change.places, List.mem_append, not_or] at hmem
              exact hmem.2 (by simp [Change.artifact, hgone, hpath, hroot, hthere])
        · intro _
          rcases hartifact with rfl | ⟨-, -, -, rfl⟩
          · exact hfolder
          · rw [← hfolder]
            cases w.place (stripText (w.field record "artifact_path")) <;> rfl

theorem apply_agrees (hne : c.key ≠ key) (hapart : ∀ record, s.get key = .ok (some record) → Apart w s c record) :
    Agrees w key s (c.apply w s) := by
  cases c with
  | save request value source now => exact save_agrees hne hapart (saveAnswer_saved request value source now s)
  | remove gone => exact remove_agrees hne hapart (remove_removed gone s)

/-! ### Runs -/

/-- The calls that change one key, in any order. -/
def changes (w : World φ) (key : String) (start : Store φ) : System (Store φ) (Change φ) where
  start s := s = start
  step s c s' := c.key = key ∧ s' = c.apply w s

/-- Saving and removing the answer under one key leaves the answer under another key as it was, as long as the
calls have no name of the secrets file and no file in common with it, and leave the secrets readable. -/
theorem answers_independent (w : World φ) {key other : String} (hne : key ≠ other) {start : Store φ}
    {trace : List (Taken (Store φ) (Change φ))} (h : System.Run (changes w key start) trace s)
    (hmeets : System.Meets (fun s c _ => ∀ record, s.get other = .ok (some record) → Apart w s c record) trace) :
    (∀ projection, w.valueFor s other projection = w.valueFor start other projection) ∧
      ∀ request, request.key = other → w.isValid s request = w.isValid start request := by
  have hagrees : Agrees w other start s := by
    refine h.invariant_of_meets (I := Agrees w other start) ?_ ?_ hmeets
    · rintro _ rfl
      exact .same rfl
    · rintro before c after hbefore hapart ⟨hkey, rfl⟩
      exact hbefore.trans (apply_agrees (by rwa [hkey]) hapart)
  exact ⟨hagrees.valueFor, fun request hkey => hagrees.isValid hkey⟩

/-! ### Keys that share a name -/

def underscoreRequest : Request where
  requestId := "r1"
  key := "api_token"
  kind := .secret
  key_valid := by decide

def dottedRequest : Request where
  requestId := "r2"
  key := "api.token"
  kind := .secret
  key_valid := tokenRequest.key_valid

/-- The store with the answer of one key. -/
def oneAnswer : Store FloatLiteral :=
  (plainWorld.saveAnswer underscoreRequest (.str "first") "interactive" "now" emptyStore).2

def twoAnswers : Store FloatLiteral := (Change.save dottedRequest (.str "second") "interactive" "later").apply plainWorld oneAnswer

/-- The answer of the key as it stands in the store. -/
def oneRecord : Fields FloatLiteral := readBack (secretRecord underscoreRequest "interactive" "now" 1)

theorem oneAnswer_written : oneAnswer = (emptyStore.writeSecrets [(secretEnvKey "api_token", "first")]).writeRecords
    [("api_token", secretRecord underscoreRequest "interactive" "now" 1)] :=
  @saveAnswer_written FloatLiteral _ plainWorld emptyStore underscoreRequest (.str "first") "first" [] [] 0
    "interactive" "now" rfl rfl rfl rfl rfl

theorem oneAnswer_secrets : oneAnswer.secrets = some (writeSecrets [(secretEnvKey "api_token", "first")]) := by
  rw [oneAnswer_written]
  rfl

theorem oneAnswer_read : readSecrets FloatLiteral oneAnswer.secrets = .ok [(secretEnvKey "api_token", "first")] := by
  have hnamed : Secrets.Named [(secretEnvKey "api_token", "first")] := by
    refine ⟨fun entry hentry => ?_, List.nodup_singleton _⟩
    obtain rfl := List.mem_singleton.mp hentry
    exact secretEnvKey_env "api_token"
  rw [oneAnswer_secrets]
  refine readSecrets_clean hnamed fun entry hentry => ?_
  obtain rfl := List.mem_singleton.mp hentry
  decide

theorem oneAnswer_get : oneAnswer.get "api_token" = .ok (some oneRecord) := by
  rw [oneAnswer_written, get_writeRecords]
  rfl

theorem oneRecord_env : oneRecord.lookup "secret_env" = some (.str (secretEnvKey "api_token")) :=
  (lookup_readBack (secretRecord_sorted underscoreRequest "interactive" "now" 1) "secret_env").trans
    (secretRecord_env underscoreRequest "interactive" "now" 1)

/-- A secret under a name of its own. -/
def passwordRequest : Request where
  requestId := "r3"
  key := "db_password"
  kind := .secret
  key_valid := by decide

theorem answers_independent_password :
    plainWorld.valueFor ((Change.save passwordRequest (.str "second") "interactive" "later").apply plainWorld oneAnswer)
      "api_token" .value = plainWorld.valueFor oneAnswer "api_token" .value := by
  have hrun := (System.Run.start (S := changes plainWorld "db_password" oneAnswer) rfl).step
    (l := .save passwordRequest (.str "second") "interactive" "later") ⟨rfl, rfl⟩
  refine (answers_independent plainWorld (by decide) hrun ?_).1 .value
  intro turn hturn record hrecord
  obtain rfl := List.mem_singleton.mp hturn
  obtain rfl : oneRecord = record := Option.some.inj (Except.ok.inj (oneAnswer_get.symm.trans hrecord))
  have hfield : plainWorld.field oneRecord "secret_env" = secretEnvKey "api_token" := by
    unfold World.field
    rw [oneRecord_env]
    rfl
  have hlooked : lookedNames plainWorld oneRecord = [secretEnvKey "api_token", secretEnvKey "api_token"] := by
    unfold lookedNames
    rw [hfield, stripText_env (secretEnvKey_env "api_token")]
  refine ⟨readBack_sorted _, fun _ name hname => ?_, fun _ name hname => ⟨?_, ?_⟩, fun _ hfile => ?_, ?_⟩
  · obtain rfl : secretEnvKey "db_password" = name := Option.some.inj hname
    rw [hlooked]
    decide
  · intro text htext
    obtain rfl : "second" = text := Option.some.inj htext
    decide
  · intro secrets hread entry hentry _
    obtain rfl := Except.ok.inj (oneAnswer_read.symm.trans hread)
    obtain rfl := List.mem_singleton.mp hentry
    decide
  · cases hfile
  · intro place hplace hnew
    -- the answer looks at files only, the call adds none
    have hfile : ∃ path, place = .file path := by
      simp only [lookedPlaces, List.mem_cons, List.not_mem_nil, or_false] at hplace
      rcases hplace with rfl | rfl | rfl | rfl <;> exact ⟨_, rfl⟩
    obtain ⟨path, rfl⟩ := hfile
    simp only [Change.places, List.mem_append] at hnew
    rcases hnew with ((hnew | hnew) | hnew) | hnew
    · split at hnew <;> simp at hnew
    · split at hnew <;> simp at hnew
    · split at hnew <;> simp at hnew
    · cases hnew

/-- Saving the answer of the one key changes the answer of the other. -/
theorem shared_name_overwritten :
    ∃ trace, System.Run (changes plainWorld "api.token" oneAnswer) trace twoAnswers ∧
      plainWorld.valueFor oneAnswer "api_token" .value = .ok (some "first") ∧
      plainWorld.valueFor twoAnswers "api_token" .value = .ok (some "second") := by
  have hshared : secretEnvKey "api.token" = secretEnvKey "api_token" := by decide
  have henv := secretEnvKey_env "api_token"
  have hread := oneAnswer_read
  obtain ⟨records, hrecords, hfound⟩ := get_ok oneAnswer_get
  have hnone : records.lookup "api.token" = none := by
    have hother : oneAnswer.get "api.token" = .ok none := by
      rw [oneAnswer_written, get_writeRecords]
      rfl
    exact Except.ok.inj ((get_some hrecords).symm.trans hother)
  have htwo : twoAnswers = (oneAnswer.writeSecrets (setField [(secretEnvKey "api_token", "first")]
      (secretEnvKey "api_token") "second")).writeRecords
        (setField records "api.token" (secretRecord dottedRequest "interactive" "later" 1)) := by
    rw [← hshared] at hread ⊢
    refine @saveAnswer_written FloatLiteral _ plainWorld oneAnswer dottedRequest (.str "second") "second" _ records 0
      "interactive" "later" rfl rfl hread hrecords ?_
    show plainWorld.number ((records.lookup "api.token").getD []) "revision" = .ok 0
    rw [hnone]
    rfl
  have happly : twoAnswers = (Change.save dottedRequest (.str "second") "interactive" "later").apply plainWorld oneAnswer := by
    rw [twoAnswers]
  have hstep : (changes plainWorld "api.token" oneAnswer).step oneAnswer (.save dottedRequest (.str "second") "interactive" "later")
      twoAnswers := And.intro rfl happly
  refine ⟨_, (System.Run.start rfl).step hstep, ?_, ?_⟩
  · unfold World.valueFor
    rw [oneAnswer_get]
    have hempty : Secrets.Named [] := ⟨fun _ h => absurd h List.not_mem_nil, List.nodup_nil⟩
    refine valueOf_secret oneRecord_env henv hempty oneAnswer_secrets ?_
    intro entry hentry
    obtain rfl := List.mem_singleton.mp hentry
    decide
  · unfold World.valueFor
    rw [htwo, get_writeRecords, lookup_setField_ne _ (by decide), hfound]
    refine valueOf_secret ((lookup_readBack (readBack_sorted _) "secret_env").trans oneRecord_env) henv
      (readSecrets_named hread) rfl ?_
    intro entry hentry
    rcases mem_setField hentry with rfl | ⟨hold, hne⟩
    · decide
    · obtain rfl := List.mem_singleton.mp hold
      exact absurd rfl hne

end AutoAgents.Operator
