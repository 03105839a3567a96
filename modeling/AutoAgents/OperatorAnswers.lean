import AutoAgents.OperatorStore

/-! Saving a secret and reading it again. The answer is found, with the other secrets, just when no stored value
has a line boundary that JSON does not escape. -/

namespace AutoAgents.Operator

open Base

variable {φ : Type} [FloatText φ] {w : World φ} {s s' t : Store φ}

/-! ### Reading back -/

/-- The fields as they are read back. -/
def readBack (record : Fields φ) : Fields φ := (sortedFields record).insertionSort byKey

omit [FloatText φ] in
theorem lookup_records {fields : Fields φ} (h : ∀ field ∈ fields, ∃ record, field.2 = Json.obj record) (key : String) :
    (fields.filterMap asRecord).lookup key = (fields.lookup key).bind fun v => (asRecord (key, v)).map Prod.snd := by
  induction fields with
  | nil => rfl
  | cons field fields ih =>
      obtain ⟨k, v⟩ := field
      obtain ⟨record, hv⟩ := h (k, v) List.mem_cons_self
      simp only at hv
      subst hv
      have hrest := ih fun other hother => h other (List.mem_cons_of_mem _ hother)
      rw [List.filterMap_cons, asRecord]
      by_cases hkey : key = k
      · subst hkey
        simp [asRecord]
      · rw [lookup_cons_ne hkey, lookup_cons_ne hkey, hrest]

omit [FloatText φ] in
/-- What is written under a key is read back in the order of its fields. -/
theorem get_writeRecords (s : Store φ) (records : List (String × Fields φ)) (key : String) :
    (s.writeRecords records).get key = .ok ((records.lookup key).map readBack) := by
  have hpayload : ([("version", Json.int 1),
      ("records", .obj (records.map fun record => (record.1, Json.obj record.2)))] : Fields φ).lookup "records" =
      some (.obj (records.map fun record => (record.1, Json.obj record.2))) := rfl
  have hobjects : ∀ field ∈ (sortedFields (records.map fun record => (record.1, Json.obj record.2))).insertionSort byKey,
      ∃ record : Fields φ, field.2 = .obj record := by
    intro field hfield
    obtain ⟨v, hv, heq⟩ := sortedFields_mem ((List.perm_insertionSort byKey _).mem_iff.mp hfield)
    obtain ⟨old, -, hold⟩ := List.mem_map.mp hv
    obtain ⟨-, rfl⟩ := Prod.mk.inj hold
    exact ⟨_, heq⟩
  unfold Store.get Store.records Store.writeRecords
  simp only [Json.sorted, lookup_sorted, hpayload, Option.map_some]
  show Except.ok _ = _
  rw [lookup_records hobjects, lookup_sorted, lookup_map]
  cases records.lookup key <;> rfl

omit [FloatText φ] in
theorem lookup_readBack {record : Fields φ} (h : ∀ field ∈ record, field.2.sorted = field.2) (name : String) :
    (readBack record).lookup name = record.lookup name := by
  unfold readBack
  rw [lookup_sorted]
  cases hlookup : record.lookup name with
  | none => rfl
  | some v => rw [Option.map_some, h _ (mem_of_lookup hlookup)]

theorem readSecret_named_env {secrets read : Secrets} {line : List Char} (hs : secrets.Named)
    (h : readSecret φ secrets line = .ok read) : read.Named := by
  unfold readSecret at h
  split at h
  · cases h
    exact hs
  · split at h
    · cases h
    · next key encoded hline =>
        split at h
        · cases h
        · cases h
          have hkey : envName key = true := by
            unfold secretLine at hline
            split at hline
            · simp only at hline
              split at hline
              · next hok =>
                  cases hline
                  exact hok.1
              · cases hline
            · cases hline
          refine ⟨?_, setField_nodup hs.nodup⟩
          intro entry hentry
          rcases mem_setField hentry with rfl | ⟨hold, -⟩
          · simpa using hkey
          · exact hs.env entry hold
        · cases h

/-- What is read has the names of environment variables, each once. -/
theorem readSecrets_named {file : Option (List Char)} {secrets : Secrets} (h : readSecrets φ file = .ok secrets) :
    secrets.Named := by
  have hempty : Secrets.Named [] := ⟨fun _ h => absurd h List.not_mem_nil, List.nodup_nil⟩
  have hlines : ∀ (lines : List (List Char)) (secrets read : Secrets), secrets.Named →
      readLines φ lines secrets = .ok read → read.Named := by
    intro lines
    induction lines with
    | nil =>
        intro secrets read hs h
        cases h
        exact hs
    | cons line lines ih =>
        intro secrets read hs h
        obtain ⟨next, hnext, hrest⟩ := Base.bind_ok.mp h
        exact ih next read (readSecret_named_env hs hnext) hrest
  cases file with
  | none =>
      cases h
      exact hempty
  | some text => exact hlines _ _ _ hempty h

def envChar (c : Char) : Char := if c.isAlphanum = true then c.toUpper else '_'

theorem envChar_ascii : ∀ n < 128, isEnvTail (envChar (Char.ofNat n)) = true := by decide

theorem envChar_tail (c : Char) : isEnvTail (envChar c) = true := by
  by_cases hascii : c.toNat < 128
  · rw [← Char.ofNat_toNat c]
    exact envChar_ascii c.toNat hascii
  · have hlarge : ∀ d : Char, d.toNat < 128 → ¬ c.val ≤ d.val := by
      intro d hd hle
      have hle : c.toNat ≤ d.toNat := hle
      omega
    have hplain : c.isAlphanum = false := by
      simp only [Char.isAlphanum, Char.isAlpha, Char.isUpper, Char.isLower, Char.isDigit, Bool.or_eq_false_iff,
        decide_eq_false_iff_not, not_and, Bool.and_eq_false_iff]
      exact ⟨⟨fun _ => hlarge 'Z' (by decide), Or.inr (hlarge 'z' (by decide))⟩, Or.inr (hlarge '9' (by decide))⟩
    rw [envChar, hplain, if_neg Bool.false_ne_true]
    decide

/-- The name of a secret is the name of an environment variable. -/
theorem secretEnvKey_env (key : String) : envName (secretEnvKey key).toList = true := by
  have hname : (secretEnvKey key).toList = "AUTO_AGENTS_INPUT_".toList ++ key.toList.map envChar :=
    String.toList_append.trans (congrArg _ String.toList_ofList)
  have htail : (key.toList.map envChar).all isEnvTail = true := by
    rw [List.all_map, List.all_eq_true]
    exact fun c _ => envChar_tail c
  have hprefix : "AUTO_AGENTS_INPUT_".toList = 'A' :: "UTO_AGENTS_INPUT_".toList := by decide
  have hplain : ("UTO_AGENTS_INPUT_".toList).all isEnvTail = true := by decide
  rw [hname, hprefix, List.cons_append]
  simp only [envName, List.all_append, hplain, htail]
  decide

omit [FloatText φ] in
theorem get_some {records : List (String × Fields φ)} {key : String} (h : s.records = .ok records) :
    s.get key = .ok (records.lookup key) := by
  unfold Store.get
  rw [h]
  rfl

omit [FloatText φ] in
theorem setField_named {secrets : Secrets} {name value : String} (h : secrets.Named) (hname : envName name.toList = true) :
    Secrets.Named (setField secrets name value) := by
  refine ⟨?_, setField_nodup h.nodup⟩
  intro entry hentry
  rcases mem_setField hentry with rfl | ⟨hold, -⟩
  · exact hname
  · exact h.env entry hold

omit [FloatText φ] in
theorem stripText_empty : stripText "" = "" := by decide

theorem dropWhile_env {name : List Char} (h : ∀ c ∈ name, isSpace c = false) : name.dropWhile isSpace = name := by
  cases name with
  | nil => rfl
  | cons c rest => rw [List.dropWhile_cons, h c List.mem_cons_self, if_neg Bool.false_ne_true]

/-- The name of an environment variable has no blanks. -/
theorem stripText_env {name : String} (h : envName name.toList = true) : stripText name = name := by
  have hplain : ∀ c ∈ name.toList, isSpace c = false := fun c hc => (envTail_plain (envName_all h c hc)).2.1
  unfold stripText strip
  rw [dropWhile_env hplain, dropWhile_env fun c hc => hplain c (List.mem_reverse.mp hc), List.reverse_reverse,
    String.ofList_toList]

/-- The record of a secret. -/
def secretRecord (request : Request) (source now : String) (revision : Int) : Fields φ :=
  recordOf request source now revision ++ [("secret_env", .str (secretEnvKey request.key)), ("present", .bool true)]

omit [FloatText φ] in
theorem secretRecord_sorted (request : Request) (source now : String) (revision : Int) :
    ∀ field ∈ (secretRecord request source now revision : Fields φ), field.2.sorted = field.2 := by
  intro field hfield
  simp only [secretRecord, recordOf, List.cons_append, List.nil_append, List.mem_cons, List.not_mem_nil, or_false]
    at hfield
  rcases hfield with rfl | rfl | rfl | rfl | rfl | rfl | rfl | rfl | rfl | rfl | rfl <;> rfl

omit [FloatText φ] in
theorem secretRecord_env (request : Request) (source now : String) (revision : Int) :
    (secretRecord request source now revision : Fields φ).lookup "secret_env" = some (.str (secretEnvKey request.key)) := by
  rfl

/-- What saving a secret leaves behind. -/
theorem saveAnswer_secret {request : Request} {value : Json φ} {source now text : String} {secrets : Secrets}
    {record : Fields φ} (hsecret : request.isSecret = true) (hvalid : w.validateAnswer s request value = .ok (.str text, ""))
    (hread : readSecrets φ s.secrets = .ok secrets)
    (hsaved : w.saveAnswer request value source now s = (.ok record, s')) :
    ∃ records revision, s.records = .ok records ∧
      s' = (s.writeSecrets (setField secrets (secretEnvKey request.key) text)).writeRecords
        (setField records request.key (secretRecord request source now revision)) := by
  unfold World.saveAnswer at hsaved
  rw [hvalid] at hsaved
  cases hrecords : s.records with
  | error error =>
      rw [hrecords] at hsaved
      cases hsaved
  | ok records =>
      rw [hrecords] at hsaved
      cases hrevision : w.number ((records.lookup request.key).getD []) "revision" with
      | error error =>
          simp [bind, Except.bind, hrevision] at hsaved
      | ok revision =>
          simp [bind, Except.bind, hrevision, pure, Except.pure, hsecret, hread] at hsaved
          exact ⟨records, revision + 1, rfl, hsaved.2.symm⟩

/-- A secret is saved where the records and the secrets can be read. -/
theorem saveAnswer_written {request : Request} {value : Json φ} {text : String} {secrets : Secrets}
    {records : List (String × Fields φ)} {revision : Int} (source now : String) (hsecret : request.isSecret = true)
    (hvalid : w.validateAnswer s request value = .ok (.str text, "")) (hread : readSecrets φ s.secrets = .ok secrets)
    (hrecords : s.records = .ok records)
    (hrevision : w.number ((records.lookup request.key).getD []) "revision" = .ok revision) :
    (w.saveAnswer request value source now s).2 =
      (s.writeSecrets (setField secrets (secretEnvKey request.key) text)).writeRecords
        (setField records request.key (secretRecord request source now (revision + 1))) := by
  unfold World.saveAnswer
  simp [hvalid, hrecords, hrevision, hsecret, hread, bind, Except.bind, pure, Except.pure, secretRecord]

omit [FloatText φ] in
theorem get_ok {key : String} {found : Option (Fields φ)} (h : s.get key = .ok found) :
    ∃ records, s.records = .ok records ∧ records.lookup key = found := by
  obtain ⟨records, hrecords, hfound⟩ := Base.bind_ok.mp h
  exact ⟨records, hrecords, Except.ok.inj hfound⟩

omit [FloatText φ] in
theorem readBack_sorted (record : Fields φ) : ∀ field ∈ readBack record, field.2.sorted = field.2 := by
  intro field hfield
  obtain ⟨v, -, hv⟩ := sortedFields_mem ((List.perm_insertionSort byKey _).mem_iff.mp hfield)
  rw [hv, Json.sorted_sorted]

/-- A record that names the secret finds its text in the file that was written. -/
theorem valueOf_secret {record : Fields φ} {secrets : Secrets} {name text : String}
    (hfield : record.lookup "secret_env" = some (.str name)) (hname : envName name.toList = true)
    (hnamed : secrets.Named) (hfile : s.secrets = some (writeSecrets (setField secrets name text)))
    (hclean : ∀ entry ∈ setField secrets name text, clean entry.2 = true) :
    w.valueOf s record .value = .ok (some text) := by
  have hne : name ≠ "" := by
    rintro rfl
    cases hname
  have henv : stripText (w.field record "secret_env") = name := by
    unfold World.field
    rw [hfield]
    exact stripText_env hname
  have hwritten : Secrets.Named (setField secrets name text) := setField_named hnamed hname
  unfold World.valueOf
  simp only
  rw [henv, if_pos hne, hfile, readSecrets_clean hwritten hclean]
  show Except.ok (((setField secrets name text).insertionSort byName).lookup name) = _
  rw [lookup_perm (sorted_perm _) (((sorted_perm _).map Prod.fst).nodup_iff.mpr hwritten.nodup), lookup_setField_self]

/-- The saved secret is read again, and the others with it, just when all stored values are clean. -/
theorem saved_secret_iff {request : Request} {value : Json φ} {source now text : String} {secrets : Secrets}
    {record : Fields φ} (hsecret : request.isSecret = true) (hvalid : w.validateAnswer s request value = .ok (.str text, ""))
    (hread : readSecrets φ s.secrets = .ok secrets)
    (hsaved : w.saveAnswer request value source now s = (.ok record, s')) :
    (w.valueFor s' request.key .value = .ok (some text) ∧ ∃ read, readSecrets φ s'.secrets = .ok read ∧
        ∀ name, name ≠ secretEnvKey request.key → read.lookup name = secrets.lookup name) ↔
      ∀ entry ∈ setField secrets (secretEnvKey request.key) text, clean entry.2 = true := by
  obtain ⟨records, revision, -, rfl⟩ := saveAnswer_secret hsecret hvalid hread hsaved
  have henv := secretEnvKey_env request.key
  have hwritten : Secrets.Named (setField secrets (secretEnvKey request.key) text) :=
    setField_named (readSecrets_named hread) henv
  have hfile : ((s.writeSecrets (setField secrets (secretEnvKey request.key) text)).writeRecords
      (setField records request.key (secretRecord request source now revision))).secrets =
      some (writeSecrets (setField secrets (secretEnvKey request.key) text)) := rfl
  constructor
  · rintro ⟨-, read, hagain, -⟩ entry hentry
    by_contra hbad
    obtain ⟨message, herror⟩ := @readSecrets_unclean φ _ _ hwritten ⟨entry, hentry, by simpa using hbad⟩
    rw [hfile, herror] at hagain
    cases hagain
  · intro hclean
    constructor
    · unfold World.valueFor
      rw [get_writeRecords, lookup_setField_self]
      apply valueOf_secret _ henv (readSecrets_named hread) hfile hclean
      rw [lookup_readBack (secretRecord_sorted request source now revision), secretRecord_env]
    · refine ⟨_, (congrArg (readSecrets φ) hfile).trans (readSecrets_clean hwritten hclean), fun name hname => ?_⟩
      rw [lookup_perm (sorted_perm _) (((sorted_perm _).map Prod.fst).nodup_iff.mpr hwritten.nodup),
        lookup_setField_ne _ hname]

theorem roundTrip_iff {secrets : Secrets} (h : secrets.Named) :
    (∃ read, readSecrets φ (some (writeSecrets secrets)) = .ok read ∧ read.Perm secrets) ↔
      ∀ entry ∈ secrets, clean entry.2 = true := by
  constructor
  · rintro ⟨read, hread, -⟩ entry hentry
    by_contra hbad
    obtain ⟨message, herror⟩ := @readSecrets_unclean φ _ _ h ⟨entry, hentry, by simpa using hbad⟩
    rw [herror] at hread
    cases hread
  · exact fun hclean => ⟨_, readSecrets_clean h hclean, sorted_perm secrets⟩

/-- The file of secrets gives back what was written, and a saved answer is found with all other secrets, just
when no value that is written has a line boundary that JSON leaves as it is. -/
theorem secrets_roundTrip_iff (φ : Type) [FloatText φ] :
    (∀ secrets : Secrets, secrets.Named →
      ((∃ read, readSecrets φ (some (writeSecrets secrets)) = .ok read ∧ read.Perm secrets) ↔
        ∀ entry ∈ secrets, clean entry.2 = true)) ∧
    ∀ (w : World φ) (s s' : Store φ) (request : Request) (value : Json φ) (source now text : String)
      (secrets : Secrets) (record : Fields φ), request.isSecret = true →
      w.validateAnswer s request value = .ok (.str text, "") → readSecrets φ s.secrets = .ok secrets →
      w.saveAnswer request value source now s = (.ok record, s') →
      ((w.valueFor s' request.key .value = .ok (some text) ∧ ∃ read, readSecrets φ s'.secrets = .ok read ∧
          ∀ name, name ≠ secretEnvKey request.key → read.lookup name = secrets.lookup name) ↔
        ∀ entry ∈ setField secrets (secretEnvKey request.key) text, clean entry.2 = true) :=
  ⟨fun _ h => roundTrip_iff h, fun _ _ _ _ _ _ _ _ _ _ hsecret hvalid hread hsaved =>
    saved_secret_iff hsecret hvalid hread hsaved⟩

/-- A secret of two lines, as some editors part them. -/
def partedSecret : Secrets := [("API_KEY", "first\u2028second")]

theorem partedSecret_named : partedSecret.Named := by
  refine ⟨fun entry hentry => ?_, List.nodup_singleton _⟩
  obtain rfl := List.mem_singleton.mp hentry
  decide

/-- The file of this secret cannot be read any more. -/
theorem partedSecret_unreadable :
    ¬ ∃ read, readSecrets FloatLiteral (some (writeSecrets partedSecret)) = .ok read ∧ read.Perm partedSecret := by
  rw [roundTrip_iff partedSecret_named]
  intro hclean
  exact absurd (hclean _ (List.mem_singleton.mpr rfl)) (by decide)

/-- A machine without paths of its own. -/
def plainWorld : World FloatLiteral where
  showOther _ := ""
  int v := match v with
    | .int n => .ok n
    | _ => .error "int() argument must be a number"
  urlparse text := .ok ("https", some text)
  lower text := text.toLower
  resolve text := text
  attestationPath id := "operator/attestations/" ++ id ++ ".json"
  inRoot path := path.startsWith "operator/"
  place path := .file path

def emptyStore : Store FloatLiteral := ⟨.missing, none, false, false, []⟩

def tokenRequest : Request where
  requestId := "r1"
  key := "api.token"
  kind := .secret
  key_valid := by decide

theorem secrets_roundTrip_iff_token :
    (∃ read, readSecrets FloatLiteral (some (writeSecrets [("API_KEY", "two words")])) = .ok read ∧
        read.Perm [("API_KEY", "two words")]) ∧
      plainWorld.valueFor (plainWorld.saveAnswer tokenRequest (.str "t0k3n") "interactive" "now" emptyStore).2
        "api.token" .value = .ok (some "t0k3n") := by
  obtain ⟨hfile, hstore⟩ := secrets_roundTrip_iff FloatLiteral
  constructor
  · have hnamed : Secrets.Named [("API_KEY", "two words")] := by
      refine ⟨fun entry hentry => ?_, List.nodup_singleton _⟩
      obtain rfl := List.mem_singleton.mp hentry
      decide
    refine (hfile _ hnamed).mpr fun entry hentry => ?_
    obtain rfl := List.mem_singleton.mp hentry
    decide
  · have hvalid : plainWorld.validateAnswer emptyStore tokenRequest (.str "t0k3n") = .ok (.str "t0k3n", "") := by
      rfl
    have hsaved := hstore plainWorld emptyStore _ tokenRequest (.str "t0k3n") "interactive" "now" "t0k3n" [] _ rfl hvalid
      rfl rfl
    refine (hsaved.mpr fun entry hentry => ?_).1
    obtain rfl := List.mem_singleton.mp hentry
    decide

end AutoAgents.Operator
