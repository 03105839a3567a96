import AutoAgents.BaseJsonRead
import AutoAgents.BaseExcept

/-! The file of operator secrets. It is written with one line for each secret, the value as JSON text without
ASCII escaping, and read line by line; the reader also ends a line at three characters that JSON does not
escape. -/

namespace AutoAgents.Operator

open Base

/-! ### Text -/

/-- `str.isspace` of one character. -/
def isSpace (c : Char) : Bool :=
  let n := c.toNat
  decide (9 ≤ n ∧ n ≤ 13) || decide (28 ≤ n ∧ n ≤ 32) || n == 0x85 || n == 0xA0 || n == 0x1680 ||
    decide (0x2000 ≤ n ∧ n ≤ 0x200A) || n == 0x2028 || n == 0x2029 || n == 0x202F || n == 0x205F || n == 0x3000

def strip (text : List Char) : List Char := ((text.dropWhile isSpace).reverse.dropWhile isSpace).reverse

/-- The characters at which `str.splitlines` ends a line. -/
def lineBoundary (c : Char) : Bool :=
  let n := c.toNat
  decide (10 ≤ n ∧ n ≤ 13) || decide (28 ≤ n ∧ n ≤ 30) || n == 0x85 || n == 0x2028 || n == 0x2029

/-- `str.splitlines`, with the part of a line that was read. -/
def splitlinesFrom (line : List Char) : List Char → List (List Char)
  | [] => if line = [] then [] else [line]
  | '\r' :: '\n' :: rest => line :: splitlinesFrom [] rest
  | c :: rest => if lineBoundary c = true then line :: splitlinesFrom [] rest else splitlinesFrom (line ++ [c]) rest

def splitlines (text : List Char) : List (List Char) := splitlinesFrom [] text

/-- What a file read as text makes of its line ends. -/
def universalNewlines : List Char → List Char
  | [] => []
  | '\r' :: '\n' :: rest => '\n' :: universalNewlines rest
  | c :: rest => (if c = '\r' then '\n' else c) :: universalNewlines rest

/-! ### The file -/

def isEnvHead (c : Char) : Bool := c.isUpper || c == '_'

def isEnvTail (c : Char) : Bool := c.isUpper || c.isDigit || c == '_'

/-- `^[A-Z_][A-Z0-9_]*$` -/
def envName : List Char → Bool
  | [] => false
  | c :: rest => isEnvHead c && rest.all isEnvTail

/-- `^([A-Z_][A-Z0-9_]*)=(.*)$`, for a whole line. -/
def secretLine (line : List Char) : Option (List Char × List Char) :=
  match line.dropWhile (· != '=') with
  | '=' :: encoded =>
      let name := line.takeWhile (· != '=')
      if envName name = true ∧ '\n' ∉ encoded then some (name, encoded) else none
  | _ => none

/-- The secrets, in the order in which they were set. -/
abbrev Secrets := List (String × String)

variable (φ : Type) [FloatText φ]

/-- One line of the file. -/
def readSecret (secrets : Secrets) (line : List Char) : Except String Secrets :=
  if line = [] ∨ (line.dropWhile isSpace).head? = some '#' then .ok secrets
  else
    match secretLine line with
    | none => .error "operator secrets.env contains an invalid line"
    | some (key, encoded) =>
        match (decode encoded : Option (Json φ)) with
        | none => .error ("invalid encoded secret for " ++ String.ofList key)
        | some (.str value) => .ok (setField secrets (String.ofList key) value)
        | some _ => .error ("secret " ++ String.ofList key ++ " must decode to a string")

def readLines : List (List Char) → Secrets → Except String Secrets
  | [], secrets => .ok secrets
  | line :: lines, secrets => do
      let secrets ← readSecret φ secrets line
      readLines lines secrets

/-- `_read_secrets`, of the file if there is one. -/
def readSecrets : Option (List Char) → Except String Secrets
  | none => .ok []
  | some text => readLines φ (splitlines (universalNewlines text)) []

variable {φ}

def secretText (entry : String × String) : List Char :=
  entry.1.toList ++ '=' :: encodeString entry.2.toList

def byName (entry other : String × String) : Prop := entry.1 ≤ other.1

instance : DecidableRel byName := fun entry other => inferInstanceAs (Decidable (entry.1 ≤ other.1))

/-- `_write_secrets`. -/
def writeSecrets (secrets : Secrets) : List Char :=
  (secrets.insertionSort byName).flatMap fun entry => secretText entry ++ ['\n']

/-! ### Lines -/

/-- The line boundaries that stand in JSON text as they are. -/
def rawBoundary (c : Char) : Bool := c.toNat == 0x85 || c.toNat == 0x2028 || c.toNat == 0x2029

theorem splitlinesFrom_step {c : Char} {line rest : List Char} (h : c = '\r' → rest.head? ≠ some '\n') :
    splitlinesFrom line (c :: rest) =
      if lineBoundary c = true then line :: splitlinesFrom [] rest else splitlinesFrom (line ++ [c]) rest := by
  rw [splitlinesFrom.eq_def]
  split
  · next heq => cases heq
  · next rest' heq =>
      obtain ⟨rfl, rfl⟩ := List.cons.inj heq
      exact absurd rfl (h rfl)
  · next d tail _ heq =>
      obtain ⟨rfl, rfl⟩ := List.cons.inj heq
      rfl

theorem splitlinesFrom_line {line text rest : List Char} (h : text.all (fun c => !lineBoundary c) = true) :
    splitlinesFrom line (text ++ rest) = splitlinesFrom (line ++ text) rest := by
  induction text generalizing line with
  | nil => simp
  | cons c text ih =>
      rw [List.all_cons, Bool.and_eq_true] at h
      have hc : lineBoundary c = false := by simpa using h.1
      have hcr : c ≠ '\r' := by
        rintro rfl
        exact absurd hc (by decide)
      rw [List.cons_append, splitlinesFrom_step fun heq => absurd heq hcr, hc, if_neg Bool.false_ne_true, ih h.2, List.append_assoc,
        List.singleton_append]

/-- A line ends at a boundary that is no carriage return. -/
theorem splitlinesFrom_boundary {c : Char} {line rest : List Char} (h : lineBoundary c = true) (hcr : c ≠ '\r') :
    splitlinesFrom line (c :: rest) = line :: splitlinesFrom [] rest := by
  rw [splitlinesFrom_step fun heq => absurd heq hcr, if_pos h]

/-- The first line of a text begins with what was read of it. -/
theorem splitlinesFrom_head {line text : List Char} (hline : line ≠ []) : ∀ first ∈ (splitlinesFrom line text).head?, line <+: first := by
  fun_induction splitlinesFrom line text with
  | case1 => simp
  | case2 line hne => simp
  | case3 line rest _ => simp
  | case4 line c rest _ hc _ => simp
  | case5 line c rest _ hc ih => exact fun first hfirst => (List.prefix_append line [c]).trans (ih (by simp) first hfirst)

theorem universalNewlines_eq {text : List Char} (h : '\r' ∉ text) : universalNewlines text = text := by
  induction text with
  | nil => rfl
  | cons c text ih =>
      obtain ⟨hc, htext⟩ := not_or.mp (mt List.mem_cons.mpr h)
      rw [universalNewlines.eq_def]
      split
      · next heq => cases heq
      · next heq => exact absurd (List.cons.inj heq).1.symm hc
      · next d tail _ heq =>
          obtain ⟨rfl, rfl⟩ := List.cons.inj heq
          rw [if_neg (Ne.symm hc), ih htext]

theorem hexDigit_plain : ∀ n < 16, lineBoundary (hexDigit n) = false ∧ hexDigit n ≠ '\r' := by decide

/-- Of the line boundaries, the encoder lets only the raw ones through. -/
theorem escapeChar_boundary {c d : Char} (h : d ∈ escapeChar c) :
    d ≠ '\r' ∧ (lineBoundary d = true → d = c ∧ rawBoundary c = true) := by
  have hplain : lineBoundary d = false ∧ d ≠ '\r' → d ≠ '\r' ∧ (lineBoundary d = true → d = c ∧ rawBoundary c = true) := by
    rintro ⟨hline, hcr⟩
    refine ⟨hcr, fun hboundary => ?_⟩
    rw [hline] at hboundary
    cases hboundary
  have hpair : ∀ e f : Char, (lineBoundary e = false ∧ e ≠ '\r') → (lineBoundary f = false ∧ f ≠ '\r') → d ∈ [e, f] →
      d ≠ '\r' ∧ (lineBoundary d = true → d = c ∧ rawBoundary c = true) := by
    intro e f he hf hd
    rcases List.mem_cons.mp hd with rfl | hd
    · exact hplain he
    · obtain rfl := List.mem_singleton.mp hd
      exact hplain hf
  unfold escapeChar at h
  split at h
  · exact hpair _ _ (by decide) (by decide) h
  split at h
  · exact hpair _ _ (by decide) (by decide) h
  split at h
  · exact hpair _ _ (by decide) (by decide) h
  split at h
  · exact hpair _ _ (by decide) (by decide) h
  split at h
  · exact hpair _ _ (by decide) (by decide) h
  split at h
  · exact hpair _ _ (by decide) (by decide) h
  split at h
  · exact hpair _ _ (by decide) (by decide) h
  split at h
  · next hcontrol =>
      have hhigh := hexDigit_plain (c.toNat / 16) (by omega)
      have hlow := hexDigit_plain (c.toNat % 16) (by omega)
      simp only [List.mem_cons, List.not_mem_nil, or_false] at h
      rcases h with rfl | rfl | rfl | rfl | rfl | rfl
      · exact hplain (by decide)
      · exact hplain (by decide)
      · exact hplain (by decide)
      · exact hplain (by decide)
      · exact hplain hhigh
      · exact hplain hlow
  · next _ _ _ hcr _ _ _ hcontrol =>
      obtain rfl := List.mem_singleton.mp h
      refine ⟨hcr, fun hboundary => ⟨rfl, ?_⟩⟩
      simp only [lineBoundary, rawBoundary, Bool.or_eq_true, decide_eq_true_eq, beq_iff_eq] at hboundary ⊢
      omega

/-- The value stands in one line of the file. -/
def clean (value : String) : Bool := value.toList.all fun c => !rawBoundary c

theorem escape_boundaries {value : List Char} (h : value.all (fun c => !rawBoundary c) = true) :
    (value.flatMap escapeChar).all (fun c => !lineBoundary c) = true := by
  rw [List.all_eq_true] at h ⊢
  intro d hd
  obtain ⟨c, hc, hdc⟩ := List.mem_flatMap.mp hd
  by_contra hboundary
  have hboundary : lineBoundary d = true := by simpa using hboundary
  have hraw := ((escapeChar_boundary hdc).2 hboundary).2
  have hgood := h c hc
  rw [hraw] at hgood
  cases hgood

theorem escape_no_return (value : List Char) : '\r' ∉ value.flatMap escapeChar := by
  intro h
  obtain ⟨c, -, hc⟩ := List.mem_flatMap.mp h
  exact (escapeChar_boundary hc).1 rfl

/-! ### One line -/

theorem envTail_plain {c : Char} (h : isEnvTail c = true) :
    lineBoundary c = false ∧ isSpace c = false ∧ c ≠ '\r' ∧ c ≠ '=' ∧ c ≠ '#' := by
  simp only [isEnvTail, Char.isUpper, Char.isDigit, Bool.or_eq_true, Bool.and_eq_true, decide_eq_true_eq,
    beq_iff_eq, ge_iff_le] at h
  have hcode : 48 ≤ c.toNat ∧ c.toNat ≤ 57 ∨ 65 ≤ c.toNat ∧ c.toNat ≤ 90 ∨ c.toNat = 95 := by
    rcases h with (⟨hlow, hhigh⟩ | ⟨hlow, hhigh⟩) | rfl
    · exact Or.inr (Or.inl ⟨hlow, hhigh⟩)
    · exact Or.inl ⟨hlow, hhigh⟩
    · exact Or.inr (Or.inr rfl)
  refine ⟨?_, ?_, ?_, ?_, ?_⟩
  · simp only [lineBoundary, Bool.or_eq_false_iff, decide_eq_false_iff_not, beq_eq_false_iff_ne]
    omega
  · simp only [isSpace, Bool.or_eq_false_iff, decide_eq_false_iff_not, beq_eq_false_iff_ne]
    omega
  · rintro rfl
    revert hcode
    decide
  · rintro rfl
    revert hcode
    decide
  · rintro rfl
    revert hcode
    decide

theorem envName_all {name : List Char} (h : envName name = true) : ∀ c ∈ name, isEnvTail c = true := by
  cases name with
  | nil => cases h
  | cons c rest =>
      simp only [envName, Bool.and_eq_true, List.all_eq_true] at h
      intro d hd
      rcases List.mem_cons.mp hd with rfl | hd
      · simp only [isEnvHead, isEnvTail, Bool.or_eq_true] at h ⊢
        tauto
      · exact h.2 d hd

theorem secretLine_eq {name encoded : List Char} (hname : envName name = true) (hencoded : '\n' ∉ encoded) :
    secretLine (name ++ '=' :: encoded) = some (name, encoded) := by
  have hne : ∀ c ∈ name, (c != '=') = true := by
    intro c hc
    simpa using (envTail_plain (envName_all hname c hc)).2.2.2.1
  unfold secretLine
  rw [List.dropWhile_append_of_pos hne, List.takeWhile_append_of_pos hne]
  simp [hname, hencoded]

theorem readSecret_named {name encoded : List Char} (hname : envName name = true) (hencoded : '\n' ∉ encoded)
    (secrets : Secrets) : readSecret φ secrets (name ++ '=' :: encoded) =
      match (decode encoded : Option (Json φ)) with
      | none => .error ("invalid encoded secret for " ++ String.ofList name)
      | some (.str value) => .ok (setField secrets (String.ofList name) value)
      | some _ => .error ("secret " ++ String.ofList name ++ " must decode to a string") := by
  unfold readSecret
  cases name with
  | nil => cases hname
  | cons c rest =>
      obtain ⟨-, hspace, -, -, hhash⟩ := envTail_plain (envName_all hname c List.mem_cons_self)
      have hskip : ¬ (c :: rest ++ '=' :: encoded = [] ∨
          ((c :: rest ++ '=' :: encoded).dropWhile isSpace).head? = some '#') := by
        rw [List.cons_append, List.dropWhile_cons, hspace]
        simp [hhash]
      rw [if_neg hskip, secretLine_eq hname hencoded]

theorem no_newline_of_boundaries {text : List Char} (h : text.all (fun c => !lineBoundary c) = true) : '\n' ∉ text := by
  intro hmem
  have hgood := List.all_eq_true.mp h _ hmem
  exact absurd hgood (by decide)

/-- The whole line of a secret sets it. -/
theorem readSecret_written {entry : String × String} (hname : envName entry.1.toList = true)
    (hclean : clean entry.2 = true) (secrets : Secrets) :
    readSecret φ secrets (secretText entry) = .ok (setField secrets entry.1 entry.2) := by
  have hencoded : (encodeString entry.2.toList).all (fun c => !lineBoundary c) = true := by
    rw [encodeString, List.cons_append, List.all_cons, List.all_append, escape_boundaries hclean]
    decide
  have hdecode : (decode (encodeString entry.2.toList) : Option (Json φ)) = some (.str entry.2) :=
    decode_encode (v := Json.str entry.2) trivial
  rw [secretText, readSecret_named hname (no_newline_of_boundaries hencoded), hdecode, String.ofList_toList]

/-- A line that is cut off within the value is refused. -/
theorem readSecret_cut {name value : List Char} (hname : envName name = true)
    (hclean : value.all (fun c => !rawBoundary c) = true) (secrets : Secrets) :
    readSecret φ secrets (name ++ '=' :: '\x22' :: value.flatMap escapeChar) =
      .error ("invalid encoded secret for " ++ String.ofList name) := by
  have hencoded : '\n' ∉ '\x22' :: value.flatMap escapeChar := by
    intro hmem
    rcases List.mem_cons.mp hmem with heq | hmem
    · exact absurd heq (by decide)
    · exact no_newline_of_boundaries (escape_boundaries hclean) hmem
  have hdecode : (decode ('\x22' :: value.flatMap escapeChar) : Option (Json φ)) = none := by
    rw [decode, skipSpace_stop (by decide), parseValue]
    simp [scanString_cut]
  rw [readSecret_named hname hencoded, hdecode]

/-! ### The whole file -/

/-- Every secret has the name of an environment variable, and none is set twice. -/
structure Secrets.Named (secrets : Secrets) : Prop where
  env : ∀ entry ∈ secrets, envName entry.1.toList = true
  nodup : (secrets.map Prod.fst).Nodup

theorem name_all {name : List Char} (h : envName name = true) : name.all (fun c => !lineBoundary c) = true := by
  rw [List.all_eq_true]
  intro c hc
  simp [(envTail_plain (envName_all h c hc)).1]

theorem secretText_boundaries {entry : String × String} (hname : envName entry.1.toList = true)
    (hclean : clean entry.2 = true) : (secretText entry).all (fun c => !lineBoundary c) = true := by
  unfold secretText encodeString
  rw [List.all_append, List.all_cons, List.cons_append, List.all_cons, List.all_append, name_all hname,
    escape_boundaries hclean]
  decide

theorem readLines_clean {entries : Secrets} (hnamed : ∀ entry ∈ entries, envName entry.1.toList = true)
    (hclean : ∀ entry ∈ entries, clean entry.2 = true) (secrets : Secrets) :
    readLines φ (splitlinesFrom [] (entries.flatMap fun entry => secretText entry ++ ['\n'])) secrets =
      .ok (entries.foldl (fun secrets entry => setField secrets entry.1 entry.2) secrets) := by
  induction entries generalizing secrets with
  | nil => rfl
  | cons entry entries ih =>
      have hname := hnamed entry List.mem_cons_self
      have hvalue := hclean entry List.mem_cons_self
      rw [List.flatMap_cons, List.append_assoc, List.singleton_append,
        splitlinesFrom_line (secretText_boundaries hname hvalue), splitlinesFrom_boundary (by decide) (by decide),
        List.nil_append, readLines, readSecret_written hname hvalue]
      exact ih (fun other hother => hnamed other (List.mem_cons_of_mem _ hother))
        (fun other hother => hclean other (List.mem_cons_of_mem _ hother)) _

/-- The text up to the first boundary that stands in it as it is. -/
theorem unclean_split {value : List Char} (h : ¬ value.all (fun c => !rawBoundary c) = true) :
    ∃ before c after, value = before ++ c :: after ∧ before.all (fun c => !rawBoundary c) = true ∧ rawBoundary c = true := by
  induction value with
  | nil => exact absurd rfl h
  | cons c value ih =>
      by_cases hc : rawBoundary c = true
      · exact ⟨[], c, value, rfl, rfl, hc⟩
      · have hc : rawBoundary c = false := by simpa using hc
        rw [List.all_cons, hc, Bool.not_false, Bool.true_and] at h
        obtain ⟨before, d, after, rfl, hbefore, hd⟩ := ih h
        exact ⟨c :: before, d, after, rfl, by rw [List.all_cons, hbefore, hc]; rfl, hd⟩

theorem rawBoundary_escape {c : Char} (h : rawBoundary c = true) : escapeChar c = [c] ∧ lineBoundary c = true ∧ c ≠ '\r' := by
  have hcode : c.toNat = 0x85 ∨ c.toNat = 0x2028 ∨ c.toNat = 0x2029 := by
    simpa [rawBoundary, or_assoc] using h
  have hne : ∀ d : Char, d.toNat < 0x80 → c ≠ d := by
    rintro d hd rfl
    omega
  refine ⟨?_, ?_, hne _ (by decide)⟩
  · unfold escapeChar
    rw [if_neg (hne _ (by decide)), if_neg (hne _ (by decide)), if_neg (hne _ (by decide)), if_neg (hne _ (by decide)),
      if_neg (hne _ (by decide)), if_neg (hne _ (by decide)), if_neg (hne _ (by decide)), if_neg (by omega)]
  · simp only [lineBoundary, Bool.or_eq_true, decide_eq_true_eq, beq_iff_eq]
    omega

theorem readLines_unclean {entries : Secrets} (hnamed : ∀ entry ∈ entries, envName entry.1.toList = true)
    (hunclean : ∃ entry ∈ entries, clean entry.2 = false) (secrets : Secrets) :
    ∃ message, readLines φ (splitlinesFrom [] (entries.flatMap fun entry => secretText entry ++ ['\n'])) secrets =
      .error message := by
  induction entries generalizing secrets with
  | nil => simp at hunclean
  | cons entry entries ih =>
      have hname := hnamed entry List.mem_cons_self
      rw [List.flatMap_cons, List.append_assoc, List.singleton_append]
      by_cases hvalue : clean entry.2 = true
      · rw [splitlinesFrom_line (secretText_boundaries hname hvalue), splitlinesFrom_boundary (by decide) (by decide),
          List.nil_append, readLines, readSecret_written hname hvalue]
        apply ih fun other hother => hnamed other (List.mem_cons_of_mem _ hother)
        obtain ⟨other, hother, hbad⟩ := hunclean
        rcases List.mem_cons.mp hother with rfl | hother
        · rw [hvalue] at hbad
          cases hbad
        · exact ⟨other, hother, hbad⟩
      · obtain ⟨before, c, after, hsplit, hbefore, hc⟩ := unclean_split hvalue
        obtain ⟨hescape, hboundary, hcr⟩ := rawBoundary_escape hc
        have hcut : (entry.1.toList ++ '=' :: '\x22' :: before.flatMap escapeChar).all (fun c => !lineBoundary c) = true := by
          rw [List.all_append, List.all_cons, List.all_cons, name_all hname, escape_boundaries hbefore]
          decide
        have htext : secretText entry ++ '\n' :: (entries.flatMap fun entry => secretText entry ++ ['\n']) =
            (entry.1.toList ++ '=' :: '\x22' :: before.flatMap escapeChar) ++
              c :: (after.flatMap escapeChar ++ '\x22' :: '\n' :: entries.flatMap fun entry => secretText entry ++ ['\n']) := by
          unfold secretText encodeString
          rw [hsplit]
          simp [hescape]
        rw [htext, splitlinesFrom_line hcut, splitlinesFrom_boundary hboundary hcr, List.nil_append, readLines,
          readSecret_cut hname hbefore]
        exact ⟨_, rfl⟩

theorem sorted_perm (secrets : Secrets) : (secrets.insertionSort byName).Perm secrets := List.perm_insertionSort _ _

theorem written_no_return {entries : Secrets} (hnamed : ∀ entry ∈ entries, envName entry.1.toList = true) :
    '\r' ∉ entries.flatMap fun entry => secretText entry ++ ['\n'] := by
  intro h
  obtain ⟨entry, hentry, hmem⟩ := List.mem_flatMap.mp h
  unfold secretText encodeString at hmem
  simp only [List.mem_append, List.mem_cons, List.not_mem_nil, or_false] at hmem
  rcases hmem with (hname | heq | (heq | hvalue) | heq) | heq
  · exact (envTail_plain (envName_all (hnamed entry hentry) _ hname)).2.2.1 rfl
  · exact absurd heq (by decide)
  · exact absurd heq (by decide)
  · exact escape_no_return _ hvalue
  · exact absurd heq (by decide)
  · exact absurd heq (by decide)

variable {secrets : Secrets}

/-- The file of clean secrets is read back in the order of their names. -/
theorem readSecrets_clean (h : secrets.Named) (hclean : ∀ entry ∈ secrets, clean entry.2 = true) :
    readSecrets φ (some (writeSecrets secrets)) = .ok (secrets.insertionSort byName) := by
  have hperm := sorted_perm secrets
  have hnamed : ∀ entry ∈ secrets.insertionSort byName, envName entry.1.toList = true :=
    fun entry hentry => h.env entry (hperm.mem_iff.mp hentry)
  have hnodup : ((secrets.insertionSort byName).map Prod.fst).Nodup := (hperm.map Prod.fst).nodup_iff.mpr h.nodup
  unfold readSecrets writeSecrets splitlines
  simp only
  rw [universalNewlines_eq (written_no_return hnamed),
    readLines_clean hnamed fun entry hentry => hclean entry (hperm.mem_iff.mp hentry)]
  exact congrArg Except.ok (objectOf_eq hnodup)

/-- One secret with a raw line boundary makes the whole file unreadable. -/
theorem readSecrets_unclean (h : secrets.Named) (hunclean : ∃ entry ∈ secrets, clean entry.2 = false) :
    ∃ message, readSecrets φ (some (writeSecrets secrets)) = .error message := by
  have hperm := sorted_perm secrets
  have hnamed : ∀ entry ∈ secrets.insertionSort byName, envName entry.1.toList = true :=
    fun entry hentry => h.env entry (hperm.mem_iff.mp hentry)
  unfold readSecrets writeSecrets splitlines
  simp only
  rw [universalNewlines_eq (written_no_return hnamed)]
  apply readLines_unclean hnamed
  obtain ⟨entry, hentry, hbad⟩ := hunclean
  exact ⟨entry, hperm.mem_iff.mpr hentry, hbad⟩

end AutoAgents.Operator
