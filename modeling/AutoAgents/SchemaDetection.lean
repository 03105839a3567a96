import AutoAgents.SchemaDiff

/-! What the scanner finds. A finding comes from a line that names a file or from a line that changes one, and the
second kind is charged to the file that was named last. -/

namespace AutoAgents.Persistence

open Base (guard_fails)
open Operator (strip splitlines splitlinesFrom splitlinesFrom_step lineBoundary)

variable {φ : Unicode} {s : Scan} {line path : Text} {lines : List Text}

/-- The file that the lines name last. -/
def lastNamed (lines : List Text) : Text := ((lines.filter namesFile).getLast?).elim [] namedFile

theorem lastNamed_snoc (lines : List Text) (line : Text) :
    lastNamed (lines ++ [line]) = if namesFile line = true then namedFile line else lastNamed lines := by
  by_cases hnames : namesFile line = true <;> simp [lastNamed, hnames]

theorem scan_snoc (φ : Unicode) (lines : List Text) (line : Text) : scan φ (lines ++ [line]) = (scan φ lines).line φ line := by
  rw [scan, List.foldl_append, List.foldl_cons, List.foldl_nil, ← scan]

theorem changesLine_of_names (h : namesFile line = true) : changesLine line = false := by
  have hplus : "+++".toList.isPrefixOf line = true := by
    rw [List.isPrefixOf_iff_prefix]
    exact List.IsPrefix.trans (by decide) (List.isPrefixOf_iff_prefix.mp h)
  rw [changesLine, hplus, Bool.true_or, Bool.not_true, Bool.and_false]

/-- Some finding is about the file. -/
def Finds (findings : List Finding) (path : Text) : Prop := ∃ finding ∈ findings, finding.path = path

theorem finds_snoc {findings : List Finding} {finding : Finding} :
    Finds (findings ++ [finding]) path ↔ Finds findings path ∨ finding.path = path := by
  simp [Finds, or_and_right, exists_or]

theorem record_currentPath {finding : Finding} : (s.record finding).currentPath = s.currentPath := by
  unfold Scan.record
  split <;> rfl

theorem finds_record {finding : Finding} : Finds (s.record finding).findings path ↔ Finds s.findings path ∨ finding.path = path := by
  unfold Scan.record
  split
  · next hmem => exact ⟨Or.inl, fun h => h.elim id fun hpath => ⟨finding, hmem, hpath⟩⟩
  · exact finds_snoc

theorem line_currentPath : (s.line φ line).currentPath = if namesFile line = true then namedFile line else s.currentPath := by
  unfold Scan.line
  split
  · rfl
  · split
    · rfl
    · split
      · exact record_currentPath
      · rfl

theorem scan_currentPath : (scan φ lines).currentPath = lastNamed lines := by
  induction lines using List.reverseRecOn with
  | nil => rfl
  | append_singleton lines line ih => rw [scan_snoc, line_currentPath, lastNamed_snoc, ih]

/-- The line changes the schema in the file that it is charged to. -/
def Changes (φ : Unicode) (path line : Text) : Prop :=
  path ≠ [] ∧ changesLine line = true ∧ changesSchema φ path (strip (line.drop 1)) = true

/-- What one line adds to the findings about a file that is not ignored. -/
theorem finds_line (hignored : pathIsDetectionIgnored path = false) :
    Finds (s.line φ line).findings path ↔ Finds s.findings path ∨
      namesFile line = true ∧ namedFile line = path ∧ schemaPathPattern.search path = true ∨
      s.currentPath = path ∧ Changes φ path line := by
  unfold Scan.line
  by_cases hnames : namesFile line = true
  · have hnot : ¬ Changes φ path line := fun h => by
      rw [Changes, changesLine_of_names hnames] at h
      exact Bool.false_ne_true h.2.1
    rw [if_pos hnames]
    simp only [hnames, hnot, and_false, or_false, true_and]
    split
    · next hschema =>
        rw [finds_snoc]
        exact or_congr_right ⟨fun h => ⟨h, h ▸ hschema.2⟩, And.left⟩
    · next hother =>
        have hnone : ¬ (namedFile line = path ∧ schemaPathPattern.search path = true) := by
          rintro ⟨rfl, hschema⟩
          exact hother ⟨hignored, hschema⟩
        simp only [hnone, or_false]
  · rw [if_neg hnames]
    simp only [hnames, false_and, false_or, Bool.false_eq_true]
    split
    · next hskip =>
        have hnone : ¬ (s.currentPath = path ∧ Changes φ path line) := by
          rintro ⟨rfl, hpath, hchanges, -⟩
          rcases hskip with h | h | h
          · exact hpath h
          · exact absurd (hignored.symm.trans h) Bool.false_ne_true
          · exact absurd (h.symm.trans hchanges) Bool.false_ne_true
        simp only [hnone, or_false]
    · next hread =>
        simp only [not_or, Bool.not_eq_false] at hread
        split
        · next hschema =>
            rw [finds_record]
            refine or_congr_right ⟨?_, And.left⟩
            rintro rfl
            exact ⟨rfl, hread.1, hread.2.2, hschema⟩
        · next hother =>
            have hnone : ¬ (s.currentPath = path ∧ Changes φ path line) := by
              rintro ⟨rfl, -, -, hschema⟩
              exact hother hschema
            simp only [hnone, or_false]

/-- Some line changes the schema while the file is the one named last. -/
def ChangedUnder (φ : Unicode) (path : Text) (lines : List Text) : Prop :=
  ∃ before line after, lines = before ++ line :: after ∧ lastNamed before = path ∧ Changes φ path line

/-- Some line names the file. -/
def NamedIn (path : Text) (lines : List Text) : Prop := ∃ line ∈ lines, namesFile line = true ∧ namedFile line = path

theorem changedUnder_snoc : ChangedUnder φ path (lines ++ [line]) ↔
    ChangedUnder φ path lines ∨ lastNamed lines = path ∧ Changes φ path line := by
  constructor
  · rintro ⟨before, other, after, heq, hlast, hchanges⟩
    rcases List.eq_nil_or_concat after with rfl | ⟨after, last, rfl⟩
    · obtain ⟨rfl, hline⟩ := List.append_inj' heq rfl
      obtain rfl := (List.cons.inj hline).1
      exact Or.inr ⟨hlast, hchanges⟩
    · rw [List.concat_eq_append, ← List.cons_append, ← List.append_assoc] at heq
      exact Or.inl ⟨before, other, after, (List.append_inj' heq rfl).1, hlast, hchanges⟩
  · rintro (⟨before, other, after, rfl, hlast, hchanges⟩ | ⟨hlast, hchanges⟩)
    · exact ⟨before, other, after ++ [line], by simp, hlast, hchanges⟩
    · exact ⟨lines, line, [], rfl, hlast, hchanges⟩

theorem namedIn_of_last (hpath : path ≠ []) (h : lastNamed lines = path) : NamedIn path lines := by
  unfold lastNamed at h
  cases hlast : (lines.filter namesFile).getLast? with
  | none => exact absurd (by simpa [hlast] using h.symm) hpath
  | some line =>
      obtain ⟨hmem, hnames⟩ := List.mem_filter.mp (List.mem_of_getLast? hlast)
      exact ⟨line, hmem, hnames, by simpa [hlast] using h⟩

/-- A file that is not ignored has a finding exactly when it is named and its name is that of a schema, or a line charged to
it changes the schema. -/
theorem finds_scan (hignored : pathIsDetectionIgnored path = false) :
    Finds (scan φ lines).findings path ↔
      NamedIn path lines ∧ schemaPathPattern.search path = true ∨ ChangedUnder φ path lines := by
  induction lines using List.reverseRecOn with
  | nil =>
      have hnone : ¬ ChangedUnder φ path [] := by
        rintro ⟨before, line, after, heq, -⟩
        cases before <;> cases heq
      simp [hnone, NamedIn, Finds, scan]
  | append_singleton lines line ih =>
      have hnamed : NamedIn path (lines ++ [line]) ↔ NamedIn path lines ∨ namesFile line = true ∧ namedFile line = path := by
        simp [NamedIn, or_and_right, exists_or]
      rw [scan_snoc, finds_line hignored, ih, scan_currentPath, changedUnder_snoc, hnamed]
      tauto

/-! ### The output of git -/

theorem scan_newline (φ : Unicode) (text : Text) : scan φ (splitlines (text ++ ['\n'])) = scan φ (splitlines text) := by
  have hblank (s : Scan) : s.line φ [] = s := by
    rw [Scan.line, if_neg (by decide), if_pos (Or.inr (Or.inr (by decide)))]
  rcases splitlinesFrom_snoc [] text with h | h <;> rw [splitlines, h]
  · rfl
  · rw [scan_snoc, hblank, splitlines]

theorem scan_trimmed (φ : Unicode) (text : Text) :
    scan φ (splitlines (text.reverse.dropWhile (· == '\n')).reverse) = scan φ (splitlines text) := by
  induction text using List.reverseRecOn with
  | nil => rfl
  | append_singleton text c ih =>
      rw [List.reverse_append, List.reverse_singleton, List.singleton_append]
      by_cases hc : c = '\n'
      · rw [List.dropWhile_cons_of_pos (by simpa using hc), ih, hc, scan_newline]
      · rw [List.dropWhile_cons_of_neg (by simpa using hc), List.reverse_cons, List.reverse_reverse]

/-- The findings in a diff are those in what the caller has of it. -/
theorem detect_gitText (φ : Unicode) (text : Text) : detectSchemaChanges φ (gitText text) = detectSchemaChanges φ text := by
  rw [detectSchemaChanges, gitText, scan_trimmed, splitlines, splitlinesFrom_universal, ← splitlines, ← detectSchemaChanges]

/-! ### Rows -/

section

variable {quotePath : Bool} {d : List FileDiff} {row : Row}

/-- A row with an owner is a changed line of a hunk. -/
theorem FileDiff.rows_owner {f : FileDiff} (hrow : row ∈ f.rows quotePath) (howner : row.owner = some path) :
    f.hunks ≠ [] ∧ path = f.change.path ∧ (row.text.head? = some '+' ∨ row.text.head? = some '-') := by
  rcases List.mem_append.mp hrow with hextended | hrest
  · obtain ⟨l, -, rfl⟩ := List.mem_map.mp hextended
    cases howner
  · split at hrest
    · cases hrest
    · next hhunks =>
        simp only [List.mem_cons, List.mem_flatMap, List.mem_map] at hrest
        rcases hrest with rfl | rfl | ⟨h, -, rfl | ⟨l, -, rfl⟩⟩
        · cases howner
        · cases howner
        · cases howner
        · cases l with
          | context l => cases howner
          | noNewline => cases howner
          | added l =>
              cases howner
              exact ⟨hhunks, rfl, Or.inl rfl⟩
          | removed l =>
              cases howner
              exact ⟨hhunks, rfl, Or.inr rfl⟩

theorem owned_row (hrow : row ∈ diffRows quotePath d) (howner : row.owner = some path) :
    path ≠ [] ∧ (row.text.head? = some '+' ∨ row.text.head? = some '-') := by
  obtain ⟨f, -, hf⟩ := List.mem_flatMap.mp hrow
  obtain ⟨-, rfl, hhead⟩ := FileDiff.rows_owner hf howner
  exact ⟨f.named, hhead⟩

theorem headD_splitlines (line text : Text) :
    (splitlinesFrom line (text ++ ['\n'])).headD [] = line ++ text.takeWhile (fun c => !lineBoundary c) := by
  fun_induction splitlinesFrom line text with
  | case1 => rfl
  | case2 line hline => simp [splitlinesFrom_newline_cons]
  | case3 line rest ih =>
      rw [List.cons_append, List.cons_append, splitlinesFrom_return_newline]
      simp [show lineBoundary '\r' = true by decide]
  | case4 line c rest hnot hboundary ih =>
      by_cases hreturn : c = '\r' ∧ rest = []
      · obtain ⟨rfl, rfl⟩ := hreturn
        simp [splitlinesFrom_return_newline, hboundary]
      · rw [List.cons_append, splitlinesFrom_step (head_of_not_newline hnot hreturn), if_pos hboundary]
        simp [hboundary]
  | case5 line c rest hnot hboundary ih =>
      rw [List.cons_append, splitlinesFrom_step (not_return hboundary), if_neg hboundary, ih]
      simp [hboundary]

theorem isPrefixOf_takeWhile {p : Char → Bool} {word text : Text} (h : word.all p = true) :
    word.isPrefixOf (text.takeWhile p) = word.isPrefixOf text := by
  induction word generalizing text with
  | nil => simp
  | cons c word ih =>
      rw [List.all_cons, Bool.and_eq_true] at h
      cases text with
      | nil => rfl
      | cons d text =>
          by_cases hcd : c = d
          · subst hcd
            rw [List.takeWhile_cons_of_pos h.1, List.isPrefixOf_cons_cons, List.isPrefixOf_cons_cons, ih h.2]
          · have hne : (c == d) = false := by simpa using hcd
            by_cases hd : p d = true
            · rw [List.takeWhile_cons_of_pos hd, List.isPrefixOf_cons_cons, List.isPrefixOf_cons_cons, hne, Bool.false_and,
                Bool.false_and]
            · rw [List.takeWhile_cons_of_neg hd, List.isPrefixOf_cons_cons, hne, Bool.false_and]
              rfl

theorem changesLine_firstLine (h : row.text.head? = some '+' ∨ row.text.head? = some '-') :
    changesLine row.firstLine = changesLine row.text := by
  have hline : row.firstLine = row.text.takeWhile fun c => !lineBoundary c := by
    rw [Row.firstLine, seen, rowsText, List.flatMap_singleton, splitlines, headD_splitlines, List.nil_append]
  have hhead : row.firstLine.head? = row.text.head? := by
    rw [hline]
    cases htext : row.text with
    | nil => rfl
    | cons c text =>
        rw [htext] at h
        rcases h with h | h <;> cases h <;> rfl
  rw [changesLine, changesLine, hhead, hline, isPrefixOf_takeWhile (by decide), isPrefixOf_takeWhile (by decide)]

end

/-! ### Detection over whole diffs -/

/-- The file to which the scanner charges a line. -/
def Scan.owner (s : Scan) (line : Text) : Option Text :=
  if changesLine line = false ∨ s.currentPath = [] then none else some s.currentPath

section

variable (φ : Unicode) (quotePath : Bool) (d : List FileDiff)

/-- The file is added, modified or deleted, is not ignored, and has the name of a schema. -/
def SchemaFile (f : FileDiff) : Prop :=
  f.change.isRename = false ∧ pathIsDetectionIgnored f.change.path = false ∧ schemaPathPattern.search f.change.path = true

/-- The row adds to or removes from the file, which is not ignored, a line that changes a schema. -/
def SchemaRow (path : Text) (row : Row) : Prop :=
  row.owner = some path ∧ pathIsDetectionIgnored path = false ∧ (schemaDiffPattern φ).search (row.text.drop 1) = true

/-- Detection misses no file: every changed line is charged to the file it belongs to, every schema file and every file with a
schema change has a finding, and a candidate that has one does not pass without a declared change. -/
structure Detects : Prop where
  charged : ∀ before row after path, diffRows quotePath d = before ++ row :: after → row.owner = some path →
    (scan φ (seen before)).owner row.firstLine = some path
  files : ∀ f ∈ d, SchemaFile f → Finds (detectSchemaChanges φ (rowsText (diffRows quotePath d))) f.change.path
  rows : ∀ row ∈ diffRows quotePath d, ∀ path, SchemaRow φ path row →
    Finds (detectSchemaChanges φ (rowsText (diffRows quotePath d))) path
  declared : ∀ digest candidate, ((∃ f ∈ d, SchemaFile f) ∨ ∃ row ∈ diffRows quotePath d, ∃ path, SchemaRow φ path row) →
    ∃ e, validatePersistence φ digest (gitText (rowsText (diffRows quotePath d))) candidate none = .error e

/-- No changed line looks like a header, and the last line above it that names a file names its own; every schema file is
named; and every file with a schema change is named as a schema, or has a line charged to it that changes one. -/
structure Told : Prop where
  charged : ∀ before row after path, diffRows quotePath d = before ++ row :: after → row.owner = some path →
    changesLine row.text = true ∧ lastNamed (seen before) = path
  files : ∀ f ∈ d, SchemaFile f → NamedIn f.change.path (seen (diffRows quotePath d))
  rows : ∀ row ∈ diffRows quotePath d, ∀ path, SchemaRow φ path row →
    NamedIn path (seen (diffRows quotePath d)) ∧ schemaPathPattern.search path = true ∨
      ChangedUnder φ path (seen (diffRows quotePath d))

end

section

variable {quotePath : Bool} {d : List FileDiff}

theorem finds_nil {path : Text} : ¬ Finds [] path := by simp [Finds]

/-- A finding stops a candidate without a declared change. -/
theorem undeclared_refused {digest : Change → Git.Tree → String} {delta : Text} {candidate : Candidate}
    (h : detectSchemaChanges φ delta ≠ []) : ∃ e, validatePersistence φ digest delta candidate none = .error e :=
  guard_fails.mpr (Or.inl h)

theorem row_of_split {before after : List Row} {row : Row} (h : diffRows quotePath d = before ++ row :: after) :
    row ∈ diffRows quotePath d := by simp [h]

/-- What a changed line needs to be charged to its file. -/
theorem owner_iff {before : List Row} {row : Row} {path : Text} (hrow : row ∈ diffRows quotePath d) (howner : row.owner = some path) :
    (scan φ (seen before)).owner row.firstLine = some path ↔ changesLine row.text = true ∧ lastNamed (seen before) = path := by
  obtain ⟨hpath, hhead⟩ := owned_row hrow howner
  rw [Scan.owner, changesLine_firstLine hhead, scan_currentPath]
  split
  · next hnone =>
      refine iff_of_false (by simp) ?_
      rintro ⟨hchanges, rfl⟩
      rcases hnone with h | h
      · exact absurd (h.symm.trans hchanges) Bool.false_ne_true
      · exact hpath h
  · next hsome =>
      rw [not_or, Bool.not_eq_false] at hsome
      simp [hsome.1]

/-- **Schema detection.** A diff of any files has all its changed lines charged to their files, and all its schema changes
found, exactly when its lines tell which file they belong to. -/
theorem schema_detection_iff (φ : Unicode) (quotePath : Bool) (d : List FileDiff) : Detects φ quotePath d ↔ Told φ quotePath d := by
  have hfinds {path : Text} (hignored : pathIsDetectionIgnored path = false) :
      Finds (detectSchemaChanges φ (rowsText (diffRows quotePath d))) path ↔ _ := finds_scan hignored
  constructor
  · intro h
    refine ⟨fun before row after path hsplit howner => ?_, fun f hf hschema => ?_, fun row hrow path hschema => ?_⟩
    · exact (owner_iff (row_of_split hsplit) howner).mp (h.charged before row after path hsplit howner)
    · rcases (hfinds hschema.2.1).mp (h.files f hf hschema) with ⟨hnamed, -⟩ | hchanged
      · exact hnamed
      · obtain ⟨before, line, after, heq, hlast, hchanges⟩ := hchanged
        obtain ⟨name, hname, htells⟩ := namedIn_of_last hchanges.1 hlast
        have hseen : seen (diffRows quotePath d) = before ++ line :: after := heq
        exact ⟨name, hseen ▸ List.mem_append_left _ hname, htells⟩
    · exact (hfinds hschema.2.1).mp (h.rows row hrow path hschema)
  · intro h
    have hfiles : ∀ f ∈ d, SchemaFile f → Finds (detectSchemaChanges φ (rowsText (diffRows quotePath d))) f.change.path :=
      fun f hf hschema => (hfinds hschema.2.1).mpr (Or.inl ⟨h.files f hf hschema, hschema.2.2⟩)
    have hrows : ∀ row ∈ diffRows quotePath d, ∀ path, SchemaRow φ path row →
        Finds (detectSchemaChanges φ (rowsText (diffRows quotePath d))) path :=
      fun row hrow path hschema => (hfinds hschema.2.1).mpr (h.rows row hrow path hschema)
    refine ⟨fun before row after path hsplit howner => ?_, hfiles, hrows, fun digest candidate hany => ?_⟩
    · exact (owner_iff (row_of_split hsplit) howner).mpr (h.charged before row after path hsplit howner)
    · refine undeclared_refused ?_
      rw [detect_gitText]
      intro hnone
      rcases hany with ⟨f, hf, hschema⟩ | ⟨row, hrow, path, hschema⟩
      · exact finds_nil (hnone ▸ hfiles f hf hschema)
      · exact finds_nil (hnone ▸ hrows row hrow path hschema)

end

/-! ### Plain diffs -/

section

variable {quotePath : Bool} {f : FileDiff} {rows us vs : List Row} {name : Text}

end

/-! ### A deleted migration -/

/-- A migration that is deleted with its statement. -/
def deletedMigration : FileDiff where
  change := .deleted "migrations/0001.sql".toList
  extended := [⟨"diff --git a/migrations/0001.sql b/migrations/0001.sql".toList, by decide⟩, ⟨"deleted file mode 100644".toList, by decide⟩]
  hunks := [⟨⟨"@@ -1 +0,0 @@".toList, by decide⟩, [.removed ⟨"CREATE TABLE projects (id INTEGER);".toList, by decide⟩]⟩]
  named := by decide

theorem deleted_migration_missed : ¬ Detects asciiOnly true [deletedMigration] := by
  intro h
  have hschema : SchemaFile deletedMigration := by
    refine ⟨rfl, ?_, ?_⟩ <;> decide +kernel
  have hnone : detectSchemaChanges asciiOnly (rowsText (diffRows true [deletedMigration])) = [] := by decide +kernel
  exact finds_nil (hnone ▸ h.files deletedMigration List.mem_cons_self hschema)

end AutoAgents.Persistence
