import AutoAgents.PersistenceDelivery

/-! Schema detection over whole diffs. A diff is a list of files with their hunks, written as git writes them; the
scanner keeps one current path, and only a line that begins as the name of a file of the new side moves it. -/

namespace AutoAgents.Persistence

open Operator (splitlines splitlinesFrom splitlinesFrom_step lineBoundary universalNewlines)

/-! ### Diffs -/

structure Line where
  text : Text
  single : '\n' ∉ text
  deriving DecidableEq

inductive HunkLine
  | context (l : Line)
  | added (l : Line)
  | removed (l : Line)
  | noNewline
  deriving DecidableEq

/-- A hunk, with its line of ranges. -/
structure Hunk where
  ranges : Line
  lines : List HunkLine
  deriving DecidableEq

inductive FileChange
  | added (name : Text)
  | modified (name : Text)
  | deleted (name : Text)
  | renamed (source name : Text)
  deriving DecidableEq

namespace FileChange

/-- The file that the change leaves, or the one it takes away. -/
def path : FileChange → Text
  | added name | modified name | deleted name | renamed _ name => name

def isRename : FileChange → Bool
  | renamed .. => true
  | _ => false

end FileChange

/-- The part of a diff about one file: the lines about its modes, names and blobs, and its hunks. -/
structure FileDiff where
  change : FileChange
  extended : List Line
  hunks : List Hunk
  named : change.path ≠ []
  deriving DecidableEq

/-- Three octal digits. -/
def octal (b : UInt8) : Text := [b.toNat / 64, b.toNat / 8 % 8, b.toNat % 8].map Nat.digitChar

/-- How git writes a character of a name in quotes; `none` is a character that needs none. -/
def quotedChar (quotePath : Bool) (c : Char) : Option Text :=
  let n := c.toNat
  if c = '"' ∨ c = '\\' then some ['\\', c]
  else if decide (7 ≤ n ∧ n ≤ 13) = true then some ['\\', ['a', 'b', 't', 'n', 'v', 'f', 'r'].getD (n - 7) 'a']
  else if n < 32 ∨ n = 127 ∨ quotePath = true ∧ 128 ≤ n then some ((String.utf8EncodeChar c).flatMap fun b => '\\' :: octal b)
  else none

/-- A name after `---` or `+++`. -/
def label (quotePath : Bool) (name : Text) : Text :=
  let written :=
    if name.any (fun c => (quotedChar quotePath c).isSome) = true then
      '"' :: name.flatMap (fun c => (quotedChar quotePath c).getD [c]) ++ ['"']
    else name
  if ' ' ∈ written then written ++ ['\t'] else written

def FileChange.oldLabel (quotePath : Bool) : FileChange → Text
  | added _ => "/dev/null".toList
  | modified name | deleted name | renamed name _ => label quotePath ("a/".toList ++ name)

def FileChange.newLabel (quotePath : Bool) : FileChange → Text
  | deleted _ => "/dev/null".toList
  | added name | modified name | renamed _ name => label quotePath ("b/".toList ++ name)

/-- A line of the text of a diff. A line that is added or removed belongs to a file. -/
structure Row where
  text : Text
  owner : Option Text := none

def HunkLine.row (path : Text) : HunkLine → Row
  | context l => { text := ' ' :: l.text }
  | added l => { text := '+' :: l.text, owner := some path }
  | removed l => { text := '-' :: l.text, owner := some path }
  | noNewline => { text := "\\ No newline at end of file".toList }

def FileDiff.rows (quotePath : Bool) (f : FileDiff) : List Row :=
  f.extended.map (fun l => { text := l.text }) ++
    if f.hunks = [] then []
    else
      { text := "--- ".toList ++ f.change.oldLabel quotePath } :: { text := "+++ ".toList ++ f.change.newLabel quotePath } ::
        f.hunks.flatMap fun h => { text := h.ranges.text } :: h.lines.map (HunkLine.row f.change.path)

/-- The lines of a diff, under the setting `core.quotePath`. -/
def diffRows (quotePath : Bool) (d : List FileDiff) : List Row := d.flatMap (FileDiff.rows quotePath)

def rowsText (rows : List Row) : Text := rows.flatMap fun row => row.text ++ ['\n']

/-- What the caller of `git diff` has of its output: line ends are read as newlines, and those at the end are taken off. -/
def gitText (output : Text) : Text := ((universalNewlines output).reverse.dropWhile (· == '\n')).reverse

/-- The lines that are seen in some rows. -/
def seen (rows : List Row) : List Text := splitlines (rowsText rows)

/-- The first line that is seen of a row. -/
def Row.firstLine (row : Row) : Text := (seen [row]).headD []

/-! ### Lines -/

theorem splitlinesFrom_newline_cons (line b : Text) : splitlinesFrom line ('\n' :: b) = line :: splitlines b := by
  rw [splitlinesFrom_step (by simp), if_pos (by decide), splitlines]

theorem splitlinesFrom_return_newline (line b : Text) : splitlinesFrom line ('\r' :: '\n' :: b) = line :: splitlines b := by
  rw [splitlinesFrom, splitlines]

theorem head_of_not_newline {c : Char} {rest tail : Text} (hnot : ∀ rest', c = '\r' → rest = '\n' :: rest' → False)
    (hreturn : ¬ (c = '\r' ∧ rest = [])) : c = '\r' → (rest ++ tail).head? ≠ some '\n' := by
  rintro rfl hhead
  cases rest with
  | nil => exact hreturn ⟨rfl, rfl⟩
  | cons d rest => exact hnot rest rfl (by simpa using hhead)

theorem not_return {c : Char} {tail : Text} (hboundary : ¬ lineBoundary c = true) : c = '\r' → tail.head? ≠ some '\n' := by
  rintro rfl
  exact absurd (by decide) hboundary

/-- Reading line ends as newlines does not change the lines. -/
theorem splitlinesFrom_universal (line text : Text) :
    splitlinesFrom line (universalNewlines text) = splitlinesFrom line text := by
  fun_induction universalNewlines text generalizing line with
  | case1 => rfl
  | case2 rest ih => rw [splitlinesFrom_newline_cons, splitlinesFrom_return_newline, splitlines, splitlines, ih]
  | case3 c rest hnot ih =>
      have hhead : c = '\r' → rest.head? ≠ some '\n' := by
        by_cases hreturn : c = '\r' ∧ rest = []
        · simp [hreturn.2]
        · have hplain : c = '\r' → (rest ++ []).head? ≠ some '\n' := head_of_not_newline hnot hreturn
          rwa [List.append_nil] at hplain
      rw [splitlinesFrom_step hhead]
      by_cases hreturn : c = '\r'
      · rw [if_pos hreturn, splitlinesFrom_newline_cons, splitlines, ih, hreturn, if_pos (by decide)]
      · rw [if_neg hreturn, splitlinesFrom_step (fun h => absurd h hreturn), ih, ih]

/-- A newline at the end of a text adds no line, or an empty one. -/
theorem splitlinesFrom_snoc (line text : Text) :
    splitlinesFrom line (text ++ ['\n']) = splitlinesFrom line text ∨
      splitlinesFrom line (text ++ ['\n']) = splitlinesFrom line text ++ [[]] := by
  fun_induction splitlinesFrom line text with
  | case1 => exact Or.inr (by decide)
  | case2 line hline => exact Or.inl (by simp [splitlinesFrom_newline_cons, splitlines, splitlinesFrom])
  | case3 line rest ih =>
      rw [List.cons_append, List.cons_append, splitlinesFrom_return_newline, splitlines]
      exact ih.imp (congrArg (line :: ·)) (congrArg (line :: ·))
  | case4 line c rest hnot hboundary ih =>
      by_cases hreturn : c = '\r' ∧ rest = []
      · obtain ⟨rfl, rfl⟩ := hreturn
        exact Or.inl (by rw [List.cons_append, List.nil_append, splitlinesFrom_return_newline, splitlines])
      · rw [List.cons_append, splitlinesFrom_step (head_of_not_newline hnot hreturn), if_pos hboundary]
        exact ih.imp (congrArg (line :: ·)) (congrArg (line :: ·))
  | case5 line c rest hnot hboundary ih =>
      rwa [List.cons_append, splitlinesFrom_step (not_return hboundary), if_neg hboundary]

end AutoAgents.Persistence
