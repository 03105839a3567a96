import Mathlib

/-! The words of a shell command, with its quotes and escapes taken away, and the quoting in which a text stands
behind a part of it. -/

namespace Base.Shell

/-! ### Quoting -/

/-- Where a character stands; an escape goes back to the quotes it was met in. -/
inductive Quoting
  | plain
  | quoted (q : Char)
  | escaped (back : Option Char)
  deriving DecidableEq, Repr

def isQuote (c : Char) : Bool := c == '"' || c == '\''

/-- The quoting behind a character. -/
def Quoting.step : Quoting → Char → Quoting
  | .plain, c => if c = '\\' then .escaped none else if isQuote c = true then .quoted c else .plain
  | .quoted q, c => if c = q then .plain else if c = '\\' ∧ q = '"' then .escaped (some q) else .quoted q
  | .escaped none, _ => .plain
  | .escaped (some q), _ => .quoted q

def Quoting.run (s : Quoting) (text : List Char) : Quoting := text.foldl Quoting.step s

/-! ### Words -/

/-- A word, and the text it was read from. -/
structure Word where
  text : List Char
  raw : List Char
  deriving DecidableEq, Repr

def isBlank (c : Char) : Bool := c == ' ' || c == '\t' || c == '\r' || c == '\n'

/-- The rest of the words, where a word has been begun and stands in the quoting `s`. -/
def wordsFrom (s : Quoting) (word : Option Word) : List Char → Option (List Word)
  | [] => if s = .plain then some word.toList else none
  | c :: rest =>
    let begun := word.getD ⟨[], []⟩
    match s with
    | .plain =>
      if isBlank c = true then (wordsFrom .plain none rest).map (word.toList ++ ·)
      else if s.step c = .plain then wordsFrom .plain (some ⟨begun.text ++ [c], begun.raw ++ [c]⟩) rest
      else wordsFrom (s.step c) (some ⟨begun.text, begun.raw ++ [c]⟩) rest
    | .quoted q =>
      if s.step c = .quoted q then wordsFrom s (some ⟨begun.text ++ [c], begun.raw ++ [c]⟩) rest
      else wordsFrom (s.step c) (some ⟨begun.text, begun.raw ++ [c]⟩) rest
    | .escaped back =>
      -- inside quotes a backslash stays before what it does not escape
      let kept := if back = none ∨ c = '\\' ∨ some c = back then [c] else ['\\', c]
      wordsFrom (s.step c) (some ⟨begun.text ++ kept, begun.raw ++ [c]⟩) rest

/-- `shlex.split`; it fails at an open quotation and where nothing is escaped. -/
def words (text : List Char) : Option (List Word) := wordsFrom .plain none text

/-- The words can be read where the text ends outside all quotes. -/
theorem wordsFrom_isSome (s : Quoting) (word : Option Word) (text : List Char) :
    (wordsFrom s word text).isSome = true ↔ s.run text = .plain := by
  induction text generalizing s word with
  | nil =>
    rw [wordsFrom, Quoting.run, List.foldl_nil]
    split
    · next h => simp [h]
    · next h => simp [h]
  | cons c rest ih =>
    have hrun : s.run (c :: rest) = (s.step c).run rest := rfl
    rw [hrun, wordsFrom.eq_def]
    cases s with
    | plain =>
      dsimp only
      split
      · next hblank =>
        have hstep : Quoting.plain.step c = .plain := by
          simp only [isBlank, Bool.or_eq_true, beq_iff_eq] at hblank
          rcases hblank with ((rfl | rfl) | rfl) | rfl <;> rfl
        rw [Option.isSome_map, ih, hstep]
      · split
        · next hstep => rw [ih, hstep]
        · exact ih _ _
    | quoted q =>
      dsimp only
      split
      · next hstep => rw [ih, hstep]
      · exact ih _ _
    | escaped back => exact ih _ _

/-- A word of ordinary characters. -/
def Ordinary (w : List Char) : Prop := ∀ c ∈ w, isBlank c = false ∧ Quoting.plain.step c = .plain

theorem wordsFrom_ordinary {w : List Char} (h : Ordinary w) (word : Word) :
    wordsFrom .plain (some word) w = some [⟨word.text ++ w, word.raw ++ w⟩] := by
  induction w generalizing word with
  | nil => simp [wordsFrom]
  | cons c w ih =>
    obtain ⟨hblank, hstep⟩ := h c List.mem_cons_self
    rw [wordsFrom]
    simp only [hblank, hstep, if_true, Bool.false_eq_true, if_false, Option.getD_some]
    rw [ih fun d hd => h d (List.mem_cons_of_mem c hd)]
    simp

/-- One more word behind a blank. -/
theorem wordsFrom_append {w : List Char} (h : Ordinary w) (hne : w ≠ []) {s : Quoting} {word : Option Word}
    {text : List Char} {read : List Word} (hread : wordsFrom s word text = some read) :
    wordsFrom s word (text ++ ' ' :: w) = some (read ++ [⟨w, w⟩]) := by
  induction text generalizing s word read with
  | nil =>
    rw [wordsFrom] at hread
    split at hread
    · next hplain =>
      subst hplain
      cases hread
      cases w with
      | nil => exact absurd rfl hne
      | cons c w =>
        obtain ⟨hblank, hstep⟩ := h c List.mem_cons_self
        have hrest := wordsFrom_ordinary (fun d hd => h d (List.mem_cons_of_mem c hd)) ⟨[c], [c]⟩
        have hword : wordsFrom .plain none (c :: w) = some [⟨c :: w, c :: w⟩] := by
          rw [wordsFrom]
          simp only [hblank, hstep, if_true, Bool.false_eq_true, if_false, Option.getD_none, List.nil_append]
          exact hrest
        rw [List.nil_append, wordsFrom]
        simp only [show isBlank ' ' = true from rfl, if_true, hword]
        rfl
    · cases hread
  | cons c text ih =>
    rw [List.cons_append, wordsFrom.eq_def]
    rw [wordsFrom.eq_def] at hread
    cases s with
    | plain =>
      dsimp only at hread ⊢
      split at hread
      · next hblank =>
        rw [if_pos hblank]
        obtain ⟨later, hlater, rfl⟩ := Option.map_eq_some_iff.mp hread
        rw [ih hlater, Option.map_some, List.append_assoc]
      · next hblank =>
        rw [if_neg hblank]
        split at hread
        · next hstep =>
          rw [if_pos hstep]
          exact ih hread
        · next hstep =>
          rw [if_neg hstep]
          exact ih hread
    | quoted q =>
      dsimp only at hread ⊢
      split at hread
      · next hstep =>
        rw [if_pos hstep]
        exact ih hread
      · next hstep =>
        rw [if_neg hstep]
        exact ih hread
    | escaped back => exact ih hread

theorem words_append {w : List Char} (h : Ordinary w) (hne : w ≠ []) {text : List Char} {read : List Word}
    (hread : words text = some read) : words (text ++ ' ' :: w) = some (read ++ [⟨w, w⟩]) :=
  wordsFrom_append h hne hread

end Base.Shell
