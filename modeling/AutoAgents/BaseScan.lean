import AutoAgents.BaseRegex

/-! Reading what stands in the lines of a text. A matcher is tried at every place; those that read no end of a
line find in a text what they find in its lines. -/

namespace Base.Scan

variable {α : Type}

/-- A matcher, at the start of a text. -/
abbrev Matcher (α : Type) := List Char → Option α

/-- What the matcher says of a text is what it says of the first line. -/
def InLine (m : Matcher α) : Prop := ∀ line rest, m (line ++ '\n' :: rest) = m (line ++ ['\n'])

/-! ### Matchers -/

/-- A fixed word, then the rest. -/
def expect : List Char → Matcher α → Matcher α
  | [], next, text => next text
  | _ :: _, _, [] => none
  | c :: word, next, d :: text => if c = d then expect word next text else none

/-- A number, then the rest; what follows is no digit. -/
def number (next : Nat → Matcher α) : Matcher α := fun text =>
  if text.takeWhile Char.isDigit = [] then none
  else next (Nat.ofDigitChars 10 (text.takeWhile Char.isDigit) 0) (text.dropWhile Char.isDigit)

def isWord (c : Char) : Bool := c.isAlphanum || c == '_'

/-- No character of a word follows. -/
def endOfWord (value : α) : Matcher α := fun text => if text.head?.any isWord = true then none else some value

def accept (value : α) : Matcher α := fun _ => some value

theorem inLine_accept (value : α) : InLine (accept value) := fun _ _ => rfl

theorem inLine_endOfWord (value : α) : InLine (endOfWord value) := by
  intro line rest
  cases line <;> rfl

theorem inLine_expect {word : List Char} {next : Matcher α} (hword : '\n' ∉ word) (hnext : InLine next) :
    InLine (expect word next) := by
  induction word with
  | nil => exact hnext
  | cons c word ih =>
    rw [List.mem_cons, not_or] at hword
    intro line rest
    cases line with
    | nil =>
      change (if c = '\n' then _ else none) = if c = '\n' then _ else none
      rw [if_neg (Ne.symm hword.1), if_neg (Ne.symm hword.1)]
    | cons d line =>
      have hline := ih hword.2 line rest
      simp only [List.cons_append, expect, hline]

theorem takeWhile_line (p : Char → Bool) (hp : p '\n' = false) (line rest : List Char) :
    (line ++ '\n' :: rest).takeWhile p = line.takeWhile p ∧
      (line ++ '\n' :: rest).dropWhile p = line.dropWhile p ++ '\n' :: rest := by
  induction line with
  | nil => simp [hp]
  | cons c line ih =>
    by_cases hc : p c = true
    · simp [hc, ih]
    · simp [hc]

theorem inLine_number {next : Nat → Matcher α} (hnext : ∀ n, InLine (next n)) : InLine (number next) := by
  intro line rest
  obtain ⟨htake, hdrop⟩ := takeWhile_line Char.isDigit (by decide) line rest
  obtain ⟨htake', hdrop'⟩ := takeWhile_line Char.isDigit (by decide) line []
  rw [number, number, htake, hdrop, htake', hdrop', hnext _ _ rest]

theorem expect_append (word text : List Char) (next : Matcher α) : expect word next (word ++ text) = next text := by
  induction word with
  | nil => rfl
  | cons c word ih => simpa [expect] using ih

theorem number_toDigits (next : Nat → Matcher α) (n : Nat) {text : List Char}
    (htext : text.head?.any Char.isDigit = false) : number next (Nat.toDigits 10 n ++ text) = next n text := by
  have hall : ∀ c ∈ Nat.toDigits 10 n, c.isDigit = true :=
    fun c hc => Nat.isDigit_of_mem_toDigits (by decide) (by decide) hc
  have hstop : text.takeWhile Char.isDigit = [] ∧ text.dropWhile Char.isDigit = text := by
    cases text with
    | nil => exact ⟨rfl, rfl⟩
    | cons c text =>
      have hc : c.isDigit = false := by simpa using htext
      simp [hc]
  rw [number, List.takeWhile_append_of_pos hall, List.dropWhile_append_of_pos hall, hstop.1, hstop.2,
    List.append_nil, if_neg Nat.toDigits_ne_nil, Nat.ofDigitChars_ten_toDigits]

/-! ### The first match -/

/-- `re.search`. -/
def search (m : Matcher α) : List Char → Option α
  | [] => m []
  | c :: text => (m (c :: text)).or (search m text)

theorem search_lines {m : Matcher α} (hm : InLine m) (hnil : m [] = none) (line rest : List Char) :
    search m (line ++ '\n' :: rest) = (search m (line ++ ['\n'])).or (search m rest) := by
  induction line with
  | nil =>
    have hline := hm [] rest
    simp only [List.nil_append] at hline
    simp only [List.nil_append, search, hline, hnil, Option.or_none]
  | cons c line ih =>
    have hline := hm (c :: line) rest
    simp only [List.cons_append] at hline
    simp only [List.cons_append, search, hline, ih, Option.or_assoc]

/-- In a text of lines the first match is that of the first line with one. -/
theorem search_flatMap {m : Matcher α} (hm : InLine m) (hnil : m [] = none) (lines : List (List Char)) :
    search m (lines.flatMap fun line => line ++ ['\n']) = lines.findSome? fun line => search m (line ++ ['\n']) := by
  induction lines with
  | nil => exact hnil
  | cons line lines ih =>
    rw [List.flatMap_cons, List.append_assoc, List.singleton_append, search_lines hm hnil, ih, List.findSome?_cons]
    cases search m (line ++ ['\n']) <;> rfl

theorem search_expect_none {c : Char} {word text : List Char} {next : Matcher α} (h : c ∉ text) :
    search (expect (c :: word) next) text = none := by
  induction text with
  | nil => rfl
  | cons d text ih =>
    rw [List.mem_cons, not_or] at h
    rw [search, ih h.2, expect, if_neg h.1, Option.or_none]

theorem search_of_some {m : Matcher α} {text : List Char} {value : α} (h : m text = some value) :
    search m text = some value := by
  cases text with
  | nil => exact h
  | cons c text => rw [search, h, Option.some_or]

/-! ### All matches -/

/-- `re.findall` with a condition on the character before a match. No match of the matchers used here begins
within another one, so every place is tried. -/
def findAll (clear : Option Char → Bool) (m : Matcher α) : Option Char → List Char → List α
  | _, [] => []
  | before, c :: text => (if clear before = true then (m (c :: text)).toList else []) ++ findAll clear m (some c) text

variable {clear : Option Char → Bool} {m : Matcher α}

theorem findAll_lines (hm : InLine m) (before : Option Char) (line rest : List Char) :
    findAll clear m before (line ++ '\n' :: rest) =
      findAll clear m before (line ++ ['\n']) ++ findAll clear m (some '\n') rest := by
  induction line generalizing before with
  | nil =>
    have hline := hm [] rest
    simp only [List.nil_append] at hline
    simp only [List.nil_append, findAll, hline, List.append_nil]
  | cons c line ih =>
    have hline := hm (c :: line) rest
    simp only [List.cons_append] at hline
    simp only [List.cons_append, findAll, hline, ih, List.append_assoc]

theorem findAll_clear {before before' : Option Char} (h : clear before = clear before') (text : List Char) :
    findAll clear m before text = findAll clear m before' text := by
  cases text with
  | nil => rfl
  | cons c text => rw [findAll, findAll, h]

/-- In a text of lines the matches are those of its lines. -/
theorem findAll_flatMap (hm : InLine m) (hclear : clear none = clear (some '\n')) (lines : List (List Char)) :
    findAll clear m none (lines.flatMap fun line => line ++ ['\n']) =
      lines.flatMap fun line => findAll clear m none (line ++ ['\n']) := by
  induction lines with
  | nil => rfl
  | cons line lines ih =>
    rw [List.flatMap_cons, List.flatMap_cons, List.append_assoc, List.singleton_append, findAll_lines hm,
      findAll_clear hclear.symm, ih]

/-- Without a character that the matcher reads there is no match. -/
theorem findAll_lacks {c : Char} (hm : ∀ text, c ∉ text → m text = none) {text : List Char} (h : c ∉ text)
    (before : Option Char) : findAll clear m before text = [] := by
  induction text generalizing before with
  | nil => rfl
  | cons d text ih =>
    rw [findAll, hm _ h, ih (fun hmem => h (List.mem_cons_of_mem _ hmem)) (some d)]
    simp

theorem expect_lacks {c : Char} {word : List Char} {next : Matcher α} (hc : c ∈ word) {text : List Char}
    (h : c ∉ text) : expect word next text = none := by
  induction word generalizing text with
  | nil => cases hc
  | cons d word ih =>
    cases text with
    | nil => rfl
    | cons e text =>
      rw [List.mem_cons, not_or] at h
      rcases List.mem_cons.mp hc with rfl | hc
      · rw [expect, if_neg h.1]
      · rw [expect, ih hc h.2]
        exact ite_self _

/-! ### Counters -/

/-- A number and a word: `(\d+) word\b`. -/
def counter (word : List Char) : Matcher Nat := number fun n => expect (' ' :: word) (endOfWord n)

theorem inLine_counter {word : List Char} (h : '\n' ∉ word) : InLine (counter word) := by
  refine inLine_number fun n => inLine_expect ?_ (inLine_endOfWord n)
  rw [List.mem_cons, not_or]
  exact ⟨by decide, h⟩

theorem counter_cons {word : List Char} {c : Char} (h : c.isDigit = false) (text : List Char) :
    counter word (c :: text) = none := by
  simp [counter, number, h]

theorem counter_lacks {word : List Char} {c : Char} (hc : c ∈ word) (text : List Char) (h : c ∉ text) :
    counter word text = none := by
  have hrest : c ∉ text.dropWhile Char.isDigit := fun hmem => h ((List.dropWhile_sublist _).mem hmem)
  simp only [counter, number, expect_lacks (List.mem_cons_of_mem _ hc) hrest, ite_self]

theorem expect_word {word other text : List Char} (value : α) (hword : word.all isWord = true)
    (hother : other.all isWord = true) (htext : text.head?.any isWord = false) :
    expect word (endOfWord value) (other ++ text) = if other = word then some value else none := by
  induction word generalizing other with
  | nil =>
    cases other with
    | nil => simp [expect, endOfWord, htext]
    | cons d other =>
      rw [List.all_cons, Bool.and_eq_true] at hother
      simp [expect, endOfWord, hother.1]
  | cons c word ih =>
    rw [List.all_cons, Bool.and_eq_true] at hword
    cases other with
    | nil =>
      cases text with
      | nil => rfl
      | cons d text =>
        have hd : isWord d = false := by simpa using htext
        have hne : c ≠ d := by
          rintro rfl
          simp [hword.1] at hd
        simp [expect, hne]
    | cons d other =>
      rw [List.all_cons, Bool.and_eq_true] at hother
      rw [List.cons_append, expect, ih hword.2 hother.2]
      by_cases hcd : c = d
      · simp [hcd]
      · simp [hcd, Ne.symm hcd]

theorem counter_toDigits {word other text : List Char} (n : Nat) (hword : word.all isWord = true)
    (hother : other.all isWord = true) (htext : text.head?.any isWord = false) :
    counter word (Nat.toDigits 10 n ++ ' ' :: (other ++ text)) = if other = word then some n else none := by
  rw [counter, number_toDigits _ _ rfl, expect, if_pos rfl, expect_word n hword hother htext]

/-- Characters that begin no match are passed over. -/
theorem findAll_plain (hm : ∀ c text, c.isDigit = false → m (c :: text) = none) {word : List Char}
    (hword : ∀ c ∈ word, c.isDigit = false) (before : Option Char) (text : List Char) :
    findAll clear m before (word ++ text) = findAll clear m (word.getLast?.or before) text := by
  induction word generalizing before with
  | nil => rfl
  | cons c word ih =>
    rw [List.cons_append, findAll, hm c _ (hword c List.mem_cons_self), Option.toList_none, ite_self,
      List.nil_append, ih (fun d hd => hword d (List.mem_cons_of_mem _ hd)), List.getLast?_cons]
    cases word.getLast? <;> rfl

/-- A number that is followed by another character can match at its first digit only. -/
theorem findAll_toDigits (hclear : ∀ c, c.isDigit = true → clear (some c) = false) (before : Option Char)
    (n : Nat) (c : Char) (text : List Char) :
    findAll clear m before (Nat.toDigits 10 n ++ c :: text) =
      (if clear before = true then (m (Nat.toDigits 10 n ++ c :: text)).toList else []) ++
        findAll clear m (some c) text := by
  have hall : ∀ d ∈ Nat.toDigits 10 n, d.isDigit = true :=
    fun d hd => Nat.isDigit_of_mem_toDigits (by decide) (by decide) hd
  have hrest : ∀ (digits : List Char) (d : Char), (∀ e ∈ digits, e.isDigit = true) → d.isDigit = true →
      findAll clear m (some d) (digits ++ c :: text) = findAll clear m (some c) text := by
    intro digits
    induction digits with
    | nil =>
      intro d _ hd
      rw [List.nil_append, findAll, hclear d hd, if_neg (by decide), List.nil_append]
    | cons e digits ih =>
      intro d hdigits hd
      rw [List.cons_append, findAll, hclear d hd, if_neg (by decide), List.nil_append]
      exact ih e (fun x hx => hdigits x (List.mem_cons_of_mem _ hx)) (hdigits e List.mem_cons_self)
  cases hdigits : Nat.toDigits 10 n with
  | nil => exact absurd hdigits Nat.toDigits_ne_nil
  | cons d digits =>
    rw [hdigits] at hall
    rw [List.cons_append, findAll, hrest digits d (fun e he => hall e (List.mem_cons_of_mem _ he))
      (hall d List.mem_cons_self)]

end Base.Scan
