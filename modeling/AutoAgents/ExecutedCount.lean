import AutoAgents.BaseJsonRead
import AutoAgents.BaseScan

/-! How many tests a verification executed, as it is read out of the summaries that the test runners print. -/

namespace AutoAgents.Counting

/-- Bounded statements about characters are decided along the list. -/
local instance (priority := 5000) decideChars {p : Char → Prop} [DecidablePred p] (text : List Char) : Decidable (∀ c ∈ text, p c) :=
  List.decidableBAll p text

open Base Base.Scan

/-! ### The reader -/

/-- An escape sequence that colours a terminal. -/
def ansi : Regex :=
  Regex.inOrder [.one (· == '\x1b'), .one (· == '['), .many fun c => '0' ≤ c && c ≤ '?',
    .many fun c => ' ' ≤ c && c ≤ '/', .one fun c => '@' ≤ c && c ≤ '~']

def stripAnsi (output : List Char) : List Char := Regex.sub (Regex.inOrder []) ansi [] output

/-- `s?\b`. -/
def plural (n : Nat) : Matcher Nat
  | 's' :: text => endOfWord n text
  | text => endOfWord n text

/-- `Ran (\d+) tests?\b`. -/
def ranTests : Matcher Nat := expect "Ran ".toList (number fun n => expect " test".toList (plural n))

/-- `OK \(skipped=(\d+)\)`. -/
def okSkipped : Matcher Nat := expect "OK (skipped=".toList (number fun s => expect [')'] (accept s))

/-- `(?<![=\w])`. -/
def clearBefore : Option Char → Bool
  | none => true
  | some c => !(c == '=' || isWord c)

/-- `([1-9]\d*) passed\b`. -/
def passedCount : Matcher Nat := fun text =>
  if text.head? = some '0' then none else counter "passed".toList text

/-- `(\d+) failed\b`. -/
def failedCount : Matcher Nat := counter "failed".toList

def executedCount (output : List Char) : Int :=
  let output := stripAnsi output
  match search ranTests output with
  | some n => n - ((search okSkipped output).getD 0 : Nat)
  | none => ((findAll clearBefore passedCount none output).foldl max 0 : Nat)

/-! ### The summaries -/

/-- A time, as the runners show it. -/
structure Duration where
  text : List Char
  plain : ∀ c ∈ text, c.isDigit = true ∨ c ∈ ['.', ':', '(', ')', ' ', 's', 'm']

/-- A run of `unittest`. -/
structure UnittestRun where
  tests : Nat
  failures : Nat := 0
  errors : Nat := 0
  skipped : Nat := 0
  expectedFailures : Nat := 0
  unexpectedSuccesses : Nat := 0
  duration : Duration

/-- A run of `pytest`; `bars` is the width of the rule on each side, which the quiet mode leaves out. -/
structure PytestRun where
  bars : Nat := 0
  failed : Nat := 0
  passed : Nat := 0
  skipped : Nat := 0
  deselected : Nat := 0
  xfailed : Nat := 0
  xpassed : Nat := 0
  warnings : Nat := 0
  errors : Nat := 0
  duration : Duration

/-- What `vitest` counts, of files and of tests. -/
structure VitestCounts where
  failed : Nat := 0
  passed : Nat := 0
  skipped : Nat := 0
  todo : Nat := 0

structure VitestRun where
  files : VitestCounts
  tests : VitestCounts

inductive Summary
  | unittest (run : UnittestRun)
  | pytest (run : PytestRun)
  | vitest (run : VitestRun)

def joined (sep : List Char) : List (List Char) → List Char
  | [] => []
  | [word] => word
  | word :: rest => word ++ (sep ++ joined sep rest)

def digits (n : Nat) : List Char := Nat.toDigits 10 n

/-- The counters that are shown: those that are not zero. -/
def shown (counts : List (Nat × String)) : List (Nat × String) := counts.filter fun count => 0 < count.1

def countText (count : Nat × String) : List Char := digits count.1 ++ ' ' :: count.2.toList

/-- The counters, or a text that says that there are none. -/
def countsText (sep nothing : String) (counts : List (Nat × String)) : List Char :=
  if shown counts = [] then nothing.toList else joined sep.toList ((shown counts).map countText)

namespace UnittestRun

def ok (u : UnittestRun) : Bool := u.failures == 0 && u.errors == 0 && u.unexpectedSuccesses == 0

def infos (u : UnittestRun) : List (Nat × String) :=
  shown [(u.failures, "failures"), (u.errors, "errors"), (u.skipped, "skipped"),
    (u.expectedFailures, "expected failures"), (u.unexpectedSuccesses, "unexpected successes")]

def infoText (info : Nat × String) : List Char := info.2.toList ++ '=' :: digits info.1

def verdict (u : UnittestRun) : List Char :=
  (if u.ok = true then "OK" else "FAILED").toList ++
    if u.infos = [] then [] else " (".toList ++ (joined ", ".toList (u.infos.map infoText) ++ [')'])

def ranLine (u : UnittestRun) : List Char :=
  "Ran ".toList ++ (digits u.tests ++ ((if u.tests = 1 then " test" else " tests").toList ++
    (" in ".toList ++ u.duration.text)))

def lines (u : UnittestRun) : List (List Char) := [u.ranLine, [], u.verdict]

end UnittestRun

namespace PytestRun

def counts (p : PytestRun) : List (Nat × String) :=
  [(p.failed, "failed"), (p.passed, "passed"), (p.skipped, "skipped"), (p.deselected, "deselected"),
    (p.xfailed, "xfailed"), (p.xpassed, "xpassed"), (p.warnings, if p.warnings = 1 then "warning" else "warnings"),
    (p.errors, if p.errors = 1 then "error" else "errors")]

/-- The rule before the counters, and after them. -/
def bar (p : PytestRun) : List Char := List.replicate p.bars '='

def line (p : PytestRun) : List Char :=
  (if p.bars = 0 then [] else p.bar ++ [' ']) ++ (countsText ", " "no tests ran" p.counts ++
    (" in ".toList ++ (p.duration.text ++ (if p.bars = 0 then [] else ' ' :: p.bar))))

end PytestRun

namespace VitestCounts

def counts (v : VitestCounts) : List (Nat × String) :=
  [(v.failed, "failed"), (v.passed, "passed"), (v.skipped, "skipped"), (v.todo, "todo")]

def total (v : VitestCounts) : Nat := v.failed + v.passed + v.skipped + v.todo

def line (title : String) (v : VitestCounts) : List Char :=
  title.toList ++ (countsText " | " "no tests" v.counts ++ (" (".toList ++ (digits v.total ++ [')'])))

end VitestCounts

def VitestRun.lines (v : VitestRun) : List (List Char) :=
  [v.files.line " Test Files  ", v.tests.line "      Tests  "]

def Summary.lines : Summary → List (List Char)
  | .unittest u => u.lines
  | .pytest p => [p.line]
  | .vitest v => v.lines

def text (lines : List (List Char)) : List Char := lines.flatMap fun line => line ++ ['\n']

def linesOf (runs : List Summary) : List (List Char) := runs.flatMap Summary.lines

/-! ### What the summaries say -/

/-- The number after `Ran`. -/
def Summary.ran : Summary → Option Nat
  | .unittest u => some u.tests
  | _ => none

/-- The skip counter of a verdict that shows nothing else. -/
def UnittestRun.bareSkip (u : UnittestRun) : Option Nat :=
  if u.ok = true ∧ 0 < u.skipped ∧ u.expectedFailures = 0 then some u.skipped else none

def Summary.bareSkip : Summary → Option Nat
  | .unittest u => u.bareSkip
  | _ => none

def positive (n : Nat) : List Nat := if 0 < n then [n] else []

def Summary.passedCounts : Summary → List Nat
  | .unittest _ => []
  | .pytest p => positive p.passed
  | .vitest v => positive v.files.passed ++ positive v.tests.passed

def Summary.failedCounts : Summary → List Nat
  | .unittest _ => []
  | .pytest p => positive p.failed
  | .vitest v => positive v.files.failed ++ positive v.tests.failed

/-- What `executed_count` makes of the summaries. -/
def counted (runs : List Summary) : Int :=
  match runs.findSome? Summary.ran with
  | some n => n - ((runs.findSome? Summary.bareSkip).getD 0 : Nat)
  | none => ((runs.flatMap Summary.passedCounts).foldl max 0 : Nat)

/-! ### The matchers in the lines -/

/-- A matcher of a number before a word. -/
structure Reads (word : List Char) (m : Matcher Nat) : Prop where
  inLine : InLine m
  plain : ∀ c text, c.isDigit = false → m (c :: text) = none
  lacks : ∀ c ∈ word, ∀ text, c ∉ text → m text = none
  count : ∀ n > 0, ∀ other text : List Char, other.all isWord = true → text.head?.any isWord = false →
    m (Nat.toDigits 10 n ++ ' ' :: (other ++ text)) = if other = word then some n else none

theorem reads_failed : Reads "failed".toList failedCount where
  inLine := inLine_counter (by decide)
  plain _ _ h := counter_cons h _
  lacks _ hc text h := counter_lacks hc text h
  count n _ _ _ hother htext := counter_toDigits n (by decide) hother htext

theorem reads_passed : Reads "passed".toList passedCount where
  inLine := by
    intro line rest
    have hword : '\n' ∉ "passed".toList := by decide
    have hcounter := inLine_counter hword line rest
    unfold passedCount
    rw [hcounter]
    cases line <;> rfl
  plain c text h := by
    unfold passedCount
    rw [counter_cons h]
    exact ite_self _
  lacks c hc text h := by
    unfold passedCount
    rw [counter_lacks hc text h]
    exact ite_self _
  count n hn other text hother htext := by
    unfold passedCount
    rw [List.head?_append_of_ne_nil _ Nat.toDigits_ne_nil, if_neg (toDigits_head hn)]
    exact counter_toDigits n (by decide) hother htext

theorem clearBefore_isDigit {c : Char} (h : c.isDigit = true) : clearBefore (some c) = false := by
  simp [clearBefore, isWord, Char.isAlphanum, h]

theorem not_mem_digits {c : Char} (h : c.isDigit = false) (n : Nat) : c ∉ digits n := by
  intro hc
  have hdigit := Nat.isDigit_of_mem_toDigits (by decide) (by decide) hc
  rw [h] at hdigit
  cases hdigit

theorem mem_joined {sep : List Char} {words : List (List Char)} {c : Char} (h : c ∈ joined sep words) :
    c ∈ sep ∨ ∃ word ∈ words, c ∈ word := by
  induction words with
  | nil => cases h
  | cons word rest ih =>
    cases rest with
    | nil => exact .inr ⟨word, List.mem_singleton_self _, h⟩
    | cons next rest =>
      rw [joined, List.mem_append, List.mem_append] at h
      rcases h with h | h | h
      · exact .inr ⟨word, List.mem_cons_self, h⟩
      · exact .inl h
      · rcases ih h with h | ⟨word', hword', h⟩
        · exact .inl h
        · exact .inr ⟨word', List.mem_cons_of_mem _ hword', h⟩
      all_goals simp

theorem mem_shown {counts : List (Nat × String)} {count : Nat × String} (h : count ∈ shown counts) :
    count ∈ counts ∧ 0 < count.1 := by
  simpa [shown] using h

/-- A sign that is in none of the words is not in the counters. -/
theorem not_mem_countsText {sep nothing : String} {counts : List (Nat × String)} {c : Char}
    (hdigit : c.isDigit = false) (hspace : c ≠ ' ') (hsep : c ∉ sep.toList) (hnothing : c ∉ nothing.toList)
    (hcounts : ∀ count ∈ counts, c ∉ count.2.toList) : c ∉ countsText sep nothing counts := by
  unfold countsText
  split
  · exact hnothing
  · intro h
    rcases mem_joined h with h | ⟨word, hword, h⟩
    · exact hsep h
    · obtain ⟨count, hcount, rfl⟩ := List.mem_map.mp hword
      rw [countText, List.mem_append, List.mem_cons] at h
      rcases h with h | h | h
      · exact not_mem_digits hdigit _ h
      · exact hspace h
      · exact hcounts count (mem_shown hcount).1 h

/-! ### Counters in a line -/

/-- What a counter of a word adds. -/
def valuesOf (word : String) (counts : List (Nat × String)) : List Nat :=
  (shown counts).filterMap fun count => if count.2 = word then some count.1 else none

/-- What the counters of the runners are. -/
def Plain (count : Nat × String) : Prop :=
  0 < count.1 ∧ count.2.toList.all isWord = true ∧ ∀ c ∈ count.2.toList, c.isDigit = false

theorem findAll_countText {word : String} {m : Matcher Nat} (hm : Reads word.toList m) {count : Nat × String}
    (hcount : Plain count) {rest : List Char} (hrest : rest.head?.any isWord = false) {before : Option Char}
    (hbefore : clearBefore before = true) :
    findAll clearBefore m before (countText count ++ rest) =
      (if count.2 = word then some count.1 else none).toList ++
        findAll clearBefore m (count.2.toList.getLast?.or (some ' ')) rest := by
  obtain ⟨hpos, hall, hplain⟩ := hcount
  have hmatch := hm.count count.1 hpos count.2.toList rest hall hrest
  rw [countText, List.append_assoc, List.cons_append, digits,
    findAll_toDigits (fun c => clearBefore_isDigit) before count.1 ' ', if_pos hbefore, hmatch,
    findAll_plain hm.plain hplain]
  simp only [String.toList_inj]

theorem findAll_joined {word : String} {m : Matcher Nat} (hm : Reads word.toList m) {sep : List Char}
    (hsep : ∀ c ∈ sep, c.isDigit = false) (hhead : sep.head?.any isWord = false) (hsepne : sep ≠ [])
    (hlast : ∀ before, clearBefore (sep.getLast?.or before) = true) {tail : List Char} {x : Char} (hx : x ∈ word.toList)
    (htail : x ∉ tail) (htailhead : tail.head?.any isWord = false) {counts : List (Nat × String)}
    (hcounts : ∀ count ∈ counts, Plain count) {before : Option Char} (hbefore : clearBefore before = true) :
    findAll clearBefore m before (joined sep (counts.map countText) ++ tail) =
      counts.filterMap fun count => if count.2 = word then some count.1 else none := by
  have hnone : ∀ before, findAll clearBefore m before tail = [] := findAll_lacks (hm.lacks x hx) htail
  induction counts generalizing before with
  | nil => exact hnone before
  | cons count counts ih =>
    have hcount := hcounts count List.mem_cons_self
    cases counts with
    | nil =>
      rw [List.map_singleton, joined, findAll_countText hm hcount htailhead hbefore, hnone, List.append_nil]
      by_cases hword : count.2 = word <;> simp [hword]
    | cons next counts =>
      have hrest : (sep ++ (joined sep ((next :: counts).map countText) ++ tail)).head?.any isWord = false := by
        rw [List.head?_append_of_ne_nil _ hsepne]
        exact hhead
      have hnext := ih (fun count' hcount' => hcounts count' (List.mem_cons_of_mem _ hcount'))
        (hlast (count.2.toList.getLast?.or (some ' ')))
      rw [List.map_cons, List.map_cons, joined, ← List.map_cons, List.append_assoc, List.append_assoc,
        findAll_countText hm hcount hrest hbefore, findAll_plain hm.plain hsep, hnext]
      conv_rhs => rw [List.filterMap_cons]
      by_cases hword : count.2 = word
      · simp only [if_pos hword, Option.toList_some, List.singleton_append]
      · simp only [if_neg hword, Option.toList_none, List.nil_append]
      · simp

/-- The counters of a line, between a title and an end that reads no number before the word. -/
theorem findAll_countsText {word : String} {m : Matcher Nat} (hm : Reads word.toList m) {sep nothing : String}
    (hsep : sep ∈ [", ", " | "]) {tail : List Char} {x : Char} (hx : x ∈ word.toList) (htail : x ∉ tail)
    (htailhead : tail.head?.any isWord = false) (hnothing : x ∉ nothing.toList) {counts : List (Nat × String)}
    (hcounts : ∀ count ∈ counts, count.2.toList.all isWord = true ∧ ∀ c ∈ count.2.toList, c.isDigit = false)
    {before : Option Char} (hbefore : clearBefore before = true) :
    findAll clearBefore m before (countsText sep nothing counts ++ tail) = valuesOf word counts := by
  unfold countsText valuesOf
  split
  · rename_i hempty
    rw [hempty, findAll_lacks (hm.lacks x hx)]
    · rfl
    · rw [List.mem_append, not_or]
      exact ⟨hnothing, htail⟩
  · have hplain : ∀ count ∈ shown counts, Plain count := by
      intro count hcount
      obtain ⟨hmem, hpos⟩ := mem_shown hcount
      exact ⟨hpos, hcounts count hmem⟩
    simp only [List.mem_cons, List.not_mem_nil, or_false] at hsep
    rcases hsep with rfl | rfl
    · exact findAll_joined hm (by decide) (by decide) (by decide) (fun _ => rfl) hx htail htailhead hplain hbefore
    · exact findAll_joined hm (by decide) (by decide) (by decide) (fun _ => rfl) hx htail htailhead hplain hbefore

theorem not_mem_duration {c : Char} (h : c ∈ ['p', 'f', 'R', 'O', '\x1b']) (d : Duration) : c ∉ d.text := by
  have hsigns : ∀ c ∈ ['p', 'f', 'R', 'O', '\x1b'], ¬ (c.isDigit = true ∨ c ∈ ['.', ':', '(', ')', ' ', 's', 'm']) := by
    decide
  exact fun hc => hsigns c h (d.plain c hc)

/-! ### Lines of unittest -/

namespace UnittestRun

theorem mem_infos {u : UnittestRun} {info : Nat × String} (h : info ∈ u.infos) :
    info.2 ∈ ["failures", "errors", "skipped", "expected failures", "unexpected successes"] := by
  have hmem := (mem_shown h).1
  simp only [List.mem_cons, List.not_mem_nil, or_false] at hmem
  rcases hmem with rfl | rfl | rfl | rfl | rfl <;> simp

theorem not_mem_infoTexts {c : Char} (h : c ∈ ['R', 'O', '\x1b']) (u : UnittestRun) :
    c ∉ joined ", ".toList (u.infos.map infoText) := by
  have hsigns : ∀ c ∈ ['R', 'O', '\x1b'], c.isDigit = false ∧ c ≠ '=' ∧ c ∉ ", ".toList ∧
      ∀ name ∈ ["failures", "errors", "skipped", "expected failures", "unexpected successes"], c ∉ name.toList := by
    decide
  obtain ⟨hdigit, hequal, hsep, hnames⟩ := hsigns c h
  intro hmem
  rcases mem_joined hmem with hmem | ⟨word, hword, hmem⟩
  · exact hsep hmem
  · obtain ⟨info, hinfo, rfl⟩ := List.mem_map.mp hword
    rw [infoText, List.mem_append, List.mem_cons] at hmem
    rcases hmem with hmem | hmem | hmem
    · exact hnames _ (mem_infos hinfo) hmem
    · exact hequal hmem
    · exact not_mem_digits hdigit _ hmem

theorem not_mem_verdict {c : Char} (h : c ∈ ['R', 'O', '\x1b']) {u : UnittestRun} (hok : c = 'O' → u.ok = false) :
    c ∉ u.verdict ++ ['\n'] := by
  have hsigns : ∀ c ∈ ['R', 'O', '\x1b'], c ∉ "FAILED".toList ∧ (c ≠ 'O' → c ∉ "OK".toList) ∧ c ∉ " (".toList ∧
      c ∉ [')'] ∧ c ∉ ['\n'] := by decide
  obtain ⟨hfailed, hgood, hopen, hclose, hend⟩ := hsigns c h
  have hfirst : c ∉ (if u.ok = true then "OK" else "FAILED").toList := by
    by_cases hO : c = 'O'
    · rw [hok hO]
      exact hfailed
    · split
      · exact hgood hO
      · exact hfailed
  rw [List.mem_append, not_or, verdict, List.mem_append, not_or]
  refine ⟨⟨hfirst, ?_⟩, hend⟩
  split
  · exact List.not_mem_nil
  · rw [List.mem_append, List.mem_append, not_or, not_or]
    exact ⟨hopen, not_mem_infoTexts h u, hclose⟩

theorem search_ranLine (u : UnittestRun) : search ranTests (u.ranLine ++ ['\n']) = some u.tests := by
  apply search_of_some
  rw [ranLine, List.append_assoc, ranTests, expect_append, List.append_assoc, digits, number_toDigits]
  · rw [List.append_assoc]
    split
    · rw [expect_append]
      rfl
    · rw [show " tests".toList = " test".toList ++ ['s'] from rfl, List.append_assoc, expect_append]
      rfl
  · split <;> rfl

theorem infos_of_ok {u : UnittestRun} (hok : u.ok = true) :
    u.infos = shown [(u.skipped, "skipped"), (u.expectedFailures, "expected failures")] := by
  simp only [ok, Bool.and_eq_true, beq_iff_eq] at hok
  obtain ⟨⟨hfailures, herrors⟩, hunexpected⟩ := hok
  simp [infos, shown, List.filter_cons, hfailures, herrors, hunexpected]

/-- A second counter follows where the pattern has the closing bracket. -/
theorem search_twoCounters {u : UnittestRun} (hok : u.ok = true) (hskipped : 0 < u.skipped)
    (hexpected : 0 < u.expectedFailures) : search okSkipped (u.verdict ++ ['\n']) = none := by
  have hlist : u.infos = [(u.skipped, "skipped"), (u.expectedFailures, "expected failures")] := by
    simp [infos_of_ok hok, shown, hskipped, hexpected]
  have hverdict : u.verdict ++ ['\n'] = "OK (skipped=".toList ++ (digits u.skipped ++ ([',', ' '] ++
      (infoText (u.expectedFailures, "expected failures") ++ [')', '\n']))) := by
    simp [verdict, hok, hlist, joined, infoText]
  have hrest : 'O' ∉ "K (skipped=".toList ++ (digits u.skipped ++ ([',', ' '] ++
      (infoText (u.expectedFailures, "expected failures") ++ [')', '\n']))) := by
    have hdigits : 'O' ∉ digits u.skipped := not_mem_digits (by decide) _
    have hdigits' : 'O' ∉ digits u.expectedFailures := not_mem_digits (by decide) _
    simp [infoText, hdigits, hdigits']
  have hhere : okSkipped (u.verdict ++ ['\n']) = none := by
    rw [hverdict, okSkipped, expect_append, digits, number_toDigits _ _ rfl]
    rfl
  have hsplit : u.verdict ++ ['\n'] = 'O' :: ("K (skipped=".toList ++ (digits u.skipped ++ ([',', ' '] ++
      (infoText (u.expectedFailures, "expected failures") ++ [')', '\n'])))) := hverdict
  have hlater := @search_expect_none _ 'O' "K (skipped=".toList _ (number fun s => expect [')'] (accept s)) hrest
  rw [hsplit, search, ← hsplit, hhere, Option.none_or]
  exact hlater

theorem search_oneCounter {u : UnittestRun} (hok : u.ok = true) (hskipped : 0 < u.skipped)
    (hexpected : ¬ 0 < u.expectedFailures) : search okSkipped (u.verdict ++ ['\n']) = some u.skipped := by
  have hlist : u.infos = [(u.skipped, "skipped")] := by
    simp [infos_of_ok hok, shown, hskipped, hexpected]
  have hverdict : u.verdict ++ ['\n'] = "OK (skipped=".toList ++ (digits u.skipped ++ [')', '\n']) := by
    simp [verdict, hok, hlist, joined, infoText]
  apply search_of_some
  rw [hverdict, okSkipped, expect_append, digits, number_toDigits _ _ rfl]
  rfl

theorem search_unskipped {u : UnittestRun} (hok : u.ok = true) (hskipped : ¬ 0 < u.skipped) :
    search okSkipped (u.verdict ++ ['\n']) = none := by
  by_cases hexpected : 0 < u.expectedFailures
  · have hlist : u.infos = [(u.expectedFailures, "expected failures")] := by
      simp [infos_of_ok hok, shown, hskipped, hexpected]
    have hverdict : u.verdict ++ ['\n'] =
        'O' :: ("K (expected failures=".toList ++ (digits u.expectedFailures ++ [')', '\n'])) := by
      simp [verdict, hok, hlist, joined, infoText]
    have hrest : 'O' ∉ "K (expected failures=".toList ++ (digits u.expectedFailures ++ [')', '\n']) := by
      have hdigits : 'O' ∉ digits u.expectedFailures := not_mem_digits (by decide) _
      simp [hdigits]
    have hlater := @search_expect_none _ 'O' "K (skipped=".toList _ (number fun s => expect [')'] (accept s)) hrest
    rw [hverdict, search]
    exact hlater
  · have hlist : u.infos = [] := by
      simp [infos_of_ok hok, shown, hskipped, hexpected]
    have hverdict : u.verdict ++ ['\n'] = ['O', 'K', '\n'] := by
      simp [verdict, hok, hlist]
    rw [hverdict]
    rfl

theorem search_okSkipped (u : UnittestRun) : search okSkipped (u.verdict ++ ['\n']) = u.bareSkip := by
  unfold bareSkip
  split
  · rename_i hbare
    exact search_oneCounter hbare.1 hbare.2.1 (by omega)
  · rename_i hbare
    by_cases hok : u.ok = true
    · by_cases hskipped : 0 < u.skipped
      · have hexpected : 0 < u.expectedFailures := by
          by_contra hnone
          exact hbare ⟨hok, hskipped, by omega⟩
        exact search_twoCounters hok hskipped hexpected
      · exact search_unskipped hok hskipped
    · exact search_expect_none (not_mem_verdict (by decide) fun _ => by simpa using hok)

theorem not_mem_ranLine {c : Char} (h : c ∈ ['f', 'O', '\x1b']) (u : UnittestRun) : c ∉ u.ranLine ++ ['\n'] := by
  have hsigns : ∀ c ∈ ['f', 'O', '\x1b'], c.isDigit = false ∧ c ∉ "Ran ".toList ∧ c ∉ " test".toList ∧
      c ∉ " tests".toList ∧ c ∉ " in ".toList ∧ c ∉ ['\n'] ∧ c ∈ ['p', 'f', 'R', 'O', '\x1b'] := by decide
  obtain ⟨hdigit, hran, htest, htests, hin, hend, hduration⟩ := hsigns c h
  have hword : c ∉ (if u.tests = 1 then " test" else " tests").toList := by
    split
    · exact htest
    · exact htests
  simp only [ranLine, List.mem_append, not_or]
  exact ⟨⟨hran, not_mem_digits hdigit _, hword, hin, not_mem_duration hduration u.duration⟩, hend⟩

/-- The counters of the verdict follow an equals sign. -/
theorem findAll_infoTexts {m : Matcher Nat} (hm : ∀ c text, c.isDigit = false → m (c :: text) = none)
    (infos : List (Nat × String)) (hinfos : ∀ info ∈ infos, ∀ c ∈ info.2.toList, c.isDigit = false)
    (before : Option Char) : findAll clearBefore m before (joined ", ".toList (infos.map infoText) ++ [')', '\n']) = [] := by
  have hone : ∀ (info : Nat × String), (∀ c ∈ info.2.toList, c.isDigit = false) → ∀ (c : Char) (rest : List Char)
      (before : Option Char), findAll clearBefore m before (infoText info ++ c :: rest) =
        findAll clearBefore m (some c) rest := by
    intro info hinfo c rest before
    have hplain : ∀ d ∈ info.2.toList ++ ['='], d.isDigit = false := by
      intro d hd
      rcases List.mem_append.mp hd with hd | hd
      · exact hinfo d hd
      · rw [List.mem_singleton.mp hd]
        rfl
    rw [infoText, show info.2.toList ++ '=' :: digits info.1 = (info.2.toList ++ ['=']) ++ digits info.1 by simp,
      List.append_assoc, findAll_plain hm hplain, List.getLast?_append, digits,
      findAll_toDigits (fun c => clearBefore_isDigit)]
    rfl
  induction infos generalizing before with
  | nil =>
    have hclosing : ∀ c ∈ [')', '\n'], c.isDigit = false := by decide
    exact findAll_plain hm hclosing before []
  | cons info infos ih =>
    have hinfo := hinfos info List.mem_cons_self
    have hrest : ∀ info ∈ infos, ∀ c ∈ info.2.toList, c.isDigit = false :=
      fun info' h => hinfos info' (List.mem_cons_of_mem _ h)
    cases infos with
    | nil =>
      rw [List.map_singleton, joined, hone info hinfo]
      have hend : ∀ c ∈ ['\n'], c.isDigit = false := by decide
      exact findAll_plain hm hend (some ')') []
    | cons next infos =>
      rw [List.map_cons, List.map_cons, joined, ← List.map_cons, List.append_assoc, List.append_assoc,
        show ", ".toList = [',', ' '] from rfl, List.cons_append, hone info hinfo]
      · have hspace : ∀ c ∈ [' '], c.isDigit = false := by decide
        rw [List.cons_append, List.nil_append]
        exact (findAll_plain hm hspace (some ',')
          (joined [',', ' '] ((next :: infos).map infoText) ++ [')', '\n'])).trans (ih hrest _)
      · simp

theorem infos_plain (u : UnittestRun) : ∀ info ∈ u.infos, ∀ c ∈ info.2.toList, c.isDigit = false := by
  have hnames : ∀ name ∈ ["failures", "errors", "skipped", "expected failures", "unexpected successes"],
      ∀ c ∈ name.toList, c.isDigit = false := by decide
  exact fun info hinfo => hnames _ (mem_infos hinfo)

/-- No line of unittest counts a failure the way the others do. -/
theorem findAll_failed (u : UnittestRun) :
    u.lines.flatMap (fun line => findAll clearBefore failedCount none (line ++ ['\n'])) = [] := by
  have hverdict : findAll clearBefore failedCount none (u.verdict ++ ['\n']) = [] := by
    have hfirst : ∀ rest, findAll clearBefore failedCount none
        ((if u.ok = true then "OK" else "FAILED").toList ++ rest) = findAll clearBefore failedCount
          ((if u.ok = true then "OK" else "FAILED").toList.getLast?.or none) rest := by
      refine findAll_plain reads_failed.plain ?_ none
      split <;> decide
    rw [verdict, List.append_assoc, hfirst]
    by_cases hinfos : u.infos = []
    · rw [if_pos hinfos, List.nil_append]
      have hend : ∀ c ∈ ['\n'], c.isDigit = false := by decide
      exact findAll_plain reads_failed.plain hend _ []
    · rw [if_neg hinfos, List.append_assoc, findAll_plain reads_failed.plain (by decide), List.append_assoc]
      exact findAll_infoTexts reads_failed.plain u.infos u.infos_plain _
  have hempty : findAll clearBefore failedCount none ([] ++ ['\n']) = [] := rfl
  simp only [lines, List.flatMap_cons, List.flatMap_nil, findAll_lacks (reads_failed.lacks 'f' (by decide)) (u.not_mem_ranLine (by decide)),
    hempty, hverdict, List.append_nil]

end UnittestRun

/-! ### Lines of pytest and vitest -/

theorem valuesOf_eq {word : String} {counts : List (Nat × String)} {n : Nat} {before after : List (Nat × String)}
    (hcounts : counts = before ++ (n, word) :: after) (hbefore : ∀ count ∈ before, count.2 ≠ word)
    (hafter : ∀ count ∈ after, count.2 ≠ word) : valuesOf word counts = positive n := by
  have hnone : ∀ {others : List (Nat × String)}, (∀ count ∈ others, count.2 ≠ word) → valuesOf word others = [] := by
    intro others hothers
    rw [valuesOf, List.filterMap_eq_nil_iff]
    intro count hcount
    rw [if_neg (hothers count (mem_shown hcount).1)]
  have hsplit : valuesOf word counts = valuesOf word before ++ (positive n ++ valuesOf word after) := by
    rw [hcounts]
    simp only [valuesOf, shown, List.filter_append, List.filterMap_append, positive, List.filter_cons]
    split <;> simp_all
  rw [hsplit, hnone hbefore, hnone hafter, List.nil_append, List.append_nil]

/-- The character by which a line is told to have no more counters of the word. -/
structure Telling (word : String) (m : Matcher Nat) (x : Char) : Prop where
  reads : Reads word.toList m
  mem : x ∈ word.toList
  sign : x ∈ ['p', 'f']

theorem telling_passed : Telling "passed" passedCount 'p' := ⟨reads_passed, by decide, by decide⟩

theorem telling_failed : Telling "failed" failedCount 'f' := ⟨reads_failed, by decide, by decide⟩

def PytestRun.names : List String :=
  ["failed", "passed", "skipped", "deselected", "xfailed", "xpassed", "warning", "warnings", "error", "errors"]

theorem PytestRun.mem_names {p : PytestRun} {count : Nat × String} (h : count ∈ p.counts) : count.2 ∈ names := by
  simp only [counts, List.mem_cons, List.not_mem_nil, or_false] at h
  rcases h with rfl | rfl | rfl | rfl | rfl | rfl | rfl | rfl
  · simp [names]
  · simp [names]
  · simp [names]
  · simp [names]
  · simp [names]
  · simp [names]
  · by_cases hone : p.warnings = 1 <;> simp [names, hone]
  · by_cases hone : p.errors = 1 <;> simp [names, hone]

theorem PytestRun.counts_plain (p : PytestRun) : ∀ count ∈ p.counts,
    count.2.toList.all isWord = true ∧ ∀ c ∈ count.2.toList, c.isDigit = false := by
  have hnames : ∀ name ∈ names, name.toList.all isWord = true ∧ ∀ c ∈ name.toList, c.isDigit = false := by decide
  exact fun count hcount => hnames _ (mem_names hcount)

theorem findAll_pytest {word : String} {m : Matcher Nat} {x : Char} (h : Telling word m x) (p : PytestRun) :
    findAll clearBefore m none (p.line ++ ['\n']) = valuesOf word p.counts := by
  have hsigns : ∀ x ∈ ['p', 'f'], x ∉ " in ".toList ∧ x ∉ "no tests ran".toList ∧ x ≠ '=' ∧ x ≠ ' ' ∧ x ∉ ['\n'] ∧
      x ∈ ['p', 'f', 'R', 'O', '\x1b'] := by decide
  obtain ⟨hin, hnothing, hequal, hspace, hend, hduration⟩ := hsigns x h.sign
  have hbar : x ∉ p.bar := fun hmem => hequal (List.eq_of_mem_replicate hmem)
  have htail : x ∉ " in ".toList ++ (p.duration.text ++ (if p.bars = 0 then [] else ' ' :: p.bar) ++ ['\n']) := by
    simp only [List.mem_append, not_or]
    refine ⟨hin, ⟨not_mem_duration hduration p.duration, ?_⟩, hend⟩
    split
    · exact List.not_mem_nil
    · rw [List.mem_cons, not_or]
      exact ⟨hspace, hbar⟩
  have hcounts : ∀ before, clearBefore before = true → findAll clearBefore m before
      (countsText ", " "no tests ran" p.counts ++ (" in ".toList ++
        (p.duration.text ++ (if p.bars = 0 then [] else ' ' :: p.bar) ++ ['\n']))) = valuesOf word p.counts :=
    fun before hbefore => findAll_countsText h.reads (by decide) h.mem htail rfl hnothing p.counts_plain hbefore
  have hline : p.line ++ ['\n'] = (if p.bars = 0 then [] else p.bar ++ [' ']) ++
      (countsText ", " "no tests ran" p.counts ++ (" in ".toList ++
        (p.duration.text ++ (if p.bars = 0 then [] else ' ' :: p.bar) ++ ['\n']))) := by
    simp only [PytestRun.line, List.append_assoc]
  rw [hline]
  by_cases hbars : p.bars = 0
  · simp only [hbars, if_true, List.nil_append] at hcounts ⊢
    exact hcounts none rfl
  · have hplain : ∀ c ∈ p.bar ++ [' '], c.isDigit = false := by
      intro c hc
      rcases List.mem_append.mp hc with hc | hc
      · rw [List.eq_of_mem_replicate hc]
        rfl
      · rw [List.mem_singleton.mp hc]
        rfl
    simp only [if_neg hbars] at hcounts ⊢
    rw [findAll_plain h.reads.plain hplain, List.getLast?_append]
    exact hcounts _ rfl

def VitestCounts.names : List String := ["failed", "passed", "skipped", "todo"]

theorem VitestCounts.mem_names {v : VitestCounts} {count : Nat × String} (h : count ∈ v.counts) : count.2 ∈ names := by
  simp only [counts, List.mem_cons, List.not_mem_nil, or_false] at h
  rcases h with rfl | rfl | rfl | rfl <;> simp [names]

theorem VitestCounts.counts_plain (v : VitestCounts) : ∀ count ∈ v.counts,
    count.2.toList.all isWord = true ∧ ∀ c ∈ count.2.toList, c.isDigit = false := by
  have hnames : ∀ name ∈ names, name.toList.all isWord = true ∧ ∀ c ∈ name.toList, c.isDigit = false := by decide
  exact fun count hcount => hnames _ (mem_names hcount)

theorem findAll_vitest {word : String} {m : Matcher Nat} {x : Char} (h : Telling word m x) {title : String}
    (htitle : title ∈ [" Test Files  ", "      Tests  "]) (v : VitestCounts) :
    findAll clearBefore m none (v.line title ++ ['\n']) = valuesOf word v.counts := by
  have hsigns : ∀ x ∈ ['p', 'f'], x ∉ " (".toList ∧ x.isDigit = false ∧ x ∉ [')', '\n'] ∧ x ∉ "no tests".toList := by
    decide
  obtain ⟨hopen, hdigit, hclose, hnothing⟩ := hsigns x h.sign
  have htail : x ∉ " (".toList ++ (digits v.total ++ [')', '\n']) := by
    simp only [List.mem_append, not_or]
    exact ⟨hopen, not_mem_digits hdigit _, hclose⟩
  have htitles : ∀ title ∈ [" Test Files  ", "      Tests  "], (∀ c ∈ title.toList, c.isDigit = false) ∧
      clearBefore (title.toList.getLast?.or none) = true := by decide
  obtain ⟨hplain, hlast⟩ := htitles title htitle
  have hline : v.line title ++ ['\n'] = title.toList ++ (countsText " | " "no tests" v.counts ++
      (" (".toList ++ (digits v.total ++ [')', '\n']))) := by
    simp [VitestCounts.line]
  rw [hline, findAll_plain h.reads.plain hplain]
  exact findAll_countsText h.reads (by decide) h.mem htail rfl hnothing v.counts_plain hlast

/-- In no line of pytest or vitest stands a sign of a verdict of unittest. -/
theorem not_mem_pytest {c : Char} (h : c ∈ ['R', 'O', '\x1b']) (p : PytestRun) : c ∉ p.line ++ ['\n'] := by
  have hsigns : ∀ c ∈ ['R', 'O', '\x1b'], c.isDigit = false ∧ c ≠ ' ' ∧ c ≠ '=' ∧ c ∉ ", ".toList ∧
      c ∉ "no tests ran".toList ∧ c ∉ " in ".toList ∧ c ∉ ['\n'] ∧ c ∈ ['p', 'f', 'R', 'O', '\x1b'] ∧
      ∀ name ∈ PytestRun.names, c ∉ name.toList := by decide
  obtain ⟨hdigit, hspace, hequal, hsep, hnothing, hin, hend, hduration, hnames⟩ := hsigns c h
  have hbar : c ∉ p.bar := fun hmem => hequal (List.eq_of_mem_replicate hmem)
  have hcounts : c ∉ countsText ", " "no tests ran" p.counts :=
    not_mem_countsText hdigit hspace hsep hnothing fun count hcount => hnames _ (PytestRun.mem_names hcount)
  have hlead : c ∉ (if p.bars = 0 then [] else p.bar ++ [' ']) ∧ c ∉ (if p.bars = 0 then [] else ' ' :: p.bar) := by
    split
    · exact ⟨List.not_mem_nil, List.not_mem_nil⟩
    · simp [hbar, hspace]
  simp only [PytestRun.line, List.mem_append, not_or]
  exact ⟨⟨hlead.1, hcounts, hin, not_mem_duration hduration p.duration, hlead.2⟩, hend⟩

theorem not_mem_vitest {c : Char} (h : c ∈ ['R', 'O', '\x1b']) {title : String}
    (htitle : title ∈ [" Test Files  ", "      Tests  "]) (v : VitestCounts) : c ∉ v.line title ++ ['\n'] := by
  have hsigns : ∀ c ∈ ['R', 'O', '\x1b'], c.isDigit = false ∧ c ≠ ' ' ∧ c ∉ " | ".toList ∧ c ∉ "no tests".toList ∧
      c ∉ " (".toList ∧ c ∉ [')'] ∧ c ∉ ['\n'] ∧
      (∀ title ∈ [" Test Files  ", "      Tests  "], c ∉ title.toList) ∧
      ∀ name ∈ VitestCounts.names, c ∉ name.toList := by decide
  obtain ⟨hdigit, hspace, hsep, hnothing, hopen, hclose, hend, htitles, hnames⟩ := hsigns c h
  have hcounts : c ∉ countsText " | " "no tests" v.counts :=
    not_mem_countsText hdigit hspace hsep hnothing fun count hcount => hnames _ (VitestCounts.mem_names hcount)
  simp only [VitestCounts.line, List.mem_append, not_or]
  exact ⟨⟨htitles title htitle, hcounts, hopen, not_mem_digits hdigit _, hclose⟩, hend⟩

/-! ### The reader on the summaries -/

/-- The values of the counters are those that the summaries show. -/
theorem findAll_summary (s : Summary) :
    (s.ran = none → s.lines.flatMap (fun line => findAll clearBefore passedCount none (line ++ ['\n'])) =
      s.passedCounts) ∧
    s.lines.flatMap (fun line => findAll clearBefore failedCount none (line ++ ['\n'])) = s.failedCounts := by
  cases s with
  | unittest u => exact ⟨fun h => (nomatch h), u.findAll_failed⟩
  | pytest p =>
    have hpassed : valuesOf "passed" p.counts = positive p.passed := by
      refine @valuesOf_eq _ _ _ [(p.failed, "failed")] _ rfl ?_ ?_
      · simp
      · simp
        constructor
        · split <;> simp
        · split <;> simp
    have hfailed : valuesOf "failed" p.counts = positive p.failed := by
      refine @valuesOf_eq _ _ _ [] _ rfl ?_ ?_
      · simp
      · simp
        constructor
        · split <;> simp
        · split <;> simp
    simp only [Summary.lines, List.flatMap_cons, List.flatMap_nil, List.append_nil, findAll_pytest telling_passed,
      findAll_pytest telling_failed, hpassed, hfailed]
    exact ⟨fun _ => rfl, rfl⟩
  | vitest v =>
    have hpassed : ∀ counts : VitestCounts, valuesOf "passed" counts.counts = positive counts.passed := by
      intro counts
      refine @valuesOf_eq _ _ _ [(counts.failed, "failed")] _ rfl ?_ ?_ <;> simp
    have hfailed : ∀ counts : VitestCounts, valuesOf "failed" counts.counts = positive counts.failed := by
      intro counts
      refine @valuesOf_eq _ _ _ [] _ rfl ?_ ?_ <;> simp
    have hfiles : " Test Files  " ∈ [" Test Files  ", "      Tests  "] := by decide
    have htests : "      Tests  " ∈ [" Test Files  ", "      Tests  "] := by decide
    simp only [Summary.lines, VitestRun.lines, List.flatMap_cons, List.flatMap_nil, List.append_nil,
      findAll_vitest telling_passed hfiles, findAll_vitest telling_passed htests,
      findAll_vitest telling_failed hfiles, findAll_vitest telling_failed htests, hpassed, hfailed]
    exact ⟨fun _ => rfl, rfl⟩

theorem search_summary (s : Summary) :
    s.lines.findSome? (fun line => search ranTests (line ++ ['\n'])) = s.ran ∧
      s.lines.findSome? (fun line => search okSkipped (line ++ ['\n'])) = s.bareSkip := by
  have hran : ∀ {line : List Char}, 'R' ∉ line → search ranTests line = none := search_expect_none
  have hok : ∀ {line : List Char}, 'O' ∉ line → search okSkipped line = none := search_expect_none
  cases s with
  | unittest u =>
    have hempty : search okSkipped ([] ++ ['\n']) = none := rfl
    simp only [Summary.lines, UnittestRun.lines, List.findSome?_cons, List.findSome?_nil, u.search_ranLine,
      hok (u.not_mem_ranLine (by decide)), hempty, u.search_okSkipped]
    refine ⟨rfl, ?_⟩
    change _ = u.bareSkip
    cases u.bareSkip <;> rfl
  | pytest p =>
    simp only [Summary.lines, List.findSome?_cons, List.findSome?_nil, hran (not_mem_pytest (by decide) p),
      hok (not_mem_pytest (by decide) p)]
    exact ⟨rfl, rfl⟩
  | vitest v =>
    have hfiles : " Test Files  " ∈ [" Test Files  ", "      Tests  "] := by decide
    have htests : "      Tests  " ∈ [" Test Files  ", "      Tests  "] := by decide
    have hfirst : 'R' ∈ ['R', 'O', '\x1b'] := by decide
    have hsecond : 'O' ∈ ['R', 'O', '\x1b'] := by decide
    simp only [Summary.lines, VitestRun.lines, List.findSome?_cons, List.findSome?_nil,
      hran (not_mem_vitest hfirst hfiles v.files), hran (not_mem_vitest hfirst htests v.tests),
      hok (not_mem_vitest hsecond hfiles v.files), hok (not_mem_vitest hsecond htests v.tests)]
    exact ⟨rfl, rfl⟩

theorem escape_not_mem (s : Summary) : ∀ line ∈ s.lines, '\x1b' ∉ line ++ ['\n'] := by
  cases s with
  | unittest u =>
    simp only [Summary.lines, UnittestRun.lines, List.forall_mem_cons]
    exact ⟨u.not_mem_ranLine (by decide), by decide, UnittestRun.not_mem_verdict (by decide) fun h => absurd h (by decide), nofun⟩
  | pytest p =>
    simp only [Summary.lines, List.forall_mem_cons]
    exact ⟨not_mem_pytest (by decide) p, nofun⟩
  | vitest v =>
    simp only [Summary.lines, VitestRun.lines, List.forall_mem_cons]
    exact ⟨not_mem_vitest (by decide) (by decide) v.files, not_mem_vitest (by decide) (by decide) v.tests, nofun⟩

theorem stripAnsi_eq {output : List Char} (h : '\x1b' ∉ output) : stripAnsi output = output := by
  have hsub : ∀ before, Regex.subFrom (Regex.inOrder []) ansi [] before 0 output = output := by
    induction output with
    | nil => exact fun _ => rfl
    | cons c output ih =>
      rw [List.mem_cons, not_or] at h
      have hc : c ≠ '\x1b' := Ne.symm h.1
      intro before
      have hends : Regex.keptAndEnd (Regex.inOrder []) ansi ⟨before, c :: output⟩ = none := by
        simp [Regex.keptAndEnd, Regex.inOrder, Regex.ends, ansi, hc]
      rw [Regex.subFrom, hends, ih h.2]
  exact hsub none

theorem findSome?_flatMap {α β γ : Type} (f : β → Option γ) (g : α → List β) (l : List α) :
    (l.flatMap g).findSome? f = l.findSome? fun a => (g a).findSome? f := by
  induction l with
  | nil => rfl
  | cons a l ih =>
    rw [List.flatMap_cons, List.findSome?_append, ih, List.findSome?_cons]
    cases (g a).findSome? f <;> rfl

/-- What a command prints on both streams, as the verifier joins it. -/
def joinedLines (out err : List Summary) : List (List Char) := linesOf out ++ ([] :: linesOf err)

theorem text_joinedLines (out err : List Summary) :
    text (joinedLines out err) = text (linesOf out) ++ '\n' :: text (linesOf err) := by
  simp [text, joinedLines, List.flatMap_append]

theorem escape_not_mem_text (out err : List Summary) : '\x1b' ∉ text (joinedLines out err) := by
  intro h
  obtain ⟨line, hline, hmem⟩ := List.mem_flatMap.mp h
  rcases List.mem_append.mp hline with hline | hline
  · obtain ⟨s, -, hs⟩ := List.mem_flatMap.mp hline
    exact escape_not_mem s line hs hmem
  · rcases List.mem_cons.mp hline with rfl | hline
    · revert hmem
      decide
    · obtain ⟨s, -, hs⟩ := List.mem_flatMap.mp hline
      exact escape_not_mem s line hs hmem

theorem inLine_ranTests : InLine ranTests := by
  refine inLine_expect (by decide) (inLine_number fun n => inLine_expect (by decide) ?_)
  intro line rest
  cases line with
  | nil => rfl
  | cons c line =>
    by_cases hc : c = 's'
    · subst hc
      exact inLine_endOfWord n line rest
    · have hplural : ∀ text, plural n (c :: text) = endOfWord n (c :: text) := by
        intro text
        unfold plural
        split
        · rename_i heq
          exact absurd (List.cons.inj heq).1 hc
        · rfl
      rw [List.cons_append, List.cons_append, hplural, hplural]
      exact inLine_endOfWord n (c :: line) rest

theorem inLine_okSkipped : InLine okSkipped :=
  inLine_expect (by decide) (inLine_number fun s => inLine_expect (by decide) (inLine_accept s))

theorem search_joined {m : Matcher Nat} (hm : InLine m) (hnil : m [] = none) (hline : search m ([] ++ ['\n']) = none)
    {value : Summary → Option Nat}
    (hvalue : ∀ s : Summary, s.lines.findSome? (fun line => search m (line ++ ['\n'])) = value s)
    (out err : List Summary) : search m (text (joinedLines out err)) = (out ++ err).findSome? value := by
  have hlines : ∀ runs, (linesOf runs).findSome? (fun line => search m (line ++ ['\n'])) = runs.findSome? value := by
    intro runs
    rw [linesOf, findSome?_flatMap]
    simp only [hvalue]
  rw [text, search_flatMap hm hnil, joinedLines, List.findSome?_append, List.findSome?_cons, hline, hlines, hlines,
    List.findSome?_append]

/-- The count that is read is the count of the summaries. -/
theorem executedCount_joined (out err : List Summary) :
    executedCount (text (joinedLines out err)) = counted (out ++ err) := by
  have hran := search_joined inLine_ranTests rfl rfl (fun s => (search_summary s).1) out err
  have hok := search_joined inLine_okSkipped rfl rfl (fun s => (search_summary s).2) out err
  rw [executedCount, stripAnsi_eq (escape_not_mem_text out err), counted]
  simp only [hran, hok]
  cases hfirst : (out ++ err).findSome? Summary.ran with
  | some n => rfl
  | none =>
    have hnone : ∀ s ∈ out ++ err, s.ran = none := List.findSome?_eq_none_iff.mp hfirst
    have hpassed : findAll clearBefore passedCount none (text (joinedLines out err)) =
        (out ++ err).flatMap Summary.passedCounts := by
      have hlines : ∀ runs : List Summary, (∀ s ∈ runs, s.ran = none) → (linesOf runs).flatMap
          (fun line => findAll clearBefore passedCount none (line ++ ['\n'])) = runs.flatMap Summary.passedCounts := by
        intro runs hruns
        rw [linesOf, List.flatMap_assoc]
        exact List.flatMap_congr fun s hs => (findAll_summary s).1 (hruns s hs)
      rw [text, findAll_flatMap reads_passed.inLine rfl, joinedLines, List.flatMap_append, List.flatMap_cons,
        hlines out fun s hs => hnone s (List.mem_append_left _ hs),
        hlines err fun s hs => hnone s (List.mem_append_right _ hs), List.flatMap_append]
      rfl
    simp only [hpassed]

/-- The failures that are counted are those that pytest and vitest show. -/
theorem findAll_failed_joined (out err : List Summary) :
    findAll clearBefore failedCount none (text (joinedLines out err)) = (out ++ err).flatMap Summary.failedCounts := by
  have hlines : ∀ runs : List Summary, (linesOf runs).flatMap
      (fun line => findAll clearBefore failedCount none (line ++ ['\n'])) = runs.flatMap Summary.failedCounts := by
    intro runs
    rw [linesOf, List.flatMap_assoc]
    exact List.flatMap_congr fun s _ => (findAll_summary s).2
  rw [text, findAll_flatMap reads_failed.inLine rfl, joinedLines, List.flatMap_append, List.flatMap_cons, hlines,
    hlines, List.flatMap_append]
  rfl

/-! ### Agreement with the summaries -/

/-- The tests that a run has executed and not skipped. -/
def Summary.executed : Summary → Nat
  | .unittest u => u.tests - u.skipped
  | .pytest p => p.failed + p.passed + p.xfailed + p.xpassed
  | .vitest v => v.tests.failed + v.tests.passed

/-- A run of unittest that ends with OK, its skips among its tests, or a run of pytest. -/
def Summary.Ordinary : Summary → Prop
  | .unittest u => u.ok = true ∧ u.skipped ≤ u.tests
  | .pytest _ => True
  | .vitest _ => False

instance : DecidablePred Summary.Ordinary
  | .unittest u => inferInstanceAs (Decidable (u.ok = true ∧ u.skipped ≤ u.tests))
  | .pytest _ => inferInstanceAs (Decidable True)
  | .vitest _ => inferInstanceAs (Decidable False)

/-- The count is never negative, and it is positive exactly if some run executed a test. -/
def Agrees (out err : List Summary) : Prop :=
  0 ≤ executedCount (text (joinedLines out err)) ∧
    (0 < executedCount (text (joinedLines out err)) ↔ ∃ s ∈ out ++ err, 0 < s.executed)

/-- With a run of unittest: the first number of tests is at least the first skip counter that stands alone, and
equals it if and only if no run executed a test. Without one: a run of pytest passed a test, or none
executed one. -/
def Paired (runs : List Summary) : Prop :=
  match runs.findSome? Summary.ran with
  | some n => (runs.findSome? Summary.bareSkip).getD 0 ≤ n ∧
      ((runs.findSome? Summary.bareSkip).getD 0 = n ↔ ∀ s ∈ runs, s.executed = 0)
  | none => (∃ s ∈ runs, s.passedCounts ≠ []) ∨ ∀ s ∈ runs, s.executed = 0

theorem foldl_max_pos {l : List Nat} (hl : ∀ n ∈ l, 0 < n) : 0 < l.foldl max 0 ↔ l ≠ [] := by
  have hle : ∀ (l : List Nat) (a : Nat), a ≤ l.foldl max a := by
    intro l
    induction l with
    | nil => exact fun a => Nat.le_refl a
    | cons b l ih => exact fun a => (Nat.le_max_left a b).trans (ih (max a b))
  cases l with
  | nil => simp
  | cons n l =>
    refine iff_of_true ?_ (List.cons_ne_nil _ _)
    have hn := hl n List.mem_cons_self
    have := hle l (max 0 n)
    rw [List.foldl_cons]
    omega

theorem passedCounts_pos (s : Summary) : ∀ n ∈ s.passedCounts, 0 < n := by
  have hpositive : ∀ m, ∀ n ∈ positive m, 0 < n := by
    intro m n hn
    unfold positive at hn
    split at hn
    · rw [List.mem_singleton.mp hn]
      assumption
    · cases hn
  cases s with
  | unittest u => exact nofun
  | pytest p => exact hpositive p.passed
  | vitest v =>
    intro n hn
    rcases List.mem_append.mp hn with hn | hn
    · exact hpositive _ n hn
    · exact hpositive _ n hn

theorem executed_of_passedCounts {s : Summary} (hs : s.Ordinary) (h : s.passedCounts ≠ []) : 0 < s.executed := by
  cases s with
  | unittest u => exact absurd rfl h
  | pytest p =>
    have hpassed : 0 < p.passed := by
      by_contra hzero
      exact h (if_neg hzero)
    simp only [Summary.executed]
    omega
  | vitest v => exact hs.elim

/-- For every output of such summaries, on both streams. -/
theorem agrees_iff_paired (out err : List Summary) (h : ∀ s ∈ out ++ err, s.Ordinary) :
    Agrees out err ↔ Paired (out ++ err) := by
  have hzero : (¬ ∃ s ∈ out ++ err, 0 < s.executed) ↔ ∀ s ∈ out ++ err, s.executed = 0 := by
    simp only [not_exists, not_and, Nat.not_lt, Nat.le_zero]
  unfold Agrees Paired
  rw [executedCount_joined, counted]
  cases (out ++ err).findSome? Summary.ran with
  | some n =>
    simp only
    rw [← hzero]
    by_cases hexecuted : ∃ s ∈ out ++ err, 0 < s.executed
    · simp only [hexecuted, iff_true, not_true_eq_false, iff_false]
      omega
    · simp only [hexecuted, iff_false, not_false_eq_true, iff_true]
      omega
  | none =>
    have hpos : ∀ n ∈ (out ++ err).flatMap Summary.passedCounts, 0 < n := by
      intro n hn
      obtain ⟨s, -, hs⟩ := List.mem_flatMap.mp hn
      exact passedCounts_pos s n hs
    have hsome : (0 : Int) < (((out ++ err).flatMap Summary.passedCounts).foldl max 0 : Nat) ↔
        ∃ s ∈ out ++ err, s.passedCounts ≠ [] := by
      rw [Int.natCast_pos, foldl_max_pos hpos, Ne, List.flatMap_eq_nil_iff]
      push Not
      exact Iff.rfl
    simp only [hsome, ← hzero]
    constructor
    · rintro ⟨-, hiff⟩
      by_cases hexecuted : ∃ s ∈ out ++ err, 0 < s.executed
      · exact .inl (hiff.mpr hexecuted)
      · exact .inr hexecuted
    · intro hcase
      refine ⟨Int.natCast_nonneg _, fun ⟨s, hs, hpassed⟩ => ⟨s, hs, executed_of_passedCounts (h s hs) hpassed⟩, ?_⟩
      intro hexecuted
      exact hcase.resolve_right fun hnone => hnone hexecuted

def shortTime : Duration := ⟨"0.001s".toList, by decide⟩

/-- One run of one test and then one of three tests, all of them skipped. -/
def skippedLater : List Summary :=
  [.unittest { tests := 1, duration := shortTime }, .unittest { tests := 3, skipped := 3, duration := shortTime }]

/-- The skip counter of the second run is taken from the tests of the first. -/
theorem executedCount_negative :
    (∀ s ∈ skippedLater ++ [], s.Ordinary) ∧ executedCount (text (joinedLines skippedLater [])) = -2 ∧
      ¬ Agrees skippedLater [] := by
  have hcount : executedCount (text (joinedLines skippedLater [])) = -2 := executedCount_joined skippedLater []
  refine ⟨by decide, hcount, fun h => ?_⟩
  have hnonneg := h.1
  rw [hcount] at hnonneg
  exact absurd hnonneg (by decide)

theorem agrees_iff_paired_skipped :
    (∀ s ∈ [] ++ skippedLater, s.Ordinary) ∧ (Agrees [] skippedLater ↔ Paired ([] ++ skippedLater)) :=
  ⟨by decide, agrees_iff_paired [] skippedLater (by decide)⟩

end AutoAgents.Counting
