import AutoAgents.ExecutedCount

/-! The stop on repeated outcomes: what a repair loop retains of a failing verification, and when it goes on. -/

namespace AutoAgents.Counting

open Base Base.Scan

/-! ### The observation -/

/-- A check of a failing verification, with what it printed. -/
structure CheckReport where
  command : String
  ok : Bool
  returncode : Int
  stdout : List Char
  stderr : List Char

structure VerificationError where
  code : String
  message : List Char
  checks : List CheckReport

/-- What the fingerprint is made of. -/
structure Stable where
  code : String
  checks : List (String × Bool × Int)
  reason : Option (List Char)

/-- The state between two observations; nothing is retained before the first one. -/
structure Progress where
  best : Int × Int := (-1, -1000000)
  fingerprint : Option String := none
  repeats : Nat := 0
  stagnant : Nat := 0

def CheckReport.output (c : CheckReport) : List Char := c.stdout ++ '\n' :: c.stderr

/-- `\b\d+(?:\.\d+)?\b`. -/
def numberPattern : Regex :=
  Regex.inOrder [Regex.boundary isWord, Regex.oneOrMore Char.isDigit,
    Regex.maybe (Regex.inOrder [.one (· == '.'), Regex.oneOrMore Char.isDigit]), Regex.boundary isWord]

def VerificationError.passed (e : VerificationError) : Int := (e.checks.map fun c => executedCount c.output).sum

def VerificationError.failed (e : VerificationError) : Nat :=
  (e.checks.map fun c => (findAll clearBefore failedCount none c.output).sum).sum

def VerificationError.score (e : VerificationError) : Int × Int := (e.passed, -(e.failed : Int))

/-- The order of tuples. -/
def Above (a b : Int × Int) : Prop := b.1 < a.1 ∨ b.1 = a.1 ∧ b.2 < a.2

instance (a b : Int × Int) : Decidable (Above a b) := inferInstanceAs (Decidable (_ ∨ _))

def VerificationError.stable (e : VerificationError) : Stable where
  code := e.code
  checks := e.checks.map fun c => (c.command, c.ok, c.returncode)
  reason := if e.checks = [] then some (Regex.sub (Regex.inOrder []) numberPattern "<number>".toList e.message) else none

def improved (previous : Progress) (e : VerificationError) : Prop := e.checks ≠ [] ∧ Above e.score previous.best

instance (previous : Progress) (e : VerificationError) : Decidable (improved previous e) :=
  inferInstanceAs (Decidable (_ ∧ _))

/-- `observe`: the new state, and whether the repair goes on. -/
def observe (digest : Stable → String) (previous : Progress) (e : VerificationError) (limit : Nat) : Progress × Bool :=
  let fingerprint := digest e.stable
  let repeats := if some fingerprint = previous.fingerprint ∧ ¬ improved previous e then previous.repeats + 1 else 0
  let stagnant := if improved previous e then 0 else previous.stagnant + 1
  ({ best := if improved previous e then e.score else previous.best, fingerprint := some fingerprint, repeats, stagnant },
    decide (stagnant < limit ∧ repeats < limit))

/-- The state after a history of failing verifications. -/
def observed (digest : Stable → String) (limit : Nat) (history : List VerificationError) : Progress :=
  history.foldl (fun previous e => (observe digest previous e limit).1) {}

/-- How many of the last observations in a row were no improvements, with the state after them. -/
def idleRun (digest : Stable → String) (limit : Nat) (history : List VerificationError) : Progress × Nat :=
  history.foldl (fun run e => ((observe digest run.1 e limit).1, if improved run.1 e then 0 else run.2 + 1)) ({}, 0)

def idle (digest : Stable → String) (limit : Nat) (history : List VerificationError) : Nat :=
  (idleRun digest limit history).2

section

variable (digest : Stable → String) (limit : Nat)

theorem observed_concat (history : List VerificationError) (e : VerificationError) :
    observed digest limit (history ++ [e]) = (observe digest (observed digest limit history) e limit).1 := by
  simp [observed]

/-! ### The score that is retained -/

theorem above_trans {a b c : Int × Int} (hab : Above a b) (hbc : Above b c) : Above a c := by
  unfold Above at *
  omega

theorem best_step (previous : Progress) (e : VerificationError) :
    (observe digest previous e limit).1.best = previous.best ∨
      Above (observe digest previous e limit).1.best previous.best := by
  unfold observe
  by_cases h : improved previous e
  · simp only [if_pos h]
    exact .inr h.2
  · simp only [if_neg h, true_or]

/-- Over any run, the best score stays or rises. -/
theorem best_run (history later : List VerificationError) :
    (observed digest limit (history ++ later)).best = (observed digest limit history).best ∨
      Above (observed digest limit (history ++ later)).best (observed digest limit history).best := by
  induction later using List.reverseRecOn with
  | nil =>
    rw [List.append_nil]
    exact .inl rfl
  | append_singleton later e ih =>
    rw [← List.append_assoc, observed_concat]
    rcases best_step digest limit (observed digest limit (history ++ later)) e with hstep | hstep
    · rw [hstep]
      exact ih
    · rcases ih with ih | ih
      · rw [ih] at hstep
        exact .inr hstep
      · exact .inr (above_trans hstep ih)

/-! ### The counters -/

theorem idleRun_fst (history : List VerificationError) :
    (idleRun digest limit history).1 = observed digest limit history := by
  induction history using List.reverseRecOn with
  | nil => rfl
  | append_singleton history e ih =>
    rw [observed_concat, ← ih]
    simp [idleRun]

theorem idle_concat (history : List VerificationError) (e : VerificationError) :
    idle digest limit (history ++ [e]) =
      if improved (observed digest limit history) e then 0 else idle digest limit history + 1 := by
  rw [← idleRun_fst, idle, idle, idleRun, List.foldl_append]
  rfl

/-- What the two counters are after a history: the second one counts observations without an improvement, and
the first one no more than these. -/
theorem counters (history : List VerificationError) :
    (observed digest limit history).stagnant = idle digest limit history ∧
      (observed digest limit history).repeats ≤ idle digest limit history := by
  induction history using List.reverseRecOn with
  | nil => exact ⟨rfl, Nat.le_refl 0⟩
  | append_singleton history e ih =>
    rw [observed_concat, idle_concat]
    obtain ⟨hstagnant, hrepeats⟩ := ih
    unfold observe
    by_cases h : improved (observed digest limit history) e
    · simp [h]
    · simp only [if_neg h, hstagnant, true_and]
      split_ifs
      · exact Nat.succ_le_succ hrepeats
      · exact Nat.zero_le _

/-- A repair goes on exactly while fewer observations in a row than the limit were no improvements. -/
theorem allowed_iff (history : List VerificationError) (e : VerificationError) :
    (observe digest (observed digest limit history) e limit).2 = true ↔ idle digest limit (history ++ [e]) < limit := by
  obtain ⟨hstagnant, hrepeats⟩ := counters digest limit (history ++ [e])
  rw [observed_concat] at hstagnant hrepeats
  have hallowed : (observe digest (observed digest limit history) e limit).2 =
      decide ((observe digest (observed digest limit history) e limit).1.stagnant < limit ∧
        (observe digest (observed digest limit history) e limit).1.repeats < limit) := rfl
  rw [hallowed, decide_eq_true_iff, hstagnant]
  omega

end

/-! ### Verifications by their summaries -/

/-- A check, with the runs that its command made. -/
structure CheckRun where
  command : String
  ok : Bool
  returncode : Int
  out : List Summary
  err : List Summary

def CheckRun.runs (c : CheckRun) : List Summary := c.out ++ c.err

def CheckRun.report (c : CheckRun) : CheckReport :=
  ⟨c.command, c.ok, c.returncode, text (linesOf c.out), text (linesOf c.err)⟩

/-- A failing verification. -/
structure Verification where
  code : String
  message : List Char
  checks : List CheckRun

def Verification.error (v : Verification) : VerificationError := ⟨v.code, v.message, v.checks.map CheckRun.report⟩

/-- The same runner ran as many tests. -/
def Summary.SameTests : Summary → Summary → Prop
  | .unittest u, .unittest u' => u.tests = u'.tests
  | .pytest p, .pytest p' => p.failed + p.passed + p.skipped + p.xfailed + p.xpassed =
      p'.failed + p'.passed + p'.skipped + p'.xfailed + p'.xpassed
  | .vitest v, .vitest v' => v.tests.total = v'.tests.total
  | _, _ => False

/-- The tests that passed. -/
def Summary.passes : Summary → Nat
  | .unittest u => u.tests - u.failures - u.errors - u.skipped - u.expectedFailures - u.unexpectedSuccesses
  | .pytest p => p.passed
  | .vitest v => v.tests.passed

/-- The same checks ran the same tests. -/
def Verification.SameTests (v w : Verification) : Prop :=
  v.checks ≠ [] ∧ List.Forall₂ (fun c d => c.command = d.command ∧ List.Forall₂ Summary.SameTests c.runs d.runs)
    v.checks w.checks

def Verification.passes (v : Verification) : Nat :=
  (v.checks.map fun c => (c.runs.map Summary.passes).sum).sum

/-- Where a check has a run of unittest it counts against the check that its first lone skip counter shows,
and nothing else; elsewhere the largest number of passes that a run shows counts for it. -/
def CheckRun.credit (c : CheckRun) : Int :=
  match c.runs.findSome? Summary.ran with
  | some _ => -((c.runs.findSome? Summary.bareSkip).getD 0 : Nat)
  | none => ((c.runs.flatMap Summary.passedCounts).foldl max 0 : Nat)

def Verification.credit (v : Verification) : Int := (v.checks.map CheckRun.credit).sum

/-- The failures that runs of pytest and vitest show. -/
def Verification.failures (v : Verification) : Nat :=
  (v.checks.map fun c => (c.runs.flatMap Summary.failedCounts).sum).sum

theorem counted_eq (c : CheckRun) : counted c.runs = ((c.runs.findSome? Summary.ran).getD 0 : Nat) + c.credit := by
  unfold counted CheckRun.credit
  cases c.runs.findSome? Summary.ran with
  | some n =>
    simp only [Option.getD_some]
    omega
  | none => simp

theorem report_output (c : CheckRun) : c.report.output = text (joinedLines c.out c.err) :=
  (text_joinedLines c.out c.err).symm

/-- What is scraped is what the summaries show. -/
theorem score_eq (v : Verification) :
    v.error.score = ((v.checks.map fun c => counted c.runs).sum, -(v.failures : Int)) := by
  unfold VerificationError.score VerificationError.passed VerificationError.failed Verification.failures
    Verification.error
  simp only [List.map_map, Function.comp_def, report_output, executedCount_joined, findAll_failed_joined,
    CheckRun.runs]

theorem ran_same {runs runs' : List Summary} (h : List.Forall₂ Summary.SameTests runs runs') :
    runs.findSome? Summary.ran = runs'.findSome? Summary.ran := by
  induction h with
  | nil => rfl
  | @cons s s' _ _ hsame _ ih =>
    have hran : s.ran = s'.ran := by
      cases s <;> cases s' <;> first | exact hsame.elim | exact congrArg some hsame | rfl
    rw [List.findSome?_cons, List.findSome?_cons, hran, ih]

/-- Of the same tests, the difference of the scores is the difference of the credits. -/
theorem counted_credit {checks checks' : List CheckRun}
    (h : List.Forall₂ (fun c d => c.command = d.command ∧ List.Forall₂ Summary.SameTests c.runs d.runs) checks checks') :
    (checks'.map fun c => counted c.runs).sum - (checks.map fun c => counted c.runs).sum =
      (checks'.map CheckRun.credit).sum - (checks.map CheckRun.credit).sum := by
  induction h with
  | nil => rfl
  | @cons c d _ _ hsame _ ih =>
    have hran := ran_same hsame.2
    have hc := counted_eq c
    have hd := counted_eq d
    rw [← hran] at hd
    simp only [List.map_cons, List.sum_cons]
    omega

/-- The second verification shows more credit than the first one, or as much and fewer failures. -/
def Outweighs (v w : Verification) : Prop :=
  v.credit < w.credit ∨ v.credit = w.credit ∧ w.failures < v.failures

theorem improved_iff {previous : Progress} {v w : Verification} (hbest : previous.best = v.error.score)
    (hsame : v.SameTests w) : improved previous w.error ↔ Outweighs v w := by
  have hchecks : w.error.checks ≠ [] := by
    have hlength := hsame.2.length_eq
    intro hempty
    have hnil : w.checks = [] := List.map_eq_nil_iff.mp hempty
    rw [hnil] at hlength
    exact hsame.1 (List.length_eq_zero_iff.mp hlength)
  have hcredit := counted_credit hsame.2
  unfold improved Above Outweighs Verification.credit
  rw [hbest, score_eq, score_eq]
  simp only [ne_eq, hchecks, not_false_eq_true, true_and]
  omega

/-- For every history of failing verifications: the retained best score never falls; the repair is refused as
soon as the limit of observations in a row were no improvements; and a verification of the same tests as the
best one counts as improved exactly if it outweighs that one. -/
theorem progress_judged (digest : Stable → String) (limit : Nat) (history : List VerificationError) :
    (∀ later, (observed digest limit (history ++ later)).best = (observed digest limit history).best ∨
      Above (observed digest limit (history ++ later)).best (observed digest limit history).best) ∧
    (∀ e, (observe digest (observed digest limit history) e limit).2 = true ↔
      idle digest limit (history ++ [e]) < limit) ∧
    ∀ v w : Verification, (observed digest limit history).best = v.error.score → v.SameTests w →
      (improved (observed digest limit history) w.error ↔ Outweighs v w) :=
  ⟨best_run digest limit history, allowed_iff digest limit history, fun _ _ => improved_iff⟩

/-! ### A run of unittest -/

/-- Five tests of unittest, of which some fail. -/
def fiveTests (failures : Nat) : Verification where
  code := "tests_failed"
  message := []
  checks := [⟨"python -m unittest tests.test_a", false, 1, [],
    [.unittest { tests := 5, failures, duration := shortTime }]⟩]

theorem fiveTests_best : (observed (fun _ => "") 2 [(fiveTests 3).error]).best = (fiveTests 3).error.score := by
  have hscore : (fiveTests 3).error.score = (5, 0) := score_eq (fiveTests 3)
  have himproved : improved {} (fiveTests 3).error := by
    refine ⟨List.cons_ne_nil _ _, ?_⟩
    rw [hscore]
    decide
  have hrun : observed (fun _ => "") 2 [(fiveTests 3).error] = (observe (fun _ => "") {} (fiveTests 3).error 2).1 := rfl
  have hbest : (if improved {} (fiveTests 3).error then (fiveTests 3).error.score else (-1, -1000000)) =
      (fiveTests 3).error.score := if_pos himproved
  rw [hrun]
  exact hbest

theorem fiveTests_same (n m : Nat) : (fiveTests n).SameTests (fiveTests m) :=
  ⟨List.cons_ne_nil _ _, .cons ⟨rfl, .cons rfl .nil⟩ .nil⟩

/-- Two more tests of the same run pass, and nothing has improved. -/
theorem unittest_not_improved :
    (fiveTests 3).SameTests (fiveTests 1) ∧ (fiveTests 3).passes < (fiveTests 1).passes ∧
      ¬ improved (observed (fun _ => "") 2 [(fiveTests 3).error]) (fiveTests 1).error := by
  refine ⟨fiveTests_same 3 1, by decide, ?_⟩
  rw [improved_iff fiveTests_best (fiveTests_same 3 1)]
  rintro (h | h)
  · exact absurd h (by decide)
  · exact absurd h.2 (by decide)

theorem progress_judged_unittest :
    improved (observed (fun _ => "") 2 [(fiveTests 3).error]) (fiveTests 1).error ↔
      Outweighs (fiveTests 3) (fiveTests 1) :=
  (progress_judged (fun _ => "") 2 [(fiveTests 3).error]).2.2 _ _ fiveTests_best (fiveTests_same 3 1)

end AutoAgents.Counting
