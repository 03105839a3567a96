import AutoAgents.VitestRewrite

/-! Switching the cache of Vitest off: what the option changes in the launches it is added to, and that it changes
nothing else. -/

namespace AutoAgents.Commands

open Base.Shell
open Operator (isSpace strip)

local instance lawfulArgument : LawfulBEq (List Char) := inferInstance

/-! ### One more word -/

theorem noCache_ordinary : Ordinary noCache := by
  intro c hc
  have hmem : c ∈ ['-', '-', 'n', 'o', '-', 'c', 'a', 'c', 'h', 'e'] := hc
  simp only [List.mem_cons, List.not_mem_nil, or_false] at hmem
  rcases hmem with rfl | rfl | rfl | rfl | rfl | rfl | rfl | rfl | rfl | rfl <;> exact ⟨rfl, rfl⟩

/-- The word of the option. -/
def optionWord : Word := ⟨noCache, noCache⟩

theorem words_option {raw : List Char} {read : List Word} (h : words raw = some read) :
    words (raw ++ option) = some (read ++ [optionWord]) :=
  words_append noCache_ordinary (List.cons_ne_nil _ _) h

/-- A function of the words that keeps one more option at the end. -/
def Passes (f : List (List Char) → List (List Char)) (tokens : List (List Char)) : Prop :=
  (f tokens ≠ [] → f (tokens ++ [noCache]) = f tokens ++ [noCache]) ∧
    (f tokens = [] → f (tokens ++ [noCache]) = [] ∨ f (tokens ++ [noCache]) = [noCache])

theorem condaOptions_passes (tokens : List (List Char)) : Passes condaOptions tokens := by
  unfold Passes
  fun_induction condaOptions tokens with
  | case1 =>
    refine ⟨fun h => absurd rfl h, fun _ => .inl ?_⟩
    decide
  | case2 option rest hdashed =>
    refine ⟨fun _ => ?_, fun h => by cases h⟩
    rw [List.cons_append, condaOptions.eq_def]
    simp [hdashed]
  | case3 rest hdashed =>
    rw [List.cons_append, condaOptions.eq_def]
    dsimp only
    rw [if_neg hdashed, if_pos rfl]
    refine ⟨fun _ => rfl, ?_⟩
    rintro rfl
    exact .inr rfl
  | case4 option hdashed hend hvalue =>
    refine ⟨fun h => absurd rfl h, fun _ => .inl ?_⟩
    rw [List.cons_append, condaOptions.eq_def]
    dsimp only
    rw [if_neg hdashed, if_neg hend, if_pos hvalue]
    rfl
  | case5 option hdashed hend hvalue value rest ih =>
    have hstep : condaOptions (option :: (value :: rest ++ [noCache])) = condaOptions (rest ++ [noCache]) := by
      rw [condaOptions.eq_def]
      simp only [List.cons_append, if_neg hdashed, if_neg hend, if_pos hvalue]
    rw [List.cons_append, hstep]
    exact ih
  | case6 option rest hdashed hend hvalue ih =>
    have hstep : condaOptions (option :: (rest ++ [noCache])) = condaOptions (rest ++ [noCache]) := by
      rw [condaOptions.eq_def]
      simp only [if_neg hdashed, if_neg hend, if_neg hvalue]
    rw [List.cons_append, hstep]
    exact ih

theorem length_condaOptions_le (tokens : List (List Char)) : (condaOptions tokens).length ≤ tokens.length := by
  fun_induction condaOptions tokens with
  | case1 => exact Nat.le_refl _
  | case2 => exact Nat.le_refl _
  | case3 => simp
  | case4 => simp
  | case5 =>
    simp only [List.length_cons]
    omega
  | case6 =>
    simp only [List.length_cons]
    omega

theorem executableFrom_option (fuel : Nat) : executableFrom (fuel + 1) [noCache] = [noCache] := by
  rw [executableFrom]
  have hassigns : assigns noCache = false := by decide
  have hexec : noCache ∉ ["exec", "env"].map String.toList := by decide
  have hconda : baseName noCache ≠ "conda".toList := by decide
  rw [hassigns, if_neg (by decide), if_neg hexec, if_neg fun h => hconda h.1]

theorem executableFrom_passes {fuel : Nat} {tokens : List (List Char)} (hfuel : tokens.length ≤ fuel) :
    (executableFrom fuel tokens ≠ [] →
      executableFrom (fuel + 1) (tokens ++ [noCache]) = executableFrom fuel tokens ++ [noCache]) ∧
    (executableFrom fuel tokens = [] → executableFrom (fuel + 1) (tokens ++ [noCache]) = [] ∨
      executableFrom (fuel + 1) (tokens ++ [noCache]) = [noCache]) := by
  induction fuel generalizing tokens with
  | zero =>
    obtain rfl := List.length_eq_zero_iff.mp (Nat.le_zero.mp hfuel)
    exact ⟨fun h => absurd rfl h, fun _ => .inr (executableFrom_option 0)⟩
  | succ fuel ih =>
    cases tokens with
    | nil => exact ⟨fun h => absurd rfl h, fun _ => .inr (executableFrom_option (fuel + 1))⟩
    | cons token rest =>
      have hrest : rest.length ≤ fuel := by simpa using hfuel
      rw [List.cons_append, executableFrom, executableFrom]
      by_cases hassigns : assigns token = true
      · rw [if_pos hassigns, if_pos hassigns]
        exact ih hrest
      · rw [if_neg hassigns, if_neg hassigns]
        by_cases hexec : token ∈ ["exec", "env"].map String.toList
        · rw [if_pos hexec, if_pos hexec]
          exact ih hrest
        · rw [if_neg hexec, if_neg hexec]
          have hhead : (rest ++ [noCache]).head? = some "run".toList ↔ rest.head? = some "run".toList := by
            cases rest with
            | nil => decide
            | cons run rest => rfl
          simp only [hhead]
          by_cases hconda : baseName token = "conda".toList ∧ rest.head? = some "run".toList
          · rw [if_pos hconda, if_pos hconda]
            cases rest with
            | nil => cases hconda.2
            | cons run rest =>
              rw [List.cons_append, List.drop_one, List.drop_one, List.tail_cons, List.tail_cons]
              have hlength := length_condaOptions_le rest
              obtain ⟨hkept, hgone⟩ := condaOptions_passes rest
              by_cases hempty : condaOptions rest = []
              · have hnone : executableFrom fuel (condaOptions rest) = [] := by
                  rw [hempty]
                  cases fuel <;> rfl
                refine ⟨fun h => absurd hnone h, fun _ => ?_⟩
                rcases hgone hempty with hnil | hone
                · rw [hnil]
                  exact .inl rfl
                · rw [hone]
                  exact .inr (executableFrom_option fuel)
              · rw [hkept hempty]
                have hshort : (condaOptions rest).length ≤ fuel := by
                  rw [List.length_cons] at hrest
                  omega
                exact ih hshort
          · rw [if_neg hconda, if_neg hconda]
            exact ⟨fun _ => rfl, fun h => by cases h⟩

theorem executableTokens_passes (tokens : List (List Char)) : Passes executableTokens tokens := by
  have hlength : (tokens ++ [noCache]).length = tokens.length + 1 := by simp
  unfold Passes executableTokens
  rw [hlength]
  exact executableFrom_passes (Nat.le_refl _)

theorem behindLauncher_option {args : List (List Char)} (hne : args ≠ []) :
    behindLauncher (args ++ [noCache]) = behindLauncher args ++ [noCache] := by
  obtain ⟨executable, rest, rfl⟩ := List.exists_cons_of_ne_nil hne
  unfold behindLauncher
  simp only [List.cons_append, List.head?_cons, Option.elim_some, List.drop_succ_cons, List.drop_zero]
  have hhead : (rest ++ [noCache]).head? ∈ [some "exec".toList, some "dlx".toList] ↔
      rest.head? ∈ [some "exec".toList, some "dlx".toList] := by
    cases rest with
    | nil => decide
    | cons arg rest => rfl
  simp only [hhead]
  by_cases hexec : baseName executable ∈ ["npm", "pnpm", "yarn"].map String.toList ∧
      rest.head? ∈ [some "exec".toList, some "dlx".toList]
  · rw [if_pos hexec, if_pos hexec]
    cases rest with
    | nil => exact absurd hexec.2 (by decide)
    | cons arg rest =>
      simp only [List.cons_append, List.drop_succ_cons, List.drop_zero]
      cases rest with
      | nil => rfl
      | cons next rest =>
        simp only [List.cons_append, List.head?_cons, List.drop_succ_cons, List.drop_zero]
        split <;> rfl
  · rw [if_neg hexec, if_neg hexec]
    split
    · have hstop : noCache ∉ ["--yes", "-y", "--no-install", "--"].map String.toList := by decide
      rw [List.dropWhile_append]
      split
      · next hall =>
        have hnil : rest.dropWhile (fun arg => decide (arg ∈ ["--yes", "-y", "--no-install", "--"].map String.toList)) = [] := by
          simpa using hall
        rw [hnil, List.dropWhile_cons_of_neg (by simpa using hstop)]
        rfl
      · rfl
    · split <;> rfl

theorem vitestArgs_option {args : List (List Char)} (hne : args ≠ []) :
    vitestArgs (args ++ [noCache]) = (vitestArgs args).map (· ++ [noCache]) := by
  unfold vitestArgs
  rw [behindLauncher_option hne]
  cases behindLauncher args with
  | nil => decide
  | cons executable rest =>
    dsimp only [List.cons_append]
    split <;> rfl

theorem launch_option {args : List (List Char)} (hne : args ≠ []) :
    launch (args ++ [noCache]) = (launch args).map fun found => (found.1, found.2 ++ [noCache]) := by
  have hvitest := vitestArgs_option hne
  obtain ⟨executable, rest, rfl⟩ := List.exists_cons_of_ne_nil hne
  unfold launch
  rw [hvitest]
  simp only [List.cons_append, List.head?_cons, Option.elim_some, List.drop_succ_cons, List.drop_zero]
  by_cases hpytest : baseName executable ∈ ["pytest", "py.test"].map String.toList
  · rw [if_pos hpytest, if_pos hpytest]
    rfl
  · rw [if_neg hpytest, if_neg hpytest]
    have hmodule : (rest ++ [noCache]).take 2 = ["-m".toList, "pytest".toList] ↔ rest.take 2 = ["-m".toList, "pytest".toList] := by
      cases rest with
      | nil => decide
      | cons first rest =>
        cases rest with
        | nil =>
          constructor
          · intro h
            exact absurd (List.cons.inj (List.cons.inj h).2).1 (by decide)
          · intro h
            exact absurd (List.cons.inj h).2 (by decide)
        | cons second rest => rfl
    simp only [hmodule]
    by_cases hpython : pythonName (baseName executable) = true ∧ rest.take 2 = ["-m".toList, "pytest".toList]
    · rw [if_pos hpython, if_pos hpython]
      cases rest with
      | nil => cases hpython.2
      | cons first rest =>
        cases rest with
        | nil => cases hpython.2
        | cons second rest => rfl
    · rw [if_neg hpython, if_neg hpython]
      cases hfound : vitestArgs (executable :: rest) with
      | none => rfl
      | some found =>
        have hfound' : found ≠ [] := by
          unfold vitestArgs at hfound
          split at hfound
          · cases hfound
          · split at hfound
            · cases hfound
              exact List.cons_ne_nil _ _
            · cases hfound
        obtain ⟨first, later, rfl⟩ := List.exists_cons_of_ne_nil hfound'
        simp only [Option.map_some, List.cons_append, List.drop_succ_cons, List.drop_zero]
        cases later with
        | nil =>
          rfl
        | cons second later =>
          simp only [List.cons_append, List.head?_cons, List.drop_succ_cons, List.drop_zero]
          split <;> rfl

/-! ### The targets of Vitest -/

/-- The option as an argument that is written as no redirection. -/
def cacheArgument : Argument := (noCache, false)

theorem positionalArgs_kept {arg : List Char} (h : ¬ operator arg = true) (rest : List Argument) :
    positionalArgs ((arg, true) :: rest) = positionalArgs rest := by
  rw [positionalArgs.eq_def]
  exact if_neg h

theorem positionalArgs_skipped {arg : List Char} (h : operator arg = true) (next : Argument) (rest : List Argument) :
    positionalArgs ((arg, true) :: next :: rest) = positionalArgs rest := by
  rw [positionalArgs.eq_def]
  exact if_pos h

theorem positionalArgs_option {args : List Argument} {positional : List (List Char)}
    (h : positionalArgs args = some positional) :
    positionalArgs (args ++ [cacheArgument]) = some (positional ++ [noCache]) := by
  fun_induction positionalArgs args generalizing positional with
  | case1 =>
    cases h
    rfl
  | case2 arg hoperator => cases h
  | case3 arg hoperator next rest ih =>
    rw [List.cons_append, List.cons_append, positionalArgs_skipped hoperator]
    exact ih h
  | case4 arg rest hoperator ih =>
    rw [List.cons_append, positionalArgs_kept hoperator]
    exact ih h
  | case5 arg rest ih =>
    obtain ⟨later, hlater, rfl⟩ := Option.map_eq_some_iff.mp h
    rw [List.cons_append, positionalArgs, ih hlater]
    rfl

/-- Where the last word lacks its destination, the option becomes that. -/
theorem positionalArgs_dangling {args : List Argument} (h : positionalArgs args = none) :
    positionalArgs (args ++ [cacheArgument]) = positionalArgs args.dropLast := by
  fun_induction positionalArgs args with
  | case1 => cases h
  | case2 arg hoperator =>
    rw [List.singleton_append, positionalArgs_skipped hoperator]
    rfl
  | case3 arg hoperator next rest ih =>
    have hne : rest ≠ [] := by
      rintro rfl
      cases h
    rw [List.cons_append, List.cons_append, positionalArgs_skipped hoperator,
      List.dropLast_cons_of_ne_nil (List.cons_ne_nil next rest), List.dropLast_cons_of_ne_nil hne,
      positionalArgs_skipped hoperator]
    exact ih h
  | case4 arg rest hoperator ih =>
    have hne : rest ≠ [] := by
      rintro rfl
      cases h
    rw [List.cons_append, positionalArgs_kept hoperator, List.dropLast_cons_of_ne_nil hne, positionalArgs_kept hoperator]
    exact ih h
  | case5 arg rest ih =>
    have hnone : positionalArgs rest = none := Option.map_eq_none_iff.mp h
    have hne : rest ≠ [] := by
      rintro rfl
      cases hnone
    rw [List.cons_append, positionalArgs, List.dropLast_cons_of_ne_nil hne, positionalArgs, ih hnone]

/-- No `--` stands before the end of the arguments, and the last option has its value, unless an earlier option is
not known. -/
def Settled : List (List Char) → Prop
  | [] => True
  | arg :: rest =>
    let option := arg.takeWhile (· != '=')
    if arg = "--".toList then False
    else if dashed arg = false then Settled rest
    else if takesValue .vitest option = true then
      match rest with
      | [] => '=' ∈ arg
      | value :: later => if '=' ∈ arg then Settled (value :: later) else Settled later
    else if option ∈ flags .vitest then Settled rest
    else True

theorem targetsOf_option : targetsOf .vitest [noCache] = some [] := by decide

/-- The option changes no target exactly where the arguments before it are settled. -/
theorem targetsOf_settled (args : List (List Char)) :
    targetsOf .vitest (args ++ [noCache]) = targetsOf .vitest args ↔ Settled args := by
  have hvitest : ∀ {p : Prop}, ¬ (Runner.vitest = .pytest ∧ p) := fun h => nomatch h.1
  fun_induction Settled args with
  | case1 =>
    rw [List.nil_append, targetsOf_option]
    exact ⟨fun _ => trivial, fun _ => rfl⟩
  | case2 rest =>
    rw [List.cons_append, targetsOf.eq_def]
    rw [targetsOf.eq_def .vitest (_ :: rest)]
    simp
  | case3 arg rest hend hdashed ih =>
    refine Iff.trans ?_ ih
    rw [List.cons_append, targetsOf.eq_def]
    rw [targetsOf.eq_def .vitest (arg :: rest)]
    simp only [if_neg hend, if_pos hdashed]
    constructor
    · intro h
      exact Option.map_injective (fun _ _ heq => (List.cons.inj heq).2) h
    · intro h
      rw [h]
  | case4 arg option hend hdashed hvalue =>
    rw [List.singleton_append, targetsOf.eq_def]
    rw [targetsOf.eq_def .vitest [arg]]
    simp only [if_neg hend, if_neg hdashed, if_neg hvitest]
    rw [if_pos hvalue, if_pos hvalue]
    by_cases hequals : '=' ∈ arg
    · simp [hequals, targetsOf_option]
    · simp only [if_neg hequals]
      constructor
      · intro h
        rw [targetsOf.eq_def] at h
        cases h
      · exact fun h => absurd h hequals
  | case5 arg option hend hdashed hvalue value later hequals ih =>
    refine Iff.trans ?_ ih
    rw [List.cons_append, List.cons_append, targetsOf.eq_def]
    rw [targetsOf.eq_def .vitest (arg :: value :: later)]
    simp only [if_neg hend, if_neg hdashed, if_neg hvitest]
    rw [if_pos hvalue, if_pos hvalue]
    simp only [if_pos hequals]
  | case6 arg option hend hdashed hvalue value later hequals ih =>
    refine Iff.trans ?_ ih
    rw [List.cons_append, List.cons_append, targetsOf.eq_def]
    rw [targetsOf.eq_def .vitest (arg :: value :: later)]
    simp only [if_neg hend, if_neg hdashed, if_neg hvitest]
    rw [if_pos hvalue, if_pos hvalue]
    simp only [if_neg hequals]
  | case7 arg rest option hend hdashed hvalue hflag ih =>
    refine Iff.trans ?_ ih
    rw [List.cons_append, targetsOf.eq_def]
    rw [targetsOf.eq_def .vitest (arg :: rest)]
    simp only [if_neg hend, if_neg hdashed, if_neg hvitest]
    rw [if_neg hvalue, if_neg hvalue, if_pos hflag, if_pos hflag]
  | case8 arg rest option hend hdashed hvalue hflag =>
    rw [List.cons_append, targetsOf.eq_def]
    rw [targetsOf.eq_def .vitest (arg :: rest)]
    simp only [if_neg hend, if_neg hdashed, if_neg hvitest]
    rw [if_neg hvalue, if_neg hvalue, if_neg hflag, if_neg hflag]
    exact ⟨fun _ => trivial, fun _ => rfl⟩

/-- The arguments are settled; where the last redirection has no destination, an option before it is not known. -/
def SettledArgs (args : List Argument) : Prop :=
  match positionalArgs args with
  | some positional => Settled positional
  | none => runnerTargets .vitest args.dropLast = none

theorem runnerTargets_settled (args : List Argument) :
    runnerTargets .vitest (args ++ [cacheArgument]) = runnerTargets .vitest args ↔ SettledArgs args := by
  unfold SettledArgs
  cases hpositional : positionalArgs args with
  | some positional =>
    rw [runnerTargets, runnerTargets, positionalArgs_option hpositional, hpositional]
    exact targetsOf_settled positional
  | none =>
    have hnone : runnerTargets .vitest args = none := by
      rw [runnerTargets, hpositional]
      rfl
    have hdangling : runnerTargets .vitest (args ++ [cacheArgument]) = runnerTargets .vitest args.dropLast := by
      rw [runnerTargets, positionalArgs_dangling hpositional]
      rfl
    rw [hnone, hdangling]

/-! ### One simple command -/

theorem changesFolder_none {args : List (List Char)} (h : args.head? ≠ some "cd".toList) : changesFolder args = none := by
  unfold changesFolder
  split
  · next command path =>
    rw [if_neg]
    rintro rfl
    exact h rfl
  · rfl

/-- What is read in the words is no change of the folder, and a launch of Vitest with settled arguments if it is a
launch at all. -/
def SteadyWords (read : List Word) : Prop :=
  let args := executableTokens (read.map Word.text)
  args.head? ≠ some "cd".toList ∧
    ∀ runner options, launch args = some (runner, options) → runner = .vitest ∧ SettledArgs (written read options.length)

theorem written_option {read : List Word} {count : Nat} (hcount : count ≤ read.length) :
    written (read ++ [optionWord]) (count + 1) = written read count ++ [cacheArgument] := by
  have hlength : (read ++ [optionWord]).length - (count + 1) = read.length - count := by
    rw [List.length_append, List.length_singleton]
    omega
  have hword : (optionWord.text, redirects (strip optionWord.raw)) = cacheArgument := by decide
  unfold written
  rw [hlength, List.drop_append_of_le_length (Nat.sub_le _ _), List.map_append, List.map_singleton, hword]

theorem length_executableFrom_le (fuel : Nat) (tokens : List (List Char)) : (executableFrom fuel tokens).length ≤ tokens.length := by
  induction fuel generalizing tokens with
  | zero => exact Nat.le_refl _
  | succ fuel ih =>
    cases tokens with
    | nil => exact Nat.le_refl _
    | cons token rest =>
      have hrest := ih rest
      have hconda := ih (condaOptions (rest.drop 1))
      have hlength := length_condaOptions_le (rest.drop 1)
      rw [List.length_drop] at hlength
      rw [executableFrom, List.length_cons]
      split
      · omega
      · split
        · omega
        · split
          · omega
          · simp

theorem length_launch_le {args options : List (List Char)} {runner : Runner} (h : launch args = some (runner, options)) :
    options.length ≤ args.length := by
  have hdrop : ∀ {n : Nat}, (args.drop n).length ≤ args.length := by
    intro n
    rw [List.length_drop]
    omega
  unfold launch at h
  dsimp only at h
  split at h
  · cases h
    exact hdrop
  · split at h
    · cases h
      exact hdrop
    · obtain ⟨found, hfound, heq⟩ := Option.map_eq_some_iff.mp h
      have hbehind : (behindLauncher args).length ≤ args.length := by
        have hwhile : ∀ p : List Char → Bool, ((args.drop 1).dropWhile p).length ≤ args.length := fun p =>
          (List.dropWhile_suffix p).length_le.trans hdrop
        unfold behindLauncher
        dsimp only
        split
        · split <;> exact hdrop
        · split
          · exact hwhile _
          · split
            · exact hdrop
            · exact Nat.le_refl _
      have hsame : found = behindLauncher args := by
        unfold vitestArgs at hfound
        split at hfound
        · cases hfound
        · next hlauncher =>
          split at hfound
          · cases hfound
            exact hlauncher.symm
          · cases hfound
      cases heq
      rw [hsame]
      split
      · rw [List.length_drop]
        omega
      · rw [List.length_drop]
        omega

/-- A launch of Vitest is read again with the option as one more argument. -/
theorem readWords_vitest {read : List Word} {options : List (List Char)}
    (hfolder : (executableTokens (read.map Word.text)).head? ≠ some "cd".toList)
    (hlaunch : launch (executableTokens (read.map Word.text)) = some (.vitest, options)) (cwd : List Char) :
    ∃ here, readWords cwd read = some (cwd, [⟨.vitest, runnerTargets .vitest (written read options.length), here⟩]) ∧
      readWords cwd (read ++ [optionWord]) =
        some (cwd, [⟨.vitest, runnerTargets .vitest (written read options.length ++ [cacheArgument]), here⟩]) := by
  have hempty : executableTokens (read.map Word.text) ≠ [] := by
    intro hempty
    have hnothing : launch [] = none := by decide
    rw [hempty, hnothing] at hlaunch
    cases hlaunch
  have htokens : (read ++ [optionWord]).map Word.text = read.map Word.text ++ [noCache] := by
    rw [List.map_append, List.map_singleton]
    rfl
  have hargs := length_executableFrom_le (read.map Word.text).length (read.map Word.text)
  have hoptions := (length_launch_le hlaunch).trans hargs
  rw [List.length_map] at hoptions
  have hfront : (read.map Word.text ++ [noCache]).take
        ((read.map Word.text ++ [noCache]).length - (executableTokens (read.map Word.text) ++ [noCache]).length) =
      (read.map Word.text).take ((read.map Word.text).length - (executableTokens (read.map Word.text)).length) := by
    rw [List.length_append, List.length_append, Nat.add_sub_add_right, List.take_append_of_le_length (Nat.sub_le _ _)]
  have hfolder' : (executableTokens (read.map Word.text) ++ [noCache]).head? ≠ some "cd".toList := by
    rw [List.head?_append_of_ne_nil _ hempty]
    exact hfolder
  have hlaunch' : launch (executableTokens (read.map Word.text) ++ [noCache]) = some (.vitest, options ++ [noCache]) := by
    rw [launch_option hempty, hlaunch]
    rfl
  refine ⟨launchFolder cwd cwd ((read.map Word.text).take
    ((read.map Word.text).length - (executableTokens (read.map Word.text)).length)), ?_, ?_⟩
  · simp only [readWords, changesFolder_none hfolder, hlaunch]
  · have hcount : (options ++ [noCache]).length = options.length + 1 := by simp
    simp only [readWords, htokens, (executableTokens_passes _).1 hempty, changesFolder_none hfolder', hlaunch', hfront, hcount,
      written_option hoptions]

/-- The option changes nothing in what is read. -/
theorem readWords_option {read : List Word} (h : SteadyWords read) (cwd : List Char) :
    readWords cwd (read ++ [optionWord]) = readWords cwd read := by
  have htokens : (read ++ [optionWord]).map Word.text = read.map Word.text ++ [noCache] := by
    rw [List.map_append, List.map_singleton]
    rfl
  obtain ⟨hkept, hgone⟩ := executableTokens_passes (read.map Word.text)
  by_cases hempty : executableTokens (read.map Word.text) = []
  · have hnothing : changesFolder [] = none ∧ launch [] = none := by decide
    have hoption : changesFolder [noCache] = none ∧ launch [noCache] = none := by decide
    unfold readWords
    rw [htokens]
    dsimp only
    rw [hempty, hnothing.1, hnothing.2]
    rcases hgone hempty with hnil | hone
    · rw [hnil, hnothing.1, hnothing.2]
    · rw [hone, hoption.1, hoption.2]
  · obtain ⟨hfolder, hlaunch⟩ := h
    cases hfound : launch (executableTokens (read.map Word.text)) with
    | none =>
      have hfolder' : (executableTokens (read.map Word.text) ++ [noCache]).head? ≠ some "cd".toList := by
        rw [List.head?_append_of_ne_nil _ hempty]
        exact hfolder
      have hlaunch' : launch (executableTokens (read.map Word.text) ++ [noCache]) = none := by
        rw [launch_option hempty, hfound]
        rfl
      simp only [readWords, htokens, hkept hempty, changesFolder_none hfolder, changesFolder_none hfolder', hfound, hlaunch']
    | some found =>
      obtain ⟨runner, options⟩ := found
      obtain ⟨rfl, hsettled⟩ := hlaunch runner options hfound
      obtain ⟨here, hbefore, hafter⟩ := readWords_vitest hfolder hfound cwd
      rw [hbefore, hafter, (runnerTargets_settled _).mpr hsettled]

/-! White space around a simple command -/

theorem dropWhile_last {c : Char} (hc : isSpace c = false) (b ws : List Char) :
    (b ++ c :: ws).dropWhile isSpace = (b ++ [c]).dropWhile isSpace ++ ws ∧
      ∃ front, (b ++ [c]).dropWhile isSpace = front ++ [c] := by
  induction b with
  | nil =>
    have hstop : ∀ rest, (c :: rest).dropWhile isSpace = c :: rest := fun rest =>
      List.dropWhile_cons_of_neg (by simp [hc])
    refine ⟨?_, [], ?_⟩
    · rw [List.nil_append, List.nil_append, hstop, hstop]
      rfl
    · rw [List.nil_append, hstop]
  | cons d b ih =>
    by_cases hd : isSpace d = true
    · rw [List.cons_append, List.cons_append, List.dropWhile_cons_of_pos hd, List.dropWhile_cons_of_pos hd]
      exact ih
    · rw [List.cons_append, List.cons_append, List.dropWhile_cons_of_neg hd, List.dropWhile_cons_of_neg hd]
      exact ⟨by simp, d :: b, rfl⟩

theorem dropWhile_spaces {ws rest : List Char} (h : ∀ c ∈ ws, isSpace c = true) :
    (ws.reverse ++ rest).dropWhile isSpace = rest.dropWhile isSpace :=
  List.dropWhile_append_of_pos fun c hc => h c (List.mem_reverse.mp hc)

theorem strip_spaces {b ws : List Char} {c : Char} (hc : isSpace c = false) (hspace : ∀ d ∈ ws, isSpace d = true) :
    strip (b ++ c :: ws) = (b ++ [c]).dropWhile isSpace := by
  obtain ⟨hdrop, front, hfront⟩ := dropWhile_last hc b ws
  unfold strip
  rw [hdrop, hfront, List.reverse_append, dropWhile_spaces hspace, List.reverse_append, List.reverse_singleton,
    List.singleton_append, List.dropWhile_cons_of_neg (by simp [hc]), List.reverse_cons, List.reverse_reverse]

theorem run_spaces (text : List Char) : Quoting.plain.run (text.dropWhile isSpace) = Quoting.plain.run text := by
  induction text with
  | nil => rfl
  | cons c text ih =>
    by_cases hc : isSpace c = true
    · have hstep : Quoting.plain.step c = .plain := by
        have hescape : c ≠ '\\' := by
          rintro rfl
          cases hc
        have hquote : isQuote c = false := by
          simp only [isQuote, Bool.or_eq_false_iff, beq_eq_false_iff_ne]
          constructor
          · rintro rfl
            cases hc
          · rintro rfl
            cases hc
        simp [Quoting.step, hescape, hquote]
      have hrun : Quoting.plain.run (c :: text) = Quoting.plain.run text := by
        rw [Quoting.run, List.foldl_cons, hstep]
        rfl
      rw [List.dropWhile_cons_of_pos hc, ih, hrun]
    · rw [List.dropWhile_cons_of_neg hc]

/-- A longer piece reads as the shorter one does, and one more word. -/
theorem Longer.words {p p' : List Char} (h : Longer p p') :
    ∃ read, words (strip p) = some read ∧ words (strip p') = some (read ++ [optionWord]) := by
  obtain ⟨a, ws, rfl, rfl, hne, hstate, hlast, hspace⟩ := h.text
  obtain ⟨b, c, rfl⟩ : ∃ b c, a = b ++ [c] := ⟨a.dropLast, a.getLast hne, (List.dropLast_append_getLast hne).symm⟩
  have hc : isSpace c = false := hlast c (by simp)
  have hread : (Base.Shell.words ((b ++ [c]).dropWhile isSpace)).isSome = true := by
    refine (wordsFrom_isSome _ _ _).mpr ?_
    rw [run_spaces, hstate]
  obtain ⟨read, hread⟩ := Option.isSome_iff_exists.mp hread
  refine ⟨read, ?_, ?_⟩
  · rw [List.append_assoc, List.singleton_append, strip_spaces hc hspace, hread]
  · have hlast' : option = option.dropLast ++ ['e'] := by decide
    have htext : b ++ [c] ++ (option ++ ws) = (b ++ c :: option.dropLast) ++ 'e' :: ws := by
      rw [hlast']
      simp
    have hoption : (b ++ c :: option.dropLast) ++ ['e'] = b ++ c :: option := by
      rw [List.append_assoc, List.cons_append, ← hlast']
    have hend : isSpace 'e' = false := by decide
    rw [htext, strip_spaces hend hspace, hoption, (dropWhile_last hc b option).1]
    exact words_option hread

/-! ### The whole command -/

/-- A simple command that is a launch of Vitest, with its arguments behind the executable. -/
def Launches (piece : List Char) (args : List (List Char)) : Prop :=
  ∃ read executable, words (rstrip piece) = some read ∧
    vitestArgs (executableTokens (read.map Word.text)) = some (executable :: args)

theorem rstrip_trailing (piece : List Char) : rstrip piece ++ trailing piece = piece := by
  have h := List.takeWhile_append_dropWhile (p := isSpace) (l := piece.reverse)
  rw [rstrip, trailing, ← List.reverse_append, h, List.reverse_reverse]

theorem trailing_space {piece : List Char} {c : Char} (h : c ∈ trailing piece) : isSpace c = true :=
  List.mem_takeWhile_imp (List.mem_reverse.mp h)

theorem rstrip_last {piece : List Char} {c : Char} (h : (rstrip piece).getLast? = some c) : isSpace c = false := by
  rw [rstrip, List.getLast?_reverse] at h
  have hnot := List.head?_dropWhile_not isSpace piece.reverse
  rw [h] at hnot
  simpa using hnot

theorem rstrip_append {b ws : List Char} {c : Char} (hc : isSpace c = false) (hspace : ∀ d ∈ ws, isSpace d = true) :
    rstrip (b ++ [c] ++ ws) = b ++ [c] ∧ trailing (b ++ [c] ++ ws) = ws := by
  have hstop : ([c] ++ b.reverse).dropWhile isSpace = [c] ++ b.reverse ∧ ([c] ++ b.reverse).takeWhile isSpace = [] :=
    ⟨List.dropWhile_cons_of_neg (by simp [hc]), List.takeWhile_cons_of_neg (by simp [hc])⟩
  have hreverse : (b ++ [c] ++ ws).reverse = ws.reverse ++ ([c] ++ b.reverse) := by simp
  have hall : ∀ d ∈ ws.reverse, isSpace d = true := fun d hd => hspace d (List.mem_reverse.mp hd)
  rw [rstrip, trailing, hreverse, List.dropWhile_append_of_pos hall, List.takeWhile_append_of_pos hall, hstop.1, hstop.2]
  simp

/-- What rewriting makes of a piece: the same, or a longer one where Vitest is launched without naming the cache. -/
theorem rewritePiece_cases {p p' : List Char} (h : rewritePiece p = some p') :
    rewritePiece p' = some p' ∧
      (p' = p ∨ Longer p p' ∧ ∃ args, Launches p args ∧ namesCache args = false) := by
  obtain ⟨raw, hraw, rfl⟩ := Option.map_eq_some_iff.mp h
  obtain ⟨read, hread, rfl⟩ := Option.map_eq_some_iff.mp hraw
  cases hargs : vitestArgs (executableTokens (read.map Word.text)) with
  | none =>
    simp only [hargs] at h hraw ⊢
    rw [rstrip_trailing] at h ⊢
    exact ⟨h, .inl rfl⟩
  | some args =>
    by_cases hnames : namesCache (args.drop 1) = true
    · simp only [hargs, if_pos hnames] at h hraw ⊢
      rw [rstrip_trailing] at h ⊢
      exact ⟨h, .inl rfl⟩
    · simp only [hargs, if_neg hnames] at h hraw ⊢
      have htokens : executableTokens (read.map Word.text) ≠ [] := by
        intro hempty
        have hnone : vitestArgs [] = none := by decide
        rw [hempty, hnone] at hargs
        cases hargs
      have hstrip : rstrip p ≠ [] := by
        intro hempty
        rw [hempty] at hread
        cases hread
        exact absurd rfl htokens
      obtain ⟨executable, rest, rfl⟩ : ∃ executable rest, args = executable :: rest := by
        cases args with
        | nil =>
          unfold vitestArgs at hargs
          split at hargs
          · cases hargs
          · split at hargs <;> cases hargs
        | cons executable rest => exact ⟨executable, rest, rfl⟩
      have hstate : Quoting.plain.run (rstrip p) = .plain := by
        refine (wordsFrom_isSome _ none _).mp ?_
        exact Option.isSome_iff_exists.mpr ⟨read, hread⟩
      have hend : isSpace 'e' = false := by decide
      have hoption : rstrip p ++ ' ' :: noCache = rstrip p ++ option.dropLast ++ ['e'] := by
        rw [List.append_assoc]
        rfl
      have htext : rstrip p ++ ' ' :: noCache ++ trailing p = rstrip p ++ (option ++ trailing p) := by
        rw [List.append_assoc]
        rfl
      refine ⟨?_, .inr ⟨⟨rstrip p, trailing p, (rstrip_trailing p).symm, htext, hstrip, hstate,
        fun c hc => rstrip_last hc, fun c hc => trailing_space hc⟩, rest, ⟨read, executable, hread, hargs⟩, ?_⟩⟩
      · obtain ⟨hrstrip, htrailing⟩ := @rstrip_append (rstrip p ++ option.dropLast) (trailing p) 'e' hend
          fun d hd => trailing_space hd
        have hwords : words (rstrip p ++ ' ' :: noCache) = some (read ++ [optionWord]) := words_option hread
        rw [hoption, rewritePiece, hrstrip, htrailing, ← hoption, transform, hwords]
        have hagain : vitestArgs (executableTokens ((read ++ [optionWord]).map Word.text)) =
            some (executable :: (rest ++ [noCache])) := by
          have htext : (read ++ [optionWord]).map Word.text = read.map Word.text ++ [noCache] := by
            rw [List.map_append]
            rfl
          rw [htext, (executableTokens_passes _).1 htokens, vitestArgs_option htokens, hargs]
          rfl
        have hnamed : namesCache ((executable :: (rest ++ [noCache])).drop 1) = true := by
          rw [List.drop_succ_cons, List.drop_zero, namesCache, List.any_append]
          have hone : [noCache].any (fun arg => decide (arg ∈ ["--cache", "--no-cache"].map String.toList) ||
              "--cache=".toList.isPrefixOf arg) = true := by decide
          rw [hone, Bool.or_true]
        simp only [Option.map_some, hagain, if_pos hnamed]
      · simpa using hnames

/-- What the option may not change: it is added once, to launches of Vitest alone, and no invocation differs. -/
structure CacheOnly (command : List Char) : Prop where
  again : disableVitestCache (disableVitestCache command) = disableVitestCache command
  pieces : ∀ spans, commandSpans command = some spans →
    ∃ spans', commandSpans (disableVitestCache command) = some spans' ∧
      List.Forall₂ (fun span span' => span'.2 = span.2 ∧ (¬ (∃ args, Launches span.1 args) → span'.1 = span.1)) spans spans'
  invocations : testInvocations (disableVitestCache command) = testInvocations command

/-- Every launch that does not name the cache is read as a launch of Vitest with settled arguments. -/
def Steady (command : List Char) : Prop :=
  ∀ spans, commandSpans command = some spans → (∀ span ∈ spans, (words (rstrip span.1)).isSome = true) →
    ∀ span ∈ spans, ∀ args, Launches span.1 args → namesCache args = false →
      ∀ read, words (strip span.1) = some read → SteadyWords read

theorem mapM_fixed {α : Type} {f : α → Option α} (hf : ∀ x y, f x = some y → f y = some y) {l l' : List α}
    (h : l.mapM f = some l') : l'.mapM f = some l' := by
  induction l generalizing l' with
  | nil =>
    cases h
    rfl
  | cons x l ih =>
    rw [List.mapM_cons] at h
    obtain ⟨y, hy, h⟩ := Option.bind_eq_some_iff.mp h
    obtain ⟨later, hlater, h⟩ := Option.bind_eq_some_iff.mp h
    cases h
    rw [List.mapM_cons, hf x y hy, ih hlater]
    rfl

theorem mapM_map {α : Type} {f : α → Option α} {l l' : List α} (h : l.mapM f = some l') :
    l' = l.map (fun x => (f x).getD x) ∧ ∀ x ∈ l, (f x).isSome = true := by
  induction l generalizing l' with
  | nil =>
    cases h
    exact ⟨rfl, nofun⟩
  | cons x l ih =>
    rw [List.mapM_cons] at h
    obtain ⟨y, hy, h⟩ := Option.bind_eq_some_iff.mp h
    obtain ⟨later, hlater, h⟩ := Option.bind_eq_some_iff.mp h
    cases h
    obtain ⟨rfl, hall⟩ := ih hlater
    refine ⟨by rw [List.map_cons, hy]; rfl, ?_⟩
    rintro z (_ | ⟨_, hz⟩)
    · rw [hy]
      rfl
    · exact hall z hz

theorem readCommands_map {f : List Char → List Char} {spans : List (List Char × List Char)}
    (h : ∀ span ∈ spans, ∀ cwd, readCommand cwd (f span.1) = readCommand cwd span.1) (cwd : List Char) :
    readCommands cwd (spans.map fun span => (f span.1, span.2)) = readCommands cwd spans := by
  induction spans generalizing cwd with
  | nil => rfl
  | cons span spans ih =>
    rw [List.map_cons, readCommands, readCommands, h span List.mem_cons_self]
    refine congrArg _ (funext fun found => ?_)
    rw [ih fun span' hmem => h span' (List.mem_cons_of_mem _ hmem)]

theorem mapM_isSome {α : Type} {f : α → Option α} {l : List α} (h : ∀ x ∈ l, (f x).isSome = true) :
    ∃ l', l.mapM f = some l' := by
  induction l with
  | nil => exact ⟨[], rfl⟩
  | cons x l ih =>
    obtain ⟨y, hy⟩ := Option.isSome_iff_exists.mp (h x List.mem_cons_self)
    obtain ⟨later, hlater⟩ := ih fun z hz => h z (List.mem_cons_of_mem x hz)
    refine ⟨y :: later, ?_⟩
    rw [List.mapM_cons, hy, hlater]
    rfl

theorem rewritePiece_isSome {p : List Char} : (rewritePiece p).isSome = true ↔ (words (rstrip p)).isSome = true := by
  rw [rewritePiece, Option.isSome_map, transform, Option.isSome_map]

/-- Where a simple command cannot be split into words, the command stays as it is. -/
theorem disable_unsplit {command : List Char}
    (h : ∀ spans, commandSpans command = some spans → ¬ ∀ span ∈ spans, (words (rstrip span.1)).isSome = true) :
    disableVitestCache command = command := by
  unfold disableVitestCache
  split
  · rfl
  · next spans hspans =>
    split
    · rfl
    · next spans' hrewritten =>
      refine absurd (fun span hmem => rewritePiece_isSome.mp ?_) (h spans hspans)
      have hsome := (mapM_map hrewritten).2 span hmem
      rwa [Option.isSome_map] at hsome

/-- Elsewhere each simple command is rewritten, and found again where it stood. -/
theorem disable_spans {command : List Char} {spans : List (List Char × List Char)} (hspans : commandSpans command = some spans)
    (hsplit : ∀ span ∈ spans, (words (rstrip span.1)).isSome = true) :
    ∃ f : List Char → List Char, (∀ span ∈ spans, rewritePiece span.1 = some (f span.1)) ∧
      commandSpans (disableVitestCache command) = some (spans.map fun span => (f span.1, span.2)) ∧
      disableVitestCache (disableVitestCache command) = disableVitestCache command := by
  let rewrite : List Char × List Char → Option (List Char × List Char) := fun span =>
    (rewritePiece span.1).map fun piece => (piece, span.2)
  have hrewrite : ∀ span ∈ spans, (rewrite span).isSome = true := by
    intro span hmem
    rw [Option.isSome_map]
    exact rewritePiece_isSome.mpr (hsplit span hmem)
  obtain ⟨spans', hrewritten⟩ := mapM_isSome hrewrite
  have hresult : disableVitestCache command = spans'.flatMap fun span => span.1 ++ span.2 := by
    rw [disableVitestCache, hspans]
    dsimp only
    rw [hrewritten]
  let f : List Char → List Char := fun p => (rewritePiece p).getD p
  have hf : ∀ span ∈ spans, rewritePiece span.1 = some (f span.1) := by
    intro span hmem
    obtain ⟨p', hp'⟩ := Option.isSome_iff_exists.mp (rewritePiece_isSome.mpr (hsplit span hmem))
    change _ = some ((rewritePiece span.1).getD span.1)
    rw [hp']
    rfl
  have hspans' : spans' = spans.map fun span => (f span.1, span.2) := by
    rw [(mapM_map hrewritten).1]
    refine List.map_congr_left fun span hmem => ?_
    change ((rewritePiece span.1).map fun piece => (piece, span.2)).getD span = _
    rw [hf span hmem]
    rfl
  have hlonger : ∀ span ∈ spans, f span.1 = span.1 ∨ Longer span.1 (f span.1) := fun span hmem =>
    (rewritePiece_cases (hf span hmem)).2.imp_right And.left
  have hnew : commandSpans (disableVitestCache command) = some spans' := by
    refine commandSpans_iff.mpr ?_
    rw [hresult, hspans', List.flatMap_map]
    exact ((commandSpans_iff.mp hspans).longer hlonger).1
  have hagain : spans'.mapM rewrite = some spans' := by
    refine mapM_fixed (fun span span' hone => ?_) hrewritten
    obtain ⟨piece, hpiece, rfl⟩ := Option.map_eq_some_iff.mp hone
    exact congrArg (Option.map fun piece => (piece, span.2)) (rewritePiece_cases hpiece).1
  refine ⟨f, hf, hspans' ▸ hnew, ?_⟩
  rw [hresult, ← hresult, disableVitestCache, hnew]
  dsimp only
  rw [hagain, hresult]

/-- Switching the cache off changes nothing else, where every launch it changes has settled arguments. -/
theorem cacheOnly_of_steady {command : List Char} (h : Steady command) : CacheOnly command := by
  by_cases hall : ∀ spans, commandSpans command = some spans → ¬ ∀ span ∈ spans, (words (rstrip span.1)).isSome = true
  · have hsame := disable_unsplit hall
    refine ⟨by rw [hsame, hsame], fun spans hspans => ⟨spans, by rw [hsame]; exact hspans, ?_⟩, by rw [hsame]⟩
    exact List.forall₂_same.mpr fun span _ => ⟨rfl, fun _ => rfl⟩
  · obtain ⟨spans, hspans, hsplit⟩ : ∃ spans, commandSpans command = some spans ∧
        ∀ span ∈ spans, (words (rstrip span.1)).isSome = true := by
      push Not at hall
      exact hall
    obtain ⟨f, hf, hnew, hagain⟩ := disable_spans hspans hsplit
    refine ⟨hagain, fun given hgiven => ⟨_, hnew, ?_⟩, ?_⟩
    · rw [hspans] at hgiven
      cases hgiven
      rw [List.forall₂_map_right_iff]
      refine List.forall₂_same.mpr fun span hmem => ⟨rfl, fun hnot => ?_⟩
      rcases (rewritePiece_cases (hf span hmem)).2 with hsame | ⟨-, args, hlaunches, -⟩
      · exact hsame
      · exact absurd ⟨args, hlaunches⟩ hnot
    · rw [testInvocations, testInvocations, hnew, hspans]
      refine readCommands_map (fun span hmem cwd => ?_) ['.']
      rcases (rewritePiece_cases (hf span hmem)).2 with hsame | ⟨hlong, args, hlaunches, hnames⟩
      · rw [hsame]
      · obtain ⟨read, hread, hread'⟩ := hlong.words
        rw [readCommand, readCommand, hread, hread']
        exact readWords_option (h spans hspans hsplit span hmem args hlaunches hnames read hread) cwd

/-! ### The other direction -/

/-- The white space in front of each simple command is made of blanks. -/
def PlainFronts (command : List Char) : Prop :=
  ∀ spans, commandSpans command = some spans → ∀ span ∈ spans, ∀ c ∈ (rstrip span.1).takeWhile isSpace, isBlank c = true

theorem words_dropSpaces {text : List Char} (h : ∀ c ∈ text.takeWhile isSpace, isBlank c = true) :
    words (text.dropWhile isSpace) = words text := by
  induction text with
  | nil => rfl
  | cons c text ih =>
    by_cases hc : isSpace c = true
    · rw [List.takeWhile_cons_of_pos hc] at h
      have hblank := h c List.mem_cons_self
      have hwords : words (c :: text) = words text := by
        rw [words, wordsFrom]
        simp only [hblank, if_true, Option.toList_none, List.nil_append, Option.map_id']
        rfl
      rw [List.dropWhile_cons_of_pos hc, hwords]
      exact ih fun d hd => h d (List.mem_cons_of_mem c hd)
    · rw [List.dropWhile_cons_of_neg hc]

theorem strip_eq {text : List Char} : strip text = (rstrip text).dropWhile isSpace := by
  have htext := rstrip_trailing text
  by_cases hempty : rstrip text = []
  · rw [hempty, List.nil_append] at htext
    have hall : ∀ c ∈ text, isSpace c = true := fun c hc => trailing_space (htext ▸ hc)
    have hdrop : text.dropWhile isSpace = [] := List.dropWhile_eq_nil_iff.mpr hall
    rw [strip, hdrop, hempty]
    rfl
  · obtain ⟨b, c, hb⟩ : ∃ b c, rstrip text = b ++ [c] :=
      ⟨(rstrip text).dropLast, (rstrip text).getLast hempty, (List.dropLast_append_getLast hempty).symm⟩
    have hc : isSpace c = false := rstrip_last (by rw [hb]; simp)
    have hsplit : text = b ++ c :: trailing text := by
      rw [hb, List.append_assoc] at htext
      exact htext.symm
    rw [hb, hsplit]
    exact strip_spaces hc fun d hd => trailing_space hd

/-- A launch that does not name the cache gets the option. -/
theorem rewritePiece_launches {p : List Char} {args : List (List Char)} (h : Launches p args)
    (hnames : namesCache args = false) : rewritePiece p = some (rstrip p ++ ' ' :: noCache ++ trailing p) := by
  obtain ⟨read, executable, hread, hargs⟩ := h
  have hdrop : (executable :: args).drop 1 = args := rfl
  rw [rewritePiece, transform, hread]
  simp only [Option.map_some, hargs, hdrop, hnames, Bool.false_eq_true, if_false]

/-- A launch of Vitest is no change of the folder, and no other runner. -/
theorem launch_vitest {args found : List (List Char)} (h : vitestArgs args = some found) :
    args.head? ≠ some "cd".toList ∧ ∃ options, launch args = some (.vitest, options) := by
  have hbehind : ∀ {executable : List Char} {rest : List (List Char)}, args = executable :: rest →
      baseName executable ∉ ["npm", "pnpm", "yarn"].map String.toList → baseName executable ≠ "npx".toList →
      baseName executable = "vitest".toList := by
    rintro executable rest rfl hmanager hnpx
    have htwo : baseName executable ∉ ["pnpm", "yarn"].map String.toList := fun hmem => hmanager (List.mem_cons_of_mem _ hmem)
    have hsame : behindLauncher (executable :: rest) = executable :: rest := by
      simp only [behindLauncher, List.head?_cons, Option.elim_some, hmanager, hnpx, htwo, false_and, if_false]
    rw [vitestArgs, hsame] at h
    dsimp only at h
    by_contra hname
    rw [if_neg hname] at h
    cases h
  have hhead : ∃ executable rest, args = executable :: rest := by
    cases args with
    | nil =>
      have hnone : vitestArgs [] = none := by decide
      rw [hnone] at h
      cases h
    | cons executable rest => exact ⟨executable, rest, rfl⟩
  obtain ⟨executable, rest, rfl⟩ := hhead
  refine ⟨?_, ?_⟩
  · rintro heq
    obtain rfl : executable = "cd".toList := Option.some.inj heq
    exact absurd (hbehind rfl (by decide) (by decide)) (by decide)
  · have hpytest : baseName executable ∉ ["pytest", "py.test"].map String.toList := by
      intro hmem
      have hnames : ∀ name ∈ ["pytest", "py.test"].map String.toList, name ∉ ["npm", "pnpm", "yarn"].map String.toList ∧
          name ≠ "npx".toList ∧ name ≠ "vitest".toList := by decide
      obtain ⟨hmanager, hnpx, hvitest⟩ := hnames _ hmem
      exact hvitest (hbehind rfl hmanager hnpx)
    have hpython : ¬ pythonName (baseName executable) = true := by
      intro hpython
      have hstarts : "python".toList.isPrefixOf (baseName executable) = true := by
        rw [pythonName, Bool.and_eq_true] at hpython
        exact hpython.1
      have hnot : ∀ name ∈ ["npm", "pnpm", "yarn", "npx", "vitest"].map String.toList,
          "python".toList.isPrefixOf name = false := by decide
      have hother : ∀ name ∈ ["npm", "pnpm", "yarn", "npx", "vitest"].map String.toList, baseName executable ≠ name := by
        rintro name hmem heq
        rw [heq, hnot name hmem] at hstarts
        cases hstarts
      refine hother "vitest".toList (by decide) (hbehind rfl (fun hmem => ?_) (hother _ (by decide)))
      exact hother _ (List.mem_append_left ["npx".toList, "vitest".toList] hmem) rfl
    simp only [launch, List.head?_cons, Option.elim_some, hpytest, hpython, if_false, h, Option.map_some]
    exact ⟨_, rfl⟩

/-- Equal readings of whole commands come from equal readings of their parts, where the parts agree in number. -/
theorem readCommands_same {f : List Char → List Char} {spans : List (List Char × List Char)}
    (hlength : ∀ span ∈ spans, ∀ cwd found, readCommand cwd span.1 = some found →
      ∃ here, readCommand cwd (f span.1) = some (found.1, here) ∧ here.length = found.2.length)
    {cwd : List Char} {result : List TestInvocation} (hbefore : readCommands cwd spans = some result)
    (hafter : readCommands cwd (spans.map fun span => (f span.1, span.2)) = some result) :
    ∀ span ∈ spans, ∃ cwd found, readCommand cwd span.1 = some found ∧ readCommand cwd (f span.1) = some found := by
  induction spans generalizing cwd result with
  | nil => nofun
  | cons span spans ih =>
    obtain ⟨found, hfound, hbefore⟩ := Option.bind_eq_some_iff.mp hbefore
    obtain ⟨later, hlater, rfl⟩ := Option.map_eq_some_iff.mp hbefore
    obtain ⟨here, hhere, hcount⟩ := hlength span List.mem_cons_self cwd found hfound
    rw [List.map_cons, readCommands, hhere] at hafter
    obtain ⟨later', hlater', heq⟩ := Option.map_eq_some_iff.mp hafter
    obtain ⟨rfl, rfl⟩ := List.append_inj heq hcount
    rintro span' (_ | ⟨_, hmem⟩)
    · exact ⟨cwd, found, hfound, hhere⟩
    · exact ih (fun span' hmem => hlength span' (List.mem_cons_of_mem _ hmem)) hlater hlater' span' hmem

theorem steady_of_cacheOnly {command : List Char} (hfronts : PlainFronts command)
    (hread : (testInvocations command).isSome = true) (h : CacheOnly command) : Steady command := by
  intro spans hspans hsplit span hmem args hlaunches hnames read hstrip
  obtain ⟨f, hf, hnew, -⟩ := disable_spans hspans hsplit
  -- what a changed piece is read as, before and after
  have hvitest : ∀ span ∈ spans, Longer span.1 (f span.1) → (∃ args, Launches span.1 args) → ∃ read options,
      words (strip span.1) = some read ∧ (executableTokens (read.map Word.text)).head? ≠ some "cd".toList ∧
        launch (executableTokens (read.map Word.text)) = some (.vitest, options) ∧
        ∀ cwd, ∃ here,
          readCommand cwd span.1 = some (cwd, [⟨.vitest, runnerTargets .vitest (written read options.length), here⟩]) ∧
          readCommand cwd (f span.1) =
            some (cwd, [⟨.vitest, runnerTargets .vitest (written read options.length ++ [cacheArgument]), here⟩]) := by
    intro span hmem hlong hlaunch
    obtain ⟨args, read, executable, hwords, hargs⟩ := hlaunch
    obtain ⟨found, hfound, hfound'⟩ := hlong.words
    have hsame : words (strip span.1) = words (rstrip span.1) := by
      rw [strip_eq]
      exact words_dropSpaces (hfronts spans hspans span hmem)
    rw [hsame, hwords] at hfound
    cases hfound
    obtain ⟨hfolder, options, hlaunch⟩ := launch_vitest hargs
    refine ⟨read, options, hsame.trans hwords, hfolder, hlaunch, fun cwd => ?_⟩
    obtain ⟨here, hbefore, hafter⟩ := readWords_vitest hfolder hlaunch cwd
    refine ⟨here, ?_, ?_⟩
    · rw [readCommand, hsame, hwords]
      exact hbefore
    · rw [readCommand, hfound']
      exact hafter
  have hlength : ∀ span ∈ spans, ∀ cwd found, readCommand cwd span.1 = some found →
      ∃ here, readCommand cwd (f span.1) = some (found.1, here) ∧ here.length = found.2.length := by
    intro span hmem cwd found hfound
    rcases (rewritePiece_cases (hf span hmem)).2 with hsame | ⟨hlong, args, hlaunches, -⟩
    · rw [hsame]
      exact ⟨found.2, hfound, rfl⟩
    · obtain ⟨read, options, -, -, -, hboth⟩ := hvitest span hmem hlong ⟨args, hlaunches⟩
      obtain ⟨here, hbefore, hafter⟩ := hboth cwd
      rw [hbefore] at hfound
      cases hfound
      exact ⟨_, hafter, rfl⟩
  obtain ⟨result, hresult⟩ := Option.isSome_iff_exists.mp hread
  have hbefore : readCommands ['.'] spans = some result := by
    rw [testInvocations, hspans] at hresult
    exact hresult
  have hafter : readCommands ['.'] (spans.map fun span => (f span.1, span.2)) = some result := by
    have hsame := h.invocations.trans hresult
    rw [testInvocations, hnew] at hsame
    exact hsame
  obtain ⟨cwd, found, hfound, hfound'⟩ := readCommands_same hlength hbefore hafter span hmem
  have hlong : Longer span.1 (f span.1) := by
    rcases (rewritePiece_cases (hf span hmem)).2 with hsame | ⟨hlong, -⟩
    · have hone := hf span hmem
      rw [hsame, rewritePiece_launches hlaunches hnames] at hone
      have hlength := congrArg List.length (Option.some.inj hone)
      have hparts := congrArg List.length (rstrip_trailing span.1)
      simp only [List.length_append, List.length_cons] at hlength hparts
      omega
    · exact hlong
  obtain ⟨read', options, hwords, hfolder, hlaunch, hboth⟩ := hvitest span hmem hlong ⟨args, hlaunches⟩
  rw [hstrip] at hwords
  cases hwords
  obtain ⟨here, hfirst, hsecond⟩ := hboth cwd
  rw [hfirst] at hfound
  cases hfound
  rw [hsecond] at hfound'
  simp only [Option.some.injEq, Prod.mk.injEq, List.cons.injEq, TestInvocation.mk.injEq, true_and, and_true] at hfound'
  refine ⟨hfolder, fun runner options' hlaunch' => ?_⟩
  rw [hlaunch] at hlaunch'
  cases hlaunch'
  exact ⟨rfl, (runnerTargets_settled _).mp hfound'⟩

end AutoAgents.Commands
