import AutoAgents.BaseCut
import AutoAgents.VerificationSteps

/-! The static index of imports: the names that tracked Python files have as modules, the names that an import asks for, and
which files the closure of targets reaches. The list that the version control prints, the imports that a text contains, and
what a script depends on are parameters. -/

namespace AutoAgents.Verification.Index

open Base (cut)

local instance lawfulName : LawfulBEq (List Char) := inferInstance

/-! ### Names -/

/-- `relative.endswith((".py", ".pyi"))` -/
def isPython (relative : String) : Bool :=
  ".py".toList.isSuffixOf relative.toList || ".pyi".toList.isSuffixOf relative.toList

/-- `text.rpartition(".")[0]` -/
def beforeLastDot (text : List Char) : List Char := ((text.reverse.dropWhile (· != '.')).drop 1).reverse

/-- `relative.rsplit(".", 1)[0].replace("/", ".")`, of a path that has an extension. -/
def moduleName (relative : String) : List Char := (beforeLastDot relative.toList).map fun c => if c = '/' then '.' else c

/-- `name[: -len(".__init__")]`, where the name ends so. -/
def packageOf (name : List Char) : Option (List Char) :=
  if ".__init__".toList.isSuffixOf name = true then some (name.take (name.length - 9)) else none

/-- The name of the module below a directory `src`. -/
def sourceAlias (relative : String) : Option (List Char) :=
  if "src/".toList.isPrefixOf relative.toList = true then some ((moduleName relative).drop 4)
  else if "/src/".toList <:+: '/' :: relative.toList then
    match cut ".src.".toList (moduleName relative) with
    | some (_, behind) => some behind
    | none => some (moduleName relative)
  else none

/-- The names under which `_python_module_files` enters a file. -/
def moduleNames (relative : String) : List (List Char) :=
  (moduleName relative :: (sourceAlias relative).toList).flatMap fun name => name :: (packageOf name).toList

/-- `_python_module_files`: of two files with one name, the later one has it. -/
def pythonModuleFiles (files : List String) : List Char → Option String :=
  files.foldl (fun result relative name =>
    if isPython relative = true ∧ name ∈ moduleNames relative then some relative else result name) fun _ => none

/-! ### Imports -/

/-- `text.strip(".")` -/
def stripDots (text : List Char) : List Char := ((text.dropWhile (· == '.')).reverse.dropWhile (· == '.')).reverse

def join (parts : List (List Char)) : List Char := List.intercalate ['.'] parts

/-- An import as it is parsed: modules by their parts, or names of a module at a level, which is none where it is absolute. -/
inductive Import
  | importModules (names : List (List (List Char)))
  | importFrom (module : List (List Char)) (names : List (List Char)) (level : Nat)

/-- The package of a file, by its path. -/
def packageName (relative : String) : List Char :=
  (packageOf (moduleName relative)).getD (beforeLastDot (moduleName relative))

/-- The module of an import of names. -/
def baseName (relative : String) (module : List (List Char)) (level : Nat) : List Char :=
  if level = 0 then join module
  else
    let parts := if packageName relative = [] then [] else (packageName relative).splitOn '.'
    stripDots (join (parts.take (parts.length + 1 - level) ++ [join module]))

def importNames (relative : String) : Import → List (List Char)
  | .importModules names => names.map join
  | .importFrom module names level =>
      let base := baseName relative module level
      base :: names.map fun name => stripDots (base ++ '.' :: name)

/-- A name, and the names of its packages. Each is shorter than the one before. -/
def candidatesFrom : Nat → List Char → List (List Char)
  | 0, _ => []
  | n + 1, candidate => if candidate = [] then [] else candidate :: candidatesFrom n (beforeLastDot candidate)

def candidates (name : List Char) : List (List Char) := candidatesFrom name.length name

/-- All names that are looked up for an import. -/
def lookups (relative : String) (i : Import) : List (List Char) := (importNames relative i).flatMap candidates

/-! ### The index -/

def ignoredPrefixes : List String := [".auto-agents/", ".conda/", ".git/", ".tmp/", ".tmp-tests/", "node_modules/"]

/-- `_tracked_source_files`, of the tracked paths as they are printed. -/
def trackedSourceFiles (printed : String → String) (tracked : List String) : List String :=
  ((tracked.map printed).filter fun line =>
    Operator.strip line.toList != [] && !ignoredPrefixes.any fun part => part.toList.isPrefixOf (normalized line).toList).map normalized

/-- `_python_dependencies` of a file that can be read. -/
def pythonDependencies (files : List String) (relative : String) (imports : List Import) : List String :=
  (imports.flatMap (lookups relative)).filterMap (pythonModuleFiles files)

/-- `_file_dependencies`. What is not tracked cannot be read. -/
def fileDependencies (tracked files : List String) (imports : String → List Import) (scripts : String → List String)
    (relative : String) : List String :=
  if isPython relative = true then
    if relative ∈ tracked then pythonDependencies files relative (imports relative) else []
  else scripts relative

def project (tracked files : List String) (imports : String → List Import) (scripts : String → List String) : Project where
  files := files
  fileDependencies := fileDependencies tracked files imports scripts
  pathDigest := id
  remainingDigest _ _ := ""

/-! ### What an import denotes -/

/-- The repository, or a directory `src` in it. -/
inductive IsRoot : List (List Char) → Prop
  | repository : IsRoot []
  | source (before : List (List Char)) : IsRoot (before ++ ["src".toList])

def directories (path : String) : List (List Char) := (path.toList.splitOn '/').dropLast

/-- The modules that an import denotes, by their roots and their parts. -/
inductive Denotes (identifier : List Char → Prop) (path : String) : Import → List (List Char) → List (List Char) → Prop
  | plain {names root name} (hroot : IsRoot root) (hname : name ∈ names) (hsome : name ≠ []) :
      Denotes identifier path (.importModules names) root name
  | absolute {module names root} (hroot : IsRoot root) (hsome : module ≠ []) :
      Denotes identifier path (.importFrom module names 0) root module
  | absoluteName {module names root name} (hroot : IsRoot root) (hsome : module ≠ []) (hname : name ∈ names)
      (hidentifier : identifier name) : Denotes identifier path (.importFrom module names 0) root (module ++ [name])
  | relative {module names level} (hlevel : level < (directories path).length) :
      Denotes identifier path (.importFrom module names (level + 1)) []
        ((directories path).take ((directories path).length - level) ++ module)
  | relativeName {module names level name} (hlevel : level < (directories path).length) (hname : name ∈ names)
      (hidentifier : identifier name) : Denotes identifier path (.importFrom module names (level + 1)) []
        ((directories path).take ((directories path).length - level) ++ module ++ [name])

/-- The parts of names are identifiers; what is imported from a module may be a star. -/
def Import.WellFormed (identifier : List Char → Prop) : Import → Prop
  | .importModules names => ∀ name ∈ names, name ≠ [] ∧ ∀ part ∈ name, identifier part
  | .importFrom module names _ => (∀ part ∈ module, identifier part) ∧ ∀ name ∈ names, identifier name ∨ name = ['*']

def fileAt (location : List (List Char)) (extension : String) : String :=
  String.ofList (List.intercalate ['/'] location ++ extension.toList)

/-- The file provides a module that the import denotes, or initializes that module or a package that it is in. -/
def Wants (identifier : List Char → Prop) (path : String) (i : Import) (file : String) : Prop :=
  ∃ root module, Denotes identifier path i root module ∧ ∃ extension ∈ [".py", ".pyi"],
    file = fileAt (root ++ module) extension ∨
      ∃ package, package <+: module ∧ package ≠ [] ∧ file = fileAt (root ++ package ++ ["__init__".toList]) extension

/-- In every order of the files and for all texts, what a file of the closure wants is in the closure. -/
def Sound (identifier : List Char → Prop) (printed : String → String) (tracked : List String) : Prop :=
  ∀ files : List String, files.Nodup → (∀ file, file ∈ files ↔ file ∈ trackedSourceFiles printed tracked) →
    ∀ (imports : String → List Import) (scripts : String → List String) (targets : List String),
      (∀ path, ∀ i ∈ imports path, i.WellFormed identifier) →
        ∀ path ∈ closureForTargets (project tracked files imports scripts) targets, path ∈ tracked → isPython path = true →
          ∀ i ∈ imports path, ∀ file ∈ tracked, isPython file = true → Wants identifier path i file →
            file ∈ closureForTargets (project tracked files imports scripts) targets

/-- Whatever an indexed file imports from another one, this is indexed under its own path and is the only one with some name
that is looked up. -/
def Apart (identifier : List Char → Prop) (printed : String → String) (tracked : List String) : Prop :=
  ∀ path ∈ tracked, isPython path = true → path ∈ trackedSourceFiles printed tracked →
    ∀ file ∈ tracked, isPython file = true → file ≠ path → ∀ i : Import, i.WellFormed identifier → Wants identifier path i file →
      file ∈ trackedSourceFiles printed tracked ∧
        ∃ name ∈ lookups path i, name ∈ moduleNames file ∧
          ∀ other ∈ trackedSourceFiles printed tracked, isPython other = true → name ∈ moduleNames other → other = file

/-! ### The closure -/

section Closure

variable {index : Project} {pending seen : List String} {n : Nat}

theorem sum_filter_ne (size : String → Nat) {files : List String} {file : String} (hfile : file ∈ files) :
    ((files.filter fun other => other ≠ file).map size).sum + size file ≤ (files.map size).sum := by
  induction files with
  | nil => cases hfile
  | cons other files ih =>
      have hsub : ((files.filter fun other => other ≠ file).map size).sum ≤ (files.map size).sum :=
        (List.filter_sublist.map size).sum_le_sum fun _ _ => Nat.zero_le _
      by_cases hsame : other = file
      · subst hsame
        simp only [List.filter_cons, ne_eq, not_true, decide_false, Bool.false_eq_true, if_false, List.map_cons, List.sum_cons]
        simp only [ne_eq] at hsub
        omega
      · have hrest : file ∈ files := (List.mem_cons.mp hfile).resolve_left fun h => hsame h.symm
        have hih := ih hrest
        simp only [List.filter_cons, ne_eq, hsame, not_false_eq_true, decide_true, if_true, List.map_cons, List.sum_cons]
        simp only [ne_eq] at hih
        omega

/-- How much is to be pushed from files that have not been seen. -/
def unseen (index : Project) (seen : List String) : Nat :=
  ((index.files.filter fun file => file ∉ seen).map fun file => (index.fileDependencies file).length).sum

theorem unseen_cons {file : String} (hfile : file ∈ index.files) (hnew : file ∉ seen) :
    unseen index (file :: seen) + (index.fileDependencies file).length ≤ unseen index seen := by
  have hthere : file ∈ index.files.filter fun file => file ∉ seen := List.mem_filter.mpr ⟨hfile, by simpa using hnew⟩
  have hsum := sum_filter_ne (fun file => (index.fileDependencies file).length) hthere
  rw [List.filter_filter] at hsum
  have hsame : (index.files.filter fun other => other ∉ file :: seen) =
      index.files.filter fun other => decide (other ≠ file) && decide (other ∉ seen) := by
    apply List.filter_congr
    intro other _
    simp [not_or]
  unfold unseen
  rw [hsame]
  exact hsum

/-- What is seen stays, what is pending is seen if it is a file, and what a seen file depends on is seen or pending. -/
theorem closureFrom_closed (hfuel : pending.length + unseen index seen ≤ n)
    (hclosed : ∀ a ∈ seen, ∀ d ∈ index.fileDependencies a, d ≠ "" → d ∈ index.files → d ∈ seen ∨ d ∈ pending) :
    (∀ a ∈ seen, a ∈ closureFrom index n pending seen) ∧
      (∀ p ∈ pending, p ≠ "" → p ∈ index.files → p ∈ closureFrom index n pending seen) ∧
        ∀ a ∈ closureFrom index n pending seen, ∀ d ∈ index.fileDependencies a, d ≠ "" → d ∈ index.files →
          d ∈ closureFrom index n pending seen := by
  induction n generalizing pending seen with
  | zero =>
      have hnone : pending = [] := List.length_eq_zero_iff.mp (by omega)
      subst hnone
      simp only [closureFrom]
      exact ⟨fun _ h => h, fun _ h => absurd h List.not_mem_nil,
        fun a ha d hd hsome hfile => (hclosed a ha d hd hsome hfile).resolve_right List.not_mem_nil⟩
  | succ n ih =>
      cases pending with
      | nil =>
          simp only [closureFrom]
          exact ⟨fun _ h => h, fun _ h => absurd h List.not_mem_nil,
            fun a ha d hd hsome hfile => (hclosed a ha d hd hsome hfile).resolve_right List.not_mem_nil⟩
      | cons relative pending =>
          rw [List.length_cons] at hfuel
          rw [closureFrom]
          split
          · rename_i hskip
            obtain ⟨hseen, hpending, hall⟩ := @ih pending seen (by omega) fun a ha d hd hsome hfile => by
              rcases hclosed a ha d hd hsome hfile with hd | hd
              · exact .inl hd
              · rcases List.mem_cons.mp hd with rfl | hd
                · exact .inl (by simpa [hsome, hfile] using hskip)
                · exact .inr hd
            refine ⟨hseen, fun p hp hsome hfile => ?_, hall⟩
            rcases List.mem_cons.mp hp with rfl | hp
            · exact hseen p (by simpa [hsome, hfile] using hskip)
            · exact hpending p hp hsome hfile
          · rename_i hexpand
            simp only [not_or, not_not] at hexpand
            obtain ⟨_, hnew, hthere⟩ := hexpand
            have hless := unseen_cons hthere hnew
            have hpushed := List.length_filter_le (fun file => !(relative :: seen).contains file) (index.fileDependencies relative)
            obtain ⟨hseen, hpending, hall⟩ := @ih
              (((index.fileDependencies relative).filter fun file => !(relative :: seen).contains file).reverse ++ pending)
              (relative :: seen) (by rw [List.length_append, List.length_reverse]; omega) fun a ha d hd hsome hfile => by
                by_cases hd' : d ∈ relative :: seen
                · exact .inl hd'
                · refine .inr ?_
                  rcases List.mem_cons.mp ha with rfl | ha
                  · exact List.mem_append_left _ (List.mem_reverse.mpr (List.mem_filter.mpr ⟨hd, by simpa using hd'⟩))
                  · rw [List.mem_cons, not_or] at hd'
                    rcases hclosed a ha d hd hsome hfile with hseen | hseen
                    · exact absurd hseen hd'.2
                    · exact List.mem_append_right _ ((List.mem_cons.mp hseen).resolve_left hd'.1)
            refine ⟨fun a ha => hseen a (List.mem_cons_of_mem _ ha), fun p hp hsome hfile => ?_, hall⟩
            rcases List.mem_cons.mp hp with rfl | hp
            · exact hseen p List.mem_cons_self
            · exact hpending p (List.mem_append_right _ hp) hsome hfile

/-- Nothing is seen but files that are pending, or that files which are seen depend on. -/
theorem closureFrom_within {S : String → Prop} (hseen : ∀ a ∈ seen, S a) (hpending : ∀ p ∈ pending, p ∈ index.files → S p)
    (hclosed : ∀ a, S a → ∀ d ∈ index.fileDependencies a, d ∈ index.files → S d) :
    ∀ a ∈ closureFrom index n pending seen, S a := by
  induction n generalizing pending seen with
  | zero => exact hseen
  | succ n ih =>
      cases pending with
      | nil => exact hseen
      | cons relative pending =>
          rw [closureFrom]
          split
          · exact ih hseen fun p hp => hpending p (List.mem_cons_of_mem _ hp)
          · rename_i hexpand
            simp only [not_or, not_not] at hexpand
            have hrelative := hpending relative List.mem_cons_self hexpand.2.2
            refine ih (fun a ha => ?_) fun p hp hfile => ?_
            · rcases List.mem_cons.mp ha with rfl | ha
              · exact hrelative
              · exact hseen a ha
            · rcases List.mem_append.mp hp with hp | hp
              · exact hclosed relative hrelative p (List.mem_filter.mp (List.mem_reverse.mp hp)).1 hfile
              · exact hpending p (List.mem_cons_of_mem _ hp) hfile

variable {targets : List String}

theorem closure_fuel : ((targets.map targetFile).reverse).length + unseen index [] ≤
    targets.length + (index.files.map fun file => (index.fileDependencies file).length).sum := by
  simp [unseen]

theorem closure_target {target : String} (htarget : target ∈ targets) (hsome : targetFile target ≠ "")
    (hfile : targetFile target ∈ index.files) : targetFile target ∈ closureForTargets index targets :=
  (closureFrom_closed closure_fuel fun _ ha => absurd ha List.not_mem_nil).2.1 _
    (List.mem_reverse.mpr (List.mem_map_of_mem htarget)) hsome hfile

theorem closure_dependency {file dependency : String} (hfile : file ∈ closureForTargets index targets)
    (hdependency : dependency ∈ index.fileDependencies file) (hsome : dependency ≠ "") (hthere : dependency ∈ index.files) :
    dependency ∈ closureForTargets index targets :=
  (closureFrom_closed closure_fuel fun _ ha => absurd ha List.not_mem_nil).2.2 file hfile dependency hdependency hsome hthere

theorem closure_within {S : String → Prop} (htargets : ∀ target ∈ targets, targetFile target ∈ index.files → S (targetFile target))
    (hclosed : ∀ a, S a → ∀ d ∈ index.fileDependencies a, d ∈ index.files → S d) : ∀ a ∈ closureForTargets index targets, S a := by
  refine closureFrom_within (fun _ ha => absurd ha List.not_mem_nil) (fun p hp => ?_) hclosed
  obtain ⟨target, htarget, rfl⟩ := List.mem_map.mp (List.mem_reverse.mp hp)
  exact htargets target htarget

end Closure

/-! ### The names of files -/

section Names

variable {files : List String} {name : List Char} {file : String}

/-- The file that comes last has a name, where any has it. -/
theorem moduleFiles_cases (files : List String) (first : List Char → Option String) (name : List Char) :
    let found := files.foldl (fun result relative name =>
      if isPython relative = true ∧ name ∈ moduleNames relative then some relative else result name) first name
    (∃ file ∈ files, isPython file = true ∧ name ∈ moduleNames file ∧ found = some file) ∨
      (∀ file ∈ files, isPython file = true → name ∉ moduleNames file) ∧ found = first name := by
  induction files generalizing first with
  | nil => exact .inr ⟨fun _ h => absurd h List.not_mem_nil, rfl⟩
  | cons file files ih =>
      rw [List.foldl_cons]
      rcases ih fun name => if isPython file = true ∧ name ∈ moduleNames file then some file else first name with hlater | hlater
      · obtain ⟨later, hmem, hlater⟩ := hlater
        exact .inl ⟨later, List.mem_cons_of_mem _ hmem, hlater⟩
      · obtain ⟨hnone, hfound⟩ := hlater
        by_cases hhere : isPython file = true ∧ name ∈ moduleNames file
        · rw [if_pos hhere] at hfound
          exact .inl ⟨file, List.mem_cons_self, hhere.1, hhere.2, hfound⟩
        · rw [if_neg hhere] at hfound
          refine .inr ⟨fun other hother hpython hname => ?_, hfound⟩
          rcases List.mem_cons.mp hother with rfl | hother
          · exact hhere ⟨hpython, hname⟩
          · exact hnone other hother hpython hname

theorem moduleFiles_some (hfound : pythonModuleFiles files name = some file) :
    file ∈ files ∧ isPython file = true ∧ name ∈ moduleNames file := by
  rcases moduleFiles_cases files (fun _ => none) name with hthere | hnone
  · obtain ⟨other, hother, hpython, hname, heq⟩ := hthere
    rw [pythonModuleFiles, heq] at hfound
    cases hfound
    exact ⟨hother, hpython, hname⟩
  · rw [pythonModuleFiles, hnone.2] at hfound
    cases hfound

/-- A file that alone has a name is found by it. -/
theorem moduleFiles_only (hfile : file ∈ files) (hpython : isPython file = true) (hname : name ∈ moduleNames file)
    (honly : ∀ other ∈ files, isPython other = true → name ∈ moduleNames other → other = file) :
    pythonModuleFiles files name = some file := by
  rcases moduleFiles_cases files (fun _ => none) name with hthere | hnone
  · obtain ⟨other, hother, hpython', hname', heq⟩ := hthere
    rw [pythonModuleFiles, heq, honly other hother hpython' hname']
  · exact absurd hname (hnone.1 file hfile hpython)

/-- A file that comes first is found by a name if and only if no other file has that name. -/
theorem moduleFiles_first (hnew : file ∉ files) (hfound : pythonModuleFiles (file :: files) name = some file) :
    ∀ other ∈ files, isPython other = true → name ∉ moduleNames other := by
  rw [pythonModuleFiles, List.foldl_cons] at hfound
  rcases moduleFiles_cases files (fun name => if isPython file = true ∧ name ∈ moduleNames file then some file else none) name with
    hthere | hnone
  · obtain ⟨other, hother, _, _, heq⟩ := hthere
    rw [heq] at hfound
    cases hfound
    exact absurd hother hnew
  · exact hnone.1

theorem isPython_ne (hpython : isPython file = true) : file ≠ "" := by
  rintro rfl
  exact absurd hpython (by decide)

end Names

/-! ### Soundness -/

section Soundness

variable {identifier : List Char → Prop} {printed : String → String} {tracked files : List String} {imports : String → List Import}
  {scripts : String → List String} {targets : List String} {path file : String} {i : Import}

theorem closure_files (hpath : path ∈ closureForTargets (project tracked files imports scripts) targets) : path ∈ files :=
  closure_within (S := fun path => path ∈ files) (fun _ _ h => h) (fun _ _ _ _ h => h) path hpath

theorem apart_sound (hapart : Apart identifier printed tracked) : Sound identifier printed tracked := by
  intro files _ hfiles imports scripts targets hformed path hpath htracked hpython i hi file hfile hfilePython hwants
  by_cases hsame : file = path
  · rw [hsame]
    exact hpath
  obtain ⟨hindexed, name, hlookup, hname, honly⟩ := hapart path htracked hpython ((hfiles path).mp (closure_files hpath)) file hfile
    hfilePython hsame i (hformed path i hi) hwants
  have hfound : pythonModuleFiles files name = some file :=
    moduleFiles_only ((hfiles file).mpr hindexed) hfilePython hname fun other hother => honly other ((hfiles other).mp hother)
  have hdependency : file ∈ (project tracked files imports scripts).fileDependencies path := by
    show file ∈ fileDependencies tracked files imports scripts path
    rw [fileDependencies, if_pos hpython, if_pos htracked]
    exact List.mem_filterMap.mpr ⟨name, List.mem_flatMap.mpr ⟨i, hi, hlookup⟩, hfound⟩
  exact closure_dependency hpath hdependency (isPython_ne hfilePython) ((hfiles file).mpr hindexed)

def oneImport (path : String) (i : Import) : String → List Import := fun other => if other = path then [i] else []

/-- A text with one import, in the one file that is a target, reaches what is found by the names of that import. -/
theorem single_import (hpath : path ∈ tracked) (hpython : isPython path = true) (htarget : targetFile path = path)
    (hfile : file ∈ closureForTargets (project tracked files (oneImport path i) fun _ => []) [path]) :
    file = path ∨ ∃ name ∈ lookups path i, pythonModuleFiles files name = some file := by
  refine closure_within (S := fun file => file = path ∨ ∃ name ∈ lookups path i, pythonModuleFiles files name = some file)
    (fun target hmem _ => ?_) (fun other _ dependency hdependency _ => ?_) file hfile
  · rw [List.mem_singleton.mp hmem]
    exact .inl htarget
  · change dependency ∈ fileDependencies tracked files (oneImport path i) (fun _ => []) other at hdependency
    rw [fileDependencies, oneImport] at hdependency
    by_cases hother : other = path
    · subst hother
      rw [if_pos hpython, if_pos hpath, if_pos rfl, pythonDependencies, List.flatMap_singleton] at hdependency
      obtain ⟨name, hname, hfound⟩ := List.mem_filterMap.mp hdependency
      exact .inr ⟨name, hname, hfound⟩
    · simp only [if_neg hother, pythonDependencies, List.flatMap_nil, List.filterMap_nil, ite_self, List.not_mem_nil] at hdependency

theorem sound_apart (htargets : ∀ path ∈ trackedSourceFiles printed tracked, isPython path = true → targetFile path = path)
    (hsound : Sound identifier printed tracked) : Apart identifier printed tracked := by
  intro path hpath hpython hindexed file hfile hfilePython hne i hformed hwants
  have htarget := htargets path hindexed hpython
  -- the one import of the one target, in any order of the files
  have hreached : ∀ files : List String, files.Nodup → (∀ file, file ∈ files ↔ file ∈ trackedSourceFiles printed tracked) →
      file ∈ closureForTargets (project tracked files (oneImport path i) fun _ => []) [path] := by
    intro files hnodup hfiles
    have hthere : path ∈ closureForTargets (project tracked files (oneImport path i) fun _ => []) [path] := by
      have hmem : targetFile path ∈ closureForTargets (project tracked files (oneImport path i) fun _ => []) [path] :=
        closure_target (List.mem_singleton_self path) (by rw [htarget]; exact isPython_ne hpython)
          (by rw [htarget]; exact (hfiles path).mpr hindexed)
      rwa [htarget] at hmem
    refine hsound files hnodup hfiles _ _ [path] (fun other j hj => ?_) path hthere hpath hpython i ?_ file hfile hfilePython hwants
    · rw [oneImport] at hj
      split at hj
      · rw [List.mem_singleton.mp hj]
        exact hformed
      · cases hj
    · rw [oneImport, if_pos rfl]
      exact List.mem_singleton_self i
  have hfileIndexed : file ∈ trackedSourceFiles printed tracked :=
    List.mem_dedup.mp (closure_files (hreached _ (List.nodup_dedup _) fun _ => List.mem_dedup))
  -- the file comes first, so that any other one with a name of it has that name
  let rest := (trackedSourceFiles printed tracked).dedup.erase file
  have hnew : file ∉ rest := (List.nodup_dedup _).not_mem_erase
  have hfiles : ∀ other, other ∈ file :: rest ↔ other ∈ trackedSourceFiles printed tracked := by
    intro other
    by_cases hother : other = file
    · simp [hother, hfileIndexed]
    · simp [rest, List.mem_erase_of_ne hother, hother]
  have hfirst := hreached (file :: rest) (List.nodup_cons.mpr ⟨hnew, (List.nodup_dedup _).erase file⟩) hfiles
  rcases single_import hpath hpython htarget hfirst with hsame | ⟨name, hlookup, hfound⟩
  · exact absurd hsame hne
  · refine ⟨hfileIndexed, name, hlookup, (moduleFiles_some hfound).2.2, fun other hother hotherPython hname => ?_⟩
    rcases List.mem_cons.mp ((hfiles other).mpr hother) with hsame | hrest
    · exact hsame
    · exact absurd hname (moduleFiles_first hnew hfound other hrest hotherPython)

/-- The closure is sound in every order of the files and for all texts if what an indexed file imports from another one is
indexed under its own path and is the only one with some name that is looked up; and where every indexed path is a target of
itself, only if. -/
theorem closure_sound (identifier : List Char → Prop) (printed : String → String) (tracked : List String) :
    (Apart identifier printed tracked → Sound identifier printed tracked) ∧
      ((∀ path ∈ trackedSourceFiles printed tracked, isPython path = true → targetFile path = path) →
        (Sound identifier printed tracked ↔ Apart identifier printed tracked)) :=
  ⟨apart_sound, fun htargets => ⟨sound_apart htargets, apart_sound⟩⟩

end Soundness

/-! ### A stub beside its module -/

/-- The one part of a location whose parts are joined to a text without a slash. -/
theorem location_single {location : List (List Char)} {word : List Char} (hslash : '/' ∉ word) (hsome : word ≠ [])
    (hjoined : List.intercalate ['/'] location = word) : location = [word] := by
  cases location with
  | nil => exact absurd hjoined.symm hsome
  | cons first rest =>
      cases rest with
      | nil =>
          rw [List.intercalate_singleton] at hjoined
          rw [hjoined]
      | cons second rest =>
          rw [List.intercalate_cons_cons] at hjoined
          refine absurd ?_ hslash
          simp [← hjoined]

/-- A file of the root is wanted by its name only, from a file of the root. -/
theorem wants_word {identifier : List Char → Prop} {path file : String} {i : Import} {word : List Char}
    (hdirectories : directories path = []) (hfile : file.toList = word ++ ".py".toList) (hslash : '/' ∉ word) (hsome : word ≠ [])
    (hinit : word ≠ "__init__".toList) (hwants : Wants identifier path i file) : word ∈ importNames path i := by
  obtain ⟨root, module, hdenotes, extension, hextension, hplace⟩ := hwants
  have hlocation : ∀ location, file = fileAt location extension → location = [word] := by
    intro location heq
    have htext : word ++ ".py".toList = List.intercalate ['/'] location ++ extension.toList := by
      rw [← hfile, heq, fileAt, String.toList_ofList]
    simp only [List.mem_cons, List.not_mem_nil, or_false] at hextension
    rcases hextension with rfl | rfl
    · exact location_single hslash hsome (List.append_cancel_right htext).symm
    · have hlast := congrArg List.getLast? htext
      simp at hlast
  have hmodule : root ++ module = [word] → module ≠ [] → module = [word] := by
    intro hword hnonempty
    rcases List.append_eq_singleton_iff.mp hword with h | h
    · exact h.2
    · exact absurd h.2 hnonempty
  rcases hplace with hmoduleFile | ⟨package, _, hpackage, hpackageFile⟩
  · have hword := hlocation _ hmoduleFile
    cases hdenotes with
    | plain hroot hname hnonempty =>
        rw [hmodule hword hnonempty] at hname
        exact List.mem_map.mpr ⟨_, hname, List.intercalate_singleton⟩
    | absolute hroot hnonempty =>
        have hbase : baseName path [word] 0 = word := by rw [baseName, if_pos rfl, join, List.intercalate_singleton]
        rw [importNames, hmodule hword hnonempty]
        exact List.mem_cons.mpr (.inl hbase.symm)
    | absoluteName hroot hnonempty _ _ =>
        have hlength := congrArg List.length hword
        have hpositive := List.length_pos_iff.mpr hnonempty
        simp only [List.length_append, List.length_singleton] at hlength
        omega
    | relative hlevel => simp [hdirectories] at hlevel
    | relativeName hlevel _ _ => simp [hdirectories] at hlevel
  · have hword := hlocation _ hpackageFile
    rcases List.append_eq_singleton_iff.mp hword with h | h
    · exact absurd (List.singleton_injective h.2).symm hinit
    · cases h.2

/-- A test that may import a module beside it. -/
theorem pair_indexed : trackedSourceFiles id ["app.py", "tests.py"] = ["app.py", "tests.py"] := by decide

theorem pair_apart : Apart (fun _ => True) id ["app.py", "tests.py"] := by
  have hword : ∀ path ∈ ["app.py", "tests.py"], ∀ i : Import, ∀ file ∈ ["app.py", "tests.py"], ∀ word ∈ moduleNames file,
      word ∈ importNames path i → word ∈ lookups path i := by
    intro path _ i file hfile word hword himport
    refine List.mem_flatMap.mpr ⟨word, himport, ?_⟩
    have hall : ∀ file ∈ ["app.py", "tests.py"], ∀ word ∈ moduleNames file, word ∈ candidates word := by decide
    exact hall file hfile word hword
  rw [Apart, pair_indexed]
  intro path hpath _ _ file hfile _ _ i _ hwants
  refine ⟨hfile, ?_⟩
  have hdirectories : ∀ path ∈ ["app.py", "tests.py"], directories path = [] := by decide
  simp only [List.mem_cons, List.not_mem_nil, or_false] at hfile
  rcases hfile with rfl | rfl
  · have hwanted : "app".toList ∈ importNames path i := wants_word (hdirectories path hpath) (by decide) (by decide) (by decide) (by decide) hwants
    exact ⟨_, hword path hpath i "app.py" (by decide) _ (by decide) hwanted, by decide, by decide⟩
  · have hwanted : "tests".toList ∈ importNames path i := wants_word (hdirectories path hpath) (by decide) (by decide) (by decide) (by decide) hwants
    exact ⟨_, hword path hpath i "tests.py" (by decide) _ (by decide) hwanted, by decide, by decide⟩

theorem closure_sound_pair : Sound (fun _ => True) id ["app.py", "tests.py"] := by
  refine ((closure_sound (fun _ => True) id ["app.py", "tests.py"]).2 ?_).mpr pair_apart
  rw [pair_indexed]
  decide

theorem stub_indexed : trackedSourceFiles id ["a.py", "a.pyi", "b.py"] = ["a.py", "a.pyi", "b.py"] := by decide

theorem stub_wanted : Wants (fun _ => True) "b.py" (.importModules [[['a']]]) "a.py" := by
  refine ⟨[], [['a']], .plain .repository (List.mem_singleton_self _) (by simp), ".py", List.mem_cons_self, .inl ?_⟩
  decide

/-- A module and its stub have one name, so that one of them is not found by it. -/
theorem stub_lost : ¬ Sound (fun _ => True) id ["a.py", "a.pyi", "b.py"] := by
  intro hsound
  have hapart := sound_apart (by rw [stub_indexed]; decide) hsound
  obtain ⟨_, name, hlookup, _, honly⟩ := hapart "b.py" (by decide) (by decide) (by rw [stub_indexed]; decide) "a.py" (by decide)
    (by decide) (by decide) (.importModules [[['a']]]) (by simp [Import.WellFormed]) stub_wanted
  have hlookups : lookups "b.py" (.importModules [[['a']]]) = [['a']] := by decide
  rw [hlookups, List.mem_singleton] at hlookup
  have hstub := honly "a.pyi" (by rw [stub_indexed]; decide) (by decide) (by rw [hlookup]; decide)
  exact absurd hstub (by decide)

end AutoAgents.Verification.Index
