import AutoAgents.InstructionSync

/-! The histories of a project: syncs with any rules, and edits of the author outside the block. Where no rendered text
holds a marker, what the author wrote has no carriage return and the front matter of a file is clear, every sync keeps
what the author wrote, and one that is repeated changes nothing. The author's own front matter is lost with the second
sync, since the digest that the first one noted covers it. -/

namespace AutoAgents.Instructions

open Base
open Base.System
open Operator (strip universalNewlines universalNewlines_eq)

/-- The text of a file on the disk. -/
def Project.disk (p : Project) (path : String) : Text := (p.files path).getD []

/-- An edit outside the block. -/
inductive Edits : Text → Text → Prop
  | unmarked {old new : Text} : Unmarked old → Unmarked new → Edits old new
  | outside {before body behind before' behind' : Text} : Unmarked before → Unmarked body → Unmarked behind → Unmarked before' →
      Unmarked behind' → Edits (marked before body behind) (marked before' body behind')

inductive Act
  | sync (rules : Rules) (approved : Bool)
  | edit (path : String) (text : Text)

section

variable (sha256 : Text → String) (lower : Text → Text)

/-- What is rendered in a sync. -/
def rendered (rules : Rules) (approved : Bool) : List (String × Text) := renderGeneratedFiles lower (rules.withFrontend approved)

/-- What a sync that raises leaves as it is. -/
def Project.after (p : Project) : Except String Project → Project
  | .ok q => q
  | .error _ => p

def Project.resync (p : Project) (rules : Rules) (approved : Bool) : Project := p.after (syncAgentInstructions sha256 lower p rules approved)

/-- At the start nothing was synced, and no file holds a marker. -/
def histories : System Project Act where
  start p := (∀ path, p.hashes path = "") ∧ ∀ path, Unmarked (p.disk path)
  step p act q := match act with
    | .sync rules approved => q = p.resync sha256 lower rules approved
    | .edit path text => Edits (p.disk path) text ∧ q = { p with files := fun other => if other = path then some text else p.files other }

/-- When a sync does what the author expects: no rendered text holds a marker, what the author wrote has no carriage return, and
an own front matter is not in a file that is as the last sync wrote it. -/
def Clear (p : Project) (act : Act) : Prop :=
  match act with
  | .sync rules approved => ∀ file ∈ rendered lower rules approved,
      Unmarked file.2 ∧ '\r' ∉ authorText (p.disk file.1) ∧ ClearFront sha256 (p.hashes file.1) (p.read file.1) file.2
  | .edit _ _ => True

/-- A digest tells texts apart, and is not empty. -/
structure Digest : Prop where
  injective : Function.Injective sha256
  filled : ∀ text, sha256 text ≠ ""

/-- What syncs and edits keep: every file is one that can be merged, and every digest of the lock is of a file with a block. -/
structure Orderly (p : Project) : Prop where
  shape : ∀ path, Shape (p.disk path)
  noted : ∀ path, Noted sha256 (p.hashes path)

end

/-- A file over a sync: its front matter and what surrounds the block stay, the block is of the text that was rendered, and the
file is written where it was another one. -/
def FileKept (p q : Project) (file : String × Text) : Prop :=
  ∃ front generated new, Rendered file.2 front generated ∧ Kept generated front (p.read file.1) new ∧
    authorText (p.read file.1) = authorText (p.disk file.1) ∧
    q.files file.1 = if p.read file.1 = new then p.files file.1 else some new

section

variable {sha256 : Text → String} {lower : Text → Text} {p q : Project} {rules : Rules} {approved : Bool}

theorem Edits.shape {old new : Text} (h : Edits old new) : Shape new := by
  cases h with
  | unmarked _ hnew => exact .unmarked hnew
  | outside _ hbody _ hbefore hbehind => exact .marked hbefore hbody hbehind

theorem Rendered.unmarked {content generated : Text} {front : Option Text} (h : Rendered content front generated) (hplain : Unmarked content) :
    Unmarked generated := by
  cases h with
  | plain _ => exact hplain
  | front hmatter _ =>
      obtain ⟨rfl, -⟩ := frontMatter_some hmatter
      exact hplain.of_inside (List.suffix_append _ _).isInfix

/-- One file in a clear sync: what is made of it, and what stands in it then. -/
theorem file_kept (hsha : Digest sha256) (horderly : Orderly sha256 p) {file : String × Text} {front : Option Text} {generated : Text}
    (hrendered : Rendered file.2 front generated) (hplain : Unmarked file.2)
    (hclear : ClearFront sha256 (p.hashes file.1) (p.read file.1) file.2) :
    ∃ new, syncFile sha256 (p.hashes file.1) (p.read file.1) file.2 = .ok new ∧ Kept generated front (p.read file.1) new ∧
      Written generated front new := by
  obtain ⟨new, hnew, hkept⟩ := syncFile_kept hsha.filled (horderly.shape file.1).read hrendered (horderly.noted file.1) hclear
  refine ⟨new, hnew, hkept, hkept.written hplain hrendered (read_no_return _) ?_⟩
  intro oldFront rest hfront hmatter
  cases hrendered with
  | plain _ => exact absurd rfl hfront
  | front hgenerated _ => exact (hclear oldFront rest _ generated hmatter hgenerated).1

/-- A clear sync does not raise, and keeps every file. -/
theorem sync_kept (hsha : Digest sha256) (horderly : Orderly sha256 p) (hclear : Clear sha256 lower p (.sync rules approved)) :
    ∃ q, syncAgentInstructions sha256 lower p rules approved = .ok q ∧
      (∀ path ∉ (rendered lower rules approved).map (·.1), q.files path = p.files path ∧ q.hashes path = "") ∧
      ∀ file ∈ rendered lower rules approved, ∃ front generated new, Rendered file.2 front generated ∧
        Kept generated front (p.read file.1) new ∧ Written generated front new ∧ q.hashes file.1 = sha256 new ∧
        q.files file.1 = if p.read file.1 = new then p.files file.1 else some new := by
  have hfiles : ∀ file ∈ rendered lower rules approved, ∃ front generated new, Rendered file.2 front generated ∧
      syncFile sha256 (p.hashes file.1) (p.read file.1) file.2 = .ok new ∧ Kept generated front (p.read file.1) new ∧
      Written generated front new := by
    intro file hfile
    obtain ⟨front, generated, hrendered⟩ := rendered_shape lower (rules.withFrontend approved) file hfile
    obtain ⟨hplain, -, hfront⟩ := hclear file hfile
    obtain ⟨new, hnew, hkept, hwritten⟩ := file_kept hsha horderly hrendered hplain hfront
    exact ⟨front, generated, new, hrendered, hnew, hkept, hwritten⟩
  obtain ⟨q, hq, hother, hsame⟩ := sync_files lower rules approved fun file hfile => by
    obtain ⟨_, _, new, _, hnew, _⟩ := hfiles file hfile
    exact ⟨new, hnew⟩
  refine ⟨q, hq, hother, fun file hfile => ?_⟩
  obtain ⟨front, generated, new, hrendered, hnew, hkept, hwritten⟩ := hfiles file hfile
  obtain ⟨hhash, hcontent⟩ := hsame file hfile new hnew
  exact ⟨front, generated, new, hrendered, hkept, hwritten, hhash, hcontent⟩

/-- What a file that was synced is read as. -/
theorem read_synced {path : String} {new : Text} (h : q.files path = if p.read path = new then p.files path else some new)
    (hread : universalNewlines (p.read path) = p.read path) : q.read path = universalNewlines new := by
  rw [Project.read, h]
  split
  · next hsame =>
    rw [← hsame, hread]
    rfl
  · rfl

theorem read_read (p : Project) (path : String) : universalNewlines (p.read path) = p.read path :=
  universalNewlines_eq (read_no_return _)

/-- A clear sync leaves what it found orderly. -/
theorem sync_orderly (hsha : Digest sha256) (horderly : Orderly sha256 p) (hclear : Clear sha256 lower p (.sync rules approved))
    (hq : syncAgentInstructions sha256 lower p rules approved = .ok q) : Orderly sha256 q := by
  obtain ⟨q', hq', hother, hsame⟩ := sync_kept hsha horderly hclear
  obtain rfl : q = q' := Except.ok.inj (hq.symm.trans hq')
  have hfile (path : String) : (q.files path = p.files path ∧ q.hashes path = "") ∨ ∃ new, Shape new ∧ ¬ Unmarked new ∧
      q.hashes path = sha256 new ∧ (q.files path = p.files path ∨ q.files path = some new) := by
    by_cases hpath : path ∈ (rendered lower rules approved).map (·.1)
    · obtain ⟨file, hmem, rfl⟩ := List.mem_map.mp hpath
      obtain ⟨front, generated, new, hrendered, -, hwritten, hhash, hcontent⟩ := hsame file hmem
      obtain ⟨hshape, hblock⟩ := hwritten.shape (hrendered.unmarked (hclear file hmem).1)
      refine .inr ⟨new, hshape, hblock, hhash, ?_⟩
      rw [hcontent]
      split
      · exact .inl rfl
      · exact .inr rfl
    · exact .inl (hother path hpath)
  constructor
  · intro path
    rcases hfile path with ⟨hsame', -⟩ | ⟨new, hshape, -, -, hold | hnew⟩
    · rw [Project.disk, hsame']
      exact horderly.shape path
    · rw [Project.disk, hold]
      exact horderly.shape path
    · rw [Project.disk, hnew]
      exact hshape
  · intro path hne text htext
    rcases hfile path with ⟨-, hnone⟩ | ⟨new, -, hblock, hhash, -⟩
    · exact absurd hnone hne
    · rw [hhash] at htext
      rwa [hsha.injective htext]

/-- A sync behind a clear one, with the same rules and clear as well, changes nothing. -/
theorem sync_again (hsha : Digest sha256) (horderly : Orderly sha256 p) (hclear : Clear sha256 lower p (.sync rules approved))
    (hq : syncAgentInstructions sha256 lower p rules approved = .ok q) (hagain : Clear sha256 lower q (.sync rules approved)) :
    syncAgentInstructions sha256 lower q rules approved = .ok q := by
  obtain ⟨q', hq', hother, hsame⟩ := sync_kept hsha horderly hclear
  obtain rfl : q = q' := Except.ok.inj (hq.symm.trans hq')
  have hfiles : ∀ file ∈ rendered lower rules approved, ∃ new, syncFile sha256 (q.hashes file.1) (q.read file.1) file.2 = .ok new ∧
      q.hashes file.1 = sha256 new ∧ (q.files file.1 = if q.read file.1 = new then q.files file.1 else some new) := by
    intro file hfile
    obtain ⟨front, generated, new, hrendered, -, hwritten, hhash, hcontent⟩ := hsame file hfile
    have hread := read_synced hcontent (read_read p file.1)
    have hfront := (hagain file hfile).2.2
    rw [hread] at hfront ⊢
    refine ⟨new, hwritten.again (hrendered.unmarked (hclear file hfile).1) hrendered hfront, hhash, ?_⟩
    split
    · rfl
    · next hne =>
      rw [hcontent, if_neg]
      intro hold
      rw [← hold, read_read] at hne
      exact hne rfl
  obtain ⟨r, hr, hother', hsame'⟩ := sync_files lower rules approved fun file hfile => by
    obtain ⟨new, hnew, -⟩ := hfiles file hfile
    exact ⟨new, hnew⟩
  have heq (path : String) : r.files path = q.files path ∧ r.hashes path = q.hashes path := by
    by_cases hpath : path ∈ (rendered lower rules approved).map (·.1)
    · obtain ⟨file, hmem, rfl⟩ := List.mem_map.mp hpath
      obtain ⟨new, hnew, hhash, hcontent⟩ := hfiles file hmem
      obtain ⟨hhash', hcontent'⟩ := hsame' file hmem new hnew
      exact ⟨hcontent'.trans hcontent.symm, hhash'.trans hhash.symm⟩
    · obtain ⟨hcontent, hhash⟩ := hother' path hpath
      exact ⟨hcontent, hhash.trans (hother path hpath).2.symm⟩
  rw [hr]
  apply congrArg Except.ok
  ext1
  · exact funext fun path => (heq path).1
  · exact funext fun path => (heq path).2

theorem resync_ok (h : syncAgentInstructions sha256 lower p rules approved = .ok q) : p.resync sha256 lower rules approved = q := by
  exact congrArg p.after h

/-- One step of a history from what is orderly. -/
theorem step_orderly (hsha : Digest sha256) {act : Act} (horderly : Orderly sha256 p) (hclear : Clear sha256 lower p act)
    (hstep : (histories sha256 lower).step p act q) : Orderly sha256 q := by
  cases act with
  | sync rules approved =>
      obtain ⟨r, hr, -⟩ := sync_kept hsha horderly hclear
      obtain rfl : q = r := Eq.trans hstep (resync_ok hr)
      exact sync_orderly hsha horderly hclear hr
  | edit path text =>
      obtain ⟨hedits, rfl⟩ := hstep
      refine ⟨fun other => ?_, horderly.noted⟩
      by_cases hother : other = path
      · simp only [Project.disk, hother, if_true, Option.getD_some]
        exact hedits.shape
      · simp only [Project.disk, if_neg hother]
        exact horderly.shape other

theorem start_orderly (hstart : (histories sha256 lower).start p) : Orderly sha256 p :=
  ⟨fun path => .unmarked (hstart.2 path), fun path hne => absurd (hstart.1 path) hne⟩

/-- Over a history whose syncs are clear, every sync succeeds, keeps what the author wrote around a block of its own rules, leaves
the other files, and may be repeated without any change. -/
theorem history_kept (hsha : Digest sha256) {trace : List (Taken Project Act)} {s : Project}
    (hrun : System.Run (histories sha256 lower) trace s) (hclear : Meets (fun p act _ => Clear sha256 lower p act) trace) :
    ∀ e ∈ trace, ∀ rules approved, e.label = .sync rules approved →
      syncAgentInstructions sha256 lower e.before rules approved = .ok e.after ∧
      (∀ file ∈ rendered lower rules approved, FileKept e.before e.after file) ∧
      (∀ path ∉ (rendered lower rules approved).map (·.1), e.after.files path = e.before.files path) ∧
      (Clear sha256 lower e.after (.sync rules approved) → syncAgentInstructions sha256 lower e.after rules approved = .ok e.after) := by
  intro e he rules approved hlabel
  obtain ⟨horderly, hstep⟩ := hrun.before_of_meets (I := Orderly sha256) (fun _ => start_orderly)
    (fun _ _ _ horderly hclear hstep => step_orderly hsha horderly hclear hstep) hclear he
  have hsync := hclear e he
  rw [hlabel] at hsync hstep
  obtain ⟨q, hq, hother, hsame⟩ := sync_kept hsha horderly hsync
  have hafter : e.after = q := Eq.trans hstep (resync_ok hq)
  rw [hafter]
  refine ⟨hq, fun file hfile => ?_, fun path hpath => (hother path hpath).1, sync_again hsha horderly hsync hq⟩
  obtain ⟨front, generated, new, hrendered, hkept, -, -, hcontent⟩ := hsame file hfile
  exact ⟨front, generated, new, hrendered, hkept, (horderly.shape file.1).author_read (hsync file hfile).2.1, hcontent⟩

end

/-! ### Rules without angle brackets -/

/-- A text in which no marker begins, and no carriage return stands. -/
def Clean (text : Text) : Prop := ∀ c ∈ text, c ≠ '<' ∧ c ≠ '\r'

theorem Clean.nil : Clean [] := fun _ h => absurd h List.not_mem_nil

theorem Clean.append {a b : Text} (ha : Clean a) (hb : Clean b) : Clean (a ++ b) :=
  fun c hc => (List.mem_append.mp hc).elim (ha c) (hb c)

theorem Clean.subset {a b : Text} (hb : Clean b) (h : a ⊆ b) : Clean a := fun c hc => hb c (h hc)

theorem clean_newline : Clean ['\n'] := by
  intro c hc
  rw [List.mem_singleton.mp hc]
  decide

theorem clean_ofList {chars : List Char} (h : chars.all (fun c => c != '<' && c != '\r') = true) : Clean (String.ofList chars).toList := by
  rw [String.toList_ofList]
  intro c hc
  have hboth := List.all_eq_true.mp h c hc
  rwa [Bool.and_eq_true, bne_iff_ne, bne_iff_ne] at hboth

theorem Clean.unmarked {text : Text} (h : Clean text) : Unmarked text := by
  have hhead : '<' ∉ text := fun hmem => (h '<' hmem).1 rfl
  constructor
  · rw [cut_eq_none]
    exact fun hin => hhead (hin.subset (by decide))
  · rw [cut_eq_none]
    exact fun hin => hhead (hin.subset (by decide))

theorem clean_intercalate {sep : Text} {pieces : List Text} (hsep : Clean sep) (h : ∀ piece ∈ pieces, Clean piece) :
    Clean (sep.intercalate pieces) := by
  match pieces with
  | [] => exact Clean.nil
  | [piece] => simpa [List.intercalate] using h piece List.mem_cons_self
  | piece :: next :: rest =>
      rw [List.intercalate_cons_cons]
      have hrest := clean_intercalate hsep fun other hother => h other (List.mem_cons_of_mem piece hother)
      exact ((h piece List.mem_cons_self).append hsep).append hrest

theorem clean_rstrip {text : Text} (h : Clean text) : Clean (rstrip text) := h.subset (rstrip_begins text).subset

theorem clean_strip {text : Text} (h : Clean text) : Clean (strip text) := h.subset (strip_inside text).subset

theorem clean_joinSections {sections : List Text} (h : ∀ section' ∈ sections, Clean section') : Clean (joinSections sections) := by
  have hsep : Clean "\n\n".toList := clean_newline.append clean_newline
  refine Clean.append (clean_intercalate hsep fun piece hpiece => ?_) clean_newline
  obtain ⟨section', hsection, rfl⟩ := List.mem_map.mp hpiece
  exact clean_rstrip (h section' (List.mem_of_mem_filter hsection))

theorem clean_splitlinesFrom {line text : Text} (hline : Clean line) (htext : Clean text) :
    ∀ piece ∈ Operator.splitlinesFrom line text, Clean piece := by
  fun_induction Operator.splitlinesFrom line text with
  | case1 => exact fun _ h => absurd h List.not_mem_nil
  | case2 line _ => simpa using hline
  | case3 line rest ih =>
      have hrest : Clean rest := htext.subset fun c hc => by simp [hc]
      simpa using ⟨hline, ih Clean.nil hrest⟩
  | case4 line c rest _ hc ih =>
      have hrest : Clean rest := htext.subset fun c hc => by simp [hc]
      simpa using ⟨hline, ih Clean.nil hrest⟩
  | case5 line c rest _ hc ih =>
      have hrest : Clean rest := htext.subset fun c hc => by simp [hc]
      have hlonger : Clean (line ++ [c]) := hline.append (htext.subset (by simp))
      exact ih hlonger hrest

theorem fittingLines_mem {limit : Nat} {lines : List Text} {current : Nat} {line : Text} (h : line ∈ fittingLines limit current lines) :
    line ∈ lines := by
  induction lines generalizing current with
  | nil => exact h
  | cons first rest ih =>
      simp only [fittingLines] at h
      split at h
      · exact absurd h List.not_mem_nil
      · rcases List.mem_cons.mp h with rfl | hrest
        · exact List.mem_cons_self
        · exact List.mem_cons_of_mem first (ih hrest)

theorem clean_limitMarkdown {content : Text} (h : Clean content) (maxChars : Nat) : Clean (limitMarkdown content maxChars) := by
  unfold limitMarkdown
  split
  · exact h
  · refine (clean_rstrip (clean_intercalate clean_newline fun piece hpiece => ?_)).append clean_newline
    rcases List.mem_append.mp hpiece with hline | hlast
    · exact clean_splitlinesFrom Clean.nil h piece (fittingLines_mem hline)
    · rcases List.mem_cons.mp hlast with rfl | hlast
      · exact Clean.nil
      · rw [List.mem_singleton.mp hlast]
        exact clean_ofList (by rfl)

theorem clean_ruleSection {title : Text} (htitle : Clean title) {lines : List Text} (hlines : ∀ rule ∈ lines, Clean rule) :
    Clean (ruleSection title lines) := by
  unfold ruleSection
  split
  · exact Clean.nil
  · have hgap : Clean "\n\n".toList := clean_newline.append clean_newline
    refine (htitle.append hgap).append (clean_intercalate clean_newline fun piece hpiece => ?_)
    obtain ⟨rule, hrule, rfl⟩ := List.mem_map.mp hpiece
    exact (clean_ofList (by decide)).append (hlines rule hrule)

theorem mergeUnique_mem {limit : Nat} {values : List Text} {merged : List Text} {value : Text} (h : value ∈ mergeUnique limit merged values) :
    value ∈ merged ∨ value ∈ values := by
  induction values generalizing merged with
  | nil => exact .inl h
  | cons first rest ih =>
      have hunique : value ∈ appendUnique merged first → value ∈ merged ∨ value ∈ first :: rest := by
        unfold appendUnique
        split
        · simp only [List.mem_append, List.mem_cons, List.not_mem_nil, or_false]
          rintro (hold | rfl)
          · exact .inl hold
          · exact .inr (.inl rfl)
        · exact .inl
      simp only [mergeUnique] at h
      split at h
      · exact hunique h
      · rcases ih h with hold | hrest
        · exact hunique hold
        · exact .inr (List.mem_cons_of_mem first hrest)

/-- Rules that cannot hold a part of a marker. -/
structure Rules.Clean (rules : Rules) : Prop where
  hardRules : ∀ rule ∈ rules.hardRules, Instructions.Clean rule
  workflowContracts : ∀ rule ∈ rules.workflowContracts, Instructions.Clean rule
  engineeringValidation : ∀ rule ∈ rules.engineeringValidation, Instructions.Clean rule
  testingContracts : ∀ rule ∈ rules.testingContracts, Instructions.Clean rule

theorem clean_lines {line : String} {lines : List String} (hline : Clean line.toList) (hlines : Clean (lines.flatMap String.toList)) :
    Clean ((line :: lines).flatMap String.toList) := by
  rw [List.flatMap_cons]
  exact hline.append hlines

theorem clean_reference : Clean reference := by
  unfold reference
  iterate 3 refine clean_lines (clean_ofList (by rfl)) ?_
  exact Clean.nil

theorem clean_default : Clean defaultEngineeringRules := by
  unfold defaultEngineeringRules
  iterate 9 refine clean_lines (clean_ofList (by rfl)) ?_
  exact Clean.nil

set_option maxRecDepth 2000 in
theorem clean_frontend : ∀ rule ∈ frontendRules, Clean rule := by
  unfold frontendRules
  iterate 3 refine (List.forall_mem_cons (p := Clean)).mpr ⟨clean_ofList (by rfl), ?_⟩
  exact fun _ h => absurd h List.not_mem_nil

section

variable {lower : Text → Text} {rules : Rules}

theorem Rules.Clean.withFrontend (h : rules.Clean) (approved : Bool) : (rules.withFrontend approved).Clean := by
  unfold Rules.withFrontend
  split
  · refine { h with workflowContracts := fun rule hrule => ?_ }
    exact (List.mem_append.mp hrule).elim (h.workflowContracts rule) (clean_frontend rule)
  · exact h

theorem priorityRules_mem {values : List Text} {limit : Nat} {rule : Text} (h : rule ∈ priorityRules lower values limit) : rule ∈ values := by
  rcases mergeUnique_mem h with hnil | hvalue
  · exact absurd hnil List.not_mem_nil
  · exact (List.mem_append.mp hvalue).elim List.mem_of_mem_filter id

theorem clean_summary (h : rules.Clean) : Clean (agentsProjectSummary lower rules) := by
  unfold agentsProjectSummary
  simp only
  split
  · exact clean_ofList (by rfl)
  · refine clean_ruleSection (clean_ofList (by rfl)) fun rule hrule => ?_
    rcases mergeUnique_mem hrule with hnil | hvalue
    · exact absurd hnil List.not_mem_nil
    · simp only [List.mem_append] at hvalue
      rcases hvalue with ((hhard | hflow) | htest) | hhard
      · exact h.hardRules rule (priorityRules_mem hhard)
      · exact h.workflowContracts rule (priorityRules_mem hflow)
      · exact h.testingContracts rule (priorityRules_mem htest)
      · exact h.hardRules rule hhard

theorem clean_root (h : rules.Clean) : Clean (renderedRoot lower rules) := by
  have hwhole : Clean (joinSections [strip defaultEngineeringRules, agentsProjectSummary lower rules]) :=
    clean_joinSections (by simp [clean_strip clean_default, clean_summary h])
  exact clean_joinSections (by simp [clean_limitMarkdown hwhole, clean_reference])

theorem clean_contract (h : rules.Clean) : Clean (renderedContract rules) := by
  apply clean_joinSections
  simp only [List.forall_mem_cons]
  exact ⟨clean_ofList (by rfl), clean_ruleSection (clean_ofList (by rfl)) h.hardRules,
    clean_ruleSection (clean_ofList (by rfl)) h.workflowContracts,
    clean_ruleSection (clean_ofList (by rfl)) h.engineeringValidation,
    clean_ruleSection (clean_ofList (by rfl)) h.testingContracts, fun _ h => absurd h List.not_mem_nil⟩

/-- Such rules are rendered without markers, and without carriage returns. -/
theorem clean_rendered (h : rules.Clean) (approved : Bool) : ∀ file ∈ rendered lower rules approved, Clean file.2 := by
  have hrules := h.withFrontend approved
  have hroot : Clean (renderedRoot lower (rules.withFrontend approved)) := clean_root hrules
  have hcontract : Clean (joinSections [strip productContractHeader, reference]) :=
    clean_joinSections (by
      have hheader : Clean productContractHeader := clean_ofList (by rfl)
      simp [clean_strip hheader, clean_reference])
  intro file hfile
  simp only [rendered, renderGeneratedFiles, List.mem_cons, List.not_mem_nil, or_false] at hfile
  rcases hfile with rfl | rfl | rfl | rfl | rfl | rfl
  · exact hroot
  · exact hroot
  · exact hroot
  · exact hcontract
  · exact Clean.append (clean_ofList (by rfl)) hroot
  · exact clean_contract hrules

end

/-! ### Two histories -/

/-- The first sync of rules and files without angle brackets is clear. -/
theorem clear_unsynced {sha256 : Text → String} {lower : Text → Text} {p : Project} {rules : Rules} (hsha : Digest sha256)
    (hhashes : ∀ path, p.hashes path = "") (hfiles : ∀ path, Clean (p.disk path)) (hrules : rules.Clean) (approved : Bool) :
    Clear sha256 lower p (.sync rules approved) := by
  intro file hfile
  have hdisk := hfiles file.1
  have hreturn : '\r' ∉ p.disk file.1 := fun h => (hdisk '\r' h).2 rfl
  refine ⟨(clean_rendered hrules approved file hfile).unmarked, ?_, ?_⟩
  · rwa [authorText_unmarked hdisk.unmarked]
  · intro front rest _ _ hmatter _
    have hread : p.read file.1 = p.disk file.1 := universalNewlines_eq hreturn
    rw [hread] at hmatter
    have hfront : front ⊆ p.disk file.1 := by
      rw [(frontMatter_some hmatter).1]
      exact List.subset_append_left front rest
    refine ⟨(hdisk.subset hfront).unmarked, .inr ?_⟩
    rw [hhashes]
    exact hsha.filled _

def stamp (text : Text) : String := String.ofList ('x' :: text)

theorem stamp_digest : Digest stamp where
  injective a b h := by
    have hlists := congrArg String.toList h
    simp only [stamp, String.toList_ofList] at hlists
    exact (List.cons.inj hlists).2
  filled text h := by
    have hlists := congrArg String.toList h
    simp [stamp] at hlists

def contractPath : String := ".github/instructions/product-contract.instructions.md"

def ownFront : Text := "---\napplyTo: \"src/**\"\n---\n".toList

def ownRest : Text := "Mine.\n".toList

/-- One of the files has a front matter and a line of the author. -/
def authored : Project where
  files path := if path = contractPath then some (ownFront ++ ownRest) else none
  hashes _ := ""

theorem ownFront_matter : frontMatter ownFront = some (ownFront, []) := by decide +kernel

theorem clean_own : Clean (ownFront ++ ownRest) :=
  Clean.append (clean_ofList (by rfl)) (clean_ofList (by rfl))

theorem authored_clean (path : String) : Clean (authored.disk path) := by
  unfold Project.disk authored
  simp only
  split
  · exact clean_own
  · exact Clean.nil

theorem authored_start (lower : Text → Text) : (histories stamp lower).start authored :=
  ⟨fun _ => rfl, fun path => (authored_clean path).unmarked⟩

theorem empty_clean : Rules.Clean {} := by
  constructor <;> exact fun _ h => absurd h List.not_mem_nil

def syncedOnce : Project := authored.resync stamp id {} false

def syncedTwice : Project := syncedOnce.resync stamp id {} false

theorem authored_clear : Clear stamp id authored (.sync {} false) :=
  clear_unsynced stamp_digest (fun _ => rfl) authored_clean empty_clean false

theorem synced_once : System.Run (histories stamp id) [⟨authored, .sync {} false, syncedOnce⟩] syncedOnce :=
  System.Run.step (.start (authored_start id)) rfl

/-- The first sync keeps the line and the front matter. -/
theorem history_kept_once : syncAgentInstructions stamp id authored {} false = .ok syncedOnce ∧
    ∀ file ∈ rendered id {} false, FileKept authored syncedOnce file := by
  have hclear : Meets (fun p act _ => Clear stamp id p act) [⟨authored, .sync {} false, syncedOnce⟩] := by
    intro e he
    obtain rfl := List.mem_singleton.mp he
    exact authored_clear
  have hkept := history_kept stamp_digest synced_once hclear ⟨authored, .sync {} false, syncedOnce⟩ List.mem_cons_self {} false rfl
  simp only at hkept
  exact ⟨hkept.1, hkept.2.1⟩

/-! The file of the author over both syncs. -/

def contractFile : String × Text := (contractPath, joinSections [strip productContractHeader, reference])

theorem contract_mem : contractFile ∈ rendered id {} false := by
  simp [rendered, renderGeneratedFiles, contractFile, contractPath]

theorem contractFront_clean : Clean contractFront := clean_ofList (by rfl)

theorem contract_matter : ∃ generated, frontMatter contractFile.2 = some (contractFront, generated) ∧
    Clean generated := by
  obtain ⟨generated, hcontent⟩ := contract_begins
  have hclean := clean_rendered empty_clean false contractFile contract_mem
  rw [show contractFile.2 = contractFront ++ generated from hcontent.symm] at hclean ⊢
  exact ⟨generated, frontMatter_append contractFront_matter generated, hclean.subset (List.subset_append_right contractFront generated)⟩

theorem Clean.no_return {text : Text} (h : Clean text) : '\r' ∉ text := fun hmem => (h '\r' hmem).2 rfl

theorem blockBody_no_return {generated : Text} (h : Clean generated) : '\r' ∉ blockBody generated := by
  simp [blockBody, (clean_strip h).no_return]

/-- What the first sync writes: the digest of the lock is of the whole file. -/
theorem syncedOnce_file {generated : Text} (hmatter : frontMatter contractFile.2 = some (contractFront, generated))
    (hclean : Clean generated) : ∃ before behind, Unmarked before ∧ Unmarked behind ∧
      syncedOnce.read contractFile.1 = ownFront ++ marked before (universalNewlines (blockBody generated)) ('\n' :: behind) ∧
      syncedOnce.hashes contractFile.1 = stamp (syncedOnce.read contractFile.1) := by
  obtain ⟨q, hq, -, hsame⟩ := sync_kept stamp_digest (start_orderly (authored_start id)) authored_clear
  obtain rfl : syncedOnce = q := resync_ok hq
  obtain ⟨front, generated', new, hrendered, hkept, -, hhash, hcontent⟩ := hsame contractFile contract_mem
  have hread : authored.read contractFile.1 = ownFront ++ ownRest := by
    have hdisk : authored.disk contractFile.1 = ownFront ++ ownRest := by simp [Project.disk, authored, contractFile]
    exact (congrArg universalNewlines hdisk).trans (universalNewlines_eq clean_own.no_return)
  have hown := frontMatter_append ownFront_matter ownRest
  obtain ⟨rfl, rfl⟩ : front = some contractFront ∧ generated' = generated := by
    cases hrendered with
    | plain hruler =>
        rw [(frontMatter_some hmatter).2.1] at hruler
        cases hruler
    | front hother _ =>
        rw [hmatter] at hother
        obtain ⟨rfl, rfl⟩ := Prod.mk.inj (Option.some.inj hother)
        exact ⟨rfl, rfl⟩
  obtain ⟨last, rfl, hsynced⟩ : ∃ last, new = ownFront ++ last ∧ Synced generated' ownRest last := by
    rw [hread] at hkept
    cases hkept with
    | front hfound hsynced =>
        rw [hown] at hfound
        obtain ⟨rfl, rfl⟩ := Prod.mk.inj (Option.some.inj hfound)
        exact ⟨_, rfl, hsynced⟩
    | added hnone _ =>
        rw [hown] at hnone
        cases hnone
  have hrest : '\r' ∉ ownRest := fun h => clean_own.no_return (List.mem_append_right ownFront h)
  have hfront : '\r' ∉ ownFront := fun h => clean_own.no_return (List.mem_append_left ownRest h)
  obtain ⟨before, behind, hbefore, hbehind, hfirst, hlast, rfl⟩ := hsynced.marked hrest
  have hplain : '\r' ∉ ownFront ++ marked before (blockBody generated') ('\n' :: behind) := by
    simp [marked, hfront, hfirst, hlast, begin_return, end_return, blockBody_no_return hclean]
  have hnew := read_synced hcontent (read_read authored contractFile.1)
  refine ⟨before, behind, hbefore, hbehind, ?_, ?_⟩
  · rw [hnew, read_plain hfront, read_again hfirst hlast]
  · rw [hhash, hnew, universalNewlines_eq hplain]

/-- The second sync takes the front matter of the author for its own, and puts the generated one in its place. -/
theorem front_matter_lost : ¬ ∀ (trace : List (Taken Project Act)) (s : Project), System.Run (histories stamp id) trace s →
    ∀ e ∈ trace, ∀ rules approved, e.label = .sync rules approved → ∀ path front rest, frontMatter (e.before.read path) = some (front, rest) →
      ∃ rest', frontMatter (e.after.read path) = some (front, rest') := by
  intro hall
  obtain ⟨generated, hmatter, hclean⟩ := contract_matter
  obtain ⟨before, behind, hbefore, hbehind, hread, hhash⟩ := syncedOnce_file hmatter hclean
  have hrun : System.Run (histories stamp id) ([⟨authored, .sync {} false, syncedOnce⟩] ++ [⟨syncedOnce, .sync {} false, syncedTwice⟩])
      syncedTwice := System.Run.step synced_once rfl
  have hmatters (other : Text) : frontMatter (ownFront ++ other) = some (ownFront, other) := frontMatter_append ownFront_matter other
  have hfront := hmatters (marked before (universalNewlines (blockBody generated)) ('\n' :: behind))
  rw [← hread] at hfront
  have hkept := hall _ _ hrun ⟨syncedOnce, .sync {} false, syncedTwice⟩ (by simp) {} false rfl contractFile.1 ownFront
  simp only at hkept
  obtain ⟨rest, hrest⟩ := hkept _ hfront
  obtain ⟨q, hq, -, hsame⟩ := sync_kept stamp_digest (start_orderly (authored_start id)) authored_clear
  obtain rfl : syncedOnce = q := resync_ok hq
  have hfiles : ∀ file ∈ rendered id {} false, ∃ new, syncFile stamp (syncedOnce.hashes file.1) (syncedOnce.read file.1) file.2 = .ok new := by
    intro file hfile
    obtain ⟨front, generated', new, hrendered, -, hwritten, -, hcontent⟩ := hsame file hfile
    rw [read_synced hcontent (read_read authored file.1)]
    exact hwritten.syncs (hrendered.unmarked (authored_clear file hfile).1) hrendered
  obtain ⟨r, hr, -, hagain⟩ := sync_files id {} false hfiles
  obtain rfl : syncedTwice = r := resync_ok hr
  have hnew := @front_again stamp _ _ _ _ _ _ (syncedOnce.hashes contractFile.1) hclean.unmarked hmatter hmatters hbefore hbehind
  rw [← hread, hhash, beq_self_eq_true, if_pos rfl, ← hhash] at hnew
  have hcontent := (hagain contractFile contract_mem _ hnew).2
  have hafter := read_synced hcontent (read_read syncedOnce contractFile.1)
  rw [hafter, read_plain contractFront_clean.no_return, frontMatter_append contractFront_matter] at hrest
  have hsame : contractFront = ownFront := (Prod.mk.inj (Option.some.inj hrest)).1
  have hother : (contractFront == ownFront) = false := by decide +kernel
  rw [hsame, beq_self_eq_true] at hother
  cases hother

end AutoAgents.Instructions
