import AutoAgents.BaseRun
import AutoAgents.InstructionFiles

/-! What a sequence of syncs and edits keeps. A sync replaces the managed block and nothing else, where the rendered
text holds no marker and the front matter of a file, if not the generated one, is not in a file left as the last sync
wrote it: the digest of the lock is of the whole file, so that the author's own front matter then counts as generated.
-/

namespace AutoAgents.Instructions

open Base
open Base.System
open Operator (isSpace strip splitlines universalNewlines universalNewlines_eq)

/-! ### Markers -/

/-- A text without a marker. -/
structure Unmarked (text : Text) : Prop where
  first : cut managedBegin text = none
  last : cut managedEnd text = none

theorem Unmarked.of_inside {text part : Text} (h : Unmarked text) (hpart : part <:+: text) : Unmarked part :=
  ⟨cut_none_of_part h.first hpart, cut_none_of_part h.last hpart⟩

theorem Unmarked.nil : Unmarked [] := ⟨rfl, rfl⟩

theorem begin_head : '<' ∉ managedBegin.tail := by decide

theorem end_head : '<' ∉ managedEnd.tail := by decide

theorem begin_newline : '\n' ∉ managedBegin := by decide

theorem end_newline : '\n' ∉ managedEnd := by decide

theorem begin_eq : managedBegin = '<' :: managedBegin.tail := rfl

theorem end_eq : managedEnd = '<' :: managedEnd.tail := rfl

theorem begin_ne : managedBegin ≠ [] := by decide

theorem end_ne : managedEnd ≠ [] := by decide

/-- What ends with a line and what follows it. -/
theorem Unmarked.append_newline {a b : Text} (ha : Unmarked (a ++ ['\n'])) (hb : Unmarked b) : Unmarked (a ++ ['\n'] ++ b) := by
  constructor
  · rw [cut_append (apart_of_last begin_newline) ha.first, hb.first]
    rfl
  · rw [cut_append (apart_of_last end_newline) ha.last, hb.last]
    rfl

/-- A line end and what stands before it. -/
theorem Unmarked.append_line {a b : Text} (ha : Unmarked a) (hb : Unmarked ('\n' :: b)) : Unmarked (a ++ '\n' :: b) := by
  constructor
  · rw [cut_append (apart_of_head fun h => begin_newline (List.mem_of_mem_tail h)) ha.first, hb.first]
    rfl
  · rw [cut_append (apart_of_head fun h => end_newline (List.mem_of_mem_tail h)) ha.last, hb.last]
    rfl

theorem Unmarked.cons_newline {a : Text} (ha : Unmarked a) : Unmarked ('\n' :: a) := by
  have hline : Unmarked ([] ++ ['\n']) := ⟨rfl, rfl⟩
  exact hline.append_newline ha

/-- One marker is not found at the other. -/
theorem cut_begin_end (b : Text) : cut managedBegin (managedEnd ++ b) = (cut managedBegin b).map fun found => (managedEnd ++ found.1, found.2) := by
  have hbegins : ¬ managedBegin.isPrefixOf ('<' :: (managedEnd.tail ++ b)) = true := by
    intro h
    cases h
  rw [end_eq, List.cons_append, cut, if_neg hbegins, begin_eq, cut_skip end_head]
  cases cut ('<' :: managedBegin.tail) b <;> rfl

theorem cut_end_begin (b : Text) : cut managedEnd (managedBegin ++ b) = (cut managedEnd b).map fun found => (managedBegin ++ found.1, found.2) := by
  have hbegins : ¬ managedEnd.isPrefixOf ('<' :: (managedBegin.tail ++ b)) = true := by
    intro h
    cases h
  rw [begin_eq, List.cons_append, cut, if_neg hbegins, end_eq, cut_skip begin_head]
  cases cut ('<' :: managedEnd.tail) b <;> rfl

/-- A file with one block. -/
def marked (before body behind : Text) : Text := before ++ (managedBegin ++ (body ++ (managedEnd ++ behind)))

theorem cut_begin_marked {before : Text} (hbefore : Unmarked before) (body behind : Text) :
    cut managedBegin (marked before body behind) = some (before, body ++ (managedEnd ++ behind)) := by
  have happart : Apart managedBegin before (managedBegin ++ (body ++ (managedEnd ++ behind))) := apart_of_head begin_head
  rw [marked, cut_append happart hbefore.first, cut_self begin_ne]
  simp

theorem cut_end_marked {before body : Text} (hbefore : Unmarked before) (hbody : Unmarked body) (behind : Text) :
    cut managedEnd (marked before body behind) = some (before ++ managedBegin ++ body, behind) := by
  have hfirst : Apart managedEnd before (managedBegin ++ (body ++ (managedEnd ++ behind))) := apart_of_head end_head
  have hsecond : Apart managedEnd body (managedEnd ++ behind) := apart_of_head end_head
  rw [marked, cut_append hfirst hbefore.last, cut_end_begin, cut_append hsecond hbody.last, cut_self end_ne]
  simp

theorem begin_once {body behind : Text} (hbody : Unmarked body) (hbehind : Unmarked behind) :
    cut managedBegin (body ++ (managedEnd ++ behind)) = none := by
  have happart : Apart managedBegin body (managedEnd ++ behind) := apart_of_head begin_head
  rw [cut_append happart hbody.first, cut_begin_end, hbehind.first]
  rfl

/-! ### One merge -/

section

variable {sha256 : Text → String} {generated : Text} {expected : String}

theorem merge_empty : mergeManagedContent sha256 [] generated expected = .ok (managedBlock generated) := by
  simp [mergeManagedContent]

theorem merge_unmarked {text : Text} (h : Unmarked text) (hne : text ≠ []) (hother : expected ≠ "" → sha256 text ≠ expected) :
    mergeManagedContent sha256 text generated expected = .ok (rstrip text ++ ['\n', '\n'] ++ managedBlock generated) := by
  have hkeeps : ¬ (text = [] ∨ expected ≠ "" ∧ sha256 text = expected ∧ cut managedBegin text = none) := by
    rintro (hnil | ⟨hfilled, hsame, -⟩)
    · exact hne hnil
    · exact hother hfilled hsame
  simp only [mergeManagedContent]
  rw [if_neg hkeeps, h.first, h.last]

theorem merge_marked {before body behind : Text} (hbefore : Unmarked before) (hbody : Unmarked body) (hbehind : Unmarked behind) :
    mergeManagedContent sha256 (marked before body behind) generated expected =
      .ok (before ++ managedBlock generated ++ dropNewline behind) := by
  have hfirst := cut_begin_marked hbefore body behind
  have hlast := cut_end_marked hbefore hbody behind
  have hone : count managedBegin (marked before body behind) = 1 := count_eq_one begin_ne hfirst (begin_once hbody hbehind)
  have htwo : count managedEnd (marked before body behind) = 1 := count_eq_one end_ne hlast hbehind.last
  have hkeeps : ¬ (marked before body behind = [] ∨ expected ≠ "" ∧ sha256 (marked before body behind) = expected ∧
      cut managedBegin (marked before body behind) = none) := by
    rintro (hnil | ⟨-, -, hnone⟩)
    · rw [hnil] at hfirst
      cases hfirst
    · rw [hfirst] at hnone
      cases hnone
  have horder : ¬ (before ++ managedBegin ++ body).length < before.length := by simp
  simp only [mergeManagedContent]
  rw [if_neg hkeeps, hfirst, hlast]
  simp only [hone, htwo, ne_eq, not_true_eq_false, or_self, if_false, if_neg horder]

end

/-! ### One file -/

/-- A text as a sync may find it: without markers, or with one block. -/
inductive Shape : Text → Prop
  | unmarked {text : Text} : Unmarked text → Shape text
  | marked {before body behind : Text} : Unmarked before → Unmarked body → Unmarked behind → Shape (marked before body behind)

/-- The part of a text that is merged, before and after: a new block at its end, or in the place of the old one. White space at
the end goes where a block is appended, and the end of the last line of the block belongs to it. -/
inductive Synced (generated : Text) : Text → Text → Prop
  | created : Synced generated [] (managedBlock generated)
  | appended {text : Text} : Unmarked text → text ≠ [] → Synced generated text (rstrip text ++ ['\n', '\n'] ++ managedBlock generated)
  | replaced {before body behind : Text} : Unmarked before → Unmarked body → Unmarked behind →
      Synced generated (marked before body behind) (before ++ managedBlock generated ++ dropNewline behind)

/-- What is rendered for a file: the front matter, where it has one, and the text of the block. -/
inductive Rendered (content : Text) : Option Text → Text → Prop
  | plain : ruler.isPrefixOf content = false → Rendered content none content
  | front {front generated : Text} : frontMatter content = some (front, generated) → '\r' ∉ front → Rendered content (some front) generated

/-- A file before and after a sync. A front matter that is there stays, and the generated one stands only where there is none. -/
inductive Kept (generated : Text) : Option Text → Text → Text → Prop
  | whole {old new : Text} : Synced generated old new → Kept generated none old new
  | front {generatedFront front old rest new : Text} : frontMatter old = some (front, rest) → Synced generated rest new →
      Kept generated (some generatedFront) old (front ++ new)
  | added {generatedFront old new : Text} : frontMatter old = none → Synced generated old new →
      Kept generated (some generatedFront) old (generatedFront ++ new)

theorem frontMatter_some {text front rest : Text} (h : frontMatter text = some (front, rest)) :
    text = front ++ rest ∧ ruler.isPrefixOf text = true ∧ ∃ inner, front = ruler ++ inner ++ rulerLine ∧
      cut rulerLine (text.drop 4) = some (inner, rest) := by
  unfold frontMatter at h
  split at h
  · next hruler =>
    obtain ⟨⟨inner, last⟩, hcut, heq⟩ := Option.map_eq_some_iff.mp h
    obtain ⟨rfl, rfl⟩ := Prod.mk.inj heq
    obtain ⟨tail, htail⟩ := List.isPrefixOf_iff_prefix.mp hruler
    have hdrop : text.drop 4 = tail := by
      rw [← htail]
      rfl
    have htext := cut_some hcut
    rw [hdrop] at htext
    refine ⟨?_, hruler, inner, rfl, hcut⟩
    rw [← htail, htext]
    simp
  · cases h

/-- The front matter of a text is the one of every text that begins with it. -/
theorem frontMatter_append {text front rest : Text} (h : frontMatter text = some (front, rest)) (other : Text) :
    frontMatter (front ++ other) = some (front, other) := by
  obtain ⟨htext, -, inner, rfl, hcut⟩ := frontMatter_some h
  have hdrop (last : Text) : (ruler ++ inner ++ rulerLine ++ last).drop 4 = inner ++ rulerLine ++ last := by
    rw [List.append_assoc, List.append_assoc]
    show inner ++ (rulerLine ++ last) = _
    rw [List.append_assoc]
  rw [htext, hdrop] at hcut
  have hruler : ruler.isPrefixOf (ruler ++ inner ++ rulerLine ++ other) = true := by
    rw [List.isPrefixOf_iff_prefix]
    exact ⟨inner ++ rulerLine ++ other, by simp⟩
  rw [frontMatter, if_pos hruler, hdrop, cut_behind hcut]
  rfl

theorem front_ends {text front rest : Text} (h : frontMatter text = some (front, rest)) : ∃ start, front = start ++ ['\n'] := by
  obtain ⟨-, -, inner, rfl, -⟩ := frontMatter_some h
  exact ⟨ruler ++ inner ++ "\n---".toList, by simp [rulerLine]⟩

/-- What follows an unmarked front matter has the shape of the file. -/
theorem Shape.rest {text front rest : Text} (h : Shape text) (hfront : Unmarked front) (hmatter : frontMatter text = some (front, rest)) :
    Shape rest ∧ (Unmarked rest → Unmarked text) := by
  obtain ⟨rfl, -⟩ := frontMatter_some hmatter
  obtain ⟨start, rfl⟩ := front_ends hmatter
  refine ⟨?_, fun hrest => hfront.append_newline hrest⟩
  generalize htext : start ++ ['\n'] ++ rest = text at h
  cases h with
  | unmarked hall => exact .unmarked (hall.of_inside ⟨start ++ ['\n'], [], by simp [← htext]⟩)
  | @marked before body behind hbefore hbody hbehind =>
      have hcut := cut_begin_marked hbefore body behind
      rw [← htext, cut_append (apart_of_last begin_newline) hfront.first] at hcut
      obtain ⟨⟨first, last⟩, hfound, heq⟩ := Option.map_eq_some_iff.mp hcut
      obtain ⟨hfirst, rfl⟩ := Prod.mk.inj heq
      have hrest := cut_some hfound
      have hshape : rest = Instructions.marked first body behind := by rw [hrest, Instructions.marked, List.append_assoc]
      rw [hshape]
      exact .marked (hbefore.of_inside ⟨start ++ ['\n'], [], by rw [← hfirst]; simp⟩) hbody hbehind

section

variable {sha256 : Text → String} {generated rest : Text} {expected : String}

theorem merge_synced (h : Shape rest) (hother : Unmarked rest → expected ≠ "" → sha256 rest ≠ expected) :
    ∃ new, mergeManagedContent sha256 rest generated expected = .ok new ∧ Synced generated rest new := by
  cases h with
  | unmarked hrest =>
      by_cases hnil : rest = []
      · subst hnil
        exact ⟨_, merge_empty, .created⟩
      · exact ⟨_, merge_unmarked hrest hnil (hother hrest), .appended hrest hnil⟩
  | marked hbefore hbody hbehind => exact ⟨_, merge_marked hbefore hbody hbehind, .replaced hbefore hbody hbehind⟩

/-- The digest of the lock, where it has one, is of a file with a block. -/
def Noted (sha256 : Text → String) (previous : String) : Prop := previous ≠ "" → ∀ text, sha256 text = previous → ¬ Unmarked text

/-- A front matter is that of a file whose block stands behind it, and it is the generated one or the file is not as the last sync
wrote it. -/
def ClearFront (sha256 : Text → String) (previous : String) (existing content : Text) : Prop :=
  ∀ front rest generatedFront generated, frontMatter existing = some (front, rest) → frontMatter content = some (generatedFront, generated) →
    Unmarked front ∧ (front = generatedFront ∨ sha256 existing ≠ previous)

/-- Two front matters: the generated one is taken where the file is as the last sync wrote it. -/
theorem syncFile_front {previous : String} {existing content front oldFront : Text} (hcontent : frontMatter content = some (front, generated))
    (hexisting : frontMatter existing = some (oldFront, rest)) : syncFile sha256 previous existing content =
      (mergeManagedContent sha256 rest generated (if sha256 existing == previous then sha256 rest else "")).map
        ((if sha256 existing == previous then front else oldFront) ++ ·) := by
  simp only [syncFile, (frontMatter_some hcontent).2.1, (frontMatter_some hexisting).2.1, hcontent, hexisting, if_true]

theorem syncFile_kept (hfilled : ∀ text, sha256 text ≠ "") {previous : String} {existing content : Text} {front : Option Text}
    (hshape : Shape existing) (hrendered : Rendered content front generated) (hnoted : Noted sha256 previous)
    (hclear : ClearFront sha256 previous existing content) :
    ∃ new, syncFile sha256 previous existing content = .ok new ∧ Kept generated front existing new := by
  have hwhole (hplain : Unmarked existing) (hprevious : previous ≠ "") : sha256 existing ≠ previous :=
    fun hsame => hnoted hprevious existing hsame hplain
  cases hrendered with
  | plain hruler =>
      obtain ⟨new, hnew, hsynced⟩ := merge_synced hshape hwhole
      refine ⟨new, ?_, .whole hsynced⟩
      rw [syncFile, if_neg (by simp [hruler]), hnew]
  | @front generatedFront generated hfront _ =>
      have hruler := (frontMatter_some hfront).2.1
      by_cases hexisting : ruler.isPrefixOf existing = true
      · cases hmatter : frontMatter existing with
        | none =>
            obtain ⟨new, hnew, hsynced⟩ := merge_synced hshape (fun _ hne => absurd rfl hne)
            refine ⟨_, ?_, .added hmatter hsynced⟩
            simp only [syncFile, hruler, hfront, hexisting, hmatter, if_true]
            rw [hnew]
            rfl
        | some found =>
            obtain ⟨oldFront, rest⟩ := found
            obtain ⟨hplain, hsame⟩ := hclear oldFront rest generatedFront generated hmatter hfront
            obtain ⟨hrest, hback⟩ := hshape.rest hplain hmatter
            have hmerge : Unmarked rest → (if sha256 existing == previous then sha256 rest else "") ≠ "" →
                sha256 rest ≠ (if sha256 existing == previous then sha256 rest else "") := by
              intro hunmarked hne
              split at hne
              · next howned =>
                rw [beq_iff_eq] at howned
                exact absurd howned (hwhole (hback hunmarked) fun hnil => hfilled existing (howned.trans hnil))
              · exact absurd rfl hne
            obtain ⟨new, hnew, hsynced⟩ := merge_synced hrest hmerge
            have hkept : (if sha256 existing == previous then generatedFront else oldFront) = oldFront := by
              split
              · next howned => exact (hsame.resolve_right (not_not.mpr (beq_iff_eq.mp howned))).symm
              · rfl
            refine ⟨_, ?_, .front hmatter hsynced⟩
            rw [syncFile_front hfront hmatter, hkept, hnew]
            rfl
      · have hnone : frontMatter existing = none := by rw [frontMatter, if_neg hexisting]
        obtain ⟨new, hnew, hsynced⟩ := merge_synced hshape hwhole
        refine ⟨_, ?_, .added hnone hsynced⟩
        simp only [syncFile, hruler, hfront, hexisting, if_true, if_false, Bool.false_eq_true]
        rw [hnew]
        rfl

end

/-! ### Parts of a text -/

def blockBody (generated : Text) : Text := '\n' :: strip generated ++ ['\n']

theorem managedBlock_eq (generated : Text) : managedBlock generated = managedBegin ++ (blockBody generated ++ (managedEnd ++ ['\n'])) := by
  simp [managedBlock, blockBody]

theorem rstrip_begins (text : Text) : rstrip text <+: text := by
  rw [rstrip, ← List.reverse_suffix, List.reverse_reverse]
  exact List.dropWhile_suffix _

theorem strip_inside (text : Text) : strip text <:+: text := by
  have hrear : strip text = rstrip (text.dropWhile isSpace) := rfl
  rw [hrear]
  exact (rstrip_begins _).isInfix.trans (List.dropWhile_suffix _).isInfix

theorem blockBody_unmarked {generated : Text} (h : Unmarked generated) : Unmarked (blockBody generated) := by
  have hline : Unmarked ['\n'] := ⟨rfl, rfl⟩
  exact ((h.of_inside (strip_inside generated)).append_line hline).cons_newline

theorem dropNewline_suffix (text : Text) : dropNewline text <:+ text := by
  unfold dropNewline
  split
  · exact List.suffix_cons _ _
  · exact List.suffix_refl _

/-! ### Reading back -/

theorem read_plain {a : Text} (h : '\r' ∉ a) (b : Text) : universalNewlines (a ++ b) = a ++ universalNewlines b := by
  induction a with
  | nil => rfl
  | cons c a ih =>
      have hc : c ≠ '\r' := fun hc => h (by simp [hc])
      rw [List.cons_append, universalNewlines, ih fun hmem => h (List.mem_cons_of_mem c hmem), if_neg hc]
      · rfl
      · intro rest hcr
        exact absurd hcr hc

theorem read_no_return (a : Text) : '\r' ∉ universalNewlines a := by
  fun_induction universalNewlines a with
  | case1 => exact List.not_mem_nil
  | case2 rest ih =>
      rw [List.mem_cons]
      rintro (h | h)
      · cases h
      · exact ih h
  | case3 c rest _ ih =>
      rw [List.mem_cons]
      rintro (h | h)
      · split at h
        · cases h
        · next hc => exact hc h.symm
      · exact ih h

/-- A line end is not read across two pieces, where the second one does not begin with it. -/
theorem read_append (a : Text) {c : Char} (hc : c ≠ '\n') (b : Text) :
    universalNewlines (a ++ c :: b) = universalNewlines a ++ universalNewlines (c :: b) := by
  fun_induction universalNewlines a with
  | case1 => rfl
  | case2 rest ih => rw [List.cons_append, List.cons_append, universalNewlines, ih, List.cons_append]
  | case3 d rest hd ih =>
      rw [List.cons_append, universalNewlines, ih, List.cons_append]
      rintro tail hreturn hrest
      cases rest with
      | nil => exact hc (List.cons.inj hrest).1
      | cons e rest =>
          obtain rfl := (List.cons.inj hrest).1
          exact hd rest hreturn rfl

/-- A part without line ends begins a text where it begins what is read. -/
theorem read_begins {part : Text} (hreturn : '\r' ∉ part) (hline : '\n' ∉ part) (a : Text) :
    part <+: universalNewlines a ↔ part <+: a := by
  induction part generalizing a with
  | nil => simp
  | cons p part ih =>
      have hp : p ≠ '\r' := fun h => hreturn (by simp [h])
      have hq : p ≠ '\n' := fun h => hline (by simp [h])
      fun_cases universalNewlines a with
      | case1 => simp
      | case2 rest => simp [List.cons_prefix_cons, hp, hq]
      | case3 c rest _ =>
          rw [List.cons_prefix_cons, List.cons_prefix_cons, ih (fun h => hreturn (by simp [h])) fun h => hline (by simp [h])]
          split
          · next hc => simp [hc, hp, hq]
          · rfl

theorem read_cut_none {part : Text} (hne : part ≠ []) (hreturn : '\r' ∉ part) (hline : '\n' ∉ part) (a : Text) :
    cut part (universalNewlines a) = none ↔ cut part a = none := by
  obtain ⟨p, part, rfl⟩ := List.exists_cons_of_ne_nil hne
  rw [cut_eq_none, cut_eq_none, not_iff_not]
  fun_induction universalNewlines a with
  | case1 => rfl
  | case2 rest ih =>
      have hp : p ≠ '\r' := fun h => hreturn (by simp [h])
      have hq : p ≠ '\n' := fun h => hline (by simp [h])
      simp [List.infix_cons_iff, List.cons_prefix_cons, hp, hq, ih]
  | case3 c rest hc ih =>
      have hbegins := read_begins hreturn hline (c :: rest)
      rw [universalNewlines] at hbegins
      · rw [List.infix_cons_iff, List.infix_cons_iff, hbegins, ih]
      · exact hc

theorem begin_return : '\r' ∉ managedBegin := by decide

theorem end_return : '\r' ∉ managedEnd := by decide

theorem Unmarked.read {text : Text} (h : Unmarked text) : Unmarked (universalNewlines text) :=
  ⟨(read_cut_none begin_ne begin_return begin_newline text).mpr h.first, (read_cut_none end_ne end_return end_newline text).mpr h.last⟩

theorem read_marked (before body behind : Text) : universalNewlines (marked before body behind) =
    marked (universalNewlines before) (universalNewlines body) (universalNewlines behind) := by
  have hfirst (rest : Text) : managedBegin ++ rest = '<' :: (managedBegin.tail ++ rest) := rfl
  have hlast (rest : Text) : managedEnd ++ rest = '<' :: (managedEnd.tail ++ rest) := rfl
  rw [marked, hfirst, read_append before (by decide), ← hfirst, read_plain begin_return, hlast, read_append body (by decide), ← hlast,
    read_plain end_return, marked]

theorem Shape.read {text : Text} (h : Shape text) : Shape (universalNewlines text) := by
  cases h with
  | unmarked htext => exact .unmarked htext.read
  | marked hbefore hbody hbehind =>
      rw [read_marked]
      exact .marked hbefore.read hbody.read hbehind.read

/-- What the author wrote in a file: all that is not between the markers. -/
def authorText (text : Text) : Text :=
  match cut managedBegin text, cut managedEnd text with
  | some (before, _), some (_, behind) => before ++ behind
  | _, _ => text

theorem authorText_marked {before body behind : Text} (hbefore : Unmarked before) (hbody : Unmarked body) :
    authorText (marked before body behind) = before ++ behind := by
  rw [authorText, cut_begin_marked hbefore, cut_end_marked hbefore hbody]

theorem authorText_unmarked {text : Text} (h : Unmarked text) : authorText text = text := by
  rw [authorText, h.first]

/-- What the author wrote is read as it stands, where it has no carriage return. -/
theorem Shape.author_read {text : Text} (h : Shape text) (hreturn : '\r' ∉ authorText text) :
    authorText (universalNewlines text) = authorText text := by
  cases h with
  | unmarked htext =>
      rw [authorText_unmarked htext] at hreturn ⊢
      rw [universalNewlines_eq hreturn, authorText_unmarked htext]
  | @marked before body behind hbefore hbody hbehind =>
      rw [authorText_marked hbefore hbody] at hreturn ⊢
      have hfirst : '\r' ∉ before := fun h => hreturn (List.mem_append_left _ h)
      have hlast : '\r' ∉ behind := fun h => hreturn (List.mem_append_right _ h)
      rw [read_marked, authorText_marked hbefore.read hbody.read, universalNewlines_eq hfirst, universalNewlines_eq hlast]

/-! ### What a sync leaves -/

/-- A text after a merge: one block, with the text of this sync. -/
theorem Synced.marked {generated old new : Text} (h : Synced generated old new) (hreturn : '\r' ∉ old) :
    ∃ before behind, Unmarked before ∧ Unmarked behind ∧ '\r' ∉ before ∧ '\r' ∉ behind ∧
      new = Instructions.marked before (blockBody generated) ('\n' :: behind) := by
  cases h with
  | created => exact ⟨[], [], .nil, .nil, List.not_mem_nil, List.not_mem_nil, by rw [managedBlock_eq]; rfl⟩
  | appended hplain _ =>
      have hlines : Unmarked ['\n', '\n'] := ⟨rfl, rfl⟩
      have hkept := rstrip_begins old
      refine ⟨rstrip old ++ ['\n', '\n'], [], (hplain.of_inside hkept.isInfix).append_line hlines, .nil, ?_, List.not_mem_nil, ?_⟩
      · intro hmem
        rcases List.mem_append.mp hmem with hold | hend
        · exact hreturn (hkept.subset hold)
        · simp at hend
      · rw [managedBlock_eq]
        rfl
  | @replaced before body behind hbefore _ hbehind =>
      have hkept := dropNewline_suffix behind
      refine ⟨before, dropNewline behind, hbefore, hbehind.of_inside hkept.isInfix, ?_, ?_, ?_⟩
      · exact fun hmem => hreturn (by simp [Instructions.marked, hmem])
      · exact fun hmem => hreturn (by simp [Instructions.marked, hkept.subset hmem])
      · rw [managedBlock_eq]
        simp [Instructions.marked]

/-- A file after a sync. -/
inductive Written (generated : Text) : Option Text → Text → Prop
  | whole {before behind : Text} : Unmarked before → Unmarked behind → '\r' ∉ before → '\r' ∉ behind →
      Written generated none (marked before (blockBody generated) ('\n' :: behind))
  | front {generatedFront front before behind : Text} : (∀ other, frontMatter (front ++ other) = some (front, other)) →
      Unmarked front → Unmarked before → Unmarked behind → '\r' ∉ front → '\r' ∉ before → '\r' ∉ behind →
      Written generated (some generatedFront) (front ++ marked before (blockBody generated) ('\n' :: behind))

theorem Kept.written {generated content old new : Text} {front : Option Text} (hplain : Unmarked content)
    (hrendered : Rendered content front generated) (h : Kept generated front old new) (hreturn : '\r' ∉ old)
    (hclear : ∀ oldFront rest, front ≠ none → frontMatter old = some (oldFront, rest) → Unmarked oldFront) : Written generated front new := by
  cases h with
  | whole hsynced =>
      obtain ⟨before, behind, hbefore, hbehind, hfirst, hlast, rfl⟩ := hsynced.marked hreturn
      exact .whole hbefore hbehind hfirst hlast
  | @front _ front _ rest _ hmatter hsynced =>
      have hold := (frontMatter_some hmatter).1
      have hrest : '\r' ∉ rest := fun h => hreturn (by simp [hold, h])
      obtain ⟨before, behind, hbefore, hbehind, hfirst, hlast, rfl⟩ := hsynced.marked hrest
      refine .front (frontMatter_append hmatter) (hclear _ _ (by simp) hmatter) hbefore hbehind ?_ hfirst hlast
      exact fun h => hreturn (by simp [hold, h])
  | added hnone hsynced =>
      obtain ⟨before, behind, hbefore, hbehind, hfirst, hlast, rfl⟩ := hsynced.marked hreturn
      cases hrendered with
      | front hmatter hfront =>
          obtain ⟨rfl, -⟩ := frontMatter_some hmatter
          exact .front (frontMatter_append hmatter) (hplain.of_inside (List.prefix_append _ _).isInfix) hbefore hbehind hfront hfirst hlast

theorem Unmarked.front {front before text rest : Text} (hfront : Unmarked front) (hmatter : frontMatter text = some (front, rest))
    (hbefore : Unmarked before) : Unmarked (front ++ before) := by
  obtain ⟨start, rfl⟩ := front_ends hmatter
  exact hfront.append_newline hbefore

theorem Written.shape {generated new : Text} {front : Option Text} (hplain : Unmarked generated) (h : Written generated front new) :
    Shape new ∧ ¬ Unmarked new := by
  have hbody := blockBody_unmarked hplain
  obtain ⟨before, behind, hbefore, hbehind, rfl⟩ : ∃ before behind, Unmarked before ∧ Unmarked behind ∧
      new = Instructions.marked before (blockBody generated) ('\n' :: behind) := by
    cases h with
    | whole hbefore hbehind _ _ => exact ⟨_, _, hbefore, hbehind, rfl⟩
    | @front _ front before behind hmatter hfront hbefore hbehind _ _ _ =>
        exact ⟨front ++ before, behind, hfront.front (hmatter []) hbefore, hbehind, by simp [Instructions.marked]⟩
  refine ⟨.marked hbefore hbody hbehind.cons_newline, fun hnone => ?_⟩
  have hcut := cut_begin_marked hbefore (blockBody generated) ('\n' :: behind)
  rw [hnone.first] at hcut
  cases hcut

theorem read_again {before behind : Text} (hfirst : '\r' ∉ before) (hlast : '\r' ∉ behind) (body : Text) :
    universalNewlines (marked before body ('\n' :: behind)) = marked before (universalNewlines body) ('\n' :: behind) := by
  have hline : '\r' ∉ '\n' :: behind := by simp [hlast]
  rw [read_marked, universalNewlines_eq hfirst, universalNewlines_eq hline]

/-- A block is replaced by itself. -/
theorem merge_again {sha256 : Text → String} {generated before behind : Text} (hplain : Unmarked generated) (hbefore : Unmarked before)
    (hbehind : Unmarked behind) (expected : String) :
    mergeManagedContent sha256 (marked before (universalNewlines (blockBody generated)) ('\n' :: behind)) generated expected =
      .ok (marked before (blockBody generated) ('\n' :: behind)) := by
  rw [merge_marked hbefore (blockBody_unmarked hplain).read hbehind.cons_newline, managedBlock_eq]
  simp [marked, dropNewline]

/-- A file that was written with an own front matter. -/
theorem front_again {sha256 : Text → String} {generated content front generatedFront before behind : Text} (previous : String)
    (hplain : Unmarked generated) (hcontent : frontMatter content = some (generatedFront, generated))
    (hmatter : ∀ other, frontMatter (front ++ other) = some (front, other)) (hbefore : Unmarked before) (hbehind : Unmarked behind) :
    syncFile sha256 previous (front ++ marked before (universalNewlines (blockBody generated)) ('\n' :: behind)) content =
      .ok ((if sha256 (front ++ marked before (universalNewlines (blockBody generated)) ('\n' :: behind)) == previous then generatedFront
        else front) ++ marked before (blockBody generated) ('\n' :: behind)) := by
  rw [syncFile_front hcontent (hmatter _), merge_again hplain hbefore hbehind]
  rfl

/-- A file that a sync has written can be synced again. -/
theorem Written.syncs {sha256 : Text → String} {generated content new : Text} {front : Option Text} {previous : String}
    (hplain : Unmarked generated) (hrendered : Rendered content front generated) (h : Written generated front new) :
    ∃ again, syncFile sha256 previous (universalNewlines new) content = .ok again := by
  cases h with
  | whole hbefore hbehind hfirst hlast =>
      cases hrendered with
      | plain hruler =>
          rw [syncFile, if_neg (by simp [hruler]), read_again hfirst hlast]
          exact ⟨_, merge_again hplain hbefore hbehind previous⟩
  | front hmatter _ hbefore hbehind hreturn hfirst hlast =>
      cases hrendered with
      | front hgenerated _ =>
          rw [read_plain hreturn, read_again hfirst hlast]
          exact ⟨_, front_again previous hplain hgenerated hmatter hbefore hbehind⟩

/-- What a sync has written, it writes again. -/
theorem Written.again {sha256 : Text → String} {generated content new : Text} {front : Option Text} {previous : String}
    (hplain : Unmarked generated) (hrendered : Rendered content front generated) (h : Written generated front new)
    (hclear : ClearFront sha256 previous (universalNewlines new) content) :
    syncFile sha256 previous (universalNewlines new) content = .ok new := by
  cases h with
  | whole hbefore hbehind hfirst hlast =>
      cases hrendered with
      | plain hruler =>
          rw [syncFile, if_neg (by simp [hruler]), read_again hfirst hlast]
          exact merge_again hplain hbefore hbehind previous
  | @front generatedFront front before behind hmatter hfront hbefore hbehind hreturn hfirst hlast =>
      cases hrendered with
      | front hgenerated _ =>
          rw [read_plain hreturn, read_again hfirst hlast] at hclear ⊢
          rw [front_again previous hplain hgenerated hmatter hbefore hbehind]
          split
          · next howned =>
            have hsame := (hclear front _ generatedFront generated (hmatter _) hgenerated).2
            rw [hsame.resolve_right (not_not.mpr (beq_iff_eq.mp howned))]
          · rfl

/-! ### What is rendered -/

/-- A text that does not begin like a front matter. -/
def Headed (text : Text) : Prop := text.head? ≠ some '-'

instance (text : Text) : Decidable (Headed text) := inferInstanceAs (Decidable (text.head? ≠ some '-'))

theorem Headed.no_ruler {text : Text} (h : Headed text) : ruler.isPrefixOf text = false := by
  cases text with
  | nil => rfl
  | cons c rest =>
      have hc : ('-' == c) = false := by
        rw [beq_eq_false_iff_ne]
        exact fun hc => h (by rw [hc]; rfl)
      have hruler : ruler = '-' :: ruler.tail := rfl
      rw [hruler, List.isPrefixOf_cons_cons, hc, Bool.false_and]

theorem Headed.of_begin {text part : Text} (h : Headed text) (hpart : part <+: text) : Headed part := by
  obtain ⟨rest, rfl⟩ := hpart
  cases part with
  | nil => exact fun hnil => by cases hnil
  | cons c part => exact h

theorem Headed.append {a b : Text} (ha : Headed a) (hb : Headed b) : Headed (a ++ b) := by
  cases a with
  | nil => exact hb
  | cons c a => exact ha

theorem headed_newline (text : Text) : Headed ('\n' :: text) := by
  simp [Headed]

/-- Pieces between line ends begin like the first of them. -/
theorem headed_intercalate {sep : Text} {pieces : List Text} (h : ∀ piece ∈ pieces.head?, Headed piece) :
    Headed (('\n' :: sep).intercalate pieces) := by
  match pieces with
  | [] => simp [Headed, List.intercalate]
  | [piece] => simpa [List.intercalate] using h piece rfl
  | piece :: next :: rest =>
      rw [List.intercalate_cons_cons, List.append_assoc]
      exact (h piece rfl).append (headed_newline _)

theorem headed_joinSections {sections : List Text} (h : ∀ section' ∈ sections, Headed section') : Headed (joinSections sections) := by
  refine Headed.append (headed_intercalate fun piece hpiece => ?_) (headed_newline _)
  obtain ⟨section', hsection, rfl⟩ := List.mem_map.mp (List.mem_of_mem_head? hpiece)
  exact (h section' (List.mem_of_mem_filter hsection)).of_begin (rstrip_begins section')

theorem headed_splitlines {text : Text} (h : Headed text) : ∀ first ∈ (splitlines text).head?, Headed first := by
  have hnil : Headed [] := fun hnil => by cases hnil
  intro first hfirst
  rw [splitlines] at hfirst
  cases text with
  | nil => simp [Operator.splitlinesFrom] at hfirst
  | cons c rest =>
      by_cases hline : c = '\r' → rest.head? ≠ some '\n'
      · rw [Operator.splitlinesFrom_step hline] at hfirst
        by_cases hboundary : Operator.lineBoundary c = true
        · rw [if_pos hboundary, List.head?_cons, Option.mem_some_iff] at hfirst
          exact hfirst ▸ hnil
        · rw [if_neg hboundary] at hfirst
          obtain ⟨more, rfl⟩ := Operator.splitlinesFrom_head (by simp) first hfirst
          exact h
      · obtain ⟨rfl, hnewline⟩ := Classical.not_imp.mp hline
        obtain ⟨tail, rfl⟩ := List.head?_eq_some_iff.mp (not_not.mp hnewline)
        rw [Operator.splitlinesFrom, List.head?_cons, Option.mem_some_iff] at hfirst
        exact hfirst ▸ hnil

theorem fittingLines_head {limit current : Nat} {lines : List Text} : ∀ first ∈ (fittingLines limit current lines).head?, first ∈ lines.head? := by
  cases lines with
  | nil => simp [fittingLines]
  | cons line rest =>
      simp only [fittingLines]
      split
      · simp
      · simp

theorem headed_limitMarkdown {content : Text} (h : Headed content) (maxChars : Nat) : Headed (limitMarkdown content maxChars) := by
  unfold limitMarkdown
  split
  · exact h
  · refine Headed.append (Headed.of_begin (headed_intercalate fun piece hpiece => ?_) (rstrip_begins _)) (headed_newline _)
    cases hlines : fittingLines (maxChars - 80) 0 (splitlines content) with
    | nil =>
        rw [hlines, List.nil_append, List.head?_cons, Option.mem_def, Option.some.injEq] at hpiece
        subst hpiece
        exact fun hnil => by cases hnil
    | cons line lines =>
        have hfirst := @fittingLines_head (maxChars - 80) 0 (splitlines content) line (by rw [hlines]; rfl)
        rw [hlines, List.cons_append, List.head?_cons, Option.mem_def, Option.some.injEq] at hpiece
        subst hpiece
        exact headed_splitlines h _ hfirst

theorem headed_ruleSection {title : Text} (h : Headed title) (rules : List Text) : Headed (ruleSection title rules) := by
  unfold ruleSection
  split
  · exact fun hnil => by cases hnil
  · rw [List.append_assoc]
    exact h.append (headed_newline _)

/-! A literal is not read sign by sign, but as the list that it is made of. -/

theorem headed_ofList {chars : List Char} (h : Headed chars) : Headed (String.ofList chars).toList := by
  rwa [String.toList_ofList]

theorem headed_ofList_append {c : Char} {chars : List Char} (hc : c ≠ '-') (rest : Text) :
    Headed ((String.ofList (c :: chars)).toList ++ rest) := by
  simp [Headed, hc]

theorem strip_ofList_head {c : Char} {chars : List Char} (hc : isSpace c = false) (rest : Text) :
    (strip ((String.ofList (c :: chars)).toList ++ rest)).head? = some c := by
  have hdrop : ((String.ofList (c :: chars)).toList ++ rest).dropWhile isSpace = c :: (chars ++ rest) := by
    rw [String.toList_ofList, List.cons_append, List.dropWhile_cons_of_neg (by simp [hc])]
  have hrear : strip ((String.ofList (c :: chars)).toList ++ rest) = rstrip (c :: (chars ++ rest)) := by rw [← hdrop]; rfl
  have hne : rstrip (c :: (chars ++ rest)) ≠ [] := by
    rw [rstrip, ne_eq, List.reverse_eq_nil_iff, List.dropWhile_eq_nil_iff]
    intro hall
    have hspace := hall c (by simp)
    rw [hc] at hspace
    cases hspace
  rw [hrear]
  obtain ⟨more, hmore⟩ := rstrip_begins (c :: (chars ++ rest))
  obtain ⟨d, tail, hcons⟩ := List.exists_cons_of_ne_nil hne
  rw [hcons] at hmore ⊢
  rw [(List.cons.inj hmore).1]
  rfl

theorem headed_reference : Headed reference := by
  unfold reference
  rewrite [List.flatMap_cons]
  exact headed_ofList_append (c := 'F') (by decide) _

/-- The first section, where it is filled, begins the text. -/
theorem joinSections_begins {first : Text} (h : strip first ≠ []) (rest : List Text) : rstrip first <+: joinSections (first :: rest) := by
  rw [joinSections, List.filter_cons_of_pos (by simpa using h), List.map_cons]
  cases (rest.filter (strip · ≠ [])).map rstrip with
  | nil => exact ⟨['\n'], by simp [List.intercalate]⟩
  | cons next rest =>
      rw [List.intercalate_cons_cons, List.append_assoc, List.append_assoc]
      exact List.prefix_append _ _

section

variable (lower : Text → Text) (rules : Rules)

theorem headed_root : Headed (renderedRoot lower rules) := by
  have hfirst : (strip defaultEngineeringRules).head? = some '#' := by
    unfold defaultEngineeringRules
    rewrite [List.flatMap_cons]
    exact strip_ofList_head (c := '#') (by decide) _
  have hdefault : Headed (strip defaultEngineeringRules) := by simp [Headed, hfirst]
  have hsummary : Headed (agentsProjectSummary lower rules) := by
    unfold agentsProjectSummary
    simp only
    split
    · exact headed_ofList (by decide)
    · exact headed_ruleSection (headed_ofList (by decide)) _
  have hwhole : Headed (joinSections [strip defaultEngineeringRules, agentsProjectSummary lower rules]) :=
    headed_joinSections (by simp [hdefault, hsummary])
  exact headed_joinSections (by simp [headed_limitMarkdown hwhole, headed_reference])

theorem headed_contract : Headed (renderedContract rules) := by
  have hfirst : Headed "# Complete Project Contract".toList := headed_ofList (by decide)
  have hhard := headed_ruleSection (show Headed "## Hard Rules".toList from headed_ofList (by decide)) rules.hardRules
  have hflow := headed_ruleSection (show Headed "## Workflow Contracts".toList from headed_ofList (by decide)) rules.workflowContracts
  have hvalid := headed_ruleSection (show Headed "## Engineering Validation".toList from headed_ofList (by decide)) rules.engineeringValidation
  have htest := headed_ruleSection (show Headed "## Testing Contracts".toList from headed_ofList (by decide)) rules.testingContracts
  apply headed_joinSections
  simp only [List.forall_mem_cons]
  exact ⟨hfirst, hhard, hflow, hvalid, htest, fun _ h => absurd h List.not_mem_nil⟩

/-- A text that begins with a front matter without carriage returns. -/
theorem rendered_front {front : Text} (hmatter : frontMatter front = some (front, [])) (hreturn : '\r' ∉ front) (rest : Text) :
    Rendered (front ++ rest) (some front) rest :=
  .front (frontMatter_append hmatter rest) hreturn

def contractFront : Text := "---\napplyTo: \"**\"\n---\n".toList

def rulesFront : Text := "---\ntrigger: always_on\n---\n".toList

theorem contractFront_matter : frontMatter contractFront = some (contractFront, []) := by rfl

theorem rulesFront_matter : frontMatter rulesFront = some (rulesFront, []) := by rfl

theorem contract_begins : contractFront <+: joinSections [strip productContractHeader, reference] := by
  have hheader : contractFront.isPrefixOf (rstrip (strip productContractHeader)) = true := by rfl
  have hfilled : (strip (strip productContractHeader)).isEmpty = false := by rfl
  refine (List.isPrefixOf_iff_prefix.mp hheader).trans (joinSections_begins ?_ _)
  exact List.isEmpty_eq_false_iff.mp hfilled

theorem rules_split : "---\ntrigger: always_on\n---\n\n".toList = rulesFront ++ ['\n'] := by rfl

theorem rendered_shape : ∀ file ∈ renderGeneratedFiles lower rules, ∃ front generated, Rendered file.2 front generated := by
  have hroot := headed_root lower rules
  have hcontract := headed_contract rules
  obtain ⟨rest, hrest⟩ := contract_begins
  intro file hfile
  simp only [renderGeneratedFiles, List.mem_cons, List.not_mem_nil, or_false] at hfile
  rcases hfile with rfl | rfl | rfl | rfl | rfl | rfl
  · exact ⟨none, _, .plain hroot.no_ruler⟩
  · exact ⟨none, _, .plain hroot.no_ruler⟩
  · exact ⟨none, _, .plain hroot.no_ruler⟩
  · rw [← hrest]
    exact ⟨some contractFront, rest, rendered_front contractFront_matter (by decide +kernel) rest⟩
  · rw [rules_split, List.append_assoc]
    exact ⟨some rulesFront, _, rendered_front rulesFront_matter (by decide +kernel) _⟩
  · exact ⟨none, _, .plain hcontract.no_ruler⟩

theorem rendered_paths : ((renderGeneratedFiles lower rules).map (·.1)).Nodup := by
  have hpaths : (renderGeneratedFiles lower rules).map (·.1) = ["AGENTS.md", "CLAUDE.md", ".github/copilot-instructions.md",
      ".github/instructions/product-contract.instructions.md", ".agents/rules/auto-agents.md", completeRulesPath] := rfl
  rw [hpaths]
  decide

end

/-! ### A whole sync -/

section

variable {sha256 : Text → String} {p : Project}

/-- The files are synced one by one, and each under its own path. -/
theorem mapM_synced {files : List (String × Text)} (hpaths : (files.map (·.1)).Nodup)
    (hfiles : ∀ file ∈ files, ∃ new, syncFile sha256 (p.hashes file.1) (p.read file.1) file.2 = .ok new) :
    ∃ contents, files.mapM (p.synced sha256) = .ok contents ∧ (∀ path ∉ files.map (·.1), contents.lookup path = none) ∧
      ∀ file ∈ files, ∀ new, syncFile sha256 (p.hashes file.1) (p.read file.1) file.2 = .ok new → contents.lookup file.1 = some new := by
  induction files with
  | nil => exact ⟨[], rfl, fun _ _ => rfl, fun _ h => absurd h List.not_mem_nil⟩
  | cons file files ih =>
      rw [List.map_cons, List.nodup_cons] at hpaths
      obtain ⟨contents, hcontents, hother, hsame⟩ := ih hpaths.2 fun f hf => hfiles f (List.mem_cons_of_mem file hf)
      obtain ⟨content, hcontent⟩ := hfiles file List.mem_cons_self
      refine ⟨(file.1, content) :: contents, ?_, ?_, ?_⟩
      · have hfirst : p.synced sha256 file = .ok (file.1, content) := by rw [Project.synced, hcontent]; rfl
        rw [List.mapM_cons, hfirst, hcontents]
        rfl
      · intro path hpath
        rw [List.map_cons, List.mem_cons, not_or] at hpath
        rw [List.lookup_cons, beq_false_of_ne hpath.1]
        exact hother path hpath.2
      · intro other hmem new hnew
        rcases List.mem_cons.mp hmem with rfl | hmem
        · rw [hcontent] at hnew
          rw [List.lookup_cons, beq_self_eq_true]
          exact congrArg some (Except.ok.inj hnew)
        · have hne : other.1 ≠ file.1 := fun heq => hpaths.1 (heq ▸ List.mem_map_of_mem hmem)
          rw [List.lookup_cons, beq_false_of_ne hne]
          exact hsame other hmem new hnew

/-- What a sync that does not fail leaves of every file and of every digest. -/
theorem sync_files (lower : Text → Text) (rules : Rules) (approved : Bool)
    (hfiles : ∀ file ∈ renderGeneratedFiles lower (rules.withFrontend approved),
      ∃ new, syncFile sha256 (p.hashes file.1) (p.read file.1) file.2 = .ok new) :
    ∃ q, syncAgentInstructions sha256 lower p rules approved = .ok q ∧
      (∀ path ∉ (renderGeneratedFiles lower (rules.withFrontend approved)).map (·.1), q.files path = p.files path ∧ q.hashes path = "") ∧
      ∀ file ∈ renderGeneratedFiles lower (rules.withFrontend approved), ∀ new,
        syncFile sha256 (p.hashes file.1) (p.read file.1) file.2 = .ok new →
          q.hashes file.1 = sha256 new ∧ (q.files file.1 = if p.read file.1 = new then p.files file.1 else some new) := by
  obtain ⟨contents, hcontents, hother, hsame⟩ := mapM_synced (rendered_paths lower (rules.withFrontend approved)) hfiles
  refine ⟨p.written sha256 contents, ?_, ?_, ?_⟩
  · rw [syncAgentInstructions, hcontents]
    rfl
  · intro path hpath
    simp only [Project.written, hother path hpath, and_self]
  · intro file hfile new hnew
    simp only [Project.written, hsame file hfile new hnew, and_self]

end

end AutoAgents.Instructions
