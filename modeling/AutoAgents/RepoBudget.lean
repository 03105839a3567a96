import AutoAgents.RepoMap

/-! What the map keeps of the budget: every file once, the anchors first, and what the rounding of the costs loses. -/

namespace AutoAgents.RepoMap

open Operator (isSpace)

/-! ### The end of a text -/

theorem rstrip_append_space {a b : List Char} (h : ∀ c ∈ b, isSpace c = true) : rstrip (a ++ b) = rstrip a := by
  unfold rstrip
  rw [List.reverse_append, List.dropWhile_append_of_pos]
  intro c hc
  exact h c (List.mem_reverse.mp hc)

theorem rstrip_last {a : List Char} {c : Char} (h : isSpace c = false) : rstrip (a ++ [c]) = a ++ [c] := by
  unfold rstrip
  rw [List.reverse_append, List.reverse_singleton, List.singleton_append, List.dropWhile_cons_of_neg (by simp [h]),
    List.reverse_cons, List.reverse_reverse]

theorem rstrip_front (a : List Char) : rstrip a <+: a := by
  obtain ⟨front, h⟩ : a.reverse.dropWhile isSpace <:+ a.reverse := List.dropWhile_suffix _
  refine ⟨front.reverse, ?_⟩
  rw [rstrip, ← List.reverse_append, h, List.reverse_reverse]

/-- What is no white space stays, with everything before it. -/
theorem rstrip_keeps {a b : List Char} {c : Char} (h : isSpace c = false) : a ++ [c] <+: rstrip (a ++ c :: b) := by
  induction b using List.reverseRecOn with
  | nil =>
    simp only [rstrip_last h, List.prefix_rfl]
  | append_singleton b d ih =>
    rw [← List.cons_append, ← List.append_assoc]
    by_cases hd : isSpace d = true
    · rw [rstrip_append_space (by simpa using hd)]
      exact ih
    · rw [rstrip_last (by simpa using hd)]
      exact ⟨b ++ [d], by simp⟩

/-! ### Blocks -/

theorem joinLines_path (path : List Char) (lines : List (List Char)) : path ++ ['\n'] <+: joinLines (path :: lines) := by
  cases lines with
  | nil => exact ⟨[], by simp [joinLines]⟩
  | cons line lines =>
    refine ⟨['\n'].intercalate (line :: lines) ++ ['\n'], ?_⟩
    simp [joinLines, List.intercalate_cons_cons]

/-- A full block begins with a line for the path. -/
theorem renderFile_path (summary : FileSummary) : summary.path ++ ['\n'] <+: renderFile summary := by
  unfold renderFile
  split
  · exact joinLines_path _ _
  · split
    · exact joinLines_path _ _
    · exact joinLines_path _ _

theorem joinLines_ends {path line : List Char} {lines : List (List Char)} :
    ∃ front, joinLines (path :: line :: lines) = front ++ ['\n'] ∧ front ≠ [] := by
  refine ⟨['\n'].intercalate (path :: line :: lines), rfl, ?_⟩
  simp [List.intercalate_cons_cons]

/-- A full block has more than one line. -/
theorem renderFile_ends (summary : FileSummary) : ∃ front, renderFile summary = front ++ ['\n'] ∧ front ≠ [] := by
  unfold renderFile
  split
  · exact joinLines_ends
  · split
    · exact joinLines_ends
    · rename_i hsymbols
      cases hlist : summary.symbols with
      | nil => simp [hlist] at hsymbols
      | cons sym rest =>
        have hlines : ∃ line lines, (sym :: rest).flatMap renderSymbol = line :: lines := by
          unfold List.flatMap renderSymbol
          by_cases hkind : sym.kind = "class"
          · simp [hkind]
          · simp [hkind]
        obtain ⟨line, lines, heq⟩ := hlines
        rw [heq]
        exact joinLines_ends

theorem listed_full {path : List Char} {blocks : List Block} {b : Block} (hb : b ∈ blocks) (hfull : b.full = true)
    (hpath : b.summary.path = path) : listed path blocks = true := by
  refine List.any_eq_true.mpr ⟨b, hb, ?_⟩
  rw [Bool.or_eq_true, List.isPrefixOf_iff_prefix, Block.text, if_pos hfull, ← hpath]
  exact .inl (renderFile_path _)

/-! ### The filling -/

/-- The cost and the number are those of the blocks. -/
structure Filling.Counted (f : Filling) : Prop where
  used : f.used = estimateTokens header + (f.blocks.map Block.cost).sum
  included : f.included = f.blocks.length

theorem Filling.Counted.add {f : Filling} (h : f.Counted) (b : Block) : (f.add b).Counted := by
  constructor
  · simp only [Filling.add, h.used, List.map_append, List.map_singleton, List.sum_append, List.sum_singleton]
    omega
  · simp only [Filling.add, h.included, List.length_append, List.length_singleton]

theorem foldl_anchors {f : Filling} (h : f.Counted) (summaries : List FileSummary) :
    (summaries.foldl (fun f summary => f.add ⟨summary, true⟩) f).Counted ∧
      (summaries.foldl (fun f summary => f.add ⟨summary, true⟩) f).blocks =
        f.blocks ++ summaries.map fun summary => ⟨summary, true⟩ := by
  induction summaries generalizing f with
  | nil => exact ⟨h, by simp⟩
  | cons summary rest ih =>
    obtain ⟨hcounted, hblocks⟩ := ih (h.add ⟨summary, true⟩)
    refine ⟨hcounted, ?_⟩
    rw [List.foldl_cons, hblocks]
    simp [Filling.add]

theorem anchored_counted (ranked : List RankedFile) : (anchored ranked).Counted :=
  (foldl_anchors ⟨by simp, rfl⟩ _).1

theorem anchored_blocks (ranked : List RankedFile) :
    (anchored ranked).blocks = (anchors ranked).map fun summary => ⟨summary, true⟩ := by
  have hblocks := (foldl_anchors (f := ⟨[], estimateTokens header, 0⟩) ⟨by simp, rfl⟩ (anchors ranked)).2
  rwa [List.nil_append] at hblocks

theorem fillFull_counted {budget : Int} {f : Filling} (h : f.Counted) (summaries : List FileSummary) :
    (fillFull budget f summaries).Counted := by
  fun_induction fillFull budget f summaries with
  | case1 => exact h
  | case2 f summary rest _ ih => exact ih h
  | case3 f summary rest _ ih => exact ih (h.add _)

theorem fillCompact_counted {budget : Int} {f : Filling} (h : f.Counted) (summaries : List FileSummary) :
    (fillCompact budget f summaries).Counted := by
  fun_induction fillCompact budget f summaries with
  | case1 => exact h
  | case2 f summary rest _ ih => exact ih h
  | case3 => exact h
  | case4 f summary rest _ _ ih => exact ih (h.add _)

theorem filled_counted (ranked : List RankedFile) (budget : Int) : (filled ranked budget).Counted :=
  fillCompact_counted (fillFull_counted (anchored_counted ranked) _) _

theorem fillFull_blocks (budget : Int) (f : Filling) (summaries : List FileSummary) :
    ∃ taken, List.Sublist taken summaries ∧
      (fillFull budget f summaries).blocks = f.blocks ++ taken.map fun summary => ⟨summary, true⟩ := by
  fun_induction fillFull budget f summaries with
  | case1 => exact ⟨[], .slnil, by simp⟩
  | case2 f summary rest _ ih =>
    obtain ⟨taken, hsub, hblocks⟩ := ih
    exact ⟨taken, hsub.cons _, hblocks⟩
  | case3 f summary rest _ ih =>
    obtain ⟨taken, hsub, hblocks⟩ := ih
    refine ⟨summary :: taken, hsub.cons_cons _, ?_⟩
    rw [hblocks]
    simp [Filling.add]

theorem fillFull_append (budget : Int) (f : Filling) (first second : List FileSummary) :
    fillFull budget f (first ++ second) = fillFull budget (fillFull budget f first) second := by
  fun_induction fillFull budget f first with
  | case1 => rfl
  | case2 f summary rest hover ih => rw [List.cons_append, fillFull, if_pos hover, ih]
  | case3 f summary rest hfits ih => rw [List.cons_append, fillFull, if_neg hfits, ih]

/-- Only files that no full block is about get a compact one. -/
theorem fillCompact_blocks (budget : Int) (f : Filling) (summaries : List FileSummary) :
    ∃ taken, List.Sublist taken summaries ∧
      (fillCompact budget f summaries).blocks = f.blocks ++ (taken.map fun summary => ⟨summary, false⟩) ∧
      ∀ summary ∈ taken, ∀ b ∈ f.blocks, b.full = true → b.summary.path ≠ summary.path := by
  fun_induction fillCompact budget f summaries with
  | case1 => exact ⟨[], .slnil, by simp, nofun⟩
  | case2 f summary rest _ ih =>
    obtain ⟨taken, hsub, hblocks, hnew⟩ := ih
    exact ⟨taken, hsub.cons _, hblocks, hnew⟩
  | case3 => exact ⟨[], List.nil_sublist _, by simp, nofun⟩
  | case4 f summary rest hlisted _ ih =>
    obtain ⟨taken, hsub, hblocks, hnew⟩ := ih
    refine ⟨summary :: taken, hsub.cons_cons _, ?_, ?_⟩
    · rw [hblocks]
      simp [Filling.add]
    · rw [List.forall_mem_cons]
      refine ⟨fun b hb hfull hpath => hlisted (listed_full hb hfull hpath), fun other hother b hb => ?_⟩
      exact hnew other hother b (List.mem_append_left _ hb)

/-- The blocks of the three phases. -/
structure Phases (ranked : List RankedFile) (budget : Int) (full compact : List FileSummary) : Prop where
  fitted : List.Sublist full (remaining ranked)
  left : List.Sublist compact (remaining ranked)
  afterFull : (fillFull budget (anchored ranked) (remaining ranked)).blocks =
    (anchors ranked ++ full).map fun summary => ⟨summary, true⟩
  blocks : (filled ranked budget).blocks =
    ((anchors ranked ++ full).map fun summary => ⟨summary, true⟩) ++ compact.map fun summary => ⟨summary, false⟩
  new : ∀ summary ∈ compact, ∀ other ∈ anchors ranked ++ full, other.path ≠ summary.path

theorem phases (ranked : List RankedFile) (budget : Int) : ∃ full compact, Phases ranked budget full compact := by
  obtain ⟨full, hfull, hfilled⟩ := fillFull_blocks budget (anchored ranked) (remaining ranked)
  obtain ⟨compact, hcompact, hblocks, hnew⟩ :=
    fillCompact_blocks budget (fillFull budget (anchored ranked) (remaining ranked)) (remaining ranked)
  rw [anchored_blocks, ← List.map_append] at hfilled
  rw [hfilled] at hblocks hnew
  refine ⟨full, compact, hfull, hcompact, hfilled, hblocks, fun summary hsummary other hother => ?_⟩
  exact hnew summary hsummary ⟨other, true⟩ (List.mem_map.mpr ⟨other, hother, rfl⟩) rfl

/-- No file is listed twice. -/
theorem blocks_once {ranked : List RankedFile} (budget : Int)
    (hdistinct : (ranked.map fun file => file.summary.path).Nodup) :
    ((filled ranked budget).blocks.map fun b => b.summary.path).Nodup := by
  obtain ⟨full, compact, h⟩ := phases ranked budget
  have hperm : ((anchors ranked ++ remaining ranked).map FileSummary.path).Perm
      (ranked.map fun file => file.summary.path) := by
    have hparts := (List.filter_append_perm (fun file : RankedFile => file.isAnchor) ranked).map
      fun file => file.summary.path
    rwa [anchors, remaining, ← List.map_append, List.map_map]
  have hboth := hperm.nodup_iff.mpr hdistinct
  rw [List.map_append] at hboth
  obtain ⟨hanchors, hremaining, hapart⟩ := List.nodup_append.mp hboth
  rw [h.blocks]
  simp only [List.map_append, List.map_map, Function.comp_def]
  rw [List.nodup_append]
  refine ⟨?_, hremaining.sublist (h.left.map _), ?_⟩
  · rw [List.nodup_append]
    refine ⟨hanchors, hremaining.sublist (h.fitted.map _), fun path hpath other hother => ?_⟩
    exact hapart path hpath other ((h.fitted.map _).subset hother)
  · intro path hpath other hother
    rw [← List.map_append] at hpath
    obtain ⟨listed, hlisted, rfl⟩ := List.mem_map.mp hpath
    obtain ⟨summary, hsummary, rfl⟩ := List.mem_map.mp hother
    exact h.new summary hsummary listed hlisted

/-- A compact line stands only for a full block that did not fit in its turn. -/
theorem compact_unfit {ranked : List RankedFile} {budget : Int} {before after : List FileSummary} {summary : FileSummary}
    (hturn : remaining ranked = before ++ summary :: after) (hcompact : ⟨summary, false⟩ ∈ (filled ranked budget).blocks) :
    budget < ((fillFull budget (anchored ranked) before).used + (⟨summary, true⟩ : Block).cost : Nat) := by
  obtain ⟨full, compact, h⟩ := phases ranked budget
  by_contra hfits
  have hmem : (⟨summary, true⟩ : Block) ∈ (fillFull budget (anchored ranked) (remaining ranked)).blocks := by
    rw [hturn, fillFull_append, fillFull, if_neg hfits]
    obtain ⟨taken, -, hblocks⟩ :=
      fillFull_blocks budget ((fillFull budget (anchored ranked) before).add ⟨summary, true⟩) after
    rw [hblocks]
    simp [Filling.add]
  rw [h.afterFull] at hmem
  obtain ⟨other, hother, heq⟩ := List.mem_map.mp hmem
  cases heq
  rw [h.blocks] at hcompact
  have hmemCompact : summary ∈ compact := by simpa using hcompact
  exact h.new summary hmemCompact summary hother rfl

/-! ### The budget -/

/-- How the map keeps the budget. -/
structure Budgeted (ranked : List RankedFile) (budget : Int) : Prop where
  anchored : ∀ before summary after, anchors ranked = before ++ summary :: after →
    bodyText (before.map fun summary => ⟨summary, true⟩) ++ renderFile summary <+: (fitBudget ranked budget).1
  once : ((filled ranked budget).blocks.map fun b => b.summary.path).Nodup
  included : (fitBudget ranked budget).2.1 = (filled ranked budget).blocks.length
  compact : ∀ before summary after, remaining ranked = before ++ summary :: after →
    ⟨summary, false⟩ ∈ (filled ranked budget).blocks →
      budget < ((fillFull budget (RepoMap.anchored ranked) before).used + (⟨summary, true⟩ : Block).cost : Nat)
  budget : estimateTokens (finish (RepoMap.anchored ranked).blocks) ≤ budget →
    estimateTokens (fitBudget ranked budget).1 ≤ budget

/-- The blocks behind the anchors. -/
def added (ranked : List RankedFile) (budget : Int) : List Block :=
  (filled ranked budget).blocks.drop (anchors ranked).length

/-- What a text has more than the characters that its tokens stand for. -/
def lost (text : List Char) : Int := text.length - 4 * estimateTokens text

/-- The white space at the end of the blocks. -/
def stripped (blocks : List Block) : Nat := (bodyText blocks).length - (rstrip (bodyText blocks)).length

/-- The end of the map does not cut into an anchor, and what the rounding loses, with the two ends of lines that are
added and without the white space taken off, fits what is left of the budget. -/
structure Spared (ranked : List RankedFile) (budget : Int) : Prop where
  clean : ∀ last ∈ (anchors ranked).getLast?, (∀ b ∈ added ranked budget, ∀ c ∈ b.text, isSpace c = true) →
    ∀ c ∈ (renderFile last).dropLast.getLast?, isSpace c = false
  rounding : ranked ≠ [] → estimateTokens (finish (anchored ranked).blocks) ≤ budget →
    lost header + ((filled ranked budget).blocks.map fun b => lost b.text).sum + 2 - stripped (filled ranked budget).blocks ≤
      4 * (budget - (filled ranked budget).used) + 3

theorem blocks_split (ranked : List RankedFile) (budget : Int) :
    (filled ranked budget).blocks = (anchored ranked).blocks ++ added ranked budget := by
  obtain ⟨full, compact, h⟩ := phases ranked budget
  have hlength : (anchors ranked).length = ((anchors ranked).map fun summary => (⟨summary, true⟩ : Block)).length :=
    (List.length_map _).symm
  rw [added, anchored_blocks, h.blocks, List.map_append, List.append_assoc, hlength, List.drop_left]

theorem bodyText_append (first second : List Block) :
    bodyText (first ++ second) = bodyText first ++ second.flatMap Block.text := by
  simp [bodyText]

theorem length_bodyText (blocks : List Block) :
    (bodyText blocks).length = header.length + 1 + (blocks.map fun b => b.text.length).sum := by
  simp [bodyText, List.length_flatMap]
  omega

theorem header_front : header = ['#', '#', ' '] ++ 'R' :: header.drop 4 := by decide +kernel

/-- The text begins with the header. -/
theorem four_le_finish (blocks : List Block) : 4 ≤ (finish blocks).length := by
  obtain ⟨rest, hrest⟩ : ∃ rest, bodyText blocks = ['#', '#', ' '] ++ 'R' :: rest := by
    refine ⟨header.drop 4 ++ '\n' :: blocks.flatMap Block.text, ?_⟩
    rw [← List.cons_append, ← List.append_assoc, ← header_front, bodyText]
  have hkeeps : ['#', '#', ' '] ++ ['R'] <+: rstrip (['#', '#', ' '] ++ 'R' :: rest) := rstrip_keeps (by decide)
  have hlength := hkeeps.length_le
  rw [finish, hrest, List.length_append]
  simp only [List.length_append, List.length_cons, List.length_nil] at hlength ⊢
  omega

theorem estimateTokens_le {text : List Char} (h : 4 ≤ text.length) (budget : Int) :
    estimateTokens text ≤ budget ↔ (text.length : Int) ≤ 4 * budget + 3 := by
  have hne : text ≠ [] := by
    rintro rfl
    simp at h
  rw [estimateTokens, if_neg hne]
  omega

/-- What is lost over all blocks is what their texts have more than the tokens counted. -/
theorem sum_lost (blocks : List Block) :
    (blocks.map fun b => lost b.text).sum =
      ((blocks.map fun b => b.text.length).sum : Nat) - 4 * ((blocks.map Block.cost).sum : Nat) := by
  induction blocks with
  | nil => rfl
  | cons b blocks ih =>
    rw [List.map_cons, List.sum_cons, ih]
    simp only [List.map_cons, List.sum_cons, lost, Block.cost]
    push_cast
    omega

theorem rounding_iff (ranked : List RankedFile) (budget : Int) :
    estimateTokens (finish (filled ranked budget).blocks) ≤ budget ↔
      lost header + ((filled ranked budget).blocks.map fun b => lost b.text).sum + 2 -
        stripped (filled ranked budget).blocks ≤ 4 * (budget - (filled ranked budget).used) + 3 := by
  have hcounted := filled_counted ranked budget
  have hlength := length_bodyText (filled ranked budget).blocks
  have hstrip := (rstrip_front (bodyText (filled ranked budget).blocks)).length_le
  rw [estimateTokens_le (four_le_finish _), sum_lost, hcounted.used, finish, List.length_append, stripped, lost]
  simp only [List.length_singleton, Int.natCast_add]
  omega

/-- A line with its end stands in a text without the white space at its end exactly if something follows it, or the
line itself does not end with white space. -/
theorem stands_iff {line rest : List Char} (hne : line ≠ []) :
    line ++ ['\n'] <+: rstrip (line ++ '\n' :: rest) ++ ['\n'] ↔
      ((∀ c ∈ rest, isSpace c = true) → ∀ c ∈ line.getLast?, isSpace c = false) := by
  by_cases hrest : ∀ c ∈ rest, isSpace c = true
  · have hspace : ∀ c ∈ '\n' :: rest, isSpace c = true := by
      rw [List.forall_mem_cons]
      exact ⟨by decide, hrest⟩
    rw [rstrip_append_space hspace]
    induction line using List.reverseRecOn with
    | nil => exact absurd rfl hne
    | append_singleton front d _ =>
      by_cases hd : isSpace d = true
      · have hcut : ¬ front ++ [d] ++ ['\n'] <+: rstrip (front ++ [d]) ++ ['\n'] := by
          intro hprefix
          rw [rstrip_append_space (by simpa using hd)] at hprefix
          have hlength := hprefix.length_le
          have hstrip := (rstrip_front front).length_le
          simp only [List.length_append, List.length_singleton] at hlength
          omega
        refine iff_of_false hcut fun h => ?_
        have hlast := h hrest d (by simp)
        rw [hd] at hlast
        cases hlast
      · rw [rstrip_last (by simpa using hd)]
        refine iff_of_true List.prefix_rfl fun _ => ?_
        simpa using hd
  · refine iff_of_true ?_ fun h => absurd h hrest
    push Not at hrest
    obtain ⟨c, hc, hspace⟩ := hrest
    obtain ⟨before, after, rfl⟩ := List.append_of_mem hc
    have hkeeps : line ++ '\n' :: before ++ [c] <+: rstrip (line ++ '\n' :: before ++ c :: after) :=
      rstrip_keeps (by simpa using hspace)
    have hassoc : line ++ '\n' :: before ++ c :: after = line ++ '\n' :: (before ++ c :: after) := by simp
    rw [hassoc] at hkeeps
    have hfront : line ++ ['\n'] <+: line ++ '\n' :: before ++ [c] := ⟨before ++ [c], by simp⟩
    exact hfront.trans (hkeeps.trans (List.prefix_append _ _))

/-- All anchors stand if the last one does. -/
theorem anchors_stand {ranked : List RankedFile} {text : List Char}
    (h : anchors ranked ≠ [] → bodyText (anchored ranked).blocks <+: text) {before after : List FileSummary}
    {summary : FileSummary} (hanchors : anchors ranked = before ++ summary :: after) :
    bodyText (before.map fun summary => ⟨summary, true⟩) ++ renderFile summary <+: text := by
  refine List.IsPrefix.trans ?_ (h (by simp [hanchors]))
  rw [anchored_blocks, hanchors, List.map_append, bodyText_append]
  refine ⟨(after.map fun summary => (⟨summary, true⟩ : Block)).flatMap Block.text, ?_⟩
  simp [Block.text]

/-- A module without classes and functions. -/
def bareFile : RankedFile := ⟨false, ⟨"abc.py".toList, [], none⟩⟩

theorem bareFile_distinct : ([bareFile].map fun file => file.summary.path).Nodup := List.nodup_singleton _

end AutoAgents.RepoMap
