import AutoAgents.ParseReply

/-! Replies with several results. What is returned is the one object that begins a line, and whatever lies before it
on other lines is no object. -/

namespace AutoAgents.Reply

open Base
open Operator (isSpace strip lineBoundary splitlines)

variable {φ : Type} [FloatText φ]

/-- Only white space stands between the start of a line and the end of the text. -/
def LineStart (front : List Char) : Prop :=
  ∀ c ∈ front.reverse.takeWhile fun c => !lineBoundary c, isSpace c = true

instance (front : List Char) : Decidable (LineStart front) :=
  inferInstanceAs (Decidable (∀ c ∈ front.reverse.takeWhile fun c => !lineBoundary c, isSpace c = true))

/-- The value is an object of the text at a place of the kind, nothing but white space follows it, and every other
object at such a place lies within it. -/
def Only (Place : List Char → Prop) (text : List Char) (value : Json φ) : Prop :=
  ∃ front object after, text = front ++ object ∧ Place front ∧ rawDecode object = .ok (value, after) ∧
    (∃ fields, value = .obj fields) ∧ (∀ c ∈ after, isSpace c = true) ∧
    ∀ front' text' (other : Json φ) after', text = front' ++ '\x7b' :: text' → Place front' →
      rawDecode ('\x7b' :: text') = .ok (other, after') → front <+: front' ∧ after <:+ after'

/-! ### The starts of lines -/

theorem LineStart.of_append {x y : List Char} (h : LineStart (x ++ y)) : LineStart y := by
  intro c hc
  apply h
  rw [List.reverse_append, List.takeWhile_append]
  split
  · exact List.mem_append_left _ ((List.takeWhile_prefix _).mem hc)
  · exact hc

theorem lineStart_of_space {front : List Char} (h : ∀ c ∈ front, isSpace c = true) : LineStart front := fun c hc =>
  h c (List.mem_reverse.mp ((List.takeWhile_prefix _).mem hc))

theorem LineStart.append {front space : List Char} (hfront : LineStart front) (hspace : ∀ c ∈ space, isSpace c = true) :
    LineStart (front ++ space) := by
  intro c hc
  rw [List.reverse_append, List.takeWhile_append] at hc
  split at hc
  · rcases List.mem_append.mp hc with hc | hc
    · exact hspace c (List.mem_reverse.mp hc)
    · exact hfront c hc
  · exact hspace c (List.mem_reverse.mp ((List.takeWhile_prefix _).mem hc))

/-- Behind the end of a line. -/
theorem lineStart_boundary (front : List Char) {c : Char} (hc : lineBoundary c = true) : LineStart (front ++ [c]) := by
  intro d hd
  simp [hc] at hd

theorem LineStart.space {line : List Char} (h : LineStart line) (hline : ∀ c ∈ line, lineBoundary c = false) :
    ∀ c ∈ line, isSpace c = true := by
  intro c hc
  apply h
  rw [List.takeWhile_eq_self_iff.mpr]
  · exact List.mem_reverse.mpr hc
  · intro d hd
    rw [hline d (List.mem_reverse.mp hd)]
    rfl

theorem candidate_spaces {line more rest : List Char} (h : ∀ c ∈ line, isSpace c = true) :
    candidate (line ++ '\x7b' :: more, line ++ '\x7b' :: rest) = some ('\x7b' :: rest) := by
  have hdrop : (line ++ '\x7b' :: more).dropWhile isSpace = '\x7b' :: more := by
    rw [List.dropWhile_append_of_pos h]
    rfl
  have hcount : (line ++ '\x7b' :: more).length - ('\x7b' :: more).length = line.length := by
    rw [List.length_append]
    omega
  unfold candidate
  simp only [hdrop, List.head?_cons, if_true, hcount, List.drop_left]

/-- Every brace that begins a line is a candidate. -/
theorem candidates_complete {line start text a t : List Char} (hstart : start = line ++ text)
    (hline : ∀ c ∈ line, lineBoundary c = false) (htext : text = a ++ '\x7b' :: t) (h : LineStart (line ++ a)) :
    '\x7b' :: t ∈ (keptLines line start text).filterMap candidate := by
  fun_induction keptLines line start text generalizing a with
  | case1 => simp at htext
  | case2 line start hne => simp at htext
  | case3 line start rest ih =>
    cases a with
    | nil => simp at htext
    | cons c a =>
      cases a with
      | nil => simp at htext
      | cons d a =>
        obtain ⟨-, -, hrest⟩ : '\r' = c ∧ '\n' = d ∧ rest = a ++ '\x7b' :: t := by simpa using htext
        have hnext : LineStart ([] ++ a) := by
          apply LineStart.of_append (x := line ++ [c, d])
          simpa using h
        have hmem := ih rfl (fun _ hmem => absurd hmem List.not_mem_nil) hrest hnext
        rw [List.filterMap_cons]
        split
        · exact hmem
        · exact List.mem_cons_of_mem _ hmem
  | case4 line start c rest _ hc ih =>
    cases a with
    | nil =>
      obtain ⟨rfl, -⟩ : c = '\x7b' ∧ rest = t := by simpa using htext
      exact absurd hc (by decide)
    | cons d a =>
      obtain ⟨rfl, hrest⟩ : c = d ∧ rest = a ++ '\x7b' :: t := by simpa using htext
      have hnext : LineStart ([] ++ a) := by
        apply LineStart.of_append (x := line ++ [c])
        simpa using h
      have hmem := ih rfl (fun _ hmem => absurd hmem List.not_mem_nil) hrest hnext
      rw [List.filterMap_cons]
      split
      · exact hmem
      · exact List.mem_cons_of_mem _ hmem
  | case5 line start c rest _ hc ih =>
    cases a with
    | nil =>
      obtain ⟨rfl, rfl⟩ : c = '\x7b' ∧ rest = t := by simpa using htext
      rw [List.append_nil] at h
      obtain ⟨more, tail, heq⟩ := @keptLines_head (line ++ ['\x7b']) start rest (by simp)
      have hcandidate : candidate (line ++ ['\x7b'] ++ more, start) = some ('\x7b' :: rest) := by
        rw [hstart, List.append_assoc]
        exact candidate_spaces (h.space hline)
      rw [heq, List.filterMap_cons_some hcandidate]
      exact List.mem_cons_self
    | cons d a =>
      obtain ⟨rfl, hrest⟩ : c = d ∧ rest = a ++ '\x7b' :: t := by simpa using htext
      refine ih (by rw [hstart]; simp) ?_ hrest (by simpa using h)
      intro e he
      rcases List.mem_append.mp he with he | he
      · exact hline e he
      · rw [List.mem_singleton.mp he]
        simpa using hc

/-- The lines begin where lines begin. -/
theorem keptLines_starts {whole before line start text : List Char} (hwhole : whole = before ++ start)
    (hstart : start = line ++ text) (hbefore : LineStart before) :
    ∀ kept ∈ keptLines line start text, ∃ front, whole = front ++ kept.2 ∧ LineStart front := by
  fun_induction keptLines line start text generalizing before with
  | case1 =>
    intro kept hkept
    cases hkept
  | case2 line start hne =>
    intro kept hkept
    rw [List.mem_singleton.mp hkept]
    exact ⟨before, hwhole, hbefore⟩
  | case3 line start rest ih =>
    intro kept hkept
    rcases List.mem_cons.mp hkept with rfl | hkept
    · exact ⟨before, hwhole, hbefore⟩
    · have hnext : whole = before ++ line ++ ['\r'] ++ ['\n'] ++ rest := by
        rw [hwhole, hstart]
        simp
      exact ih hnext rfl (lineStart_boundary _ (by decide)) kept hkept
  | case4 line start c rest _ hc ih =>
    intro kept hkept
    rcases List.mem_cons.mp hkept with rfl | hkept
    · exact ⟨before, hwhole, hbefore⟩
    · have hnext : whole = before ++ line ++ [c] ++ rest := by
        rw [hwhole, hstart]
        simp
      exact ih hnext rfl (lineStart_boundary _ hc) kept hkept
  | case5 line start c rest _ hc ih => exact ih hwhole (by rw [hstart]; simp) hbefore

/-- A candidate stands at the start of a line. -/
theorem candidates_sound {text object : List Char} (h : object ∈ (keptLines [] text text).filterMap candidate) :
    (∃ front, text = front ++ object ∧ LineStart front) ∧ object.head? = some '\x7b' := by
  obtain ⟨kept, hkept, hcandidate⟩ := List.mem_filterMap.mp h
  have hfront := @keptLines_front [] text text rfl kept hkept
  refine ⟨?_, (candidate_head hfront hcandidate).1⟩
  obtain ⟨front, htext, hline⟩ := @keptLines_starts text [] [] text text rfl rfl nofun kept hkept
  unfold candidate at hcandidate
  split at hcandidate
  · cases hcandidate
    obtain ⟨more, hmore⟩ := hfront
    have hsplit : kept.1.takeWhile isSpace ++ kept.1.dropWhile isSpace = kept.1 := List.takeWhile_append_dropWhile
    have hcount : kept.1.length - (kept.1.dropWhile isSpace).length = (kept.1.takeWhile isSpace).length := by
      have hlength := congrArg List.length hsplit
      rw [List.length_append] at hlength
      omega
    have hkept2 : kept.2 = kept.1.takeWhile isSpace ++ (kept.1.dropWhile isSpace ++ more) := by
      rw [← List.append_assoc, hsplit, hmore]
    refine ⟨front ++ kept.1.takeWhile isSpace, ?_, hline.append fun c hc => List.mem_takeWhile_imp hc⟩
    rw [hcount, List.append_assoc, htext]
    congr 1
    rw [hkept2, List.drop_left]
  · cases hcandidate

/-! ### The object of a document -/

theorem objectsAt_single {starts : List (List Char)} {value : Json φ} {after : List Char}
    (hbrace : ∀ start ∈ starts, start.head? = some '\x7b') (h : objectsAt starts = .ok [(value, after)]) :
    ∃ object ∈ starts, rawDecode object = .ok (value, after) ∧ (∃ fields, value = .obj fields) ∧
      ∀ other ∈ starts, ∀ (v : Json φ) rest, rawDecode other = .ok (v, rest) → other = object := by
  induction starts with
  | nil => cases h
  | cons start starts ih =>
    have hlater : ∀ other ∈ starts, other.head? = some '\x7b' := fun other hother =>
      hbrace other (List.mem_cons_of_mem _ hother)
    rw [objectsAt] at h
    cases hraw : (rawDecode start : Except Halt (Json φ × List Char)) with
    | error halt =>
      rw [hraw] at h
      cases halt with
      | refused message => cases h
      | syntaxError =>
        obtain ⟨object, hmem, hobject, hfields, hsole⟩ := ih hlater h
        refine ⟨object, List.mem_cons_of_mem _ hmem, hobject, hfields, fun other hother v rest hdecode => ?_⟩
        rcases List.mem_cons.mp hother with rfl | hother
        · rw [hraw] at hdecode
          cases hdecode
        · exact hsole other hother v rest hdecode
    | ok found =>
      obtain ⟨item, last⟩ := found
      have hfields : ∃ fields, item = .obj fields := by
        cases start with
        | nil =>
          have hhead := hbrace [] List.mem_cons_self
          cases hhead
        | cons c start =>
          have hhead := hbrace (c :: start) List.mem_cons_self
          cases hhead
          exact readValue_brace_obj hraw
      obtain ⟨fields, rfl⟩ := hfields
      rw [hraw] at h
      obtain ⟨found, hfound, heq⟩ := bind_ok.mp h
      obtain ⟨hpair, rfl⟩ : (Json.obj fields, last) = (value, after) ∧ found = [] := by
        have heq := Except.ok.inj heq
        exact ⟨(List.cons.inj heq).1, (List.cons.inj heq).2⟩
      cases hpair
      have hnone := (objectsAt_nil hlater).mp hfound
      refine ⟨start, List.mem_cons_self, hraw, ⟨fields, rfl⟩, fun other hother v rest hdecode => ?_⟩
      rcases List.mem_cons.mp hother with rfl | hother
      · rfl
      · rw [hnone other hother] at hdecode
        cases hdecode

theorem space_of_strip {text : List Char} (h : strip text = []) : ∀ c ∈ text, isSpace c = true := by
  rw [strip, List.reverse_eq_nil_iff, List.dropWhile_eq_nil_iff] at h
  have hdrop : text.dropWhile isSpace = [] := by
    by_contra hne
    obtain ⟨c, rest, heq⟩ := List.exists_cons_of_ne_nil hne
    have hhead := List.head?_dropWhile_not isSpace text
    rw [heq] at hhead h
    have hspace := h c (by simp)
    simp [hspace] at hhead
  exact List.dropWhile_eq_nil_iff.mp hdrop

/-- An object that is complete does not end within white space. -/
theorem suffix_of_space {before after front rest : List Char} (hafter : ∀ c ∈ after, isSpace c = true)
    (h : before ++ after = front ++ ['\x7d'] ++ rest) : after <:+ rest := by
  rcases List.append_eq_append_iff.mp h with ⟨more, hfront, hmore⟩ | ⟨more, -, hrest⟩
  · cases hlast : more.getLast? with
    | none =>
      rw [List.getLast?_eq_none_iff.mp hlast, List.nil_append] at hmore
      rw [hmore]
    | some d =>
      have hd : d = '\x7d' := by
        have hends := congrArg List.getLast? hfront
        rw [List.getLast?_append, List.getLast?_append, hlast] at hends
        simpa using hends.symm
      have hspace := hafter d (hmore ▸ List.mem_append_left _ (List.mem_of_getLast? hlast))
      rw [hd] at hspace
      exact absurd hspace (by decide)
  · exact ⟨more, hrest.symm⟩

theorem isSpace_json {c : Char} (h : (c == ' ' || c == '\t' || c == '\n' || c == '\r') = true) : isSpace c = true := by
  simp only [Bool.or_eq_true, beq_iff_eq] at h
  rcases h with ((rfl | rfl) | rfl) | rfl <;> rfl

/-- A text that is one document. -/
theorem only_of_loads {text : List Char} {fields : List (String × Json φ)} (h : loads text = .ok (.obj fields)) :
    Only LineStart text (.obj fields) := by
  unfold loads at h
  obtain ⟨⟨value, after⟩, hraw, hend⟩ := bind_ok.mp h
  simp only at hend
  split at hend
  · rename_i hblank
    cases hend
    have hsplit : text.takeWhile (fun c => c == ' ' || c == '\t' || c == '\n' || c == '\r') ++ skipSpace text = text :=
      List.takeWhile_append_dropWhile
    have hfront : ∀ c ∈ text.takeWhile (fun c => c == ' ' || c == '\t' || c == '\n' || c == '\r'), isSpace c = true := by
      intro c hc
      have hjson := List.mem_takeWhile_imp hc
      exact isSpace_json hjson
    have hafter : ∀ c ∈ after, isSpace c = true := fun c hc => isSpace_json (List.dropWhile_eq_nil_iff.mp hblank c hc)
    obtain ⟨inner, hobject, -⟩ := readValue_obj hraw
    refine ⟨_, skipSpace text, after, hsplit.symm, lineStart_of_space hfront, hraw, ⟨fields, rfl⟩, hafter, ?_⟩
    intro front' text' other after' htext _ hother
    obtain ⟨fields', rfl⟩ := readValue_brace_obj hother
    obtain ⟨inner', hobject', -⟩ := readValue_obj hother
    constructor
    · rcases List.append_eq_append_iff.mp (hsplit.trans htext) with ⟨more, hmore, -⟩ | ⟨more, hmore, hrest⟩
      · exact ⟨more, hmore.symm⟩
      · cases more with
        | nil =>
          rw [List.append_nil] at hmore
          rw [hmore]
        | cons d more =>
          have hspace := hfront d (hmore ▸ List.mem_append_right _ List.mem_cons_self)
          rw [← (List.cons.inj hrest).1] at hspace
          exact absurd hspace (by decide)
    · have hends : text.takeWhile (fun c => c == ' ' || c == '\t' || c == '\n' || c == '\r') ++
          ('\x7b' :: (inner ++ ['\x7d'])) ++ after = front' ++ '\x7b' :: inner' ++ ['\x7d'] ++ after' := by
        calc text.takeWhile (fun c => c == ' ' || c == '\t' || c == '\n' || c == '\r') ++ ('\x7b' :: (inner ++ ['\x7d'])) ++ after
            = text := by rw [List.append_assoc, ← hobject, hsplit]
          _ = front' ++ '\x7b' :: inner' ++ ['\x7d'] ++ after' := by
            rw [htext, hobject']
            simp
      exact suffix_of_space hafter hends
  · cases hend

/-- Commentary before the object. -/
theorem only_of_objectsAt {text : List Char} {value : Json φ} {after : List Char}
    (h : objectsAt ((keptLines [] text text).filterMap candidate) = .ok [(value, after)]) (hafter : strip after = []) :
    Only LineStart text value := by
  obtain ⟨object, hmem, hobject, hfields, hsole⟩ :=
    objectsAt_single (fun start hstart => (candidates_sound hstart).2) h
  obtain ⟨⟨front, htext, hline⟩, -⟩ := candidates_sound hmem
  refine ⟨front, object, after, htext, hline, hobject, hfields, space_of_strip hafter, ?_⟩
  intro front' text' other after' htext' hline' hother
  have hsame := hsole _ (candidates_complete (a := front') rfl nofun htext' hline') other after' hother
  rw [hsame, hobject] at hother
  cases hother
  have hfront : front' = front := by
    rw [htext, ← hsame] at htext'
    exact (List.append_cancel_right htext').symm
  rw [hfront]
  exact ⟨List.prefix_rfl, List.suffix_rfl⟩

theorem only_of_document {text : List Char} {fields : List (String × Json φ)}
    (h : document text = (.ok (.obj fields) : Except ControlError (Json φ))) :
    Only LineStart text (.obj fields) := by
  unfold document at h
  split at h
  · rename_i value hloads
    cases h
    exact only_of_loads hloads
  · cases h
  · split at h
    · cases h
    · rename_i value after hobjects
      split at h
      · rename_i hafter
        cases h
        exact only_of_objectsAt hobjects hafter
      · cases h
    · cases h

/-! ### The reply -/

/-- What the result is read from: the text, where no line starts with a marker, or what stands behind the one line
with that marker. -/
def Chosen (text chosen : List Char) : Prop :=
  (NoMarkerLine text ∧ chosen = text) ∨
    ∃ marker ∈ markers, ∃ line, ((splitlines text).filter fun line => marker.isPrefixOf line) = [line] ∧
      chosen = strip (line.drop marker.length)

theorem marked_nil {marker text : List Char} (h : marked marker text = []) :
    ∀ line ∈ splitlines text, marker.isPrefixOf line = false := by
  intro line hline
  rw [marked, List.map_eq_nil_iff, List.filter_eq_nil_iff] at h
  exact Bool.eq_false_iff.mpr (h line hline)

/-- The markers are tried in order. -/
theorem select_ok {text chosen : List Char} {ms : List (List Char)} (h : select text ms = .ok chosen) :
    ((∀ marker ∈ ms, ∀ line ∈ splitlines text, marker.isPrefixOf line = false) ∧ chosen = text) ∨
      ∃ marker ∈ ms, ∃ line, ((splitlines text).filter fun line => marker.isPrefixOf line) = [line] ∧
        chosen = strip (line.drop marker.length) := by
  induction ms with
  | nil =>
    cases h
    exact .inl ⟨nofun, rfl⟩
  | cons marker ms ih =>
    rw [select] at h
    split at h
    · rename_i hnone
      rcases ih h with ⟨hlines, hchosen⟩ | ⟨other, hmem, hline⟩
      · refine .inl ⟨?_, hchosen⟩
        rw [List.forall_mem_cons]
        exact ⟨marked_nil hnone, hlines⟩
      · exact .inr ⟨other, List.mem_cons_of_mem _ hmem, hline⟩
    · rename_i line hone
      cases h
      rw [marked] at hone
      obtain ⟨found, hfound, hline⟩ := List.map_eq_singleton_iff.mp hone
      exact .inr ⟨marker, List.mem_cons_self, found, hfound, hline.symm⟩
    · cases h

/-- A value that is returned is the one object that begins a line, in the reply without its fence or behind the one
marker. -/
theorem returned_only {reply : List Char} {value : Json φ} (h : parseReply reply = .ok value) :
    ∃ chosen, Chosen (body reply) chosen ∧ Only LineStart chosen value := by
  unfold parseReply at h
  obtain ⟨chosen, hchosen, hnext⟩ := bind_ok.mp h
  obtain ⟨found, hfound, hchecked⟩ := bind_ok.mp hnext
  refine ⟨chosen, select_ok hchosen, ?_⟩
  unfold checked at hchecked
  split at hchecked
  · split at hchecked
    · cases hchecked
    · cases hchecked
      exact only_of_document hfound
  · cases hchecked

theorem returned_only_flat :
    ∃ chosen, Chosen (body (noted ++ '\n' :: flatText)) chosen ∧ Only LineStart chosen (Json.obj flatFields) :=
  returned_only rfl

/-! ### An object in a line of prose -/

def markerLines (text : List Char) : List (List Char) :=
  (splitlines text).filter fun line => markers.any fun marker => marker.isPrefixOf line

/-- At most one line with a marker, and without one, one object that is not within another, at the end. -/
def OneResult (reply : List Char) (value : Json φ) : Prop :=
  (markerLines reply).length ≤ 1 ∧ (markerLines reply = [] → Only (fun _ => True) reply value)

/-- `No {}` and on the next line `{"a":1}`. -/
def proseText : List Char := ['N', 'o', ' ', '\x7b', '\x7d', '\n', '\x7b', '\x22', 'a', '\x22', ':', '1', '\x7d']

theorem prose_returned : ¬ ∀ (reply : List Char) (value : Json FloatLiteral), parseReply reply = .ok value →
    OneResult reply value := by
  intro h
  have hok : (parseReply proseText : Except ControlError (Json FloatLiteral)).isOk = true := by decide +kernel
  cases hparse : (parseReply proseText : Except ControlError (Json FloatLiteral)) with
  | error e =>
    rw [hparse] at hok
    cases hok
  | ok value =>
    obtain ⟨front, object, after, htext, -, hobject, -, -, hsole⟩ := (h proseText value hparse).2 (by decide +kernel)
    have hfirst := hsole ['N', 'o', ' '] (proseText.drop 4) (.obj []) (proseText.drop 5) rfl trivial rfl
    have hlast := hsole (proseText.take 6) (proseText.drop 7) (.obj flatFields) [] rfl trivial rfl
    have hafter : after = [] := List.suffix_nil.mp hlast.2
    have hnone : ∀ n < 4, ((rawDecode (proseText.drop n) : Except Halt (Json FloatLiteral × List Char)).toOption.map
        Prod.snd) ≠ some [] := by decide +kernel
    apply hnone front.length (Nat.lt_succ_of_le hfirst.1.length_le)
    rw [htext, List.drop_left, hobject, hafter]
    rfl

end AutoAgents.Reply
