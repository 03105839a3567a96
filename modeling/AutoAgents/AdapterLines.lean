import AutoAgents.ProofNames

/-! The lines of a provider's output: each holds one document, and the output is cut into lines twice, at the ends of the lines as it comes
in and at every character that ends a line of a text once it is there. -/

namespace AutoAgents.Adapters

open Base
open Operator (isSpace strip lineBoundary rawBoundary splitlines splitlinesFrom splitlinesFrom_line splitlinesFrom_boundary
  splitlinesFrom_step escapeChar_boundary)

variable {φ : Type} [FloatText φ]

/-- A document is written as one line: of the characters that end a line it has none but those that need no escape. -/
def Lined (text : List Char) : Prop := ∀ c ∈ text, lineBoundary c = true → rawBoundary c = true

/-- No character of the text ends a line. -/
def unbroken (text : List Char) : Bool := text.all fun c => !lineBoundary c

/-- Nothing is stripped from the text. -/
def Trimmed (text : List Char) : Prop := text ≠ [] ∧ text.head?.any isSpace = false ∧ text.getLast?.any isSpace = false

/-! ### The text of a document -/

theorem Lined.append {a b : List Char} (ha : Lined a) (hb : Lined b) : Lined (a ++ b) := by
  intro c hc
  rcases List.mem_append.mp hc with h | h
  · exact ha c h
  · exact hb c h

theorem Lined.cons {c : Char} {text : List Char} (hc : lineBoundary c = false) (h : Lined text) : Lined (c :: text) := by
  intro d hd hboundary
  rcases List.mem_cons.mp hd with rfl | hd
  · rw [hc] at hboundary
    cases hboundary
  · exact h d hd hboundary

theorem Lined.nil : Lined [] := fun _ h => nomatch h

theorem lined_unbroken {text : List Char} (h : unbroken text = true) : Lined text := by
  intro c hc hboundary
  have hplain := List.all_eq_true.mp h c hc
  rw [hboundary] at hplain
  cases hplain

theorem isNumberChar_plain {c : Char} (h : isNumberChar c = true) : isSpace c = false ∧ lineBoundary c = false := by
  have hrange : 43 ≤ c.toNat ∧ c.toNat ≤ 101 := by
    simp only [isNumberChar, Bool.or_eq_true, beq_iff_eq] at h
    rcases h with ((((hdigit | rfl) | rfl) | rfl) | rfl) | rfl
    · have hbounds : 48 ≤ c.toNat ∧ c.toNat ≤ 57 := Char.isDigit_iff_toNat.mp hdigit
      omega
    all_goals decide
  constructor
  · simp only [isSpace, Bool.or_eq_false_iff, decide_eq_false_iff_not, beq_eq_false_iff_ne]
    omega
  · simp only [lineBoundary, Bool.or_eq_false_iff, decide_eq_false_iff_not, beq_eq_false_iff_ne]
    omega

theorem lined_number {token : List Char} (h : token.all isNumberChar = true) : Lined token :=
  lined_unbroken (List.all_eq_true.mpr fun c hc => by simp [(isNumberChar_plain (List.all_eq_true.mp h c hc)).2])

theorem lined_string (s : List Char) : Lined (encodeString s) := by
  refine .cons (by decide) (.append ?_ (.cons (by decide) .nil))
  intro d hd hboundary
  obtain ⟨c, -, hescape⟩ := List.mem_flatMap.mp hd
  obtain ⟨rfl, hraw⟩ := (escapeChar_boundary hescape).2 hboundary
  exact hraw

mutual
theorem lined_encode : ∀ v : Json φ, Lined v.encode
  | .null => by unfold Json.encode; exact lined_unbroken (by decide)
  | .bool true => by unfold Json.encode; exact lined_unbroken (by decide)
  | .bool false => by unfold Json.encode; exact lined_unbroken (by decide)
  | .int n => by unfold Json.encode; exact lined_number (encodeInt_chars n)
  | .float x => by unfold Json.encode; exact lined_number (FloatText.repr_chars x)
  | .nonFinite x => by unfold Json.encode; cases x <;> exact lined_unbroken (by decide)
  | .str s => by unfold Json.encode; exact lined_string s.toList
  | .arr items => by unfold Json.encode; exact .cons (by decide) (.append (lined_items items) (.cons (by decide) .nil))
  | .obj fields => by unfold Json.encode; exact .cons (by decide) (.append (lined_fields fields) (.cons (by decide) .nil))

theorem lined_items : ∀ items : List (Json φ), Lined (encodeItems items)
  | [] => .nil
  | [v] => by unfold encodeItems; exact lined_encode v
  | v :: w :: rest => by unfold encodeItems; exact .append (lined_encode v) (.cons (by decide) (lined_items (w :: rest)))

theorem lined_fields : ∀ fields : List (String × Json φ), Lined (encodeFields fields)
  | [] => .nil
  | [(k, v)] => by unfold encodeFields; exact .append (lined_string k.toList) (.cons (by decide) (lined_encode v))
  | (k, v) :: field :: rest => by
      unfold encodeFields
      exact .append (.append (lined_string k.toList) (.cons (by decide) (lined_encode v))) (.cons (by decide) (lined_fields (field :: rest)))
end

theorem trimmed_number {token : List Char} (hne : token ≠ []) (h : token.all isNumberChar = true) : Trimmed token := by
  refine ⟨hne, ?_, ?_⟩
  · cases token with
    | nil => exact absurd rfl hne
    | cons c rest => exact (isNumberChar_plain (List.all_eq_true.mp h c List.mem_cons_self)).1
  · rw [List.getLast?_eq_some_getLast hne]
    exact (isNumberChar_plain (List.all_eq_true.mp h _ (List.getLast_mem hne))).1

theorem trimmed_between {c d : Char} (hc : isSpace c = false) (hd : isSpace d = false) (text : List Char) : Trimmed (c :: text ++ [d]) :=
  ⟨by simp, by simpa using hc, by rw [List.getLast?_concat]; simpa using hd⟩

theorem trimmed_encode (v : Json φ) : Trimmed v.encode := by
  have hne : v.encode ≠ [] := by
    obtain ⟨c, rest, h, -⟩ := encode_head v
    rw [h]
    exact List.cons_ne_nil c rest
  cases v with
  | null => rw [Json.encode]; exact ⟨by decide, by decide, by decide⟩
  | bool b => cases b <;> rw [Json.encode] <;> exact ⟨by decide, by decide, by decide⟩
  | int n => exact trimmed_number hne (encodeInt_chars n)
  | float x => exact trimmed_number hne (FloatText.repr_chars x)
  | nonFinite x => cases x <;> rw [Json.encode] <;> exact ⟨by decide, by decide, by decide⟩
  | str s => exact trimmed_between (by decide) (by decide) _
  | arr items => exact trimmed_between (by decide) (by decide) _
  | obj fields => exact trimmed_between (by decide) (by decide) _

theorem strip_encode (v : Json φ) : strip v.encode = v.encode :=
  Proofs.strip_self (trimmed_encode v).2.1 (trimmed_encode v).2.2

/-! ### Lines that are put together and cut again -/

/-- What is written: each line with its end. -/
def written (lines : List (List Char)) : List Char := lines.flatMap (· ++ ['\n'])

/-- The lines that are read from the whole, without the blank ones. -/
def fragments (text : List Char) : List (List Char) := ((splitlines text).map strip).filter (· ≠ [])

theorem splitlines_written {lines : List (List Char)} (h : ∀ line ∈ lines, unbroken line = true) : splitlines (written lines) = lines := by
  unfold splitlines
  induction lines with
  | nil => rfl
  | cons line rest ih =>
      obtain ⟨hline, hrest⟩ := List.forall_mem_cons.mp h
      have hsplit := ih hrest
      rw [written, List.flatMap_cons, List.append_assoc, splitlinesFrom_line hline, List.nil_append, List.singleton_append,
        splitlinesFrom_boundary (by decide) (by decide)]
      exact congrArg (line :: ·) hsplit

theorem length_splitlinesFrom {text : List Char} (h : '\r' ∉ text) (line : List Char) :
    (splitlinesFrom line text).flatten.length = line.length + (text.filter fun c => !lineBoundary c).length := by
  induction text generalizing line with
  | nil =>
      unfold splitlinesFrom
      split <;> simp_all
  | cons c rest ih =>
      obtain ⟨hc, hrest⟩ := not_or.mp (mt List.mem_cons.mpr h)
      rw [splitlinesFrom_step fun heq => absurd heq.symm hc]
      cases hboundary : lineBoundary c with
      | true => simp [hboundary, ih hrest]
      | false =>
          simp only [Bool.false_eq_true, if_false, ih hrest, List.length_append, List.filter_cons, hboundary, Bool.not_false,
            if_true, List.length_cons, List.length_nil]
          omega

theorem length_dropWhile_le (p : Char → Bool) (text : List Char) : (text.dropWhile p).length ≤ text.length :=
  (List.dropWhile_sublist p).length_le

theorem length_strip_le (text : List Char) : (strip text).length ≤ text.length := by
  unfold strip
  rw [List.length_reverse]
  refine (length_dropWhile_le _ _).trans ?_
  rw [List.length_reverse]
  exact length_dropWhile_le _ _

theorem length_flatten_strip_le (lines : List (List Char)) :
    ((lines.map strip).filter (· ≠ [])).flatten.length ≤ lines.flatten.length := by
  induction lines with
  | nil => exact le_rfl
  | cons line rest ih =>
      have hline := length_strip_le line
      rw [List.map_cons, List.filter_cons]
      split
      · simp only [List.flatten_cons, List.length_append]
        omega
      · simp only [List.flatten_cons, List.length_append]
        omega

theorem Lined.no_return {text : List Char} (h : Lined text) : '\r' ∉ text := by
  intro hmem
  exact absurd (h '\r' hmem (by decide)) (by decide)

theorem length_filter_written {lines : List (List Char)} :
    ((written lines).filter fun c => !lineBoundary c).length = ((lines.map fun line => line.filter fun c => !lineBoundary c).flatten).length := by
  induction lines with
  | nil => rfl
  | cons line rest ih =>
      have hend : (['\n'].filter fun c => !lineBoundary c) = [] := by decide
      simp only [written] at ih
      simp only [written, List.flatMap_cons, List.filter_append, hend, List.append_nil, List.length_append, ih, List.map_cons, List.flatten_cons]

/-- The lines come back from the whole exactly if no character in them ends a line. -/
theorem fragments_written {lines : List (List Char)} (hlined : ∀ line ∈ lines, Lined line) (htrimmed : ∀ line ∈ lines, Trimmed line) :
    fragments (written lines) = lines ↔ ∀ line ∈ lines, unbroken line = true := by
  constructor
  · intro h line hline
    have hreturn : '\r' ∉ written lines := by
      intro hmem
      obtain ⟨other, hother, hchar⟩ := List.mem_flatMap.mp hmem
      rcases List.mem_append.mp hchar with hchar | hchar
      · exact (hlined other hother).no_return hchar
      · exact absurd (List.mem_singleton.mp hchar) (by decide)
    have hle := length_flatten_strip_le (splitlines (written lines))
    rw [show ((splitlines (written lines)).map strip).filter (· ≠ []) = lines from h, splitlines, length_splitlinesFrom hreturn,
      List.length_nil, Nat.zero_add, length_filter_written] at hle
    by_contra hbroken
    have hlt : ((lines.map fun line => line.filter fun c => !lineBoundary c).flatten).length < lines.flatten.length := by
      clear h hle hreturn hlined htrimmed
      induction lines with
      | nil => cases hline
      | cons first rest ih =>
          have hfirst := List.length_filter_le (fun c => !lineBoundary c) first
          have hrest : ((rest.map fun line => line.filter fun c => !lineBoundary c).flatten).length ≤ rest.flatten.length := by
            clear ih hline
            induction rest with
            | nil => exact le_rfl
            | cons next rest ih =>
                have hnext := List.length_filter_le (fun c => !lineBoundary c) next
                simp only [List.map_cons, List.flatten_cons, List.length_append]
                omega
          simp only [List.map_cons, List.flatten_cons, List.length_append]
          rcases List.mem_cons.mp hline with rfl | hline
          · have hlt : (line.filter fun c => !lineBoundary c).length < line.length := by
              refine lt_of_le_of_ne hfirst fun heq => hbroken ?_
              exact List.all_eq_true.mpr (List.length_filter_eq_length_iff.mp heq)
            omega
          · have hlt := ih hline
            omega
    omega
  · intro h
    rw [fragments, splitlines_written h]
    have hmap : lines.map strip = lines := by
      conv_rhs => rw [← List.map_id lines]
      exact List.map_congr_left fun line hline => Proofs.strip_self (htrimmed line hline).2.1 (htrimmed line hline).2.2
    rw [hmap]
    exact List.filter_eq_self.mpr fun line hline => by simpa using (htrimmed line hline).1

end AutoAgents.Adapters
