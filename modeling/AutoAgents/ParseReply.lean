import AutoAgents.BaseJsonAscii
import AutoAgents.ControlTypes
import AutoAgents.OperatorSecrets

/-! The one structured result in the reply of a model. The reply may be fenced, marked, or joined with
commentary. -/

namespace AutoAgents.Reply

/-- Bounded statements about characters are decided along the list. -/
local instance (priority := 5000) decideEach {p : Char → Prop} [DecidablePred p] (text : List Char) : Decidable (∀ c ∈ text, p c) :=
  List.decidableBAll p text

open Base
open Operator (isSpace strip lineBoundary splitlines splitlinesFrom)

variable {φ : Type} [FloatText φ]

/-! ### The decoder -/

/-- What ends a decoding: a `ValueError`, or the error that a hook raises. -/
inductive Halt
  | syntaxError
  | refused (message : String)
  deriving DecidableEq, Repr

/-- `unique`: the first key that comes again. -/
def duplicate : List (String × Json φ) → List String → Option String
  | [], _ => none
  | (key, _) :: pairs, seen => if key ∈ seen then some key else duplicate pairs (key :: seen)

def objectHook (pairs : List (String × Json φ)) : Except Halt (Json φ) :=
  match duplicate pairs [] with
  | some key => .error (.refused ("Duplicate JSON field: " ++ key))
  | none => .ok (.obj pairs)

/-- A word or a number; the words that are no JSON are refused at once. -/
def readAtom (text : List Char) : Except Halt (Json φ × List Char) :=
  match parseAtom text with
  | none => .error .syntaxError
  | some (.nonFinite x, _) => .error (.refused ("Invalid JSON number: " ++ String.ofList x.text))
  | some found => .ok found

mutual
/-- A document at the start of a text, and what follows it. -/
def readValue : Nat → List Char → Except Halt (Json φ × List Char)
  | 0, _ => .error .syntaxError
  | _ + 1, [] => .error .syntaxError
  | n + 1, c :: rest =>
      if c = '\x22' then
        match scanString rest with
        | none => .error .syntaxError
        | some (s, rest) => .ok (.str (String.ofList s), rest)
      else if c = '[' then
        match skipSpace rest with
        | ']' :: rest => .ok (.arr [], rest)
        | rest => do
            let (items, rest) ← readItems n rest
            return (.arr items, rest)
      else if c = '\x7b' then
        match skipSpace rest with
        | '\x7d' :: rest => .ok (.obj [], rest)
        | rest => do
            let (pairs, rest) ← readFields n rest
            let value ← objectHook pairs
            return (value, rest)
      else readAtom (c :: rest)

def readItems : Nat → List Char → Except Halt (List (Json φ) × List Char)
  | 0, _ => .error .syntaxError
  | n + 1, text => do
      let (value, rest) ← readValue n text
      match skipSpace rest with
      | ']' :: rest => return ([value], rest)
      | ',' :: rest => do
          let (items, rest) ← readItems n (skipSpace rest)
          return (value :: items, rest)
      | _ => .error .syntaxError

def readFields : Nat → List Char → Except Halt (List (String × Json φ) × List Char)
  | 0, _ => .error .syntaxError
  | _ + 1, [] => .error .syntaxError
  | n + 1, c :: rest =>
      if c = '\x22' then
        match scanString rest with
        | none => .error .syntaxError
        | some (key, rest) =>
            match skipSpace rest with
            | ':' :: rest => do
                let (value, rest) ← readValue n (skipSpace rest)
                match skipSpace rest with
                | '\x7d' :: rest => return ([(String.ofList key, value)], rest)
                | ',' :: rest => do
                    let (pairs, rest) ← readFields n (skipSpace rest)
                    return ((String.ofList key, value) :: pairs, rest)
                | _ => .error .syntaxError
            | _ => .error .syntaxError
      else .error .syntaxError
end

/-- `JSONDecoder.raw_decode`; a document within a text is shorter than the text. -/
def rawDecode (text : List Char) : Except Halt (Json φ × List Char) := readValue (text.length + 1) text

/-- `json.loads`. -/
def loads (text : List Char) : Except Halt (Json φ) := do
  let (value, rest) ← rawDecode (skipSpace text)
  if skipSpace rest = [] then return value else .error .syntaxError

/-! ### The reply -/

def markers : List (List Char) :=
  ["CONTROL_RESULT v2:".toList, "FIX_DISPOSITION v1:".toList, "ROUTE_WORKFLOW v1:".toList]

def forbidden : List String :=
  ["status", "source", "contract", "authorization", "budget", "workflow_id", "work_id"]

def fence : List Char := ['\x60', '\x60', '\x60']

/-- `"\n".join(text.splitlines()[1:-1])`. -/
def unfenced (text : List Char) : List Char := ['\n'].intercalate ((splitlines text).drop 1).dropLast

/-- What stands behind the marker in the lines that start with it. -/
def marked (marker : List Char) (text : List Char) : List (List Char) :=
  ((splitlines text).filter fun line => marker.isPrefixOf line).map fun line => strip (line.drop marker.length)

/-- The text behind the one marker, or the text itself. -/
def select (text : List Char) : List (List Char) → Except ControlError (List Char)
  | [] => .ok text
  | marker :: rest =>
      match marked marker text with
      | [] => select text rest
      | [line] => .ok line
      | _ => .error ⟨"model_output", "Exactly one structured result is required", .model⟩

/-- The lines with their ends, each with the text from its start on. -/
def keptLines (line start : List Char) : List Char → List (List Char × List Char)
  | [] => if line = [] then [] else [(line, start)]
  | '\r' :: '\n' :: rest => (line ++ ['\r', '\n'], start) :: keptLines [] rest rest
  | c :: rest =>
      if lineBoundary c = true then (line ++ [c], start) :: keptLines [] rest rest else keptLines (line ++ [c]) start rest

/-- The text from the brace on, where a line starts with one. -/
def candidate (line : List Char × List Char) : Option (List Char) :=
  if (line.1.dropWhile isSpace).head? = some '\x7b' then
    some (line.2.drop (line.1.length - (line.1.dropWhile isSpace).length))
  else none

/-- The objects at the starts of lines, each with what follows it. What a hook raises is raised. -/
def objectsAt : List (List Char) → Except Halt (List (Json φ × List Char))
  | [] => .ok []
  | start :: rest =>
      match rawDecode start with
      | .error .syntaxError => objectsAt rest
      | .error halt => .error halt
      | .ok (item, after) => do
          let found ← objectsAt rest
          match item with
          | .obj _ => return (item, after) :: found
          | _ => return found

def hookError (message : String) : ControlError := ⟨"model_output", message, .model⟩

/-- The document of the selected text. Commentary may stand before one complete terminal object. -/
def document (text : List Char) : Except ControlError (Json φ) :=
  match loads text with
  | .ok value => .ok value
  | .error (.refused message) => .error (hookError message)
  | .error .syntaxError =>
      match objectsAt ((keptLines [] text text).filterMap candidate) with
      | .error (.refused message) => .error (hookError message)
      | .ok [(value, after)] =>
          if strip after = [] then .ok value
          else .error ⟨"model_output", "Return one complete JSON object", .model⟩
      | _ => .error ⟨"model_output", "Return one complete JSON object", .model⟩

def checked : Json φ → Except ControlError (Json φ)
  | .obj fields =>
      if (fields.map Prod.fst).any forbidden.contains = true then
        .error ⟨"model_authority", "Model result includes controller-owned fields", .model⟩
      else .ok (.obj fields)
  | _ => .error ⟨"model_output", "Result must be a JSON object", .model⟩

/-- The text without its fence. -/
def body (reply : List Char) : List Char :=
  if fence.isPrefixOf (strip reply) = true then unfenced (strip reply) else strip reply

def parseReply (reply : List Char) : Except ControlError (Json φ) := do
  let text ← select (body reply) markers
  let value ← document text
  checked value

/-! ### What a document reads -/

/-- Where a reader of JSON stands: outside of a string, in one, or behind a backslash in one; with the number of
open braces. -/
inductive Lex
  | out (depth : Nat)
  | str (depth : Nat)
  | esc (depth : Nat)
  deriving DecidableEq

def Lex.step : Lex → Char → Option Lex
  | .out d, c =>
      if c = '\x22' then some (.str d)
      else if c = '\\' then none
      else if c = '\x7b' then some (.out (d + 1))
      else if c = '\x7d' then (if d = 0 then none else some (.out (d - 1)))
      else some (.out d)
  | .str d, c => if c = '\x22' then some (.out d) else if c = '\\' then some (.esc d) else some (.str d)
  | .esc d, _ => some (.str d)

def Lex.run : Lex → List Char → Option Lex
  | s, [] => some s
  | s, c :: text => (s.step c).bind fun s => s.run text

theorem Lex.run_append (s : Lex) (u v : List Char) : s.run (u ++ v) = (s.run u).bind fun s => s.run v := by
  induction u generalizing s with
  | nil => rfl
  | cons c u ih =>
    rw [List.cons_append, run, run]
    cases s.step c with
    | none => rfl
    | some s => exact ih s

/-- The text ends where it began, with no more or less open. -/
def Balanced (text : List Char) : Prop := ∀ d, (Lex.out d).run text = some (.out d)

theorem Balanced.nil : Balanced [] := fun _ => rfl

theorem Balanced.append {u v : List Char} (hu : Balanced u) (hv : Balanced v) : Balanced (u ++ v) := by
  intro d
  rw [Lex.run_append, hu d]
  exact hv d

/-- A character that is neither a quote nor a backslash nor a brace. -/
def plain (c : Char) : Bool := c != '\x22' && c != '\\' && c != '\x7b' && c != '\x7d'

theorem Balanced.of_plain {text : List Char} (h : ∀ c ∈ text, plain c = true) : Balanced text := by
  induction text with
  | nil => exact .nil
  | cons c text ih =>
    intro d
    have hc := h c List.mem_cons_self
    simp only [plain, Bool.and_eq_true, bne_iff_ne, ne_eq] at hc
    have hrest := ih (fun c' hc' => h c' (List.mem_cons_of_mem _ hc')) d
    simp [Lex.run, Lex.step, hc, hrest]

theorem Balanced.braces {text : List Char} (h : Balanced text) : Balanced ('\x7b' :: (text ++ ['\x7d'])) := by
  intro d
  have hopen : (Lex.out d).run ('\x7b' :: (text ++ ['\x7d'])) = (Lex.out (d + 1)).run (text ++ ['\x7d']) := rfl
  rw [hopen, Lex.run_append, h (d + 1)]
  rfl

theorem skipSpace_split (text : List Char) : ∃ space, text = space ++ skipSpace text ∧ ∀ c ∈ space, plain c = true := by
  refine ⟨_, (List.takeWhile_append_dropWhile).symm, fun c hc => ?_⟩
  have hspace := List.mem_takeWhile_imp hc
  have hplain : ∀ c ∈ [' ', '\t', '\n', '\r'], plain c = true := by decide
  apply hplain
  simpa [or_assoc] using hspace

theorem hexValue_plain {c : Char} {n : Nat} (h : hexValue c = some n) : c ≠ '\x22' ∧ c ≠ '\\' := by
  constructor
  · rintro rfl
    cases h
  · rintro rfl
    cases h

/-- The six characters of an escape by number stay in the string. -/
theorem run_hex {a b c e : Char} {code : Nat} (h : hex4 a b c e = some code) (d : Nat) :
    (Lex.str d).run ['\\', 'u', a, b, c, e] = some (.str d) := by
  unfold hex4 at h
  simp only [Option.bind_eq_bind, Option.bind_eq_some_iff] at h
  obtain ⟨_, ha, _, hb, _, hc, _, he, -⟩ := h
  have ha := hexValue_plain ha
  have hb := hexValue_plain hb
  have hc := hexValue_plain hc
  have he := hexValue_plain he
  simp [Lex.run, Lex.step, ha, hb, hc, he]

/-- A part of a string before a part that is read on. -/
theorem split_front {text rest' : List Char} {pre text' : List Char} {f : List Char × List Char → List Char × List Char}
    {s : List Char} (htext : text = pre ++ text') (hpre : ∀ d, (Lex.str d).run pre = some (.str d))
    (ih : ∀ s' rest, scanString text' = some (s', rest) →
      ∃ span, text' = span ++ '\x22' :: rest ∧ ∀ d, (Lex.str d).run span = some (.str d))
    (h : (scanString text').map f = some (s, rest')) (hf : ∀ found, (f found).2 = found.2) :
    ∃ span, text = span ++ '\x22' :: rest' ∧ ∀ d, (Lex.str d).run span = some (.str d) := by
  obtain ⟨⟨s', rest⟩, hscan, heq⟩ := Option.map_eq_some_iff.mp h
  have hrest : rest = rest' := by
    have hsnd := hf (s', rest)
    rw [heq] at hsnd
    exact hsnd.symm
  obtain ⟨span, hspan, hrun⟩ := ih s' rest hscan
  refine ⟨pre ++ span, ?_, fun d => ?_⟩
  · rw [htext, hspan, hrest, List.append_assoc]
  · rw [Lex.run_append, hpre d]
    exact hrun d

/-- A string is read up to a quote that is not escaped. -/
theorem scanString_split (text : List Char) : ∀ s rest, scanString text = some (s, rest) →
    ∃ span, text = span ++ '\x22' :: rest ∧ ∀ d, (Lex.str d).run span = some (.str d) := by
  fun_induction scanString text with
  | case2 text =>
    intro s rest h
    cases h
    exact ⟨[], rfl, fun _ => rfl⟩
  | case6 a b c e high hhigh hpair t u a' b' c' e' text low hlow hsurrogate char _ ih =>
    obtain ⟨rfl, rfl, -⟩ := hsurrogate
    intro s rest h
    refine @split_front _ rest (['\\', 'u', a, b, c, e] ++ ['\\', 'u', a', b', c', e']) text _ s rfl ?_ ih h
      (fun _ => rfl)
    intro d
    rw [Lex.run_append, run_hex hhigh d]
    exact run_hex hlow d
  | case10 a b c e text code hcode hnotHigh hnotLow _ ih =>
    intro s rest h
    exact @split_front _ rest ['\\', 'u', a, b, c, e] text _ s rfl (run_hex hcode) ih h fun _ => rfl
  | case13 e text hnotNumber char hescape _ ih =>
    intro s rest h
    exact @split_front _ rest ['\\', e] text _ s rfl (fun _ => rfl) ih h fun _ => rfl
  | case15 c text hquote hbackslash hcontrol ih =>
    intro s rest h
    refine @split_front _ rest [c] text _ s rfl (fun d => ?_) ih h fun _ => rfl
    simp [Lex.run, Lex.step, hquote, hbackslash]
  | _ =>
    intro s rest h
    cases h

theorem parseAtom_split {text rest : List Char} {v : Json φ} (h : parseAtom text = some (v, rest)) :
    ∃ span, text = span ++ rest ∧ span ≠ [] ∧ ∀ c ∈ span, plain c = true := by
  unfold parseAtom at h
  split at h
  · rename_i word value hfind
    cases h
    have hfront := List.find?_some hfind
    have hmem := List.mem_of_find?_eq_some hfind
    have hwords : ∀ entry ∈ (words : List (List Char × Json φ)), entry.1 ≠ [] ∧ ∀ c ∈ entry.1, plain c = true := by
      simp only [words, List.forall_mem_cons]
      exact ⟨by decide, by decide, by decide, by decide, by decide, by decide, nofun⟩
    obtain ⟨hne, hplain⟩ := hwords _ hmem
    obtain ⟨after, hafter⟩ := List.isPrefixOf_iff_prefix.mp hfront
    refine ⟨word, ?_, hne, hplain⟩
    rw [← hafter, List.drop_left]
  · obtain ⟨value, hnumber, heq⟩ := Option.map_eq_some_iff.mp h
    cases heq
    refine ⟨_, (List.takeWhile_append_dropWhile).symm, ?_, fun c hc => ?_⟩
    · intro hnil
      rw [hnil] at hnumber
      cases hnumber
    · have hchar : isNumberChar c = true := List.mem_takeWhile_imp hc
      unfold plain
      simp only [Bool.and_eq_true, bne_iff_ne, ne_eq]
      refine ⟨⟨⟨?_, ?_⟩, ?_⟩, ?_⟩ <;>
        · rintro rfl
          exact absurd hchar (by decide)

/-! ### The span of a document -/

/-- The text of a document: it can be told from outside where it ends, and only an object ends with a brace. -/
structure Span (text : List Char) : Prop where
  balanced : Balanced text
  ne : text ≠ []
  brace : text.getLast? = some '\x7d' → ∃ inner, text = '\x7b' :: (inner ++ ['\x7d']) ∧ Balanced inner

theorem Span.of_last {text : List Char} {c : Char} (h : Balanced (text ++ [c])) (hc : c ≠ '\x7d') : Span (text ++ [c]) :=
  ⟨h, by simp, fun hlast => absurd (by simpa using hlast) hc⟩

theorem Span.object {inner : List Char} (h : Balanced inner) : Span ('\x7b' :: (inner ++ ['\x7d'])) :=
  ⟨h.braces, List.cons_ne_nil _ _, fun _ => ⟨inner, rfl, h⟩⟩

theorem Span.of_plain {text : List Char} (h : ∀ c ∈ text, plain c = true) (hne : text ≠ []) : Span text := by
  refine ⟨.of_plain h, hne, fun hlast => ?_⟩
  have hbrace := h '\x7d' (List.mem_of_getLast? hlast)
  exact absurd hbrace (by decide)

theorem Span.string {inner : List Char} (h : ∀ d, (Lex.str d).run inner = some (.str d)) :
    Span ('\x22' :: (inner ++ ['\x22'])) := by
  have hbalanced : Balanced ('\x22' :: (inner ++ ['\x22'])) := by
    intro d
    have hopen : (Lex.out d).run ('\x22' :: (inner ++ ['\x22'])) = (Lex.str d).run (inner ++ ['\x22']) := rfl
    rw [hopen, Lex.run_append, h d]
    rfl
  rw [← List.cons_append] at hbalanced ⊢
  exact .of_last hbalanced (by decide)

theorem readAtom_split {text rest : List Char} {v : Json φ} (h : readAtom text = .ok (v, rest)) :
    ∃ span, text = span ++ rest ∧ Span span := by
  unfold readAtom at h
  split at h
  · cases h
  · cases h
  · rename_i found _ hfound
    cases h
    obtain ⟨span, hspan, hne, hplain⟩ := parseAtom_split hfound
    exact ⟨span, hspan, .of_plain hplain hne⟩

/-- What is read with some fuel: the spans of documents, items and fields. -/
structure Spans (φ : Type) [FloatText φ] (n : Nat) : Prop where
  value : ∀ text (v : Json φ) rest, readValue n text = .ok (v, rest) → ∃ span, text = span ++ rest ∧ Span span
  items : ∀ text (items : List (Json φ)) rest, readItems n text = .ok (items, rest) →
    ∃ span, text = span ++ ']' :: rest ∧ Balanced span
  fields : ∀ text (pairs : List (String × Json φ)) rest, readFields n text = .ok (pairs, rest) →
    ∃ span, text = span ++ '\x7d' :: rest ∧ Balanced span

theorem Balanced.comma : Balanced [','] := .of_plain (by decide)

theorem readItems_spans {n : Nat} (ih : Spans φ n) (text : List Char) (items : List (Json φ)) (rest : List Char)
    (h : readItems (n + 1) text = .ok (items, rest)) : ∃ span, text = span ++ ']' :: rest ∧ Balanced span := by
  rw [readItems] at h
  obtain ⟨⟨value, after⟩, hvalue, hnext⟩ := bind_ok.mp h
  obtain ⟨span, hspan, hvalueSpan⟩ := ih.value _ _ _ hvalue
  obtain ⟨space, hspace, hplain⟩ := skipSpace_split after
  simp only at hnext
  split at hnext
  · rename_i rest' hclose
    cases hnext
    refine ⟨span ++ space, ?_, hvalueSpan.balanced.append (.of_plain hplain)⟩
    rw [hspan, hspace, hclose, List.append_assoc]
  · rename_i rest' hcomma
    obtain ⟨⟨items', last⟩, hitems, heq⟩ := bind_ok.mp hnext
    cases heq
    obtain ⟨more, hmore, hbalanced⟩ := ih.items _ _ _ hitems
    obtain ⟨space', hspace', hplain'⟩ := skipSpace_split rest'
    refine ⟨span ++ (space ++ ([','] ++ (space' ++ more))), ?_, hvalueSpan.balanced.append
      ((Balanced.of_plain hplain).append (Balanced.comma.append ((Balanced.of_plain hplain').append hbalanced)))⟩
    rw [hspan, hspace, hcomma, hspace', hmore]
    simp
  · cases hnext

theorem readFields_spans {n : Nat} (ih : Spans φ n) (text : List Char) (pairs : List (String × Json φ))
    (rest : List Char) (h : readFields (n + 1) text = .ok (pairs, rest)) :
    ∃ span, text = span ++ '\x7d' :: rest ∧ Balanced span := by
  cases text with
  | nil => cases h
  | cons c text =>
    rw [readFields] at h
    split at h
    · rename_i hquote
      subst hquote
      split at h
      · cases h
      · rename_i key after hkey
        obtain ⟨inner, hinner, hrun⟩ := scanString_split text key after hkey
        obtain ⟨space, hspace, hplain⟩ := skipSpace_split after
        split at h
        · rename_i afterColon hcolon
          obtain ⟨space', hspace', hplain'⟩ := skipSpace_split afterColon
          obtain ⟨⟨value, afterValue⟩, hvalue, hnext⟩ := bind_ok.mp h
          obtain ⟨span, hspan, hvalueSpan⟩ := ih.value _ _ _ hvalue
          obtain ⟨space₂, hspace₂, hplain₂⟩ := skipSpace_split afterValue
          have hfront : '\x22' :: text = ('\x22' :: (inner ++ ['\x22'])) ++ (space ++ ([':'] ++ (space' ++ (span ++
              (space₂ ++ skipSpace afterValue))))) := by
            rw [hinner, hspace, hcolon, hspace', hspan, ← hspace₂]
            simp
          have hbalanced : ∀ more, Balanced more → Balanced (('\x22' :: (inner ++ ['\x22'])) ++ (space ++ ([':'] ++
              (space' ++ (span ++ (space₂ ++ more)))))) := fun more hmore =>
            (Span.string hrun).balanced.append ((Balanced.of_plain hplain).append ((Balanced.of_plain (by decide)).append
              ((Balanced.of_plain hplain').append (hvalueSpan.balanced.append ((Balanced.of_plain hplain₂).append hmore)))))
          simp only at hnext
          split at hnext
          · rename_i last hclose
            cases hnext
            refine ⟨_, ?_, hbalanced [] .nil⟩
            rw [hfront, hclose]
            simp
          · rename_i last hcomma
            obtain ⟨⟨pairs', last'⟩, hpairs, heq⟩ := bind_ok.mp hnext
            cases heq
            obtain ⟨more, hmore, hmoreBalanced⟩ := ih.fields _ _ _ hpairs
            obtain ⟨space₃, hspace₃, hplain₃⟩ := skipSpace_split last
            refine ⟨_, ?_, hbalanced ([','] ++ (space₃ ++ more))
              (Balanced.comma.append ((Balanced.of_plain hplain₃).append hmoreBalanced))⟩
            rw [hfront, hcomma, hspace₃, hmore]
            simp
          · cases hnext
        · cases h
    · cases h

theorem readValue_brace {n : Nat} (ih : Spans φ n) {text : List Char} {v : Json φ} {rest : List Char}
    (h : readValue (n + 1) ('\x7b' :: text) = .ok (v, rest)) :
    ∃ inner, '\x7b' :: text = '\x7b' :: (inner ++ ['\x7d']) ++ rest ∧ Balanced inner := by
  obtain ⟨space, hspace, hplain⟩ := skipSpace_split text
  rw [readValue, if_neg (by decide), if_neg (by decide), if_pos rfl] at h
  split at h
  · rename_i after hempty
    cases h
    refine ⟨space, ?_, .of_plain hplain⟩
    rw [hspace, hempty]
    simp
  · obtain ⟨⟨pairs, after⟩, hpairs, hnext⟩ := bind_ok.mp h
    obtain ⟨value, hhook, heq⟩ := bind_ok.mp hnext
    cases heq
    obtain ⟨span, hspan, hbalanced⟩ := ih.fields _ _ _ hpairs
    refine ⟨space ++ span, ?_, (Balanced.of_plain hplain).append hbalanced⟩
    rw [hspace, hspan]
    simp

theorem readValue_spans {n : Nat} (ih : Spans φ n) (text : List Char) (v : Json φ) (rest : List Char)
    (h : readValue (n + 1) text = .ok (v, rest)) : ∃ span, text = span ++ rest ∧ Span span := by
  cases text with
  | nil => cases h
  | cons c text =>
    obtain ⟨space, hspace, hplain⟩ := skipSpace_split text
    have hread := h
    rw [readValue] at h
    split at h
    · rename_i hquote
      subst hquote
      split at h
      · cases h
      · rename_i s after hscan
        cases h
        obtain ⟨inner, hinner, hrun⟩ := scanString_split text s rest hscan
        refine ⟨_, ?_, .string hrun⟩
        rw [hinner]
        simp
    · split at h
      · rename_i hbracket
        subst hbracket
        have hopen : Balanced ['['] := .of_plain (by decide)
        have hclose : Balanced [']'] := .of_plain (by decide)
        split at h
        · rename_i after hempty
          cases h
          refine ⟨(['['] ++ space) ++ [']'], ?_, .of_last ((hopen.append (.of_plain hplain)).append hclose) (by decide)⟩
          rw [hspace, hempty]
          simp
        · obtain ⟨⟨items, after⟩, hitems, heq⟩ := bind_ok.mp h
          cases heq
          obtain ⟨span, hspan, hbalanced⟩ := ih.items _ _ _ hitems
          refine ⟨(['['] ++ (space ++ span)) ++ [']'], ?_,
            .of_last ((hopen.append ((Balanced.of_plain hplain).append hbalanced)).append hclose) (by decide)⟩
          rw [hspace, hspan]
          simp
      · split at h
        · rename_i hbrace
          subst hbrace
          obtain ⟨inner, hinner, hbalanced⟩ := readValue_brace ih hread
          exact ⟨_, hinner, .object hbalanced⟩
        · exact readAtom_split h

theorem spans (n : Nat) : Spans φ n := by
  induction n with
  | zero => exact ⟨fun _ _ _ h => (by cases h), fun _ _ _ h => (by cases h), fun _ _ _ h => (by cases h)⟩
  | succ n ih => exact ⟨readValue_spans ih, readItems_spans ih, readFields_spans ih⟩

theorem parseAtom_not_obj {text rest : List Char} {fields : List (String × Json φ)}
    (h : parseAtom text = some (.obj fields, rest)) : False := by
  unfold parseAtom at h
  split at h
  · rename_i word value hfind
    have hmem := List.mem_of_find?_eq_some hfind
    cases h
    simp [words] at hmem
  · obtain ⟨value, hnumber, heq⟩ := Option.map_eq_some_iff.mp h
    cases heq
    unfold numberOf at hnumber
    split_ifs at hnumber <;> cases hnumber

/-- Only a text that starts with a brace is read as an object. -/
theorem readValue_obj {n : Nat} {text rest : List Char} {fields : List (String × Json φ)}
    (h : readValue n text = .ok (.obj fields, rest)) :
    ∃ inner, text = '\x7b' :: (inner ++ ['\x7d']) ++ rest ∧ Balanced inner := by
  cases n with
  | zero => cases h
  | succ n =>
    cases text with
    | nil => cases h
    | cons c text =>
      by_cases hbrace : c = '\x7b'
      · subst hbrace
        exact readValue_brace (spans n) h
      · exfalso
        rw [readValue] at h
        split at h
        · split at h <;> cases h
        · split at h
          · split at h
            · cases h
            · obtain ⟨⟨items, after⟩, -, heq⟩ := bind_ok.mp h
              cases heq
          · unfold readAtom at h
            split at h
            · cases h
            · cases h
            · rename_i found _ hfound
              cases h
              exact parseAtom_not_obj hfound

/-! ### Lines -/

theorem keptLines_step {c : Char} {line start rest : List Char} (h : c = '\r' → rest.head? ≠ some '\n') :
    keptLines line start (c :: rest) =
      if lineBoundary c = true then (line ++ [c], start) :: keptLines [] rest rest
      else keptLines (line ++ [c]) start rest := by
  rw [keptLines.eq_def]
  split
  · next heq => cases heq
  · next rest' heq =>
      obtain ⟨rfl, rfl⟩ := List.cons.inj heq
      exact absurd rfl (h rfl)
  · next c' rest' _ heq =>
      obtain ⟨rfl, rfl⟩ := List.cons.inj heq
      rfl

theorem keptLines_boundary {line start rest : List Char} :
    keptLines line start ('\n' :: rest) = (line ++ ['\n'], start) :: keptLines [] rest rest := by
  rw [keptLines_step fun heq => absurd heq (by decide), if_pos (by decide)]

/-- A line end is read alone, unless it is the first half of one. -/
theorem not_half {c : Char} {rest t : List Char} (hcr : ∀ rest', c = '\r' → rest = '\n' :: rest' → False)
    (hlast : ¬ (c = '\r' ∧ rest = [])) : c = '\r' → (rest ++ '\n' :: t).head? ≠ some '\n' := by
  intro heq hhead
  cases rest with
  | nil => exact hlast ⟨heq, rfl⟩
  | cons d rest =>
    rw [List.cons_append, List.head?_cons, Option.some.injEq] at hhead
    exact hcr rest heq (by rw [hhead])

/-- Of a text in two parts, the lines are pieces of the first part or lines of the second one. -/
theorem splitlinesFrom_append (line c t : List Char) : ∀ piece ∈ splitlinesFrom line (c ++ '\n' :: t),
    piece <:+: line ++ c ∨ piece ∈ splitlines t := by
  have hend : ∀ line : List Char, ∀ piece ∈ splitlinesFrom line ('\n' :: t),
      piece <:+: line ∨ piece ∈ splitlines t := by
    intro line piece hpiece
    rw [Operator.splitlinesFrom_boundary (by decide) (by decide)] at hpiece
    rcases List.mem_cons.mp hpiece with rfl | hpiece
    · exact .inl List.infix_rfl
    · exact .inr hpiece
  have hafter : ∀ {line first rest piece : List Char}, piece <:+: [] ++ rest ∨ piece ∈ splitlines t →
      piece <:+: line ++ (first ++ rest) ∨ piece ∈ splitlines t := by
    rintro line first rest piece (hin | hin)
    · rw [List.nil_append] at hin
      refine .inl (hin.trans ⟨line ++ first, [], ?_⟩)
      simp
    · exact .inr hin
  fun_induction splitlinesFrom line c with
  | case1 => exact hend []
  | case2 line hne =>
    rw [List.append_nil]
    exact hend line
  | case3 line rest ih =>
    intro piece hpiece
    rw [List.cons_append, List.cons_append, splitlinesFrom] at hpiece
    rcases List.mem_cons.mp hpiece with rfl | hpiece
    · exact .inl (List.prefix_append _ _).isInfix
    · exact @hafter line ['\r', '\n'] rest piece (ih piece hpiece)
  | case4 line c rest hcr hc ih =>
    intro piece hpiece
    by_cases hlast : c = '\r' ∧ rest = []
    · obtain ⟨rfl, rfl⟩ := hlast
      rw [List.cons_append, List.nil_append, splitlinesFrom] at hpiece
      rcases List.mem_cons.mp hpiece with rfl | hpiece
      · exact .inl (List.prefix_append _ _).isInfix
      · exact .inr hpiece
    · rw [List.cons_append, Operator.splitlinesFrom_step (not_half hcr hlast), if_pos hc] at hpiece
      rcases List.mem_cons.mp hpiece with rfl | hpiece
      · exact .inl (List.prefix_append _ _).isInfix
      · exact @hafter line [c] rest piece (ih piece hpiece)
  | case5 line c rest hcr hc ih =>
    intro piece hpiece
    have hne : ¬ (c = '\r' ∧ rest = []) := by
      rintro ⟨rfl, -⟩
      exact hc (by decide)
    rw [List.cons_append, Operator.splitlinesFrom_step (not_half hcr hne), if_neg hc] at hpiece
    have hin := ih piece hpiece
    rwa [List.append_assoc, List.singleton_append] at hin

theorem candidate_none {line start : List Char} (h : '\x7b' ∉ line) : candidate (line, start) = none := by
  unfold candidate
  rw [if_neg]
  intro hhead
  exact h ((List.dropWhile_sublist _).mem (List.mem_of_mem_head? hhead))

/-- Before the second part of a text without a brace in the first one, no line starts with a brace. -/
theorem candidates_append (line start c t : List Char) (h : '\x7b' ∉ line ++ c) :
    (keptLines line start (c ++ '\n' :: t)).filterMap candidate = (keptLines [] t t).filterMap candidate := by
  have hend : ∀ line start : List Char, '\x7b' ∉ line →
      (keptLines line start ('\n' :: t)).filterMap candidate = (keptLines [] t t).filterMap candidate := by
    intro line start hline
    rw [keptLines_boundary, List.filterMap_cons_none]
    apply candidate_none
    rw [List.mem_append, not_or]
    exact ⟨hline, by decide⟩
  have hafter : ∀ {line first rest : List Char}, '\x7b' ∉ line ++ (first ++ rest) →
      '\x7b' ∉ line ++ first ∧ '\x7b' ∉ [] ++ rest := by
    intro line first rest hin
    simp only [List.mem_append, not_or] at hin ⊢
    exact ⟨⟨hin.1, hin.2.1⟩, List.not_mem_nil, hin.2.2⟩
  fun_induction splitlinesFrom line c generalizing start with
  | case1 => exact hend [] start h
  | case2 line hne =>
    rw [List.append_nil] at h
    exact hend line start h
  | case3 line rest ih =>
    obtain ⟨hline, hrest⟩ := @hafter line ['\r', '\n'] rest h
    rw [List.cons_append, List.cons_append, keptLines, List.filterMap_cons_none (candidate_none hline)]
    exact ih _ hrest
  | case4 line c rest hcr hc ih =>
    obtain ⟨hline, hrest⟩ := @hafter line [c] rest h
    by_cases hlast : c = '\r' ∧ rest = []
    · obtain ⟨rfl, rfl⟩ := hlast
      rw [List.cons_append, List.nil_append, keptLines, List.filterMap_cons_none]
      apply candidate_none
      rw [List.append_cons, List.mem_append, not_or]
      exact ⟨hline, by decide⟩
    · rw [List.cons_append, keptLines_step (not_half hcr hlast), if_pos hc,
        List.filterMap_cons_none (candidate_none hline)]
      exact ih _ hrest
  | case5 line c rest hcr hc ih =>
    have hne : ¬ (c = '\r' ∧ rest = []) := by
      rintro ⟨rfl, -⟩
      exact hc (by decide)
    rw [List.cons_append, keptLines_step (not_half hcr hne), if_neg hc]
    apply ih
    rwa [List.append_assoc, List.singleton_append]

/-- The first line begins with what was read of it. -/
theorem keptLines_head {line : List Char} (start text : List Char) (hline : line ≠ []) :
    ∃ more tail, keptLines line start text = (line ++ more, start) :: tail := by
  fun_induction keptLines line start text with
  | case1 => exact absurd rfl hline
  | case2 line start hne => exact ⟨[], [], by rw [List.append_nil]⟩
  | case3 line start rest _ => exact ⟨_, _, rfl⟩
  | case4 line start c rest _ hc _ => exact ⟨_, _, rfl⟩
  | case5 line start c rest _ hc ih =>
    obtain ⟨more, tail, heq⟩ := ih (by simp)
    exact ⟨c :: more, tail, by rw [heq, List.append_assoc, List.singleton_append]⟩

/-- The places at which a later line of the text starts with a brace. -/
def laterStarts (t : List Char) : List (List Char) := ((keptLines [] t t).drop 1).filterMap candidate

theorem candidates_brace (t : List Char) :
    (keptLines [] ('\x7b' :: t) ('\x7b' :: t)).filterMap candidate = ('\x7b' :: t) :: laterStarts ('\x7b' :: t) := by
  have hstep : keptLines [] ('\x7b' :: t) ('\x7b' :: t) = keptLines ['\x7b'] ('\x7b' :: t) t := by
    rw [keptLines_step fun heq => absurd heq (by decide), if_neg (by decide)]
    rfl
  obtain ⟨more, tail, heq⟩ := @keptLines_head ['\x7b'] ('\x7b' :: t) t (by decide)
  have hcandidate : candidate (['\x7b'] ++ more, '\x7b' :: t) = some ('\x7b' :: t) := by
    have hdrop : (['\x7b'] ++ more).dropWhile isSpace = ['\x7b'] ++ more := rfl
    unfold candidate
    simp only [hdrop]
    have hhead : (['\x7b'] ++ more).head? = some '\x7b' := rfl
    rw [if_pos hhead, Nat.sub_self, List.drop_zero]
  rw [laterStarts, hstep, heq, List.filterMap_cons_some hcandidate]
  rfl

/-! ### One result behind commentary -/

/-- A text of the object, without space around it. -/
def Layout (fields : List (String × Json φ)) (t : List Char) : Prop := rawDecode t = .ok (.obj fields, [])

/-- No field belongs to the controller. -/
def Unowned (fields : List (String × Json φ)) : Prop := ∀ field ∈ fields, field.1 ∉ forbidden

def NoMarkerLine (t : List Char) : Prop := ∀ marker ∈ markers, ∀ line ∈ splitlines t, marker.isPrefixOf line = false

/-- Commentary without a brace, a fence or a marker. -/
structure Commentary (c : List Char) : Prop where
  brace : '\x7b' ∉ c ∧ '\x7d' ∉ c
  fence : ¬ fence <:+: c
  marker : ∀ marker ∈ markers, ¬ marker <:+: c

theorem Layout.shape {fields : List (String × Json φ)} {t : List Char} (h : Layout fields t) :
    ∃ inner, t = '\x7b' :: (inner ++ ['\x7d']) ∧ Balanced inner := by
  obtain ⟨inner, ht, hbalanced⟩ := readValue_obj h
  exact ⟨inner, by simpa using ht, hbalanced⟩

omit [FloatText φ] in
theorem checked_unowned {fields : List (String × Json φ)} (h : Unowned fields) :
    checked (.obj fields) = (.ok (.obj fields) : Except ControlError (Json φ)) := by
  refine if_neg fun hany => ?_
  obtain ⟨key, hkey, hforbidden⟩ := List.any_eq_true.mp hany
  obtain ⟨field, hfield, rfl⟩ := List.mem_map.mp hkey
  exact h field hfield (by simpa using hforbidden)

theorem strip_end (text : List Char) {c : Char} (hc : isSpace c = false) :
    strip (text ++ [c]) = (text ++ [c]).dropWhile isSpace := by
  have hlast : ∃ front, (text ++ [c]).dropWhile isSpace = front ++ [c] := by
    induction text with
    | nil => exact ⟨[], by simp [hc]⟩
    | cons d text ih =>
      rw [List.cons_append, List.dropWhile_cons]
      split
      · exact ih
      · exact ⟨d :: text, rfl⟩
  obtain ⟨front, hfront⟩ := hlast
  rw [strip, hfront, List.reverse_append, List.reverse_singleton, List.singleton_append, List.dropWhile_cons, hc,
    if_neg (by decide), List.reverse_cons, List.reverse_reverse]

theorem select_none {text : List Char} {ms : List (List Char)}
    (h : ∀ marker ∈ ms, ∀ line ∈ splitlines text, marker.isPrefixOf line = false) : select text ms = .ok text := by
  induction ms with
  | nil => rfl
  | cons marker ms ih =>
    have hmarked : marked marker text = [] := by
      rw [marked, List.map_eq_nil_iff, List.filter_eq_nil_iff]
      intro line hline
      rw [h marker List.mem_cons_self line hline]
      decide
    rw [select, hmarked]
    exact ih fun other hother => h other (List.mem_cons_of_mem _ hother)

theorem skipSpace_head {c : Char} {text : List Char} (hc : isSpace c = false) : skipSpace (c :: text) = c :: text := by
  apply skipSpace_stop
  have hspaces : isSpace ' ' = true ∧ isSpace '\t' = true ∧ isSpace '\n' = true ∧ isSpace '\r' = true := by decide
  simp only [Bool.or_eq_false_iff, beq_eq_false_iff_ne, ne_eq]
  refine ⟨⟨⟨?_, ?_⟩, ?_⟩, ?_⟩
  · rintro rfl
    simp [hspaces.1] at hc
  · rintro rfl
    simp [hspaces.2.1] at hc
  · rintro rfl
    simp [hspaces.2.2.1] at hc
  · rintro rfl
    simp [hspaces.2.2.2] at hc

/-- A text that ends with a brace and does not begin with one is no document. -/
theorem loads_not_ok {c : Char} {text : List Char} (hspace : isSpace c = false) (hbrace : c ≠ '\x7b') (v : Json φ) :
    loads (c :: (text ++ ['\x7d'])) ≠ .ok v := by
  intro h
  unfold loads at h
  rw [skipSpace_head hspace] at h
  obtain ⟨⟨value, rest⟩, hraw, hend⟩ := bind_ok.mp h
  obtain ⟨span, hspan, hshape⟩ := (spans _).value _ _ _ hraw
  obtain ⟨space, hrest, hplain⟩ := skipSpace_split rest
  simp only at hend
  split at hend
  · rename_i hempty
    rw [hempty, List.append_nil] at hrest
    have hlast : (span ++ rest).getLast? = some '\x7d' := by
      rw [← hspan, ← List.cons_append, List.getLast?_append]
      rfl
    have hnil : rest = [] := by
      by_contra hne
      rw [List.getLast?_append_of_ne_nil _ hne] at hlast
      have hclose := hplain '\x7d' (hrest ▸ List.mem_of_getLast? hlast)
      exact absurd hclose (by decide)
    rw [hnil, List.append_nil] at hlast hspan
    obtain ⟨inner, hinner, -⟩ := hshape.brace hlast
    rw [hinner] at hspan
    exact hbrace (List.cons.inj hspan).1
  · cases hend

theorem loads_layout {fields : List (String × Json φ)} {t : List Char} (h : Layout fields t) :
    loads t = .ok (.obj fields) := by
  obtain ⟨inner, rfl, -⟩ := h.shape
  have hraw : rawDecode ('\x7b' :: (inner ++ ['\x7d'])) = .ok (.obj fields, []) := h
  rw [loads, skipSpace_head (by decide), hraw]
  rfl

theorem objectsAt_layout {fields : List (String × Json φ)} {t : List Char} (h : Layout fields t)
    (starts : List (List Char)) : (objectsAt (t :: starts) : Except Halt (List (Json φ × List Char))) =
      (objectsAt starts).map fun found => (Json.obj fields, ([] : List Char)) :: found := by
  have hraw : rawDecode t = .ok (.obj fields, []) := h
  rw [objectsAt, hraw]
  simp only
  cases (objectsAt starts : Except Halt (List (Json φ × List Char))) <;> rfl

theorem readValue_brace_obj {n : Nat} {text rest : List Char} {v : Json φ}
    (h : readValue (n + 1) ('\x7b' :: text) = .ok (v, rest)) : ∃ fields, v = .obj fields := by
  rw [readValue, if_neg (by decide), if_neg (by decide), if_pos rfl] at h
  split at h
  · cases h
    exact ⟨[], rfl⟩
  · obtain ⟨⟨pairs, after⟩, -, hnext⟩ := bind_ok.mp h
    obtain ⟨value, hhook, heq⟩ := bind_ok.mp hnext
    cases heq
    unfold objectHook at hhook
    split at hhook
    · cases hhook
    · cases hhook
      exact ⟨pairs, rfl⟩

theorem objectsAt_nil {starts : List (List Char)} (hbrace : ∀ start ∈ starts, start.head? = some '\x7b') :
    objectsAt starts = (.ok [] : Except Halt (List (Json φ × List Char))) ↔
      ∀ start ∈ starts, rawDecode start = (.error .syntaxError : Except Halt (Json φ × List Char)) := by
  induction starts with
  | nil => exact iff_of_true rfl nofun
  | cons start starts ih =>
    have hrest := ih fun other hother => hbrace other (List.mem_cons_of_mem _ hother)
    rw [List.forall_mem_cons, objectsAt]
    cases hraw : (rawDecode start : Except Halt (Json φ × List Char)) with
    | error halt =>
      cases halt with
      | syntaxError => simp [hrest]
      | refused message => simp
    | ok found =>
      obtain ⟨item, after⟩ := found
      refine iff_of_false (fun hnil => ?_) (by simp)
      cases start with
      | nil =>
        have hhead := hbrace [] List.mem_cons_self
        cases hhead
      | cons c start =>
        have hhead := hbrace (c :: start) List.mem_cons_self
        cases hhead
        obtain ⟨fields, rfl⟩ := readValue_brace_obj hraw
        obtain ⟨found, -, heq⟩ := bind_ok.mp hnil
        cases heq

/-- Every line stands at the start of the text with it. -/
theorem keptLines_front {line start text : List Char} (h : start = line ++ text) :
    ∀ kept ∈ keptLines line start text, kept.1 <+: kept.2 := by
  fun_induction keptLines line start text with
  | case1 => exact nofun
  | case2 line start hne =>
    intro kept hkept
    rw [List.mem_singleton.mp hkept, h]
    exact List.prefix_append _ _
  | case3 line start rest ih =>
    intro kept hkept
    rcases List.mem_cons.mp hkept with rfl | hkept
    · exact ⟨rest, by rw [h]; simp⟩
    · exact ih rfl kept hkept
  | case4 line start c rest _ hc ih =>
    intro kept hkept
    rcases List.mem_cons.mp hkept with rfl | hkept
    · exact ⟨rest, by rw [h]; simp⟩
    · exact ih rfl kept hkept
  | case5 line start c rest _ hc ih => exact ih (by rw [h]; simp)

theorem candidate_head {kept : List Char × List Char} {start : List Char} (hfront : kept.1 <+: kept.2)
    (h : candidate kept = some start) : start.head? = some '\x7b' ∧ start <:+ kept.2 := by
  obtain ⟨line, text⟩ := kept
  obtain ⟨rest, hrest⟩ := hfront
  simp only at hrest
  subst hrest
  unfold candidate at h
  split at h
  · rename_i hhead
    cases h
    refine ⟨?_, List.drop_suffix _ _⟩
    have hsplit : line.takeWhile isSpace ++ line.dropWhile isSpace = line := List.takeWhile_append_dropWhile
    have hlength := congrArg List.length hsplit
    rw [List.length_append] at hlength
    have hdrop : (line ++ rest).drop (line.length - (line.dropWhile isSpace).length) = line.dropWhile isSpace ++ rest := by
      have hcount : line.length - (line.dropWhile isSpace).length = (line.takeWhile isSpace).length := by omega
      have hline : line ++ rest = line.takeWhile isSpace ++ (line.dropWhile isSpace ++ rest) := by
        rw [← List.append_assoc, hsplit]
      rw [hcount, hline, List.drop_left]
    simp only at hhead ⊢
    rw [hdrop]
    cases hline : line.dropWhile isSpace with
    | nil =>
      rw [hline] at hhead
      cases hhead
    | cons c more =>
      rw [hline] at hhead
      exact hhead
  · cases h

theorem laterStarts_head (t : List Char) : ∀ start ∈ laterStarts t, start.head? = some '\x7b' := by
  intro start hstart
  obtain ⟨kept, hkept, hcandidate⟩ := List.mem_filterMap.mp hstart
  have hfront := @keptLines_front [] t t rfl kept (List.mem_of_mem_drop hkept)
  exact (candidate_head hfront hcandidate).1

/-- The document of a text that ends with an object and has other text before it. -/
theorem document_commentary {fields : List (String × Json φ)} {c t : List Char} {d : Char} (h : Layout fields t)
    (hspace : isSpace d = false) (hbrace : '\x7b' ∉ d :: c) :
    document (d :: (c ++ '\n' :: t)) = (.ok (.obj fields) : Except ControlError (Json φ)) ↔
      (∀ message, (loads (d :: (c ++ '\n' :: t)) : Except Halt (Json φ)) ≠ .error (.refused message)) ∧
        ∀ start ∈ laterStarts t, rawDecode start = (.error .syntaxError : Except Halt (Json φ × List Char)) := by
  obtain ⟨inner, ht, -⟩ := h.shape
  have hd : d ≠ '\x7b' := fun heq => hbrace (heq ▸ List.mem_cons_self)
  have hnotOk : ∀ v : Json φ, loads (d :: (c ++ '\n' :: t)) ≠ .ok v := by
    intro v
    have htext : d :: (c ++ '\n' :: t) = d :: ((c ++ '\n' :: '\x7b' :: inner) ++ ['\x7d']) := by
      rw [ht]
      simp
    rw [htext]
    exact loads_not_ok hspace hd v
  have hcandidates : (keptLines [] (d :: (c ++ '\n' :: t)) (d :: (c ++ '\n' :: t))).filterMap candidate =
      t :: laterStarts t := by
    have happend := candidates_append [] (d :: (c ++ '\n' :: t)) (d :: c) t hbrace
    rw [List.cons_append] at happend
    rw [happend, ht, candidates_brace]
  rw [← objectsAt_nil (laterStarts_head t)]
  unfold document
  cases hloads : (loads (d :: (c ++ '\n' :: t)) : Except Halt (Json φ)) with
  | ok v => exact absurd hloads (hnotOk v)
  | error halt =>
    cases halt with
    | refused message =>
      refine iff_of_false (by simp) ?_
      rintro ⟨hmessage, -⟩
      exact hmessage message rfl
    | syntaxError =>
      simp only [hcandidates, objectsAt_layout h, reduceCtorEq, Except.error.injEq, ne_eq, not_false_eq_true,
        implies_true, true_and]
      cases hlater : (objectsAt (laterStarts t) : Except Halt (List (Json φ × List Char))) with
      | error halt =>
        refine iff_of_false ?_ (by simp)
        cases halt <;> simp [Except.map]
      | ok found =>
        cases found with
        | nil => exact iff_of_true rfl rfl
        | cons other found =>
          refine iff_of_false ?_ (by simp)
          simp [Except.map]

theorem fence_not_front {c t : List Char} (h : ¬ fence <:+: c) : fence.isPrefixOf (c ++ '\n' :: t) = false := by
  rw [Bool.eq_false_iff]
  intro hfront
  obtain ⟨rest, hrest⟩ := List.isPrefixOf_iff_prefix.mp hfront
  rcases List.append_eq_append_iff.mp hrest with ⟨more, hc, -⟩ | ⟨more, hfence, hmore⟩
  · exact h ⟨[], more, by rw [hc]; rfl⟩
  · cases more with
    | nil =>
      rw [List.append_nil] at hfence
      exact h (hfence ▸ List.infix_rfl)
    | cons d more =>
      have hd : d = '\n' := (List.cons.inj hmore).1.symm
      have hmem : d ∈ fence := by
        rw [hfence]
        simp
      rw [hd] at hmem
      exact absurd hmem (by decide)

def noted : List Char := "Note".toList

theorem noted_commentary : Commentary noted := ⟨by decide, by decide +kernel, by decide +kernel⟩

/-- `{"a":[` and an empty object and `]}`, each on a line. -/
def nestedText : List Char := ['\x7b', '\x22', 'a', '\x22', ':', '[', '\n', '\x7b', '\x7d', '\n', ']', '\x7d']

def nestedFields : List (String × Json FloatLiteral) := [("a", .arr [.obj []])]

theorem nested_layout : Layout nestedFields nestedText := rfl

/-- `{"a":1}`. -/
def flatText : List Char := ['\x7b', '\x22', 'a', '\x22', ':', '1', '\x7d']

def flatFields : List (String × Json FloatLiteral) := [("a", .int 1)]

end AutoAgents.Reply
