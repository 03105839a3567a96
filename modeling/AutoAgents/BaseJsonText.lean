import AutoAgents.BaseJson

/-! The texts of documents with blanks: on one line, and with an indent of two. -/

namespace Base

variable {φ : Type} [FloatText φ]

mutual
/-- The text of a document on one line, with a blank behind every comma and every colon. -/
def Json.spaced : Json φ → List Char
  | .arr items => '[' :: spacedItems items ++ [']']
  | .obj fields => '\x7b' :: spacedFields fields ++ ['\x7d']
  | v => v.encode

def spacedItems : List (Json φ) → List Char
  | [] => []
  | [v] => v.spaced
  | v :: w :: rest => v.spaced ++ ',' :: ' ' :: spacedItems (w :: rest)

def spacedFields : List (String × Json φ) → List Char
  | [] => []
  | [(k, v)] => encodeString k.toList ++ ':' :: ' ' :: v.spaced
  | (k, v) :: field :: rest => encodeString k.toList ++ ':' :: ' ' :: v.spaced ++ ',' :: ' ' :: spacedFields (field :: rest)
end

/-- A new line, under an indent of two. -/
def newline (depth : Nat) : List Char := '\n' :: List.replicate (2 * depth) ' '

mutual
/-- The text of a document with every item and every field on a line of its own. -/
def Json.pretty (depth : Nat) : Json φ → List Char
  | .arr [] => ['[', ']']
  | .arr (v :: items) =>
      '[' :: newline (depth + 1) ++ v.pretty (depth + 1) ++ prettyItems (depth + 1) items ++ newline depth ++ [']']
  | .obj [] => ['\x7b', '\x7d']
  | .obj (field :: fields) =>
      '\x7b' :: newline (depth + 1) ++ encodeString field.1.toList ++ ':' :: ' ' :: field.2.pretty (depth + 1) ++
        prettyFields (depth + 1) fields ++ newline depth ++ ['\x7d']
  | v => v.encode

def prettyItems (depth : Nat) : List (Json φ) → List Char
  | [] => []
  | v :: items => ',' :: newline depth ++ v.pretty depth ++ prettyItems depth items

def prettyFields (depth : Nat) : List (String × Json φ) → List Char
  | [] => []
  | field :: fields =>
      ',' :: newline depth ++ encodeString field.1.toList ++ ':' :: ' ' :: field.2.pretty depth ++ prettyFields depth fields
end

/-- The text of an item stands in the text of its array. -/
theorem pretty_item {items : List (Json φ)} {v : Json φ} (h : v ∈ items) (depth : Nat) :
    v.pretty (depth + 1) <:+: (Json.arr items).pretty depth := by
  have hitems : ∀ {items : List (Json φ)}, v ∈ items → v.pretty (depth + 1) <:+: prettyItems (depth + 1) items := by
    intro items h
    induction items with
    | nil => cases h
    | cons w items ih =>
        rw [prettyItems]
        rcases List.mem_cons.mp h with rfl | hlater
        · exact ⟨',' :: newline (depth + 1), prettyItems (depth + 1) items, rfl⟩
        · exact (ih hlater).trans (List.suffix_append _ _).isInfix
  cases items with
  | nil => cases h
  | cons w items =>
      rw [Json.pretty]
      rcases List.mem_cons.mp h with rfl | hlater
      · exact ⟨'[' :: newline (depth + 1), prettyItems (depth + 1) items ++ newline depth ++ [']'], by simp⟩
      · obtain ⟨front, back, hitem⟩ := hitems hlater
        refine ⟨'[' :: newline (depth + 1) ++ w.pretty (depth + 1) ++ front, back ++ newline depth ++ [']'], ?_⟩
        rw [← hitem]
        simp

theorem pretty_str (s : String) (depth : Nat) : (Json.str (φ := φ) s).pretty depth = encodeString s.toList := by
  simp only [Json.pretty, Json.encode]

/-- The text of the first field stands in the text of its object. -/
theorem pretty_first (key : String) (v : Json φ) (fields : List (String × Json φ)) (depth : Nat) :
    v.pretty (depth + 1) <:+: (Json.obj ((key, v) :: fields)).pretty depth := by
  rw [Json.pretty]
  refine ⟨'\x7b' :: newline (depth + 1) ++ encodeString key.toList ++ [':', ' '],
    prettyFields (depth + 1) fields ++ newline depth ++ ['\x7d'], ?_⟩
  simp only [List.append_assoc, List.cons_append, List.nil_append]

end Base
