import Mathlib

/-! Backtracking patterns. A pattern stands for the words it reads between the character before it and the text
after it; the matcher lists the ends of these words in the order in which a backtracking search tries them. -/

namespace Base

/-- A place in a text: the character before it, and what follows. -/
structure Spot where
  before : Option Char
  rest : List Char
  deriving DecidableEq, Repr

inductive Regex
  | one (p : Char → Bool)
  | many (p : Char → Bool)
  | look (test : Spot → Bool)
  | seq (r t : Regex)
  | alt (r t : Regex)

namespace Regex

/-- A repetition takes as much as it can, and gives back from the end. -/
def manyEnds (p : Char → Bool) (before : Option Char) : List Char → List Spot
  | [] => [⟨before, []⟩]
  | c :: rest => if p c = true then manyEnds p (some c) rest ++ [⟨before, c :: rest⟩] else [⟨before, c :: rest⟩]

/-- The places where a match that starts here may end, in the order of the search. -/
def ends : Regex → Spot → List Spot
  | .one p, s =>
      match s.rest with
      | [] => []
      | c :: rest => if p c = true then [⟨some c, rest⟩] else []
  | .many p, s => manyEnds p s.before s.rest
  | .look test, s => if test s = true then [s] else []
  | .seq r t, s => (r.ends s).flatMap t.ends
  | .alt r t, s => r.ends s ++ t.ends s

/-! ### Searching -/

/-- A match starts at the place. -/
def matchesAt (r : Regex) (s : Spot) : Bool := !(r.ends s).isEmpty

def searchFrom (r : Regex) (before : Option Char) : List Char → Bool
  | [] => r.matchesAt ⟨before, []⟩
  | c :: rest => r.matchesAt ⟨before, c :: rest⟩ || searchFrom r (some c) rest

/-- The pattern matches somewhere in the text. -/
def search (r : Regex) (text : List Char) : Bool := r.searchFrom none text

/-! ### Substitution -/

/-- What the first match that starts at the place keeps, and where it ends. The match is of what is kept, then of what is not. -/
def keptAndEnd (kept dropped : Regex) (s : Spot) : Option (Spot × Spot) :=
  ((kept.ends s).flatMap fun m => (dropped.ends m).map fun e => (m, e)).head?

/-- The text with what each match drops put in other words, from a place of which `skip` characters are already read. A match
reads a character at least. -/
def subFrom (kept dropped : Regex) (words : List Char) (before : Option Char) : Nat → List Char → List Char
  | _, [] => []
  | skip + 1, c :: rest => subFrom kept dropped words (some c) skip rest
  | 0, c :: rest =>
      match keptAndEnd kept dropped ⟨before, c :: rest⟩ with
      | some (m, e) =>
          (c :: rest).take (rest.length + 1 - m.rest.length) ++ words ++
            subFrom kept dropped words (some c) (rest.length - e.rest.length) rest
      | none => c :: subFrom kept dropped words (some c) 0 rest

/-- `pattern.sub` by what the first group read and other words. -/
def sub (kept dropped : Regex) (words text : List Char) : List Char := subFrom kept dropped words none 0 text

/-! ### Building patterns -/

/-- One pattern after the other. -/
def inOrder : List Regex → Regex
  | [] => .look fun _ => true
  | [r] => r
  | r :: rest => .seq r (inOrder rest)

/-- The first of the patterns that leads to a match. -/
def anyOf : List Regex → Regex
  | [] => .look fun _ => false
  | [r] => r
  | r :: rest => .alt r (anyOf rest)

def maybe (r : Regex) : Regex := .alt r (inOrder [])

def oneOrMore (p : Char → Bool) : Regex := .seq (.one p) (.many p)

/-- The characters of a word, as they are. -/
def exactly (word : String) : Regex := inOrder (word.toList.map fun c => .one (· == c))

/-- The letter for which a comparison that ignores case takes a character. -/
def folded (c : Char) : Char :=
  if c.toNat = 0x130 ∨ c.toNat = 0x131 then 'i'
  else if c.toNat = 0x17F then 's'
  else if c.toNat = 0x212A then 'k'
  else c.toLower

/-- The characters of a word in lower case, in either case. -/
def anyCase (word : String) : Regex := inOrder (word.toList.map fun c => .one (folded · == c))

def start : Regex := .look fun s => s.before.isNone

/-- The end of the text, or of its last line. -/
def stop : Regex := .look fun s => s.rest == [] || s.rest == ['\n']

def ahead (r : Regex) : Regex := .look r.matchesAt

def notAhead (r : Regex) : Regex := .look fun s => !r.matchesAt s

/-- A character of a word on one side, and none on the other. -/
def boundary (word : Char → Bool) : Regex := .look fun s => s.before.any word != s.rest.head?.any word

end Regex

end Base
