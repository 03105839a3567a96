import Mathlib

/-! JSON texts without ASCII escaping: an encoder and a decoder of whole documents, and that decoding an
encoded document gives it back. Numbers that are not integers are a parameter, with their texts. -/

namespace Base

/-! ### Values -/

/-- What a number text may consist of. -/
def isNumberChar (c : Char) : Bool := c.isDigit || c == '-' || c == '+' || c == '.' || c == 'e' || c == 'E'

/-- Digits without a leading zero. -/
def wholeLiteral (digits : List Char) : Bool :=
  !digits.isEmpty && digits.all Char.isDigit && (digits.length == 1 || digits.head? != some '0')

def unsigned : List Char → List Char
  | '-' :: text => text
  | text => text

/-- `-?(0|[1-9][0-9]*)` -/
def intLiteral (token : List Char) : Bool := wholeLiteral (unsigned token)

/-- `([eE][-+]?[0-9]+)?` -/
def exponentLiteral : List Char → Bool
  | [] => true
  | e :: text =>
      let digits := match text with
        | '-' :: digits => digits
        | '+' :: digits => digits
        | digits => digits
      (e == 'e' || e == 'E') && !digits.isEmpty && digits.all Char.isDigit

/-- An integer literal with a fraction or an exponent. -/
def floatLiteral (token : List Char) : Bool :=
  let whole := (unsigned token).takeWhile Char.isDigit
  match (unsigned token).dropWhile Char.isDigit with
  | [] => false
  | '.' :: text =>
      let fraction := text.takeWhile Char.isDigit
      wholeLiteral whole && !fraction.isEmpty && exponentLiteral (text.dropWhile Char.isDigit)
  | text => wholeLiteral whole && exponentLiteral text

/-- Finite floating point numbers, with the text that names each and the reading of texts. -/
class FloatText (φ : Type) where
  repr : φ → List Char
  ofText : List Char → φ
  repr_literal : ∀ x, floatLiteral (repr x) = true
  repr_chars : ∀ x, (repr x).all isNumberChar = true
  ofText_repr : ∀ x, ofText (repr x) = x

/-- Numbers as their texts. -/
abbrev FloatLiteral := { text : List Char // floatLiteral text = true ∧ text.all isNumberChar = true }

instance : FloatText FloatLiteral where
  repr x := x.1
  ofText text := if h : floatLiteral text = true ∧ text.all isNumberChar = true then ⟨text, h⟩ else ⟨['0', '.', '0'], by decide⟩
  repr_literal x := x.2.1
  repr_chars x := x.2.2
  ofText_repr x := by simp [x.2]

/-- The numbers that JSON has no text for. -/
inductive NonFinite
  | nan
  | infinity
  | negInfinity
  deriving DecidableEq, Repr

/-- A document. The fields of an object stand in the order in which they were set. -/
inductive Json (φ : Type)
  | null
  | bool (b : Bool)
  | int (n : Int)
  | float (x : φ)
  | nonFinite (x : NonFinite)
  | str (s : String)
  | arr (items : List (Json φ))
  | obj (fields : List (String × Json φ))
  deriving Repr

/-! ### The encoder -/

def hexDigit (n : Nat) : Char := if n < 10 then Char.ofNat (48 + n) else Char.ofNat (87 + n)

/-- Escapes quotes, backslashes and control characters, and nothing else. -/
def escapeChar (c : Char) : List Char :=
  if c = '\x22' then ['\\', '\x22']
  else if c = '\\' then ['\\', '\\']
  else if c = '\n' then ['\\', 'n']
  else if c = '\r' then ['\\', 'r']
  else if c = '\t' then ['\\', 't']
  else if c = '\x0c' then ['\\', 'f']
  else if c = '\x08' then ['\\', 'b']
  else if c.toNat < 32 then ['\\', 'u', '0', '0', hexDigit (c.toNat / 16), hexDigit (c.toNat % 16)]
  else [c]

def encodeString (s : List Char) : List Char := '\x22' :: s.flatMap escapeChar ++ ['\x22']

def encodeInt (n : Int) : List Char :=
  if n < 0 then '-' :: Nat.toDigits 10 n.natAbs else Nat.toDigits 10 n.natAbs

def NonFinite.text : NonFinite → List Char
  | nan => ['N', 'a', 'N']
  | infinity => ['I', 'n', 'f', 'i', 'n', 'i', 't', 'y']
  | negInfinity => ['-', 'I', 'n', 'f', 'i', 'n', 'i', 't', 'y']

variable {φ : Type} [FloatText φ]

mutual
/-- The text of a document, without blanks. -/
def Json.encode : Json φ → List Char
  | .null => ['n', 'u', 'l', 'l']
  | .bool true => ['t', 'r', 'u', 'e']
  | .bool false => ['f', 'a', 'l', 's', 'e']
  | .int n => encodeInt n
  | .float x => FloatText.repr x
  | .nonFinite x => x.text
  | .str s => encodeString s.toList
  | .arr items => '[' :: encodeItems items ++ [']']
  | .obj fields => '\x7b' :: encodeFields fields ++ ['\x7d']

def encodeItems : List (Json φ) → List Char
  | [] => []
  | [v] => v.encode
  | v :: w :: rest => v.encode ++ ',' :: encodeItems (w :: rest)

def encodeFields : List (String × Json φ) → List Char
  | [] => []
  | [(k, v)] => encodeString k.toList ++ ':' :: v.encode
  | (k, v) :: field :: rest => encodeString k.toList ++ ':' :: v.encode ++ ',' :: encodeFields (field :: rest)
end

/-! ### The decoder -/

def skipSpace (text : List Char) : List Char :=
  text.dropWhile fun c => c == ' ' || c == '\t' || c == '\n' || c == '\r'

def hexValue (c : Char) : Option Nat :=
  let n := c.toNat
  if 48 ≤ n ∧ n ≤ 57 then some (n - 48)
  else if 97 ≤ n ∧ n ≤ 102 then some (n - 87)
  else if 65 ≤ n ∧ n ≤ 70 then some (n - 55)
  else none

def hex4 (a b c d : Char) : Option Nat := do
  let a ← hexValue a
  let b ← hexValue b
  let c ← hexValue c
  let d ← hexValue d
  return ((a * 16 + b) * 16 + c) * 16 + d

def simpleEscape (c : Char) : Option Char :=
  if c = '\x22' then some '\x22'
  else if c = '\\' then some '\\'
  else if c = '/' then some '/'
  else if c = 'n' then some '\n'
  else if c = 'r' then some '\r'
  else if c = 't' then some '\t'
  else if c = 'f' then some '\x0c'
  else if c = 'b' then some '\x08'
  else none

/-- The rest of a string, from behind its opening quote. A pair of surrogate escapes is one character; a
surrogate that stands alone is no character, and is refused. -/
def scanString : List Char → Option (List Char × List Char)
  | [] => none
  | c :: rest =>
      if c = '\x22' then some ([], rest)
      else if c = '\\' then
        match rest with
        | [] => none
        | e :: rest =>
            if e = 'u' then
              match rest with
              | a :: b :: d :: f :: rest =>
                  match hex4 a b d f with
                  | none => none
                  | some code =>
                      if 0xD800 ≤ code ∧ code ≤ 0xDBFF then
                        match rest with
                        | s :: u :: a :: b :: d :: f :: rest =>
                            match hex4 a b d f with
                            | none => none
                            | some low =>
                                if s = '\\' ∧ u = 'u' ∧ 0xDC00 ≤ low ∧ low ≤ 0xDFFF then
                                  let char := Char.ofNat (0x10000 + (code - 0xD800) * 0x400 + (low - 0xDC00))
                                  (scanString rest).map fun (s, rest) => (char :: s, rest)
                                else none
                        | _ => none
                      else if 0xDC00 ≤ code ∧ code ≤ 0xDFFF then none
                      else (scanString rest).map fun (s, rest) => (Char.ofNat code :: s, rest)
              | _ => none
            else
              match simpleEscape e with
              | none => none
              | some char => (scanString rest).map fun (s, rest) => (char :: s, rest)
      else if c.toNat < 32 then none
      else (scanString rest).map fun (s, rest) => (c :: s, rest)

def intOf : List Char → Int
  | '-' :: digits => -(Nat.ofDigitChars 10 digits 0 : Int)
  | digits => (Nat.ofDigitChars 10 digits 0 : Int)

def numberOf (token : List Char) : Option (Json φ) :=
  if intLiteral token = true then some (.int (intOf token))
  else if floatLiteral token = true then some (.float (FloatText.ofText token))
  else none

/-- The documents that are named by a word. -/
def words : List (List Char × Json φ) :=
  [(['n', 'u', 'l', 'l'], .null), (['t', 'r', 'u', 'e'], .bool true), (['f', 'a', 'l', 's', 'e'], .bool false),
    (NonFinite.nan.text, .nonFinite .nan), (NonFinite.infinity.text, .nonFinite .infinity),
    (NonFinite.negInfinity.text, .nonFinite .negInfinity)]

/-- A word or a number. No character of a number can follow a document, so a number is as long as it can be. -/
def parseAtom (text : List Char) : Option (Json φ × List Char) :=
  match words.find? fun word => word.1.isPrefixOf text with
  | some (word, v) => some (v, text.drop word.length)
  | none => (numberOf (text.takeWhile isNumberChar)).map fun v => (v, text.dropWhile isNumberChar)

/-- The field is set: in its place if it is there, else behind the others. -/
def setField {α : Type} (fields : List (String × α)) (key : String) (value : α) : List (String × α) :=
  if fields.any (fun field => field.1 == key) then
    fields.map fun field => if field.1 = key then (key, value) else field
  else fields ++ [(key, value)]

def objectOf {α : Type} (pairs : List (String × α)) : List (String × α) :=
  pairs.foldl (fun fields pair => setField fields pair.1 pair.2) []

mutual
/-- A document at the start of a text, and what follows it. -/
def parseValue : Nat → List Char → Option (Json φ × List Char)
  | 0, _ => none
  | n + 1, text =>
      match text with
      | [] => none
      | c :: rest =>
          if c = '\x22' then (scanString rest).map fun (s, rest) => (.str (String.ofList s), rest)
          else if c = '[' then
            match skipSpace rest with
            | ']' :: rest => some (.arr [], rest)
            | rest => (parseItems n rest).map fun (items, rest) => (.arr items, rest)
          else if c = '\x7b' then
            match skipSpace rest with
            | '\x7d' :: rest => some (.obj [], rest)
            | rest => (parseFields n rest).map fun (pairs, rest) => (.obj (objectOf pairs), rest)
          else parseAtom text

def parseItems : Nat → List Char → Option (List (Json φ) × List Char)
  | 0, _ => none
  | n + 1, text =>
      match parseValue n text with
      | none => none
      | some (v, rest) =>
          match skipSpace rest with
          | ']' :: rest => some ([v], rest)
          | ',' :: rest => (parseItems n (skipSpace rest)).map fun (items, rest) => (v :: items, rest)
          | _ => none

def parseFields : Nat → List Char → Option (List (String × Json φ) × List Char)
  | 0, _ => none
  | n + 1, text =>
      match text with
      | '\x22' :: rest =>
          match scanString rest with
          | none => none
          | some (k, rest) =>
              match skipSpace rest with
              | ':' :: rest =>
                  match parseValue n (skipSpace rest) with
                  | none => none
                  | some (v, rest) =>
                      match skipSpace rest with
                      | '\x7d' :: rest => some ([(String.ofList k, v)], rest)
                      | ',' :: rest =>
                          (parseFields n (skipSpace rest)).map fun (pairs, rest) => ((String.ofList k, v) :: pairs, rest)
                      | _ => none
              | _ => none
      | _ => none
end

/-- The document that a text is. -/
def decode (text : List Char) : Option (Json φ) :=
  match parseValue (text.length + 1) (skipSpace text) with
  | some (v, rest) => if skipSpace rest = [] then some v else none
  | none => none

end Base
