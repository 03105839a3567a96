import AutoAgents.SchemaPatterns

/-! What is hidden of diagnostic output: the protected values of a run, and what follows the name of a secret. -/

namespace AutoAgents.Diagnostic

open Base (Regex)
open Base.Regex
open Operator (isSpace)

def redacted : Text := "<redacted>".toList

def secretQuote (c : Char) : Bool := c == '"' || c == '\''

/-- The first group of `_SECRET`: the name of a secret and what stands between it and the value. -/
def secretName (φ : Unicode) : Regex :=
  let joint := maybe (.one fun c => c == '_' || c == '-')
  inOrder [φ.edge, .many (fun c => φ.word c || c == '-'),
    anyOf [inOrder [anyCase "api", joint, anyCase "key"], anyCase "password", anyCase "secret",
      inOrder [anyCase "access", joint, anyCase "token"], inOrder [anyCase "refresh", joint, anyCase "token"], anyCase "token"],
    φ.edge, maybe (.one secretQuote), .many isSpace, anyOf [.one fun c => c == ':' || c == '=', .one isSpace], .many isSpace,
    maybe (.one secretQuote)]

def secretValue : Regex := oneOrMore fun c => !(isSpace c || secretQuote c || c == ',' || c == ';' || c == '}')

/-- The first group of `_BEARER`. -/
def bearerName (φ : Unicode) : Regex := inOrder [φ.edge, anyCase "bearer", oneOrMore isSpace]

def bearerValue : Regex := oneOrMore fun c => !(isSpace c || secretQuote c || c == ',' || c == ';')

/-- `text.replace(old, new)` of an old text that is not empty, where `skip` characters are already replaced. -/
def replaceFrom (old new : Text) : Nat → Text → Text
  | _, [] => []
  | skip + 1, _ :: rest => replaceFrom old new skip rest
  | 0, c :: rest =>
      if old.isPrefixOf (c :: rest) = true then new ++ replaceFrom old new (old.length - 1) rest
      else c :: replaceFrom old new 0 rest

def replace (old new text : Text) : Text := replaceFrom old new 0 text

/-- The values that a run protects, the longest first. -/
structure Protected where
  values : List Text := []
  nonempty : ∀ value ∈ values, value ≠ []
  ordered : values.Pairwise fun a b => b.length ≤ a.length

/-- `redact` -/
def redact (φ : Unicode) (secrets : Protected) (text : Text) : Text :=
  sub (bearerName φ) bearerValue redacted
    (sub (secretName φ) secretValue redacted (secrets.values.foldl (fun text value => replace value redacted text) text))

end AutoAgents.Diagnostic
