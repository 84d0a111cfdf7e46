import InfraModule.Json.Text

namespace InfraModule.Json

inductive Token where
  | openArray
  | closeArray
  | openObject
  | closeObject
  | comma
  | colon
  | null
  | bool (value : Bool)
  | number (digits : String)
  | string (text : Option String)
  deriving DecidableEq

def isBlank (c : Char) : Bool := c = ' ' || c = '\t' || c = '\n' || c = '\r'

def digits? (cs : List Char) : Option (List Char × List Char) :=
  match cs.span Char.isDigit with
  | ([], _) => none
  | r => some r

def whole? : List Char → Option (List Char × List Char)
  | '0' :: rest => some (['0'], rest)
  | cs => digits? cs

def fraction? : List Char → Option (List Char × List Char)
  | '.' :: rest => (digits? rest).map fun (ds, rest) ↦ ('.' :: ds, rest)
  | cs => some ([], cs)

def exponentSign : List Char → List Char × List Char
  | '+' :: rest => (['+'], rest)
  | '-' :: rest => (['-'], rest)
  | cs => ([], cs)

def exponent? : List Char → Option (List Char × List Char)
  | [] => some ([], [])
  | e :: rest =>
    if e = 'e' ∨ e = 'E' then
      let (sign, rest) := exponentSign rest
      (digits? rest).map fun (ds, rest) ↦ (e :: sign ++ ds, rest)
    else some ([], e :: rest)

def sign : List Char → List Char × List Char
  | '-' :: rest => (['-'], rest)
  | cs => ([], cs)

def number? (cs : List Char) : Option (Token × List Char) := do
  let (s, rest) := sign cs
  let (w, rest) ← whole? rest
  let (f, rest) ← fraction? rest
  let (e, rest) ← exponent? rest
  return (.number (String.ofList (s ++ w ++ f ++ e)), rest)

/-- The token at the head of a text that begins with no blank. -/
def token? : List Char → Option (Token × List Char)
  | '[' :: rest => some (.openArray, rest)
  | ']' :: rest => some (.closeArray, rest)
  | '\x7b' :: rest => some (.openObject, rest)
  | '\x7d' :: rest => some (.closeObject, rest)
  | ',' :: rest => some (.comma, rest)
  | ':' :: rest => some (.colon, rest)
  | 'n' :: 'u' :: 'l' :: 'l' :: rest => some (.null, rest)
  | 't' :: 'r' :: 'u' :: 'e' :: rest => some (.bool true, rest)
  | 'f' :: 'a' :: 'l' :: 's' :: 'e' :: rest => some (.bool false, rest)
  | '"' :: rest =>
    (pieces? rest).map fun (ps, rest) ↦ (.string ((text? ps).map String.ofList), rest)
  | cs => number? cs

/-- Every token takes at least one character, so `cs.length` steps are enough. -/
def tokensWithin? : Nat → List Char → Option (List Token)
  | _, [] => some []
  | 0, _ :: _ => none
  | steps + 1, c :: cs =>
    if isBlank c then tokensWithin? steps cs
    else do
      let (t, rest) ← token? (c :: cs)
      let ts ← tokensWithin? steps rest
      return t :: ts

def tokens? (cs : List Char) : Option (List Token) := tokensWithin? cs.length cs

end InfraModule.Json
