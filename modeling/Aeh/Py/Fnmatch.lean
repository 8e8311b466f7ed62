import Aeh.Py.Text

/-!
# Fnmatch — `fnmatch.fnmatchcase`

A pattern is read into tokens as `fnmatch.translate` turns it into a regular expression: `*`, `?`, bracket expressions
and characters.  A range whose ends are out of order is dropped, and what then stands first is read again, as the
regular expression does.
-/

namespace Aeh

namespace Fnmatch

/-- One character or a range of a bracket expression. -/
inductive Item where
  | one (c : CodePoint)
  | range (lo hi : CodePoint)
deriving DecidableEq

inductive Token where
  | star
  | question
  | char (c : CodePoint)
  | set (negated : Bool) (items : List Item)
deriving DecidableEq

def Item.holds : Item → CodePoint → Bool
  | one c, x => x = c
  | range lo hi, x => lo ≤ x && x ≤ hi

/-- The items of a bracket expression: a hyphen between two characters makes a range. -/
def items : List CodePoint → List Item
  | [] => []
  | [c] => [.one c]
  | [c, c'] => [.one c, .one c']
  | c :: c' :: c'' :: rest =>
    if c' = cp '-' then .range c c'' :: items rest else .one c :: items (c' :: c'' :: rest)

/-- The items without the ranges whose ends are out of order. -/
def ordered (items : List Item) : List Item :=
  items.filter fun
    | .one _ => true
    | .range lo hi => lo ≤ hi

/-- The bracket expression with the given text. -/
def bracket : List CodePoint → Token
  | [] => .set false []
  | c :: rest =>
    if c = cp '!' then .set true (ordered (items rest))
    else
      -- an exclamation mark that comes first once ranges are dropped negates too
      match ordered (items (c :: rest)) with
      | .one c' :: is => if c' = cp '!' then .set true is else .set false (.one c' :: is)
      | .range lo hi :: is =>
        if lo = cp '!' then .set true (.one (cp '-') :: .one hi :: is) else .set false (.range lo hi :: is)
      | [] => .set false []

/-- The text up to the closing bracket and what follows it; a bracket right at the start does not close. -/
def upToBracket (s : List CodePoint) : Option (List CodePoint × List CodePoint) :=
  let start := if s.head? = some (cp '!') then 1 else 0
  let start := if (s.drop start).head? = some (cp ']') then start + 1 else start
  let body := (s.drop start).takeWhile fun c => c ≠ cp ']'
  let rest := (s.drop start).dropWhile fun c => c ≠ cp ']'
  match rest with
  | [] => none
  | _ :: rest => some (s.take start ++ body, rest)

/-- The tokens of a pattern of at most `n` characters. -/
def tokensUpTo : ℕ → List CodePoint → List Token
  | 0, _ | _, [] => []
  | n + 1, c :: rest =>
    if c = cp '*' then .star :: tokensUpTo n rest
    else if c = cp '?' then .question :: tokensUpTo n rest
    else if c = cp '[' then
      match upToBracket rest with
      | none => .char c :: tokensUpTo n rest
      | some (text, rest) => bracket text :: tokensUpTo n rest
    else .char c :: tokensUpTo n rest

def tokens (pattern : PyStr) : List Token := tokensUpTo pattern.length pattern

/-- Whether the tokens match the whole text. -/
def matchTokens : List Token → List CodePoint → Bool
  | [], s => s.isEmpty
  | .star :: ts, s => s.tails.any fun t => matchTokens ts t
  | .question :: ts, s =>
    match s with
    | [] => false
    | _ :: s => matchTokens ts s
  | .char c :: ts, s =>
    match s with
    | [] => false
    | x :: s => x = c && matchTokens ts s
  | .set negated is :: ts, s =>
    match s with
    | [] => false
    | x :: s => (is.any fun i => i.holds x) != negated && matchTokens ts s

end Fnmatch

/-- `fnmatch.fnmatchcase(name, pattern)`. -/
def fnmatchcase (name pattern : PyStr) : Bool := Fnmatch.matchTokens (Fnmatch.tokens pattern) name

/-- `*` matches across slashes. -/
example : fnmatchcase (lit "src/app/a.py") (lit "src/*.py") = true := by decide

end Aeh
