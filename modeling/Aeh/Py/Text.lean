import Mathlib.Algebra.Ring.Nat
import Mathlib.Data.List.Basic
import Mathlib.Data.Fintype.Basic
import Aeh.Lib.Regex

/-!
# Text — Python's `str` as lists of code points

A `str` is a sequence of code points, surrogates included, which is why it is not Lean's `String`.
`lit` reads a literal of the source.
-/

namespace Aeh

/-- A Unicode code point. -/
abbrev CodePoint := Fin 0x110000

instance CodePoint.neZero : NeZero 0x110000 := ⟨by decide⟩

/-- Python's `str`. -/
abbrev PyStr := List CodePoint

/-- The code point of a character. -/
def cp (c : Char) : CodePoint := ⟨c.toNat, by
  have h := c.valid
  simp only [UInt32.isValidChar, Nat.isValidChar] at h
  show c.val.toNat < _
  omega⟩

/-- A literal of the source. -/
def lit (s : String) : PyStr := s.toList.map cp

/-- `str.isspace` of one character. -/
def isSpace (c : CodePoint) : Bool :=
  let n := c.val
  (0x09 ≤ n && n ≤ 0x0D) || (0x1C ≤ n && n ≤ 0x20) || n == 0x85 || n == 0xA0 || n == 0x1680 ||
    (0x2000 ≤ n && n ≤ 0x200A) || n == 0x2028 || n == 0x2029 || n == 0x202F || n == 0x205F || n == 0x3000

/-- `s.strip()`. -/
def strip (s : PyStr) : PyStr := ((s.dropWhile isSpace).reverse.dropWhile isSpace).reverse

/-- `s.startswith(p)`. -/
def startsWith (s p : PyStr) : Bool := p.isPrefixOf s

/-- `s.endswith(p)`. -/
def endsWith (s p : PyStr) : Bool := p.isSuffixOf s

/-- `p in s`. -/
def contains (s p : PyStr) : Bool := s.tails.any fun t => p.isPrefixOf t

/-- `s.split(sep)` on one separator character. -/
def splitOn (sep : CodePoint) : PyStr → List PyStr
  | [] => [[]]
  | c :: s =>
    if c = sep then [] :: splitOn sep s
    else match splitOn sep s with
      | [] => [[c]]
      | w :: ws => (c :: w) :: ws

/-- The code point `[a-z]` under `re.IGNORECASE` reads `x` as: the 26 upper-case letters and the four
further letters that fold to an ASCII letter. -/
def foldCase (x : CodePoint) : CodePoint :=
  if h : 0x41 ≤ x.val ∧ x.val ≤ 0x5A then ⟨x.val + 32, by omega⟩
  else if x.val = 0x130 ∨ x.val = 0x131 then cp 'i'
  else if x.val = 0x17F then cp 's'
  else if x.val = 0x212A then cp 'k'
  else x

/-- `[a-z]` under `re.IGNORECASE`. -/
def isLetter (x : CodePoint) : Bool := (cp 'a').val ≤ (foldCase x).val && (foldCase x).val ≤ (cp 'z').val

/-- `[0-9]`. -/
def isDigit (x : CodePoint) : Bool := 0x30 ≤ x.val && x.val ≤ 0x39

namespace Re

/-- A class of the listed characters. -/
def oneOf (s : String) : Re CodePoint := .cls fun x => (lit s).contains x

/-- A literal. -/
def word (s : String) : Re CodePoint := (lit s).foldr (fun c r => .seq (.cls fun x => x = c) r) .eps

/-- A lower-case literal under `re.IGNORECASE`. -/
def wordI (s : String) : Re CodePoint :=
  (lit s).foldr (fun c r => .seq (.cls fun x => foldCase x = c) r) .eps

/-- `r?`. -/
def opt (r : Re CodePoint) : Re CodePoint := .alt r .eps

/-- `r₁|r₂|…` for a nonempty list. -/
def oneOfRe : Re CodePoint → List (Re CodePoint) → Re CodePoint
  | r, [] => r
  | r, r' :: rs => .alt r (oneOfRe r' rs)

end Re

end Aeh
