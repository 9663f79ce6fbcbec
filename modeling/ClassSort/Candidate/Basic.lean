import ClassSort.Text.Basic

/-!
# Candidates

A class read as a candidate utility: variants, each ended by a separator, and a
utility spelled `[!][-][prefix][-]base[!]`. The separator counts only outside
brackets and parentheses, so an arbitrary value may contain it.

`parse?` reads a class and `Spelling.text` writes one.
-/

namespace ClassSort

/-- A class taken apart. -/
structure Candidate where
  variants : List Text
  base : Text
  negative : Bool
  important : Bool
deriving Repr, DecidableEq

namespace Candidate

/-- Whether a character opens a bracket. -/
def opens (c : Char) : Bool := c == '[' || c == '('

/-- Whether a character closes a bracket. -/
def closes (c : Char) : Bool := c == ']' || c == ')'

/-- Puts a character in front of the first part. -/
def onto (c : Char) : List Text → List Text
  | [] => [[c]]
  | p :: ps => (c :: p) :: ps

/-- The parts of a text between separators at bracket depth zero, starting at
`depth` and passing over the first `skip` characters. A bracket is looked at before
the separator, so a separator never begins with one. -/
def splitFrom (sep : Text) (depth skip : Nat) : Text → List Text
  | [] => [[]]
  | c :: cs =>
    if 0 < skip then splitFrom sep depth (skip - 1) cs
    else if opens c then onto c (splitFrom sep (depth + 1) 0 cs)
    else if closes c then onto c (splitFrom sep (depth - 1) 0 cs)
    else if depth = 0 && sep.isPrefixOf (c :: cs) then
      if sep.isEmpty then [] :: onto c (splitFrom sep 0 0 cs)
      else [] :: splitFrom sep 0 (sep.length - 1) cs
    else onto c (splitFrom sep depth 0 cs)

/-- The parts of a text between separators outside brackets. -/
def split (sep raw : Text) : List Text := splitFrom sep 0 0 raw

/-- Drops a leading mark and tells whether it was there. -/
def leadingMark (mark : Char) (cs : Text) : Text × Bool :=
  match Text.after? [mark] cs with
  | some rest => (rest, true)
  | none => (cs, false)

/-- Drops a trailing mark and tells whether it was there. -/
def trailingMark (mark : Char) (cs : Text) : Text × Bool :=
  match Text.before? [mark] cs with
  | some rest => (rest, true)
  | none => (cs, false)

/-- Reads a utility: an important mark on either side, then the sign and the
configured name prefix. With a prefix, the sign may also stand after it. -/
def parseUtility? (namePrefix : Text) (utility : Text) : Option (Text × Bool × Bool) := do
  let (utility, bang) := leadingMark '!' utility
  let (utility, bangAfter) := trailingMark '!' utility
  let (utility, minus) := leadingMark '-' utility
  let (utility, negative) ←
    if namePrefix.isEmpty then some (utility, minus)
    else do
      let utility ← Text.after? namePrefix utility
      if minus then some (utility, true) else some (leadingMark '-' utility)
  if utility.isEmpty then none else return (utility, negative, bang || bangAfter)

/-- Reads a class under a separator and a name prefix. A class with an empty variant
or an empty base, or without the prefix, is no candidate. -/
def parse? (sep namePrefix raw : Text) : Option Candidate := do
  let parts := split sep raw
  let utility ← parts.getLast?
  let variants := parts.dropLast
  if variants.any (·.isEmpty) then none
  else
    let (base, negative, important) ← parseUtility? namePrefix utility
    return ⟨variants, base, negative, important⟩

/-- Where the sign of a negative utility is written. -/
inductive SignPlace where
  | none
  | beforePrefix
  | afterPrefix
deriving Repr, DecidableEq

/-- One way to write a utility. -/
structure Spelling where
  base : Text
  bangBefore : Bool
  bangAfter : Bool
  sign : SignPlace
deriving Repr, DecidableEq

/-- The text of a utility in a given spelling. -/
def Spelling.text (namePrefix : Text) (s : Spelling) : Text :=
  (if s.bangBefore then ['!'] else [])
    ++ (if s.sign = .beforePrefix then ['-'] else [])
    ++ namePrefix
    ++ (if s.sign = .afterPrefix then ['-'] else [])
    ++ s.base
    ++ (if s.bangAfter then ['!'] else [])

/-- The text of a class: its variants, each with the separator, and its utility. -/
def render (sep namePrefix : Text) (variants : List Text) (s : Spelling) : Text :=
  variants.flatMap (· ++ sep) ++ s.text namePrefix

/-- Whether a value is written out in brackets, such as `[3px]`. -/
def isArbitrary (value : Text) : Bool :=
  2 < Text.size value && value.head? == some '[' && value.getLast? == some ']'

end Candidate

end ClassSort
