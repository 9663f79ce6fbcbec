/-!
# Text and byte positions

A text is a list of characters. Positions in it are byte offsets into its UTF-8
form, because that is what editors and other tools exchange. A position is only
meaningful when it falls between two characters, so every cut is partial:
`splitAt?` and `slice?` answer `none` for a position past the end or inside a
character.
-/

namespace ClassSort

/-- The characters of a source, an attribute value or a single class. -/
abbrev Text := List Char

/-- A half-open range of byte offsets. Nothing forces `start ≤ stop`: ranges come
from outside as well, and `Text.slice?` is where a bad one is refused. -/
structure Span where
  start : Nat
  stop : Nat
deriving Repr, DecidableEq, Inhabited

namespace Span

/-- The same range with both ends moved by `f`. -/
def map (f : Nat → Nat) (s : Span) : Span := ⟨f s.start, f s.stop⟩

/-- Whether the range holds no byte. -/
def isEmpty (s : Span) : Bool := s.stop ≤ s.start

end Span

namespace Text

/-- Number of bytes of the UTF-8 form. -/
def size : Text → Nat
  | [] => 0
  | c :: cs => c.utf8Size + size cs

/-- Cuts the text at byte `n`, if `n` is a character boundary of it. -/
def splitAt? : Text → Nat → Option (Text × Text)
  | cs, 0 => some ([], cs)
  | [], _ + 1 => none
  | c :: cs, n + 1 =>
    if c.utf8Size ≤ n + 1 then
      (splitAt? cs (n + 1 - c.utf8Size)).map fun (before, after) => (c :: before, after)
    else none

/-- The text of a range, if both ends are character boundaries in order. -/
def slice? (cs : Text) (s : Span) : Option Text :=
  if s.start ≤ s.stop then do
    let (_, rest) ← splitAt? cs s.start
    let (body, _) ← splitAt? rest (s.stop - s.start)
    return body
  else none

/-- The text from byte `n` on, if `n` is a character boundary. -/
def drop? (cs : Text) (n : Nat) : Option Text := (splitAt? cs n).map Prod.snd

/-- What follows `pre`, when the text begins with it. -/
def after? (pre cs : Text) : Option Text := pre.isPrefixOf? cs

/-- What precedes `post`, when the text ends with it. -/
def before? (post cs : Text) : Option Text := post.isSuffixOf? cs

/-- Whether `part` occurs anywhere in the text. -/
def includes (part : Text) : Text → Bool
  | [] => part.isEmpty
  | c :: cs => part.isPrefixOf (c :: cs) || includes part cs

/-- The parts on either side of the first `c`, when there is one. -/
def splitOnce? (c : Char) (cs : Text) : Option (Text × Text) :=
  match cs.dropWhile (· != c) with
  | [] => none
  | _ :: after => some (cs.takeWhile (· != c), after)

/-- The texts with `sep` between them. -/
def join (sep : Text) (parts : List Text) : Text := sep.intercalate parts

end Text

end ClassSort
