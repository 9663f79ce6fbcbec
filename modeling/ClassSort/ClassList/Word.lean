import ClassSort.Text.Blank

/-!
# Words of a class list

A class list is a run of leading blanks followed by words, each with the blanks
after it. `divide` finds that decomposition and `Division.text` puts it back
together; `tokens` is the same words with the byte offset at which each begins.
-/

namespace ClassSort

/-- A class as written, and where it begins. -/
structure Token where
  text : Text
  offset : Nat
deriving Repr, DecidableEq

namespace ClassList

/-- A word and the blanks that follow it. -/
structure Piece where
  word : Text
  gap : Text
deriving Repr, DecidableEq

/-- A class list taken apart. -/
structure Division where
  leading : Text
  pieces : List Piece
deriving Repr, DecidableEq

/-- Divides a class list at its blanks. The last character is looked at first, so
that each character joins the word or the blanks that it stands in front of. -/
def divide : Text → Division
  | [] => ⟨[], []⟩
  | c :: cs =>
    let d := divide cs
    if Text.isBlank c then ⟨c :: d.leading, d.pieces⟩
    else
      match d.leading, d.pieces with
      | [], p :: ps => ⟨[], ⟨c :: p.word, p.gap⟩ :: ps⟩
      | gap, ps => ⟨[], ⟨[c], gap⟩ :: ps⟩

/-- The text that was divided. -/
def Division.text (d : Division) : Text :=
  d.leading ++ d.pieces.flatMap fun p => p.word ++ p.gap

/-- The words of `pieces` with their offsets, the first of them at `offset`. -/
def place (offset : Nat) : List Piece → List Token
  | [] => []
  | p :: ps => ⟨p.word, offset⟩ :: place (offset + Text.size p.word + Text.size p.gap) ps

/-- The words of a class list with their offsets. -/
def tokens (value : Text) : List Token :=
  let d := divide value
  place (Text.size d.leading) d.pieces

end ClassList

end ClassSort
