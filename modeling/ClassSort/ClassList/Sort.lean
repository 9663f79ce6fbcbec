import ClassSort.ClassList.Word
import ClassSort.Order.Insertion
import ClassSort.Order.Ranking

/-!
# Sorting a class list

The words of a list are put in the order of a ranking; words of equal rank keep
their order. Blanks at either end stay as they are, and the sorted words are
joined by single spaces. When a list is a piece of a larger string its first or
last word may be glued to what surrounds it: such a word keeps its place and the
blanks that part it from the rest.
-/

namespace ClassSort

/-- Which of the outer words of a list must stay in place. -/
structure FixedEnds where
  first : Bool := false
  last : Bool := false
deriving Repr, DecidableEq, Inhabited

namespace ClassList

/-- Stable sort by rank, computing the rank of each item once. -/
def sortBy {α : Type} (rank : α → Rank) (items : List α) : List α :=
  (stableSort (fun a b => Rank.le a.1 b.1) (items.map fun a => (rank a, a))).map Prod.snd

/-- The tokens in the order of the ranking. -/
def sortTokens (r : Ranking) (ts : List Token) : List Token := sortBy (fun t => r t.text) ts

/-- The mark of a list that is partly computed elsewhere and is left alone. -/
def interpolationMark : Text := ['{', '{']

/-- The pieces that keep their place at the front, those to be sorted, and the one
that keeps its place at the end. A lone piece is kept once. -/
def partition (ends : FixedEnds) (ps : List Piece) : List Piece × List Piece × List Piece :=
  let head := if ends.first then ps.take 1 else []
  let rest := ps.drop head.length
  if ends.last then (head, rest.dropLast, rest.drop (rest.length - 1)) else (head, rest, [])

/-- The blanks after the last of some pieces. -/
def lastGap (ps : List Piece) : Text := (ps.getLast?.map (·.gap)).getD []

/-- The class list with its words in order. -/
def sort (r : Ranking) (ends : FixedEnds) (value : Text) : Text :=
  if Text.includes interpolationMark value then value
  else
    let d := divide value
    let (head, middle, tail) := partition ends d.pieces
    let words := sortBy r (middle.map (·.word))
    let afterHead := if middle.isEmpty && tail.isEmpty then [] else lastGap head
    let beforeTail := if tail.isEmpty then [] else lastGap middle
    d.leading ++ head.flatMap (·.word) ++ afterHead ++ Text.join [' '] words ++ beforeTail
      ++ tail.flatMap (·.word) ++ lastGap d.pieces

end ClassList

end ClassSort
