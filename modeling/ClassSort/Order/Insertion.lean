/-!
# Sorting by insertion

A stable sort for the short lists of classes and edits. It recurses on the list, so examples of
what it does can be evaluated.
-/

namespace ClassSort

variable {α : Type}

/-- The items with `a` before the first one that it may stand before. -/
def insertBy (le : α → α → Bool) (a : α) : List α → List α
  | [] => [a]
  | b :: bs => if le a b then a :: b :: bs else b :: insertBy le a bs

/-- The items in order. Items that may stand either way keep the order in which they came. -/
def stableSort (le : α → α → Bool) (items : List α) : List α := items.foldr (insertBy le) []

end ClassSort
