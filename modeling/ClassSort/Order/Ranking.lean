import ClassSort.Order.SortKey

/-!
# Rankings

A ranking answers one question: where does this class stand in the stylesheet?
Sorting takes any ranking; the design system is one, a plain list of names another.
-/

namespace ClassSort

/-- Assigns each class its position, or `none` if it has none. -/
abbrev Ranking := Text → Rank

namespace Ranking

/-- Ranks classes by their first place in `names`. -/
def ofNames (names : List Text) : Ranking :=
  fun name => (names.idxOf? name).map SortKey.ordinal

/-- A mark that a surrounding literal may leave on a class. -/
def isQuoting (c : Char) : Bool := c == '"' || c == '\'' || c == '\x60' || c == '\\'

/-- The class without the quotes and backslashes around it. -/
def unquote (raw : Text) : Text :=
  ((raw.dropWhile isQuoting).reverse.dropWhile isQuoting).reverse

/-- Ranks a class as it was found in a source, without the quoting around it. -/
def ofSource (r : Ranking) : Ranking := fun raw =>
  match unquote raw with
  | [] => none
  | name => r name

end Ranking

end ClassSort
