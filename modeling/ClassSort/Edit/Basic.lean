import ClassSort.Order.Insertion
import ClassSort.Text.Basic

/-!
# Edits

An edit replaces a range of a source. Several edits are made in one pass, in the order
of their ranges; one that begins before the end of an earlier one is left out.
-/

namespace ClassSort

/-- A range and the text to put there. -/
structure Edit where
  span : Span
  text : Text
deriving Repr, DecidableEq

namespace Edit

/-- Whether an edit is made before another. -/
def le (a b : Edit) : Bool :=
  a.span.start < b.span.start || (a.span.start == b.span.start && a.span.stop ≤ b.span.stop)

/-- The source from `cursor` on with the edits made, or `none` if a range that is used
cuts a character or runs backwards. -/
def splice (source : Text) : Nat → List Edit → Option Text
  | cursor, [] => Text.drop? source cursor
  | cursor, e :: es =>
    if e.span.start < cursor || Text.size source < e.span.stop then splice source cursor es
    else do
      let kept ← Text.slice? source ⟨cursor, e.span.start⟩
      let rest ← splice source e.span.stop es
      return kept ++ e.text ++ rest

/-- The source with all edits made. -/
def applyAll (source : Text) (edits : List Edit) : Option Text :=
  splice source 0 (stableSort le edits)

end Edit

end ClassSort
