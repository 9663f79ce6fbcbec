import ClassSort.ClassList.Sort

/-!
# Class units

What is found in a source and may be sorted: a class list in its place, or the entries
of an object whose keys are class lists. Entries move as a whole, so the values stay
with their keys.
-/

namespace ClassSort

/-- The position in which a class list was found. -/
inductive Shape where
  /-- A whole attribute value or string. -/
  | plainString
  /-- A part of a template between its holes. -/
  | interpolationSegment
  | objectKey
  | ternaryBranch
  | arrayElement
  | callArgument
  /-- The parameters of a rule such as `@apply`. -/
  | atRuleParams
deriving Repr, DecidableEq

/-- The construct that holds a class list. -/
inductive Holder where
  | attributeValue
  | string
  | template
  | atRule
deriving Repr, DecidableEq

/-- A class list in a source. -/
structure ClassSpan where
  span : Span
  shape : Shape
  holder : Holder
  ends : FixedEnds := {}
deriving Repr, DecidableEq

/-- The key of an object entry, without its quotes. -/
structure EntryKey where
  span : Span
  /-- Whether the key is a string, and so a class list, or a bare name. -/
  isClassList : Bool
deriving Repr, DecidableEq

/-- An entry of an object, from its key to the end of its value. -/
structure Entry where
  span : Span
  key : EntryKey
deriving Repr, DecidableEq

/-- Something to sort. -/
inductive ClassUnit where
  | list (c : ClassSpan)
  | entries (es : List Entry)
deriving Repr, DecidableEq

/-- The range from the first entry to the last. -/
def Entry.region (es : List Entry) : Span :=
  match es.head?, es.getLast? with
  | some first, some last => ⟨first.span.start, last.span.stop⟩
  | _, _ => ⟨0, 0⟩

/-- The entry with all its offsets moved by `f`. -/
def Entry.map (f : Nat → Nat) (e : Entry) : Entry :=
  ⟨e.span.map f, ⟨e.key.span.map f, e.key.isClassList⟩⟩

namespace ClassUnit

/-- The range of a unit. -/
def span : ClassUnit → Span
  | .list c => c.span
  | .entries es => Entry.region es

/-- The unit with all its offsets moved by `f`. -/
def map (f : Nat → Nat) : ClassUnit → ClassUnit
  | .list c => .list { c with span := c.span.map f }
  | .entries es => .entries (es.map (·.map f))

/-- The units in the order in which they begin. -/
def inOrder (us : List ClassUnit) : List ClassUnit :=
  stableSort (fun a b => a.span.start ≤ b.span.start) us

end ClassUnit

end ClassSort
