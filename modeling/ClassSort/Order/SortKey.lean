import ClassSort.Text.Basic

/-!
# Sort keys

The place of a class in the generated stylesheet. Keys compare by their variants
first, then by layer, family and rule. The variants of a class are a set of bits
that compares like the binary number with those bits; it is kept as the list of
its bits from the highest down, which compares lexicographically.
-/

namespace ClassSort

/-- The part of the stylesheet that a class is generated into. -/
inductive Layer where
  | components
  | utilities
  /-- Written-out properties such as `[mask-type:alpha]`. -/
  | arbitrary
deriving Repr, DecidableEq

/-- Position of a layer in the stylesheet. -/
def Layer.index : Layer → Nat
  | .components => 0
  | .utilities => 1
  | .arbitrary => 2

/-- A set of variant bits, highest bit first. -/
structure VariantOrder where
  bits : List Nat
deriving Repr, DecidableEq

namespace VariantOrder

/-- Drops each element that equals the one before it. -/
def dropRepeats : List Nat → List Nat
  | [] => []
  | [a] => [a]
  | a :: b :: l => if a = b then dropRepeats (b :: l) else a :: dropRepeats (b :: l)

/-- The set of the given bits, whatever their order and repetitions. -/
def ofBits (bits : List Nat) : VariantOrder :=
  ⟨dropRepeats (bits.mergeSort fun a b => decide (b ≤ a))⟩

instance : Ord VariantOrder := ⟨fun a b => compare a.bits b.bits⟩

end VariantOrder

/-- Position of a recognized class in the stylesheet. -/
structure SortKey where
  variants : VariantOrder
  layer : Layer
  family : Nat
  rule : Nat
deriving Repr, DecidableEq

namespace SortKey

/-- A key that compares by `position` alone. -/
def ordinal (position : Nat) : SortKey := ⟨⟨[]⟩, .utilities, position, 0⟩

instance : Ord SortKey :=
  ⟨compareLex (compareOn (·.variants)) (compareLex (compareOn (·.layer.index))
    (compareLex (compareOn (·.family)) (compareOn (·.rule))))⟩

end SortKey

/-- Position of a class, or `none` when the class is not recognized. Unrecognized
classes stand before all others. -/
abbrev Rank := Option SortKey

/-- Whether a class of rank `a` may stand before one of rank `b`. -/
def Rank.le : Rank → Rank → Bool
  | none, _ => true
  | some _, none => false
  | some a, some b => (compare a b).isLE

end ClassSort
