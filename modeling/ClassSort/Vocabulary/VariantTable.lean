import Std.Data.TreeSet.Basic
import ClassSort.Candidate.Basic
import ClassSort.Vocabulary.Screen

/-!
# Variants

Every variant has a bit, and a later variant has a higher one. The order is:
pseudo-elements, pseudo-classes (plain, then those of a group, then those of a peer),
direction, motion, dark mode, print, screens by width, orientation and contrast, and
the variants of plugins. Variants in brackets share the bit above all of these.
-/

namespace ClassSort

/-- The registered variants; the position of a name is its bit. -/
structure VariantTable where
  names : List String

namespace VariantTable

/-- Parts of an element that have a selector of their own. -/
def pseudoElements : List String :=
  ["first-letter", "first-line", "marker", "selection", "file", "placeholder", "backdrop",
   "before", "after"]

/-- States of an element. -/
def pseudoClasses : List String :=
  ["first", "last", "only", "odd", "even", "first-of-type", "last-of-type", "only-of-type",
   "visited", "target", "open", "default", "checked", "indeterminate", "placeholder-shown",
   "autofill", "optional", "required", "valid", "invalid", "in-range", "out-of-range",
   "read-only", "empty", "focus-within", "hover", "focus", "focus-visible", "active", "enabled",
   "disabled"]

/-- Built-in variants that stand before the screens. -/
def beforeScreens : List String :=
  pseudoElements ++ pseudoClasses ++ pseudoClasses.map ("group-" ++ ·)
    ++ pseudoClasses.map ("peer-" ++ ·)
    ++ ["ltr", "rtl", "motion-safe", "motion-reduce", "dark", "print"]

/-- Built-in variants that stand after the screens. -/
def afterScreens : List String := ["portrait", "landscape", "contrast-more", "contrast-less"]

/-- How many variants can be registered. -/
def capacity : Nat := 65535

/-- The names that are not in `seen`, each where it stands first. -/
def firsts (seen : Std.TreeSet String) : List String → List String
  | [] => []
  | name :: rest =>
    if seen.contains name then firsts seen rest else name :: firsts (seen.insert name) rest

/-- The table for some screens and plugin variants. A name that is registered again
keeps its bit, and what does not fit is left out. -/
def ofNames (screens plugins : List String) : VariantTable :=
  ⟨(firsts ∅ (beforeScreens ++ screens ++ afterScreens ++ plugins)).take capacity⟩

/-- The table of a theme with some plugin variants. -/
def ofConfig (theme : ThemeConfig) (plugins : List String) : VariantTable :=
  ofNames ((Screen.ofConfig theme).map (·.name)) plugins

/-- The bit of all variants in brackets. -/
def arbitraryBit (t : VariantTable) : Nat := t.names.length

/-- Variants that take an argument in brackets, such as `data-[open]`. -/
def arbitraryRoots : List String :=
  ["supports", "aria", "data", "group", "peer", "has", "min", "max"]

/-- Whether a variant is written in brackets, alone or as an argument. -/
def isArbitrary (variant : Text) : Bool :=
  Candidate.isArbitrary variant || arbitraryRoots.any fun root =>
    ((Text.after? (root.toList ++ ['-']) variant).map Candidate.isArbitrary).getD false

/-- The bit of a variant. -/
def bit? (t : VariantTable) (variant : Text) : Option Nat :=
  match t.names.idxOf? (String.ofList variant) with
  | some bit => some bit
  | none => if isArbitrary variant then some t.arbitraryBit else none

end VariantTable

end ClassSort
