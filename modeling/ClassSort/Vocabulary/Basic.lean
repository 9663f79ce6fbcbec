import ClassSort.Order.Ranking
import ClassSort.Vocabulary.Catalogue
import ClassSort.Vocabulary.VariantTable

/-!
# The vocabulary of a project

The classes that a configuration makes known, with their places in the stylesheet. A
class is read as a candidate, its variants become bits, and its base is looked for in
the built-in families, then in the plugins, and last among written-out properties. The
first rule that recognizes it decides.
-/

namespace ClassSort

/-- What is needed to recognize the classes of a project. -/
structure Vocabulary where
  separator : Text
  classPrefix : Text
  theme : Theme
  variants : VariantTable
  corePlugins : CorePlugins
  plugins : List Plugin

/-- Where a base was recognized. -/
inductive Origin where
  /-- By a rule of a built-in family. -/
  | core (layer : Layer) (family rule : Nat)
  /-- By a plugin. Rule 0 stands for its fixed names. -/
  | plugin (layer : Layer) (index rule : Nat)
  /-- As a written-out property. -/
  | property
deriving Repr, DecidableEq

namespace Vocabulary

/-- The vocabulary of a configuration. -/
def ofConfig (c : Config) : Vocabulary where
  separator := c.separatorInForce.toList
  classPrefix := c.classPrefix.toList
  theme := Theme.ofConfig c.theme
  variants := VariantTable.ofConfig c.theme c.pluginVariants
  corePlugins := c.corePlugins
  plugins := c.plugins

/-- The set of bits of some variants, if all of them are known. -/
def variantOrder? (v : Vocabulary) (variants : List Text) : Option VariantOrder :=
  (variants.mapM v.variants.bit?).map VariantOrder.ofBits

/-- The built-in rule that recognizes a base. -/
def coreOrigin? (v : Vocabulary) (base : Text) (negative : Bool) : Option Origin :=
  Family.all.zipIdx.findSome? fun (family, i) =>
    if v.corePlugins.isEnabled family.name then
      (family.rules.findIdx? (·.recognizes v.theme base negative)).map fun j =>
        .core family.layer i j
    else none

/-- Whether a plugin's utility recognizes a base. -/
def utilityMatches (base : Text) (u : ValueUtility) : Bool :=
  match Text.after? (u.root.toList ++ ['-']) base with
  | some value => u.values.contains (String.ofList value) || Candidate.isArbitrary value
  | none => false

/-- The rule of a plugin that recognizes a base: 0 for its fixed names, then its
utilities in order. -/
def pluginRule? (base : Text) (p : Plugin) : Option Nat :=
  if p.classes.contains (String.ofList base) then some 0
  else (p.utilities.findIdx? (utilityMatches base)).map (· + 1)

/-- The plugin that recognizes a base. -/
def pluginOrigin? (v : Vocabulary) (base : Text) : Option Origin :=
  v.plugins.zipIdx.findSome? fun (p, i) =>
    (pluginRule? base p).map fun j => .plugin p.layer.layer i j

/-- Whether a character can stand in the name of a property. -/
def isPropertyChar (c : Char) : Bool := c.isAlphanum || c == '-'

/-- Whether a base is a written-out property, such as `[mask-type:alpha]`. -/
def isProperty (base : Text) : Bool :=
  match ((Text.after? ['['] base).bind (Text.before? [']'])).bind (Text.splitOnce? ':') with
  | some (property, value) =>
    !property.isEmpty && !value.isEmpty && property.all isPropertyChar
  | none => false

/-- Where a base is recognized. Only built-in rules know negative values. -/
def origin? (v : Vocabulary) (base : Text) (negative : Bool) : Option Origin :=
  (v.coreOrigin? base negative).or
    (if negative then none
     else (v.pluginOrigin? base).or (if isProperty base then some .property else none))

/-- The sort key of a class with some variants that was recognized somewhere. Plugins
follow the built-in families. -/
def key (variants : VariantOrder) : Origin → SortKey
  | .core layer family rule => ⟨variants, layer, family, rule⟩
  | .plugin layer index rule => ⟨variants, layer, Family.all.length + index, rule⟩
  | .property => ⟨variants, .arbitrary, 0, 0⟩

/-- The place of a class in the stylesheet. -/
def rank (v : Vocabulary) : Ranking := fun name => do
  let candidate ← Candidate.parse? v.separator v.classPrefix name
  let variants ← v.variantOrder? candidate.variants
  let origin ← v.origin? candidate.base candidate.negative
  return key variants origin

end Vocabulary

end ClassSort
