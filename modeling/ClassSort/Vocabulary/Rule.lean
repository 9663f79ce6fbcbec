import ClassSort.Candidate.Basic
import ClassSort.Number.Decimal
import ClassSort.Order.SortKey
import ClassSort.Vocabulary.Theme

/-!
# Rules and families

A rule recognizes the base of a utility, either by its full name or as a root with a
value. A family is a list of rules that belong together. Several families share a
root (`text-sm` is a size, `text-red-500` a color); the value tells them apart, and
for a value in brackets a guess at its kind.
-/

namespace ClassSort

/-- The values that a root takes. -/
inductive Values where
  /-- The keys of a scale, and values in brackets. -/
  | scale (s : Scale)
  /-- The colors, each with an optional opacity, some further words, and colors in
  brackets. -/
  | colors (extra : List String)
  /-- Some words, and values in brackets. -/
  | listed (words : List String)
  /-- Some words only. -/
  | keywords (words : List String)
deriving Repr, DecidableEq

/-- A way to spell utilities. -/
inductive Rule where
  /-- Complete names. -/
  | names (all : List String)
  /-- A root and a value, or the root alone if `DEFAULT` is a value. -/
  | valued (root : String) (values : Values) (negatable : Bool)
deriving Repr, DecidableEq

/-- A family of utilities. -/
structure Family where
  name : String
  layer : Layer
  rules : List Rule
deriving Repr, DecidableEq

/-- What a value in brackets seems to be. -/
inductive ValueKind where
  | color
  | length
  | other
deriving Repr, DecidableEq

namespace ValueKind

/-- The kind that a hint such as `length:` names. -/
def ofHint? (hint : String) : Option ValueKind :=
  if hint = "color" then some .color
  else if ["length", "size", "number", "percentage"].contains hint then some .length
  else none

/-- Functions whose results are colors. -/
def colorFunctions : List String := ["rgb(", "rgba(", "hsl(", "hsla(", "hwb(", "oklch(", "lab("]

/-- Functions whose results are taken for lengths. -/
def lengthFunctions : List String := ["calc(", "var(", "min(", "max(", "clamp("]

/-- Whether a text begins with one of some words. -/
def beginsWithAny (words : List String) (cs : Text) : Bool :=
  words.any fun w => w.toList.isPrefixOf cs

/-- Whether a text begins like a number. -/
def beginsNumeric (cs : Text) : Bool :=
  match cs.dropWhile (· == '-') with
  | [] => false
  | c :: _ => Binary64.isDigit c || c == '.'

/-- The kind that the form of a value suggests. -/
def ofForm (inner : Text) : ValueKind :=
  if inner.head? == some '#' || beginsWithAny colorFunctions inner then .color
  else if beginsNumeric inner || beginsWithAny lengthFunctions inner then .length
  else .other

/-- The kind of a value: what its hint says, or else what its form suggests. -/
def guess (inner : Text) : ValueKind :=
  let hinted := (Text.splitOnce? ':' inner).bind fun (hint, _) => ofHint? (String.ofList hint)
  hinted.getD (ofForm inner)

end ValueKind

namespace Values

/-- Whether a value stands in brackets and its kind passes a test. -/
def isArbitraryOf (fits : ValueKind → Bool) (value : Text) : Bool :=
  Candidate.isArbitrary value && fits (ValueKind.guess (value.drop 1).dropLast)

/-- Whether a value in brackets of some kind can be a value of a scale. -/
def fitsScale : Scale → ValueKind → Bool
  | .fontFamily, kind => kind == .other
  | _, kind => kind != .color

/-- The parts of a text around its last slash outside brackets, starting at `depth`. -/
def splitLastSlash (depth : Nat) : Text → Option (Text × Text)
  | [] => none
  | c :: cs =>
    if Candidate.opens c then
      (splitLastSlash (depth + 1) cs).map fun (before, after) => (c :: before, after)
    else if Candidate.closes c then
      (splitLastSlash (depth - 1) cs).map fun (before, after) => (c :: before, after)
    else
      match splitLastSlash depth cs with
      | some (before, after) => some (c :: before, after)
      | none => if c == '/' && depth == 0 then some ([], cs) else none

/-- A color without its opacity, such as `red-500` of `red-500/50`. -/
def withoutOpacity (value : Text) : Text :=
  match splitLastSlash 0 value with
  | some (before, after) => if before.isEmpty || after.isEmpty then value else before
  | none => value

/-- Whether a value belongs to the values of a rule. -/
def accepts (theme : Theme) (value : Text) : Values → Bool
  | .scale s => theme.contains s (String.ofList value) || isArbitraryOf (fitsScale s) value
  | .colors extra =>
    extra.contains (String.ofList value) ||
      (let color := withoutOpacity value
       theme.hasColor (String.ofList color) || isArbitraryOf (· == .color) color)
  | .listed words => words.contains (String.ofList value) || isArbitraryOf (· != .color) value
  | .keywords words => words.contains (String.ofList value)

end Values

namespace Rule

/-- The value that a base gives to a root: what stands behind the root and a hyphen. -/
def value? (root base : Text) : Option Text :=
  match (Text.after? root base).bind (Text.after? ['-']) with
  | some [] => none
  | v => v

/-- Whether a rule recognizes a base, written with or without a minus sign. -/
def recognizes (theme : Theme) (base : Text) (negative : Bool) : Rule → Bool
  | .names all => !negative && all.contains (String.ofList base)
  | .valued root values negatable =>
    (negatable || !negative) &&
      if base = root.toList then values.accepts theme Theme.defaultKey.toList
      else ((value? root.toList base).map (values.accepts theme ·)).getD false

end Rule

end ClassSort
