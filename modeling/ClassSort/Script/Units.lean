import ClassSort.ClassUnit.Basic
import ClassSort.Script.Expr

/-!
# Class lists of an expression

The walk over a class-valued expression. It descends only where the strings are class
lists: through concatenation, fallbacks, the branches of a ternary, arguments, arrays,
the keys of objects and the text and holes of templates. Conditions, callees, object
values and indexes are never entered.
-/

namespace ClassSort.Script

/-- The range between the quotes of a string, if it holds anything and no escapes. -/
def content? (span : Span) (escaped : Bool) : Option Span :=
  if !escaped && span.start + 1 < span.stop - 1 then some ⟨span.start + 1, span.stop - 1⟩
  else none

/-- A string as a class list. -/
def stringUnits (shape : Shape) (span : Span) (escaped : Bool) : List ClassUnit :=
  ((content? span escaped).map fun s => .list ⟨s, shape, .string, {}⟩).toList

/-- A part of a template as a class list, unless it is blank or has a backslash. A word
that touches a hole keeps its place. -/
def segmentUnits (source : Text) (span : Span) (afterHole beforeHole : Bool) : List ClassUnit :=
  match Text.slice? source span with
  | none => []
  | some text =>
    if Text.allBlank text || text.contains '\\' then []
    else
      [.list ⟨span, .interpolationSegment, .template,
        ⟨afterHole && !Text.startsBlank text, beforeHole && !Text.endsBlank text⟩⟩]

/-- The key of an entry that can be moved. -/
def entryKey? : Key → Option EntryKey
  | .string span escaped => (content? span escaped).map fun s => ⟨s, true⟩
  | .name span => some ⟨span, false⟩
  | .other _ => none

/-- A member as an entry that can be moved. -/
def entryOf? : Member → Option Entry
  | .pair span key _ => (entryKey? key).map fun k => ⟨span, k⟩
  | .other _ => none

/-- The string key of a member as a class list. -/
def keyUnits : Member → List ClassUnit
  | .pair _ (.string span escaped) _ => stringUnits .objectKey span escaped
  | _ => []

/-- The members of an object: all of them as entries, if all can be moved, and else
their string keys. -/
def objectUnits (members : List Member) : List ClassUnit :=
  match members.mapM entryOf? with
  | some [] => []
  | some es => [.entries es]
  | none => members.flatMap keyUnits

/-- An expression without the parentheses around it. -/
def Expr.unparen : Expr → Expr
  | .paren _ inner => inner.unparen
  | e => e

mutual

/-- The class lists of an expression that was found in some position. -/
def Expr.unitsAs (source : Text) (shape : Shape) : Expr → List ClassUnit
  | .string span escaped => stringUnits shape span escaped
  | .template span holes => holeUnits source shape (span.start + 1) (span.stop - 1) false holes
  | .paren _ inner => inner.unitsAs source shape
  | .wrapped _ (some inner) => inner.unitsAs source shape
  | .wrapped _ none => []
  | .binary _ op left right =>
    match op with
    | .plus | .fallback => left.unitsAs source shape ++ right.unitsAs source shape
    | .guarded => right.unitsAs source shape
    | .other => []
  | .ternary _ _ consequence alternative =>
    consequence.unitsAs source .ternaryBranch ++ alternative.unitsAs source .ternaryBranch
  | .call _ _ arguments => listUnits source .callArgument arguments
  | .array _ items => listUnits source .arrayElement items
  | .object _ members => objectUnits members
  | .subscript _ object _ =>
    match object.unparen with
    | .object _ members => objectUnits members
    | _ => []
  | .other _ => []

/-- The class lists of some expressions. -/
def listUnits (source : Text) (shape : Shape) : List Expr → List ClassUnit
  | [] => []
  | e :: es => e.unitsAs source shape ++ listUnits source shape es

/-- The class lists of a template from `start` on, with its remaining holes. -/
def holeUnits (source : Text) (shape : Shape) (start stop : Nat) (afterHole : Bool) :
    List (Span × Expr) → List ClassUnit
  | [] => if start ≤ stop then segmentUnits source ⟨start, stop⟩ afterHole false else []
  | (span, e) :: holes =>
    segmentUnits source ⟨start, span.start⟩ afterHole true ++ e.unitsAs source shape ++
      holeUnits source shape span.stop stop true holes

end

/-- The class lists of a class-valued expression. -/
def Expr.units (source : Text) (e : Expr) : List ClassUnit := e.unitsAs source .plainString

end ClassSort.Script
