import ClassSort.ClassUnit.Basic
import ClassSort.Stylesheet.AtKeyword

/-!
# Parameters of at-rules

The parameters of a rule such as `@apply` run from its keyword to the `;` or brace that
ends it. A flag `!important` at their end is not part of the class list. Parameters with
an interpolation or a comment in them are left alone.
-/

namespace ClassSort.Stylesheet

/-- What the reader of parameters is inside of. -/
inductive Quoting where
  | outside
  /-- A string, after a backslash or not. -/
  | inside (quote : Char) (escaped : Bool)
deriving Repr, DecidableEq

/-- The parameters at the beginning of a text, read at some bracket depth and after the
character `previous`; `none` if they hold an interpolation or a comment. -/
def paramsFrom? (depth : Nat) (quoting : Quoting) (previous : Char) : Text → Option Text
  | [] => some []
  | c :: cs =>
    match quoting with
    | .inside quote escaped =>
      let next :=
        if escaped then .inside quote false
        else if c == '\\' then .inside quote true
        else if c == quote then .outside
        else .inside quote false
      (paramsFrom? depth next c cs).map (c :: ·)
    | .outside =>
      if c == '{' && (previous == '#' || previous == '@') then none
      else if c == '*' && previous == '/' then none
      else if c == '\'' || c == '"' then
        (paramsFrom? depth (.inside c false) c cs).map (c :: ·)
      else if c == '[' || c == '(' then (paramsFrom? (depth + 1) .outside c cs).map (c :: ·)
      else if c == ']' || c == ')' then (paramsFrom? (depth - 1) .outside c cs).map (c :: ·)
      else if depth == 0 && (c == ';' || c == '{' || c == '}') then some []
      else (paramsFrom? depth .outside c cs).map (c :: ·)

/-- The parameters at the beginning of a text. -/
def params? (cs : Text) : Option Text := paramsFrom? 0 .outside '\x00' cs

/-- The flag that stays behind the classes. -/
def importantFlag : Text := "!important".toList

/-- The parameters without a flag at their end. The flag must stand apart. -/
def withoutFlag (params : Text) : Text :=
  match Text.before? importantFlag (Text.trimEnd params) with
  | some rest => if rest.isEmpty || Text.endsBlank rest then rest else params
  | none => params

/-- The class list of the rule whose keyword ends at `start`. -/
def ruleUnit? (source : Text) (start : Nat) : Option ClassUnit := do
  let params ← params? (← Text.drop? source start)
  let classes := withoutFlag params
  if Text.allBlank classes then none
  else return .list ⟨⟨start, start + Text.size classes⟩, .atRuleParams, .atRule, {}⟩

/-- The class lists of the rules with given keywords, of all that were found in a source. -/
def unitsOf (keywords : List Text) (source : Text) (found : List AtKeyword) : List ClassUnit :=
  (found.filter fun k => keywords.contains k.text).filterMap fun k => ruleUnit? source k.span.stop

/-- The class lists of the rules with given keywords. -/
def units (keywords : List Text) (source : Text) : List ClassUnit :=
  unitsOf keywords source (atKeywords source)

end ClassSort.Stylesheet
