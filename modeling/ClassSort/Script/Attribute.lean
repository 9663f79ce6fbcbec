import ClassSort.Script.Lexer
import ClassSort.Script.Reader
import ClassSort.Script.Units

/-!
# Class attributes of elements in a script

The class lists of `class` and `className` attributes, wherever in the script the
element stands. A value that cannot be read is left alone.
-/

namespace ClassSort.Script

/-- The class lists of the value of an attribute; the lexemes follow its name. -/
def valueUnits (d : Dialect) (source : Text) : Lexemes → List ClassUnit
  | ⟨.punct "=", _⟩ :: ⟨.attributeString, s⟩ :: _ => stringUnits .plainString s false
  | ⟨.punct "=", _⟩ :: ⟨.opening .container, s⟩ :: rest =>
    ((readContainer d s.start rest).map (·.units source)).getD []
  | _ => []

/-- The class lists of the attributes with given names. -/
def attributeUnitsIn (d : Dialect) (names : List String) (source : Text) :
    Lexemes → List ClassUnit
  | [] => []
  | t :: ts =>
    (match t.kind with
      | .attribute name => if names.contains name then valueUnits d source ts else []
      | _ => []) ++ attributeUnitsIn d names source ts

/-- The class lists of the attributes of a script with given names. -/
def attributeUnits (d : Dialect) (names : List String) (source : Text) : List ClassUnit :=
  attributeUnitsIn d names source (lex d source)

/-- The class lists of a script that is one class-valued expression, or begins with one.
A script that cannot be read has none. -/
def programUnits (d : Dialect) (source : Text) : List ClassUnit :=
  ((readProgram d (lex d source)).map (·.units source)).getD []

end ClassSort.Script
