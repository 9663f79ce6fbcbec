import ClassSort.Markup.Attribute
import ClassSort.Script.Attribute

/-!
# Class lists of markup

Plain attributes hold a class list as their value. The value of a bound attribute is a
script expression; it is read between parentheses, so that a brace at its beginning
opens an object.
-/

namespace ClassSort.Markup

/-- Whether two names are the same but for the case of ASCII letters. -/
def sameName (a b : Text) : Bool := upper a == upper b

/-- The class lists of plain attributes. -/
def attributeUnits (names : List String) (source : Text) : List ClassUnit :=
  ((attributes source).filter fun a =>
      names.any (fun n => sameName n.toList a.name) && !a.value.isEmpty).map
    fun a => .list ⟨a.value, .plainString, .attributeValue, {}⟩

/-- The class lists of a bound value that begins at `start`. -/
def bindingValueUnits (value : Text) (start : Nat) : List ClassUnit :=
  if Text.allBlank value then []
  else
    (Script.programUnits .javaScript ('(' :: value ++ [')'])).map
      (·.map fun offset => offset + start - 1)

/-- The class lists of bound attributes. -/
def bindingUnits (names : List String) (source : Text) : List ClassUnit :=
  ((attributes source).filter fun a => names.contains (String.ofList a.name)).flatMap fun a =>
    ((Text.slice? source a.value).map (bindingValueUnits · a.value.start)).getD []

end ClassSort.Markup
