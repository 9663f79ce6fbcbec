import ClassSort.Config.Basic
import ClassSort.Text.Blank

/-!
# Screens

The screen sizes of a theme, in the order of their widths. A width that cannot be
read puts a screen behind all others.
-/

namespace ClassSort

/-- A screen size and its width in pixels, if the width is known. -/
structure Screen where
  name : String
  width : Option Binary64
deriving Repr, DecidableEq

namespace Screen

/-- The built-in screens. -/
def builtin : List Screen :=
  [("sm", 640), ("md", 768), ("lg", 1024), ("xl", 1280), ("2xl", 1536)].map
    fun (name, width) => ⟨name, some (Binary64.ofNat width)⟩

/-- Pixels of one `em`. -/
def emPixels : Binary64 := Binary64.ofNat 16

/-- The pixels of a length such as `640px` or `40rem`. -/
def width? (raw : String) : Option Binary64 :=
  let raw := Text.trim raw.toList
  match Text.before? "px".toList raw with
  | some px => Binary64.ofText? (Text.trim px)
  | none =>
    match (Text.before? "rem".toList raw).or (Text.before? "em".toList raw) with
    | some em => (Binary64.ofText? (Text.trim em)).map (·.mul emPixels)
    | none => Binary64.ofText? raw

/-- The width of a screen as a configuration gives it: a length, a number of pixels, or
a table with a length for `min`, or else for `max`. -/
def widthOf : Json → Option Binary64
  | .string raw => width? raw
  | .number n => some n.toBinary
  | .object bounds =>
    ((Json.field? "min" bounds).or (Json.field? "max" bounds)).bind fun bound =>
      bound.string?.bind width?
  | _ => none

/-- The screens of a table. -/
def entries : Json → List Screen
  | .object fields => fields.map fun (name, width) => ⟨name, widthOf width⟩
  | _ => []

/-- Puts a screen in the place of the first one with its name, or at the end. -/
def update (s : Screen) : List Screen → List Screen
  | [] => [s]
  | t :: rest => if t.name = s.name then s :: rest else t :: update s rest

/-- Whether a screen may stand before another. -/
def le (a b : Screen) : Bool :=
  match a.width, b.width with
  | some x, some y => x.orderKey ≤ y.orderKey
  | none, some _ => false
  | _, none => true

/-- The name under which a configuration changes the screens. -/
def scale : String := "screens"

/-- The screens of a theme by width. -/
def ofConfig (config : ThemeConfig) : List Screen :=
  let base := ((Json.field? scale config.scales).map entries).getD builtin
  let added := ((Json.field? scale config.extend).map entries).getD []
  (added.foldl (fun screens s => update s screens) base).mergeSort le

end Screen

end ClassSort
