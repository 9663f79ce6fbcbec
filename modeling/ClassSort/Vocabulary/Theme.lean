import ClassSort.Config.Basic
import ClassSort.Vocabulary.Scale

/-!
# Themes

A theme gives the keys of every scale and the names of the colors. Scales that
measure distances are built on the spacing scale as the configuration leaves it, so
that a new spacing is a new padding, margin and width as well.
-/

namespace ClassSort

/-- The keys of every scale, and the color names. -/
structure Theme where
  keys : Scale → List String
  colors : List String

namespace Theme

/-- The keys of a scale given in a configuration: those of a table, or the texts of a
list. -/
def scaleKeys : Json → List String
  | .object fields => fields.map Prod.fst
  | .array items => items.filterMap Json.string?
  | _ => []

/-- The key of a shade, or of any other entry, that stands for the bare name. -/
def defaultKey : String := "DEFAULT"

/-- The names of one entry of a color table: one for each shade, or the entry's own. -/
def shadeNames (name : String) : Json → List String
  | .object shades =>
    shades.map fun (shade, _) => if shade = defaultKey then name else name ++ "-" ++ shade
  | _ => [name]

/-- The color names of a color table. -/
def colorNames : Json → List String
  | .object fields => fields.flatMap fun (name, entry) => shadeNames name entry
  | _ => []

/-- What a scale is under a configuration: the replacement if there is one and
`builtin` otherwise, then what the configuration adds. -/
def resolve (names : Json → List String) (scale : String) (builtin : List String)
    (config : ThemeConfig) : List String :=
  ((Json.field? scale config.scales).map names).getD builtin ++
    ((Json.field? scale config.extend).map names).getD []

/-- The keys of the spacing scale. -/
def spacing (config : ThemeConfig) : List String :=
  resolve scaleKeys Scale.spacing.name Scale.spacing.ownKeys config

/-- The keys of a scale. -/
def keysOf (config : ThemeConfig) (s : Scale) : List String :=
  let inherited := if s.measuresDistance then spacing config else []
  resolve scaleKeys s.name (inherited ++ s.ownKeys) config

/-- The name under which a configuration changes the colors. -/
def colorScale : String := "colors"

/-- The theme of a configuration. -/
def ofConfig (config : ThemeConfig) : Theme where
  keys := keysOf config
  colors := resolve colorNames colorScale builtinColors config

/-- Whether a value is a key of a scale. -/
def contains (t : Theme) (s : Scale) (value : String) : Bool := (t.keys s).contains value

/-- Whether a color has a name. -/
def hasColor (t : Theme) (name : String) : Bool := t.colors.contains name

end Theme

end ClassSort
