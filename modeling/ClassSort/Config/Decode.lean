import ClassSort.Config.Basic

/-!
# Configurations as documents

`ofJson?` reads a configuration from a document and `toJson` writes one. A record
may be given as a table or as the list of its fields in order, the last ones left
out. Fields that a record does not have are ignored; a field that it has may not be
given twice, also not once under each of its names. A table that stands for a map
may repeat a key, and then the last entry counts.
-/

namespace ClassSort.Config

/-- What a table gives to a field, which it may do once under one of its spellings. -/
def given? (fields : List (String × Json)) (spellings : List String) : Option (Option Json) :=
  match fields.filter fun f => spellings.contains f.1 with
  | [] => some none
  | [f] => some (some f.2)
  | _ => none

/-- The fields of a record, each with the value that it was given, if any. The names
list the spellings of each field. -/
def recordFields? (names : List (List String)) : Json → Option (List (Option Json))
  | .object fields => names.mapM (given? fields)
  | .array items =>
    if items.length ≤ names.length then
      some (items.map some ++ List.replicate (names.length - items.length) none)
    else none
  | _ => none

/-- A field that is `default` when it was left out. -/
def orElse {α : Type} (default : α) (decode : Json → Option α) : Option Json → Option α
  | none => some default
  | some j => decode j

/-- A list of values of one kind. -/
def list? {α : Type} (decode : Json → Option α) : Json → Option (List α)
  | .array items => items.mapM decode
  | _ => none

/-- A text, or nothing for `null`. -/
def optionalString? : Json → Option (Option String)
  | .null => some none
  | .string s => some (some s)
  | _ => none

/-- A flag. -/
def bool? : Json → Option Bool
  | .bool b => some b
  | _ => none

/-- The layer with a given name. -/
def layerNamed? (name : String) : Option PluginLayer :=
  if name = "components" then some .components
  else if name = "utilities" then some .utilities
  else none

/-- A layer, by its name or as the one key of a table with no value. -/
def layer? : Json → Option PluginLayer
  | .string s => layerNamed? s
  | .object [(s, .null)] => layerNamed? s
  | _ => none

/-- A utility with values; it must have a root. -/
def utility? (j : Json) : Option ValueUtility := do
  let [some root, values] ← recordFields? [["root"], ["values"]] j | none
  return {
    root := ← root.string?
    values := ← orElse [] (list? Json.string?) values }

/-- A plugin. -/
def plugin? (j : Json) : Option Plugin := do
  let [name, layer, classes, utilities, variants] ←
    recordFields? [["name"], ["layer"], ["classes"], ["utilities"], ["variants"]] j | none
  return {
    name := ← orElse "" Json.string? name
    layer := ← orElse .utilities layer? layer
    classes := ← orElse [] (list? Json.string?) classes
    utilities := ← orElse [] (list? utility?) utilities
    variants := ← orElse [] (list? Json.string?) variants }

/-- The choice of families: a table of flags or a list of names. -/
def corePlugins? : Json → Option CorePlugins
  | .object fields => do
    let flags ← fields.mapM fun (k, v) => (bool? v).map (k, ·)
    return .toggles (Json.sortFields flags)
  | .array items => (items.mapM Json.string?).map .allow
  | _ => none

/-- The theme. -/
def theme? (j : Json) : Option ThemeConfig := do
  let .object fields := j | none
  let .object extend ← orElse (.object []) some
    (← (recordFields? [["extend"]] j).bind List.head?) | none
  let .object extend ← (Json.object extend).normalize | none
  let .object scales ← (Json.object (fields.filter (·.1 != "extend"))).normalize | none
  return ⟨extend, scales⟩

/-- The spellings of the fields of a configuration. -/
def fieldNames : List (List String) :=
  [["prefix"], ["separator"], ["core_plugins", "corePlugins"], ["theme"], ["plugins"]]

/-- The configuration that a document describes, if it describes one. -/
def ofJson? (j : Json) : Option Config := do
  let [classPrefix, separator, corePlugins, theme, plugins] ← recordFields? fieldNames j | none
  return {
    classPrefix := ← orElse "" Json.string? classPrefix
    separator := ← orElse none optionalString? separator
    corePlugins := ← orElse (.toggles []) corePlugins? corePlugins
    theme := ← orElse {} theme? theme
    plugins := ← orElse [] (list? plugin?) plugins }

/-- A list of texts as a document. -/
def strings (items : List String) : Json := .array (items.map .string)

/-- A utility with values as a document. -/
def utilityJson (u : ValueUtility) : Json :=
  .object [("root", .string u.root), ("values", strings u.values)]

/-- The name of a layer. -/
def layerName : PluginLayer → String
  | .components => "components"
  | .utilities => "utilities"

/-- A plugin as a document. -/
def pluginJson (p : Plugin) : Json :=
  .object [("name", .string p.name), ("layer", .string (layerName p.layer)),
    ("classes", strings p.classes), ("utilities", .array (p.utilities.map utilityJson)),
    ("variants", strings p.variants)]

/-- The choice of families as a document. -/
def corePluginsJson : CorePlugins → Json
  | .toggles flags => .object (flags.map fun (k, b) => (k, .bool b))
  | .allow names => strings names

/-- The theme as a document. -/
def themeJson (t : ThemeConfig) : Json := .object (("extend", .object t.extend) :: t.scales)

/-- The document of a configuration. -/
def toJson (c : Config) : Json :=
  .object [("prefix", .string c.classPrefix),
    ("separator", c.separator.elim .null .string),
    ("core_plugins", corePluginsJson c.corePlugins),
    ("theme", themeJson c.theme),
    ("plugins", .array (c.plugins.map pluginJson))]

end ClassSort.Config
