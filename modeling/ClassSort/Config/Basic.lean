import ClassSort.Json.Value
import ClassSort.Order.SortKey

/-!
# Configuration

What a project can say about its class names: a prefix that every utility carries,
the separator between variants, which families of utilities are on, changes to the
theme, and plugins that add utilities and variants of their own.
-/

namespace ClassSort

/-- The layers that a plugin may put its utilities into. -/
inductive PluginLayer where
  | components
  | utilities
deriving Repr, DecidableEq, Inhabited

/-- The layer of the stylesheet. -/
def PluginLayer.layer : PluginLayer → Layer
  | .components => .components
  | .utilities => .utilities

/-- Utilities `root-value`, for listed values and for every value in brackets. -/
structure ValueUtility where
  root : String
  values : List String := []
deriving Repr, DecidableEq

/-- A plugin: fixed class names, utilities with values, and variants. -/
structure Plugin where
  name : String := ""
  layer : PluginLayer := .utilities
  classes : List String := []
  utilities : List ValueUtility := []
  variants : List String := []
deriving Repr, DecidableEq

/-- Which of the built-in families are on. -/
inductive CorePlugins where
  /-- Families switched on or off by name; those not named are on. -/
  | toggles (flags : List (String × Bool))
  /-- The families that are on, to the exclusion of all others. -/
  | allow (names : List String)
deriving Repr, DecidableEq

/-- Whether a family is on. -/
def CorePlugins.isEnabled (name : String) : CorePlugins → Bool
  | .toggles flags => (Json.field? name flags).getD true
  | .allow names => names.contains name

/-- Changes to the theme. A scale named in `scales` replaces the built-in one, a
scale named in `extend` adds to it. Both are in the order of their keys, each key
once, and their values are plain. -/
structure ThemeConfig where
  extend : List (String × Json) := []
  scales : List (String × Json) := []
deriving Repr

/-- A configuration. -/
structure Config where
  classPrefix : String := ""
  separator : Option String := none
  corePlugins : CorePlugins := .toggles []
  theme : ThemeConfig := {}
  plugins : List Plugin := []
deriving Repr

namespace Config

/-- The separator in force: a colon unless a text that is not empty was set. -/
def separatorInForce (c : Config) : String :=
  match c.separator with
  | some s => if s.isEmpty then ":" else s
  | none => ":"

/-- The variants of all plugins, in order. -/
def pluginVariants (c : Config) : List String := c.plugins.flatMap (·.variants)

end Config

end ClassSort
