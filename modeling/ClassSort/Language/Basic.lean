import ClassSort.ClassUnit.Edit
import ClassSort.Markup.Units
import ClassSort.Path.Basic
import ClassSort.Stylesheet.Params

/-!
# Languages

The languages that class lists are found in, the names under which they can be asked
for, and what to look for in each of them.
-/

namespace ClassSort

/-- The dialects of markup, by their bound attributes. -/
inductive MarkupDialect where
  | html
  | vue
  | angular
deriving Repr, DecidableEq

/-- A language. -/
inductive Language where
  | markup (d : MarkupDialect)
  | script (d : Script.Dialect)
  | stylesheet
deriving Repr, DecidableEq

/-- A way to find class lists. -/
inductive Finder where
  /-- The values of plain attributes. -/
  | attribute
  /-- The values of bound attributes. -/
  | binding
  /-- The attributes of elements in a script. -/
  | elementAttribute
  /-- The parameters of at-rules. -/
  | atRule
deriving Repr, DecidableEq

/-- What to look for in a language. -/
structure Profile where
  finders : List Finder
  attributes : List String := []
  bindings : List String := []
  atRules : List String := []
deriving Repr, DecidableEq

namespace Language

/-- What to look for in a language. -/
def profile : Language → Profile
  | .markup .html => { finders := [.attribute], attributes := ["class"] }
  | .markup .vue =>
    { finders := [.attribute, .binding], attributes := ["class"],
      bindings := [":class", "v-bind:class"] }
  | .markup .angular =>
    { finders := [.attribute, .binding], attributes := ["class"],
      bindings := ["[ngClass]", "[class]"] }
  | .script _ => { finders := [.elementAttribute], attributes := ["class", "className"] }
  | .stylesheet => { finders := [.atRule], atRules := ["@apply"] }

/-- What one finder finds in a source. -/
def find (l : Language) (source : Text) (f : Finder) : List ClassUnit :=
  match f, l with
  | .attribute, .markup _ => Markup.attributeUnits l.profile.attributes source
  | .binding, .markup _ => Markup.bindingUnits l.profile.bindings source
  | .elementAttribute, .script d => Script.attributeUnits d l.profile.attributes source
  | .atRule, .stylesheet => Stylesheet.units (l.profile.atRules.map String.toList) source
  | _, _ => []

/-- The class units of a source, in the order in which they begin. -/
def units (l : Language) (source : Text) : List ClassUnit :=
  ClassUnit.inOrder (l.profile.finders.flatMap (l.find source))

end Language

/-- The names under which a language can be asked for. -/
inductive Parser where
  | html | lwc | vue | angular
  | babel | flow | babelFlow | espree | meriyah | acorn
  | typescript | babelTs
  | css | scss | less | postcss
deriving Repr, DecidableEq

namespace Parser

/-- All parsers, in order. -/
def all : List Parser :=
  [.html, .lwc, .vue, .angular, .babel, .flow, .babelFlow, .espree, .meriyah, .acorn,
   .typescript, .babelTs, .css, .scss, .less, .postcss]

/-- The name of a parser. -/
def name : Parser → String
  | .html => "html"
  | .lwc => "lwc"
  | .vue => "vue"
  | .angular => "angular"
  | .babel => "babel"
  | .flow => "flow"
  | .babelFlow => "babel-flow"
  | .espree => "espree"
  | .meriyah => "meriyah"
  | .acorn => "acorn"
  | .typescript => "typescript"
  | .babelTs => "babel-ts"
  | .css => "css"
  | .scss => "scss"
  | .less => "less"
  | .postcss => "postcss"

/-- The parser with a given name. -/
def ofName? (name : String) : Option Parser := all.find? (·.name == name)

/-- The language that a parser reads. -/
def language : Parser → Language
  | .html | .lwc => .markup .html
  | .vue => .markup .vue
  | .angular => .markup .angular
  | .babel | .flow | .babelFlow | .espree | .meriyah | .acorn => .script .javaScript
  | .typescript | .babelTs => .script .typeScript
  | .css | .scss | .less | .postcss => .stylesheet

/-- The parser for files with a given extension, written in small letters. -/
def ofExtension? (extension : String) : Option Parser :=
  if ["html", "htm"].contains extension then some .html
  else if extension = "vue" then some .vue
  else if ["js", "jsx", "mjs", "cjs"].contains extension then some .babel
  else if ["ts", "tsx", "mts", "cts"].contains extension then some .typescript
  else if extension = "css" then some .css
  else if extension = "scss" then some .scss
  else if extension = "less" then some .less
  else if ["pcss", "postcss"].contains extension then some .postcss
  else none

/-- The parser for a file, judged by its extension. -/
def ofPath? (path : Text) : Option Parser :=
  (Path.extension? path).bind fun e => ofExtension? (String.ofList (e.map Char.toLower))

/-- The source with all its class units in order. There is an answer for every source:
the edits that sort class units always fit. -/
def sortClasses (p : Parser) (r : Ranking) (source : Text) : Option Text :=
  match p.language.units source with
  | [] => some source
  | units => Edit.applyAll source (ClassUnit.edits source r.ofSource units)

end Parser

end ClassSort
