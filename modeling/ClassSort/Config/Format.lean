import ClassSort.Config.Decode
import ClassSort.Json.Reader
import ClassSort.Path.Basic
import ClassSort.Toml.Reader

/-!
# Notations for configurations

A configuration file is written in one of two notations, which its extension tells.
-/

namespace ClassSort.Config

/-- The notation of a configuration file. -/
inductive Format where
  | toml
  | json
deriving Repr, DecidableEq

/-- The notation of a file, judged by its extension. -/
def Format.ofPath? (path : Text) : Option Format :=
  match (Path.extension? path).map String.ofList with
  | some "toml" => some .toml
  | some "json" => some .json
  | _ => none

/-- The deepest nesting of a document that is read. -/
def maxNesting : Nat := 127

/-- Whether the theme of a document, if it has one, is within the deepest nesting. Its levels
count from the root of the document, one above it. No other field takes values that nest deep. -/
def isShallow (j : Json) : Bool :=
  match recordFields? fieldNames j with
  | some [_, _, _, some theme, _] => theme.nesting + 1 ≤ maxNesting
  | _ => true

/-- The document that a text spells in some notation. -/
def Format.read? (f : Format) (contents : Text) : Option Json :=
  match f with
  | .toml => Toml.read? contents
  | .json => Json.read? contents

/-- The configuration that a text spells in some notation. -/
def parse? (f : Format) (contents : Text) : Option Config := do
  let j ← f.read? contents
  if isShallow j then ofJson? j else none

end ClassSort.Config
