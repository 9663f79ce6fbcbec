import ClassSort.Text.Basic

/-!
# Errors

What can go wrong outside a single class list: files that cannot be read and
configurations that cannot be used. A class list or an expression that is not understood
is no error; it is left as it is.
-/

namespace ClassSort

/-- The cause of a failure. -/
inductive Error where
  /-- A file that cannot be read or written, with the reason. -/
  | io (path reason : Text)
  /-- A configuration file that is not there. -/
  | configNotFound (path : Text)
  /-- A configuration file with contents that are no configuration. -/
  | configParse (path reason : Text)
  /-- A configuration file in an unknown notation. -/
  | unsupportedFormat (path : Text)
  /-- A source that cannot be read. -/
  | parse (parser reason : Text)
  /-- A parser that does not exist. -/
  | unknownParser (name : Text)
deriving Repr, DecidableEq

namespace Error

/-- The text of an error. -/
def message : Error → Text
  | .io path reason => "I/O error on ".toList ++ path ++ ": ".toList ++ reason
  | .configNotFound path => "Configuration file not found: ".toList ++ path
  | .configParse path reason => "Failed to parse ".toList ++ path ++ ": ".toList ++ reason
  | .unsupportedFormat path => "Unsupported configuration format: ".toList ++ path
  | .parse parser reason =>
    "Failed to parse source with the ".toList ++ parser ++ " parser: ".toList ++ reason
  | .unknownParser name => "Unknown parser: ".toList ++ name

/-- Whether the error goes away when the project or the command is changed. -/
def isUserFixable : Error → Bool
  | .configNotFound _ | .configParse _ _ | .unsupportedFormat _ | .unknownParser _ => true
  | .io _ _ | .parse _ _ => false

end Error

end ClassSort
