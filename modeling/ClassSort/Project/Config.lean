import ClassSort.Config.Format
import ClassSort.Error
import ClassSort.FileSystem.Basic

/-!
# Configuration files of a project

The configuration of a directory is the nearest one above it, in a file with one of the
conventional names.
-/

namespace ClassSort.Project

/-- The names of configuration files, the preferred one first. -/
def configNames : List Text := ["tailwind.config.toml".toList, "tailwind.config.json".toList]

/-- How many directories are searched, the first one included. -/
def maxSearched : Nat := 32

/-- The first configuration file in a directory or above it. -/
def findConfig? (fs : FileSystem) (dir : Text) : Option Text :=
  (Path.ancestors maxSearched dir).findSome? fun d =>
    (configNames.map (Path.join d)).find? fs.isFile

/-- The configuration in a file. -/
def loadConfig (fs : FileSystem) (path : Text) : Except Error Config :=
  match Config.Format.ofPath? path with
  | none => .error (.unsupportedFormat path)
  | some format =>
    match fs.readText path with
    | .error .notFound => .error (.configNotFound path)
    | .error .unreadable => .error (.io path "the file cannot be read".toList)
    | .ok contents =>
      match Config.parse? format contents with
      | some c => .ok c
      | none => .error (.configParse path "the file is no configuration".toList)

end ClassSort.Project
