import ClassSort.Ignore.Rules
import ClassSort.Language.Basic

/-!
# Finding the files of a run

A file that is named is always taken. A directory is walked, leaving out what its ignore
files say, and the files with a known extension are taken.
-/

namespace ClassSort.Project

/-- Whether a tree is a directory. -/
def isDirectory : FileTree → Bool
  | .directory _ => true
  | .file _ => false

mutual

/-- The files in a tree that stands at a place and is reached by a path. -/
def walk (fs : FileSystem) (place : Place) (path : Text) : FileTree → List Text
  | .file _ => if (Parser.ofPath? path).isSome then [path] else []
  | .directory entries => walkEntries fs place path entries

/-- The files in some entries of a directory. -/
def walkEntries (fs : FileSystem) (place : Place) (path : Text) :
    List (Text × FileTree) → List Text
  | [] => []
  | (name, tree) :: entries =>
    (if Ignore.verdict? fs place name (isDirectory tree) = some .leaveOut then []
      else walk fs (place ++ [name]) (Path.join path name) tree) ++
      walkEntries fs place path entries

end

/-- The files that a path of the command line stands for. -/
def filesUnder (fs : FileSystem) (path : Text) : List Text :=
  if fs.isFile path then [path]
  else
    match fs.locate path with
    | .ok place =>
      match fs.root.find? place with
      | some (.directory entries) => walkEntries fs place path entries
      | _ => []
    | .error _ => []

/-- The list without paths that spell the same components as the one before them, behind the path
`last`. -/
def dropSame (last : Text) : List Text → List Text
  | [] => []
  | p :: ps =>
    if Path.components last = Path.components p then dropSame last ps else p :: dropSame p ps

/-- The files of a run, in order and each once. -/
def discover (fs : FileSystem) (paths : List Text) : List Text :=
  match stableSort Path.le (paths.flatMap (filesUnder fs)) with
  | [] => []
  | p :: ps => p :: dropSame p ps

end ClassSort.Project
