import ClassSort.Project.Config
import ClassSort.Vocabulary.Basic

/-!
# Finding the vocabulary of a file

A resolver remembers what it found: for each directory the configuration file above it,
and for each configuration file the vocabulary, or the error that came of it. What is
remembered is not looked up again, so it stays as it was when it was first needed.
-/

namespace ClassSort

/-- What came of a configuration. -/
abbrev Resolution := Except Error Vocabulary

/-- What has been found so far. A configuration file given in advance is used for all
files. -/
structure Resolver where
  given : Option Text := none
  /-- For each directory the configuration file that is used there. -/
  located : List (Text × Option Text) := []
  /-- What came of each configuration file, or of having none. -/
  resolved : List (Option Text × Resolution) := []
  /-- How often a configuration was resolved. -/
  resolutions : Nat := 0

namespace Resolver

/-- Whether two paths have the same components. -/
def samePath (a b : Text) : Bool := Path.components a == Path.components b

/-- Whether two configurations are the same file, or both none. -/
def sameSource : Option Text → Option Text → Bool
  | some a, some b => samePath a b
  | none, none => true
  | _, _ => false

/-- The configuration file for a directory. -/
def locate (fs : FileSystem) (dir : Text) (r : Resolver) : Option Text × Resolver :=
  match r.located.find? fun l => samePath l.1 dir with
  | some (_, found) => (found, r)
  | none =>
    let found := Project.findConfig? fs dir
    (found, { r with located := (dir, found) :: r.located })

/-- The configuration file for a file. -/
def sourceFor (fs : FileSystem) (file : Text) (r : Resolver) : Option Text × Resolver :=
  match r.given with
  | some path => (some path, r)
  | none => r.locate fs (Path.containing fs.currentPath file)

/-- What comes of a configuration file, or of having none. -/
def resolve (fs : FileSystem) : Option Text → Resolution
  | none => .ok (Vocabulary.ofConfig {})
  | some path => (Project.loadConfig fs path).map Vocabulary.ofConfig

/-- The vocabulary of a configuration. -/
def fetch (fs : FileSystem) (source : Option Text) (r : Resolver) : Resolution × Resolver :=
  match r.resolved.find? fun s => sameSource s.1 source with
  | some (_, found) => (found, r)
  | none =>
    let found := resolve fs source
    (found, { r with
      resolved := (source, found) :: r.resolved, resolutions := r.resolutions + 1 })

/-- The vocabulary for a file. -/
def vocabularyFor (fs : FileSystem) (file : Text) (r : Resolver) : Resolution × Resolver :=
  let (source, r) := r.sourceFor fs file
  r.fetch fs source

end Resolver

end ClassSort
