import ClassSort.Text.Basic

/-!
# Paths

Paths are texts with `/` between their parts. Two spellings of a path are the same when
they have the same components: repeated separators and `.` inside a path do not count,
a `.` at its beginning and every `..` do.
-/

namespace ClassSort.Path

/-- A part of a path. -/
inductive Component where
  | root
  /-- A `.` at the beginning of a relative path. -/
  | current
  /-- A `..`. -/
  | up
  | name (text : Text)
deriving Repr, DecidableEq

/-- The parts of a text between separators. -/
def splitParts : Text → List Text
  | [] => [[]]
  | '/' :: cs => [] :: splitParts cs
  | c :: cs =>
    match splitParts cs with
    | [] => [[c]]
    | p :: ps => (c :: p) :: ps

/-- The component that a part stands for, if it counts. -/
def ofPart? (part : Text) : Option Component :=
  if part = [] || part = ['.'] then none
  else if part = ['.', '.'] then some .up
  else some (.name part)

/-- The root or the `.` that a path begins with. -/
def lead (path : Text) : Text :=
  match path with
  | '/' :: _ => ['/']
  | ['.'] | '.' :: '/' :: _ => ['.']
  | _ => []

/-- The component of a lead. -/
def ofLead (lead : Text) : List Component :=
  if lead = ['/'] then [.root] else if lead = ['.'] then [.current] else []

/-- The components of a path. -/
def components (path : Text) : List Component :=
  ofLead (lead path) ++ (splitParts (path.drop (lead path).length)).filterMap ofPart?

/-- The text of a component. -/
def Component.text : Component → Text
  | .root => ['/']
  | .current => ['.']
  | .up => ['.', '.']
  | .name t => t

/-- Position of the kinds of components in the order of paths. -/
def Component.index : Component → Nat
  | .root => 0
  | .current => 1
  | .up => 2
  | .name _ => 3

/-- The order of components: by kind, names by their characters. -/
def Component.compare (a b : Component) : Ordering :=
  (Ord.compare a.index b.index).then
    (match a, b with
      | .name s, .name t => Ord.compare (String.ofList s) (String.ofList t)
      | _, _ => .eq)

/-- The order of lists of components. -/
def compareComponents : List Component → List Component → Ordering
  | [], [] => .eq
  | [], _ :: _ => .lt
  | _ :: _, [] => .gt
  | a :: as, b :: bs => (a.compare b).then (compareComponents as bs)

/-- Whether a path may stand before another. -/
def le (a b : Text) : Bool := (compareComponents (components a) (components b)).isLE

/-- Whether a path begins at the root. -/
def isAbsolute (path : Text) : Bool := path.head? == some '/'

/-- The name that a path ends with, unless it ends with `..` or has none. -/
def fileName? (path : Text) : Option Text :=
  match (components path).getLast? with
  | some (.name t) => some t
  | _ => none

/-- The parts of a text around its last point. -/
def splitLastPoint? (name : Text) : Option (Text × Text) :=
  match name.reverse.dropWhile (· != '.') with
  | [] => none
  | _ :: before => some (before.reverse, (name.reverse.takeWhile (· != '.')).reverse)

/-- What follows the last point of the name of a file. A point at the beginning of the
name does not count. -/
def extension? (path : Text) : Option Text :=
  match (fileName? path).bind splitLastPoint? with
  | some (before, after) => if before.isEmpty then none else some after
  | none => none

/-- Drops separators and parts that do not count from the front of a path that is
written backwards. The fuel is the length of the text. -/
def trimBack : Nat → Text → Text
  | 0, cs => cs
  | fuel + 1, cs =>
    let part := cs.takeWhile (· != '/')
    if cs.isEmpty || (part ≠ [] && part ≠ ['.']) then cs
    else trimBack fuel ((cs.dropWhile (· != '/')).drop 1)

/-- The path without its last component, as far as it is spelled. The root and the
empty path have nothing to leave out. -/
def parent? (path : Text) : Option Text :=
  let lead := lead path
  let body := (path.drop lead.length).reverse
  match trimBack body.length body with
  | [] => if lead = ['.'] then some [] else none
  | cs =>
    let rest := (cs.dropWhile (· != '/')).drop 1
    some (lead ++ (trimBack rest.length rest).reverse)

/-- At most `count` directories: a path, its parent, and so on. -/
def ancestors : Nat → Text → List Text
  | 0, _ => []
  | count + 1, path => path :: ((parent? path).map (ancestors count)).getD []

/-- A path below a directory. -/
def join (dir path : Text) : Text :=
  if isAbsolute path || dir.isEmpty then path
  else if dir.getLast? == some '/' then dir ++ path
  else dir ++ '/' :: path

/-- A path with its components below a directory. -/
def joinAll (dir : Text) (parts : List Component) : Text :=
  parts.foldl (fun acc c => join acc c.text) dir

/-- A path from the root, seen from a current directory. Repeated separators and `.` go
away, `..` stays, and so does a separator at the end. A path that begins with exactly
two separators keeps them. -/
def absolute (current path : Text) : Text :=
  let parts := components path
  let base :=
    if "//".toList.isPrefixOf path && !"///".toList.isPrefixOf path then
      joinAll "//".toList (parts.drop 1)
    else if isAbsolute path then joinAll [] parts
    else joinAll current (parts.filter (· != .current))
  if path.getLast? == some '/' && base.getLast? != some '/' then base ++ ['/'] else base

/-- The directory of a file, which is the current one if its path has no other part. -/
def containing (current path : Text) : Text :=
  match parent? path with
  | some (c :: cs) => absolute current (c :: cs)
  | _ => absolute current ['.']

end ClassSort.Path
