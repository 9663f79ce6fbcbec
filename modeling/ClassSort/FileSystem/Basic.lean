import ClassSort.Path.Basic

/-!
# File systems

A file system is a tree of directories with a current directory. There are no links, so
every file has one place, but many paths lead to it. Following a path needs every
directory on the way to exist, also those that a `..` leaves again.
-/

namespace ClassSort

/-- What a file holds. -/
inductive Content where
  | text (t : Text)
  /-- Bytes that are no text. -/
  | binary
deriving Repr, DecidableEq

/-- A file, or a directory with the names in it. -/
inductive FileTree where
  | file (content : Content)
  | directory (entries : List (Text × FileTree))
deriving Inhabited

/-- Names from the root down to a file or directory. -/
abbrev Place := List Text

/-- A tree of files and the directory that relative paths start from. -/
structure FileSystem where
  root : FileTree
  current : Place

/-- Why a path leads nowhere. -/
inductive PathError where
  | notFound
  /-- A file stands where a directory is needed. -/
  | notDirectory
deriving Repr, DecidableEq

/-- Why a file has no text to read. -/
inductive ReadError where
  | notFound
  /-- It is no file, or its bytes are no text. -/
  | unreadable
deriving Repr, DecidableEq

namespace FileTree

/-- The entry of a name. -/
def lookup (name : Text) : List (Text × FileTree) → Option FileTree
  | [] => none
  | (n, t) :: es => if n = name then some t else lookup name es

/-- The entries with another tree for a name, which goes to the end if it is new. -/
def insert (name : Text) (tree : FileTree) : List (Text × FileTree) → List (Text × FileTree)
  | [] => [(name, tree)]
  | (n, t) :: es => if n = name then (n, tree) :: es else (n, t) :: insert name tree es

/-- What stands at a place. -/
def find? : Place → FileTree → Option FileTree
  | [], t => some t
  | n :: ns, .directory es => (lookup n es).bind (find? ns)
  | _ :: _, .file _ => none

/-- The tree with another tree at a place; directories on the way are made. Where a file
is in the way, nothing changes. -/
def put (tree : FileTree) : Place → FileTree → FileTree
  | [], _ => tree
  | _ :: _, .file c => .file c
  | n :: ns, .directory es =>
    .directory (insert n (put tree ns ((lookup n es).getD (.directory []))) es)

/-- The tree without what stands at a place. -/
def remove : Place → FileTree → FileTree
  | [], t => t
  | _ :: _, .file c => .file c
  | [n], .directory es => .directory (es.filter (·.1 != n))
  | n :: ns, .directory es =>
    match lookup n es with
    | some t => .directory (insert n (remove ns t) es)
    | none => .directory es

end FileTree

namespace FileSystem

/-- The path of a place. -/
def pathOf (place : Place) : Text := '/' :: Text.join ['/'] place

/-- The path of the current directory. -/
def currentPath (fs : FileSystem) : Text := pathOf fs.current

/-- Follows components from a place, which is given backwards and leads to a directory
or, before the last step, to a file. -/
def follow (fs : FileSystem) (back : Place) : List Path.Component → Except PathError Place
  | [] => .ok back.reverse
  | c :: cs =>
    match c with
    | .root => follow fs [] cs
    | .current => follow fs back cs
    | .up =>
      match fs.root.find? back.reverse with
      | some (.directory _) => follow fs (back.drop 1) cs
      | _ => .error .notDirectory
    | .name n =>
      match fs.root.find? back.reverse with
      | some (.directory es) =>
        if (FileTree.lookup n es).isSome then follow fs (n :: back) cs else .error .notFound
      | _ => .error .notDirectory

/-- Whether a path asks for a directory by how it ends. -/
def asksDirectory (path : Text) : Bool :=
  let last := (Path.splitParts path).getLastD []
  path.contains '/' && (last = [] || last = ['.'])

/-- The place that a path leads to. -/
def locate (fs : FileSystem) (path : Text) : Except PathError Place := do
  if path.isEmpty then .error .notFound
  else
    let place ← follow fs fs.current.reverse (Path.components path)
    match fs.root.find? place with
    | some (.file _) => if asksDirectory path then .error .notDirectory else return place
    | some (.directory _) => return place
    | none => .error .notFound

/-- What stands at the end of a path. -/
def get (fs : FileSystem) (path : Text) : Except PathError FileTree := do
  let place ← fs.locate path
  match fs.root.find? place with
  | some t => return t
  | none => .error .notFound

/-- Whether a path leads to a file. -/
def isFile (fs : FileSystem) (path : Text) : Bool :=
  match fs.get path with
  | .ok (.file _) => true
  | _ => false

/-- The text of the file that a path leads to. -/
def readText (fs : FileSystem) (path : Text) : Except ReadError Text :=
  match fs.get path with
  | .ok (.file (.text t)) => .ok t
  | .error .notFound => .error .notFound
  | _ => .error .unreadable

/-- Puts a text in the place of a file. -/
def overwrite (fs : FileSystem) (path : Text) (t : Text) : FileSystem :=
  match fs.locate path with
  | .ok place => { fs with root := FileTree.put (.file (.text t)) place fs.root }
  | .error _ => fs

/-- The place that a path names, whether there is anything or not. -/
def nominal (fs : FileSystem) (path : Text) : Place :=
  ((Path.components path).foldl
    (fun back c =>
      match c with
      | .root => []
      | .current => back
      | .up => back.drop 1
      | .name n => n :: back)
    fs.current.reverse).reverse

/-- Puts a file at a path and makes the directories that it needs. -/
def create (fs : FileSystem) (path : Text) (content : Content) : FileSystem :=
  { fs with root := FileTree.put (.file content) (fs.nominal path) fs.root }

/-- Makes a directory and those that it needs. -/
def makeDirectory (fs : FileSystem) (path : Text) : FileSystem :=
  match fs.root.find? (fs.nominal path) with
  | some _ => fs
  | none => { fs with root := FileTree.put (.directory []) (fs.nominal path) fs.root }

/-- Removes a file. -/
def delete (fs : FileSystem) (path : Text) : FileSystem :=
  { fs with root := FileTree.remove (fs.nominal path) fs.root }

/-- An empty file system but for the current directory. -/
def empty (current : Place) : FileSystem :=
  ⟨FileTree.put (.directory []) current (.directory []), current⟩

end FileSystem

end ClassSort
