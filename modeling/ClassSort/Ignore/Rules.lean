import ClassSort.FileSystem.Basic
import ClassSort.Ignore.Glob
import ClassSort.Text.Blank

/-!
# Ignore files

Files that say which paths to leave out of a walk. `.ignore` counts everywhere;
`.gitignore` and the exclude file of a repository count only inside one, and not beyond
the directory that holds it. The rules of a directory are for the paths below it. For a
path the nearest directory with a rule that matches decides, and in one file the last
such rule; an `.ignore` file decides before the others.
-/

namespace ClassSort.Ignore

/-- A line of an ignore file. -/
structure Rule where
  pattern : List Glob.Item
  /-- Whether the rule keeps what earlier ones leave out. -/
  keeps : Bool
  /-- Whether the rule is for directories only. -/
  onlyDirectories : Bool

/-- What the rules say about a path. -/
inductive Verdict where
  | leaveOut
  | keep
deriving Repr, DecidableEq

/-- A line without the blanks at its end, unless the last of them is escaped. -/
def stripLine (line : Text) : Text :=
  if (Text.before? ['\\', ' '] line).isSome then line else Text.trimEnd line

/-- The pattern of a line without a slash in it matches at any depth; one that ends with
two stars is for what is inside a directory, not for the directory. -/
def anchored (fromHere : Bool) (pattern : Text) : Text :=
  let pattern :=
    if fromHere || pattern.contains '/' || pattern = "**".toList then pattern
    else "**/".toList ++ pattern
  if (Text.before? "/**".toList pattern).isSome then pattern ++ "/*".toList else pattern

/-- The rule of a line, if it is one. -/
def ruleOf? (line : Text) : Option Rule := do
  let line := stripLine line
  if line.isEmpty || line.head? == some '#' then none
  else
    let (keeps, fromHere, line) :=
      match line with
      | '\\' :: '!' :: rest => (false, false, '!' :: rest)
      | '\\' :: '#' :: rest => (false, false, '#' :: rest)
      | '!' :: '/' :: rest => (true, true, rest)
      | '!' :: rest => (true, false, rest)
      | '/' :: rest => (false, true, rest)
      | rest => (false, false, rest)
    let (onlyDirectories, line) :=
      match Text.before? ['/'] line with
      | some rest => (true, (Text.before? ['\\'] rest).getD rest)
      | none => (false, line)
    let pattern ← Glob.read? (anchored fromHere line)
    return ⟨pattern, keeps, onlyDirectories⟩

/-- The lines of a text. -/
def linesOf : Text → List Text
  | [] => []
  | c :: cs =>
    if c == '\n' then [] :: linesOf cs
    else
      match linesOf cs with
      | [] => [[c]]
      | l :: ls => (c :: l) :: ls

/-- The rules of an ignore file. A mark of the byte order may stand in front. -/
def rulesOf (contents : Text) : List Rule :=
  (linesOf ((Text.after? ['\ufeff'] contents).getD contents)).filterMap ruleOf?

/-- What some rules say about a path, given from their directory on. -/
def verdictOf? (rules : List Rule) (path : Place) (isDirectory : Bool) : Option Verdict :=
  let cs := Text.join ['/'] path
  (rules.reverse.find? fun r =>
      (isDirectory || !r.onlyDirectories) && Glob.accepts r.pattern cs).map
    fun r => if r.keeps then .keep else .leaveOut

/-- The rules of a file below a directory. -/
def rulesAt (fs : FileSystem) (place : Place) : List Rule :=
  match fs.root.find? place with
  | some (.file (.text t)) => rulesOf t
  | _ => []

/-- Whether a directory holds a repository. -/
def holdsRepository (fs : FileSystem) (dir : Place) : Bool :=
  (fs.root.find? (dir ++ [".git".toList])).isSome

/-- The name of ignore files that count everywhere. -/
def generalName : Text := ".ignore".toList

/-- The name of ignore files that count in a repository. -/
def repositoryName : Text := ".gitignore".toList

/-- The names down to the exclude file of a repository. -/
def excludeNames : Place := [".git".toList, "info".toList, "exclude".toList]

/-- The first answer of some directories about a path. Each directory comes with the
path as seen from it. -/
def firstVerdict? (fs : FileSystem) (file : Place) (isDirectory : Bool) :
    List (Place × Place) → Option Verdict
  | [] => none
  | (dir, path) :: rest =>
    (verdictOf? (rulesAt fs (dir ++ file)) path isDirectory).or
      (firstVerdict? fs file isDirectory rest)

/-- The directories above a path, nearest first, each with the path as seen from it. -/
def above (back rest : Place) : List (Place × Place) :=
  match back with
  | [] => [([], rest)]
  | n :: up => ((n :: up).reverse, rest) :: above up (n :: rest)

/-- The directories up to the first one that holds a repository. -/
def upToRepository (fs : FileSystem) : List (Place × Place) → List (Place × Place)
  | [] => []
  | d :: ds => if holdsRepository fs d.1 then [d] else d :: upToRepository fs ds

/-- What the ignore files say about what is named `name` in a directory. -/
def verdict? (fs : FileSystem) (dir : Place) (name : Text) (isDirectory : Bool) :
    Option Verdict :=
  let dirs := above dir.reverse [name]
  let general := firstVerdict? fs [generalName] isDirectory dirs
  if dirs.any fun d => holdsRepository fs d.1 then
    let inside := upToRepository fs dirs
    (general.or (firstVerdict? fs [repositoryName] isDirectory inside)).or
      (firstVerdict? fs excludeNames isDirectory inside)
  else general

end ClassSort.Ignore
