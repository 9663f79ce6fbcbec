import ClassSort.CommandLine.Basic
import ClassSort.Project.Discovery
import ClassSort.Project.Formatter

/-!
# A run

All files are formatted first, and only then is anything written. The outcome of a file
is its text before and after; a file that cannot be formatted counts as failed and does
not stop the others.
-/

namespace ClassSort.Project

open CommandLine (Mode RunPlan)

/-- A file that was formatted. -/
structure Outcome where
  path : Text
  before : Text
  after : Text
deriving Repr, DecidableEq

/-- Whether formatting changed anything. -/
def Outcome.changed (o : Outcome) : Bool := o.before ≠ o.after

/-- What a run comes to. -/
structure Summary where
  files : Nat
  changed : List Text
  failed : Nat
deriving Repr, DecidableEq

/-- Whether the program should report a failure. -/
def Summary.isFailure (s : Summary) (m : Mode) : Bool :=
  0 < s.failed || (m = .check && !s.changed.isEmpty)

/-- Why a file was not formatted. -/
inductive Cause where
  /-- No parser was asked for, and the extension is not known. -/
  | noParser
  /-- The file cannot be read. -/
  | unread (reason : ReadError)
  /-- Its configuration cannot be used, or it cannot be parsed. -/
  | error (e : Error)
deriving Repr, DecidableEq

/-- A file that was not formatted. -/
structure Failure where
  path : Text
  cause : Cause
deriving Repr, DecidableEq

/-- What is said about a failure. Why a file cannot be read is left to the system to tell. -/
def Failure.message (f : Failure) : Text :=
  f.path ++ ": ".toList ++
    match f.cause with
    | .noParser => "Cannot infer a parser for ".toList ++ f.path
    | .unread _ => "Failed to read ".toList ++ f.path
    | .error e => e.message

/-- What comes of a file. -/
abbrev Attempt := Except Failure Outcome

/-- Why there is no outcome. -/
def failure? : Attempt → Option Failure
  | .ok _ => none
  | .error e => some e

/-- Formats one file. -/
def formatFile (fs : FileSystem) (forced : Option Parser) (f : Formatter) (path : Text) :
    Attempt × Formatter :=
  match forced.or (Parser.ofPath? path) with
  | none => (.error ⟨path, .noParser⟩, f)
  | some p =>
    match fs.readText path with
    | .error reason => (.error ⟨path, .unread reason⟩, f)
    | .ok before =>
      let (result, f) := f.format fs p path before
      ((result.mapError fun e => ⟨path, .error e⟩).map fun after => ⟨path, before, after⟩, f)

/-- Formats files one after the other. -/
def formatAll (fs : FileSystem) (forced : Option Parser) (f : Formatter) :
    List Text → List Attempt
  | [] => []
  | path :: paths =>
    let (attempt, f) := formatFile fs forced f path
    let f := { f with monitor := f.monitor.note .increment }
    attempt :: formatAll fs forced f paths

/-- What is printed for a file. -/
def printed (m : Mode) (o : Outcome) : Text :=
  match m with
  | .stdout => o.after
  | .write => []
  | .check => if o.changed then o.path ++ ['\n'] else []

/-- The file system after a file was written, if it is to be. -/
def written (m : Mode) (fs : FileSystem) (o : Outcome) : FileSystem :=
  if m = .write && o.changed then fs.overwrite o.path o.after else fs

/-- The result of a run: its summary, what is printed, why files failed, and the files
afterwards. -/
structure Report where
  summary : Summary
  output : Text
  failures : List Failure
  files : FileSystem

/-- The formatter that a run starts with. -/
def startingFormatter (plan : RunPlan) (count : Nat) : Formatter :=
  { resolver := { given := plan.config }, monitor := { progress := ⟨0, count⟩ } }

/-- What comes of the files of a run, one formatter serving them all. -/
def outcomes (fs : FileSystem) (plan : RunPlan) : List Attempt :=
  let files := discover fs plan.paths
  formatAll fs plan.parser (startingFormatter plan files.length) files

/-- A run over a file system. -/
def run (fs : FileSystem) (plan : RunPlan) : Report :=
  let outcomes := outcomes fs plan
  let formatted := outcomes.filterMap Except.toOption
  { summary :=
      { files := (discover fs plan.paths).length
        changed := (formatted.filter Outcome.changed).map Outcome.path
        failed := outcomes.countP (!·.isOk) }
    output := formatted.flatMap (printed plan.mode)
    failures := outcomes.filterMap failure?
    files := formatted.foldl (written plan.mode) fs }

end ClassSort.Project
