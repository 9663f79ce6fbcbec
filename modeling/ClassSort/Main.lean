import ClassSort.Project.Run

/-!
# The program

Reads the files that a run may look at into a file system, runs, prints, and writes back
what changed.
-/

namespace ClassSort.Program

open CommandLine

/-- The names of files that are read whatever their extension is. -/
def specialNames : List Text :=
  Project.configNames ++ [Ignore.generalName, Ignore.repositoryName, "exclude".toList]

/-- Whether the text of a file found in a walk can matter. -/
def isOfInterest (name : Text) : Bool :=
  specialNames.contains name || (Parser.ofPath? name).isSome

/-- The content of a file. -/
def readContent (path : String) : IO Content :=
  try return .text (← IO.FS.readFile path).toList
  catch _ => return .binary

/-- The file or directory at a path; links to directories are not followed. -/
partial def readTree (path : String) (name : Text) : IO FileTree := do
  let real ← IO.FS.realPath path
  if ← real.isDir then
    let entries ← (← real.readDir).toList.filterMapM fun e => do
      try
        let linked := (← e.path.symlinkMetadata).type matches .symlink
        if linked && (← e.path.isDir) then return none
        return some (e.fileName.toList, ← readTree e.path.toString e.fileName.toList)
      catch _ => return none
    return .directory entries
  else if isOfInterest name then return .file (← readContent path)
  else return .file .binary

/-- Reads what stands at a place, if there is anything. -/
def load (fs : FileSystem) (place : Place) : IO FileSystem := do
  try
    let tree ← readTree (String.ofList (FileSystem.pathOf place)) (place.getLastD [])
    return { fs with root := FileTree.put tree place fs.root }
  catch _ => return fs

/-- Reads what a path of the command line leads to. -/
def loadGiven (fs : FileSystem) (path : Text) : IO FileSystem := do
  let place := fs.nominal path
  let fs ← load fs place
  if fs.isFile path then
    return fs.create path (← readContent (String.ofList (FileSystem.pathOf place)))
  else return fs

/-- Reads the files in a directory that have a say about what is below it. -/
def loadAbove (fs : FileSystem) (dir : Place) : IO FileSystem := do
  let names := Project.configNames ++ [Ignore.generalName, Ignore.repositoryName]
  let places := names.map ([·]) ++ [Ignore.excludeNames]
  let fs ← places.foldlM (fun fs p => load fs (dir ++ p)) fs
  let repository := dir ++ Ignore.excludeNames.take 1
  try
    let _ ← IO.FS.realPath (String.ofList (FileSystem.pathOf repository))
    return fs.makeDirectory (FileSystem.pathOf repository)
  catch _ => return fs

/-- The part of the file system that a run may look at. -/
def snapshot (plan : RunPlan) : IO FileSystem := do
  let here := (← IO.currentDir).toString.toList
  let fs := FileSystem.empty ((FileSystem.empty []).nominal here)
  let fs ← (plan.config.toList ++ plan.paths).foldlM loadGiven fs
  let dirs := plan.paths.flatMap fun p => (Ignore.above (fs.nominal p).reverse []).map (·.1)
  dirs.eraseDups.foldlM loadAbove fs

/-- Writes the files that changed. -/
def store (report : Project.Report) : IO Unit := do
  for path in report.summary.changed do
    match report.files.readText path with
    | .ok t => IO.FS.writeFile (String.ofList path) (String.ofList t)
    | .error _ => return

/-- How the program is called. -/
def usage : String :=
  "Usage: tailsort [--config <FILE>] [--parser <NAME>] [--write | --check] [-j <N>] [-v] <PATHS>..."

/-- What is said about a command line that asks for no run. -/
def explain : Problem → String
  | .displayHelp => usage
  | .displayVersion => "tailsort 0.1.0"
  | .unknownArgument => "error: unexpected argument\n" ++ usage
  | .argumentConflict => "error: arguments cannot be used together\n" ++ usage
  | .missingRequiredArgument => "error: no paths were given\n" ++ usage
  | .invalidValue => "error: an option lacks its value\n" ++ usage
  | .valueValidation => "error: a value is not valid\n" ++ usage
  | .tooManyValues => "error: a flag takes no value\n" ++ usage

/-- A run of the program, with its exit code. -/
def perform (arguments : Arguments) : IO UInt32 := do
  match arguments.plan with
  | .error e =>
    IO.eprintln ("Error: " ++ String.ofList e.message)
    return 1
  | .ok plan =>
    let report := Project.run (← snapshot plan) plan
    IO.print (String.ofList report.output)
    for e in report.failures do IO.eprintln (String.ofList e.message)
    if plan.mode = .write then store report
    return if report.summary.isFailure plan.mode then 1 else 0

end ClassSort.Program

/-- The program. Without an option for it, the configuration file is taken from the
environment. -/
def main (args : List String) : IO UInt32 := do
  match ClassSort.CommandLine.parse args with
  | .ok arguments =>
    let config := arguments.config.or (← IO.getEnv "TAILSORT_CONFIG")
    ClassSort.Program.perform { arguments with config }
  | .error .displayHelp =>
    IO.println (ClassSort.Program.explain .displayHelp)
    return 0
  | .error .displayVersion =>
    IO.println (ClassSort.Program.explain .displayVersion)
    return 0
  | .error p =>
    IO.eprintln (ClassSort.Program.explain p)
    return 2
