import ClassSort.Error
import ClassSort.Language.Basic
import ClassSort.Number.Decimal

/-!
# The command line

Arguments are read from left to right. An option may have its value attached or as the
next argument; flags of one letter combine; `--` ends the options. A value is looked at
only when it is clear that the option is complete, that is, at the next argument that is
understood or at the end. The first problem that is met is reported.
-/

namespace ClassSort.CommandLine

/-- What the command line asks for. -/
structure Arguments where
  paths : List String := []
  config : Option String := none
  parser : Option String := none
  write : Bool := false
  check : Bool := false
  jobs : Nat := 0
  verbose : Nat := 0
deriving Repr, DecidableEq

/-- Why a command line is refused, or what it asks for instead of a run. -/
inductive Problem where
  | unknownArgument
  /-- An option twice, or two that exclude each other. -/
  | argumentConflict
  | missingRequiredArgument
  /-- An option without its value, or an empty path. -/
  | invalidValue
  /-- A value that is no number where one is needed. -/
  | valueValidation
  /-- A flag with a value. -/
  | tooManyValues
  | displayHelp
  | displayVersion
deriving Repr, DecidableEq

/-- The options with a value. -/
inductive Setting where
  | config
  | parser
  | jobs
deriving Repr, DecidableEq

/-- The options without a value. -/
inductive Flag where
  | write
  | check
  | verbose
  | help
  | version
deriving Repr, DecidableEq

/-- An option. -/
inductive Switch where
  | setting (s : Setting)
  | flag (f : Flag)
deriving Repr, DecidableEq

/-- The option with a given long name. -/
def long? (name : String) : Option Switch :=
  if name = "config" then some (.setting .config)
  else if name = "parser" then some (.setting .parser)
  else if name = "jobs" then some (.setting .jobs)
  else if name = "write" then some (.flag .write)
  else if name = "check" then some (.flag .check)
  else if name = "verbose" then some (.flag .verbose)
  else if name = "help" then some (.flag .help)
  else if name = "version" then some (.flag .version)
  else none

/-- The option with a given letter. -/
def short? (letter : Char) : Option Switch :=
  if letter = 'j' then some (.setting .jobs)
  else if letter = 'v' then some (.flag .verbose)
  else if letter = 'h' then some (.flag .help)
  else if letter = 'V' then some (.flag .version)
  else none

/-- What has been read but not looked at yet. -/
inductive Pending where
  | nothing
  /-- An option, and its value if it has come. -/
  | setting (s : Setting) (value : Option String)
  /-- Paths in a row, last one first. -/
  | paths (values : List String)
deriving Repr, DecidableEq

/-- The arguments so far, with the options that were given. -/
structure Progress where
  arguments : Arguments := {}
  given : List Switch := []
  pending : Pending := .nothing
deriving Repr, DecidableEq

/-- The largest number of jobs. -/
def maxJobs : Nat := Nat.pow 2 64 - 1

/-- A number of jobs: digits, with an optional plus sign. -/
def jobs? (value : String) : Option Nat :=
  let ds :=
    match value.toList with
    | '+' :: ds => ds
    | ds => ds
  let n := Binary64.digitsValue 0 ds
  if ds.isEmpty || !ds.all Binary64.isDigit || maxJobs < n then none else some n

/-- Gives a setting its value. -/
def assign (a : Arguments) (s : Setting) (value : String) : Except Problem Arguments :=
  match s with
  | .config => if value.isEmpty then .error .invalidValue else .ok { a with config := some value }
  | .parser => .ok { a with parser := some value }
  | .jobs =>
    match jobs? value with
    | some n => .ok { a with jobs := n }
    | none => .error .valueValidation

/-- Gives a setting its value, which can be done once. -/
def Progress.set (p : Progress) (s : Setting) (value : String) : Except Problem Progress := do
  if p.given.contains (.setting s) then .error .argumentConflict
  else
    let arguments ← assign p.arguments s value
    return { p with arguments, given := .setting s :: p.given }

/-- Looks at what is pending. -/
def Progress.settle (p : Progress) : Except Problem Progress :=
  let settled := { p with pending := .nothing }
  match p.pending with
  | .nothing => .ok settled
  | .setting _ none => .error .invalidValue
  | .setting s (some value) => settled.set s value
  | .paths values =>
    if values.any String.isEmpty then .error .invalidValue
    else
      let a := p.arguments
      .ok { settled with arguments := { a with paths := a.paths ++ values.reverse } }

/-- The highest verbosity that is counted. -/
def maxVerbosity : Nat := 255

/-- Raises a flag. -/
def Progress.raise (p : Progress) (f : Flag) : Except Problem Progress := do
  let p ← p.settle
  let a := p.arguments
  match f with
  | .help => .error .displayHelp
  | .version => .error .displayVersion
  | .verbose =>
    return { p with arguments := { a with verbose := min maxVerbosity (a.verbose + 1) } }
  | .write =>
    if p.given.contains (.flag f) then .error .argumentConflict
    else return { p with arguments := { a with write := true }, given := .flag f :: p.given }
  | .check =>
    if p.given.contains (.flag f) then .error .argumentConflict
    else return { p with arguments := { a with check := true }, given := .flag f :: p.given }

/-- An argument that begins with two hyphens. -/
def Progress.long (p : Progress) (body : Text) : Except Problem Progress :=
  let name := body.takeWhile (· != '=')
  let value :=
    match body.dropWhile (· != '=') with
    | _ :: v => some (String.ofList v)
    | [] => none
  match long? (String.ofList name), value with
  | none, _ => .error .unknownArgument
  | some (.flag _), some _ => .error .tooManyValues
  | some (.flag f), none => p.raise f
  | some (.setting s), some v => do (← p.settle).set s v
  | some (.setting s), none => do return { ← p.settle with pending := .setting s none }

/-- The letters of an argument that begins with one hyphen. -/
def Progress.letters (p : Progress) : Text → Except Problem Progress
  | [] => .ok p
  | c :: cs =>
    match short? c with
    | none => .error .unknownArgument
    | some (.flag f) => do Progress.letters (← p.raise f) cs
    | some (.setting s) => do
      let p ← p.settle
      match cs with
      | [] => return { p with pending := .setting s none }
      | '=' :: v => p.set s (String.ofList v)
      | v => p.set s (String.ofList v)

/-- A path. -/
def Progress.path (p : Progress) (value : String) : Except Problem Progress :=
  match p.pending with
  | .paths values => .ok { p with pending := .paths (value :: values) }
  | _ => do return { ← p.settle with pending := .paths [value] }

/-- A value or a path. -/
def Progress.plain (p : Progress) (value : String) : Except Problem Progress :=
  match p.pending with
  | .setting s none => .ok { p with pending := .setting s (some value) }
  | _ => p.path value

/-- All arguments; after `--` there are only paths. -/
def scan (p : Progress) : List String → Except Problem Progress
  | [] => p.settle
  | arg :: args =>
    match arg.toList with
    | ['-', '-'] => do (← args.foldlM Progress.path p).settle
    | '-' :: '-' :: body => do scan (← p.long body) args
    | '-' :: c :: cs => do scan (← p.letters (c :: cs)) args
    | _ => do scan (← p.plain arg) args

/-- The arguments of a command line without the name of the program. -/
def parse (args : List String) : Except Problem Arguments := do
  let p ← scan {} args
  if p.arguments.write && p.arguments.check then .error .argumentConflict
  else if p.arguments.paths.isEmpty then .error .missingRequiredArgument
  else return p.arguments

/-- What to do with formatted files. -/
inductive Mode where
  /-- Print them. -/
  | stdout
  /-- Put them in the place of the files. -/
  | write
  /-- List those that change. -/
  | check
deriving Repr, DecidableEq

/-- The mode that the flags ask for. -/
def Arguments.mode (a : Arguments) : Mode :=
  if a.write then .write else if a.check then .check else .stdout

/-- The log level of a verbosity. -/
def defaultLevel (verbosity : Nat) : String :=
  match verbosity with
  | 0 => "warn"
  | 1 => "info"
  | 2 => "debug"
  | _ => "trace"

/-- A run as the command line describes it. -/
structure RunPlan where
  paths : List Text
  parser : Option Parser
  mode : Mode
  config : Option Text
deriving Repr, DecidableEq

/-- The run that some arguments describe. The parser must exist. -/
def Arguments.plan (a : Arguments) : Except Error RunPlan := do
  let parser ←
    match a.parser with
    | none => .ok none
    | some name =>
      match Parser.ofName? name with
      | some p => .ok (some p)
      | none => .error (.unknownParser name.toList)
  return ⟨a.paths.map String.toList, parser, a.mode, a.config.map String.toList⟩

end ClassSort.CommandLine
