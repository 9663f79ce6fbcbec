import ClassSort.Activity.Basic

/-!
# Crash reports

The text that is shown when the program breaks down: a box with the version, the
message, and what the program was doing.
-/

namespace ClassSort.CrashReport

/-- What a crash report is made of. -/
structure Crash where
  message : Text
  activity : Activity := {}
  progress : Progress := {}
  /-- The innermost logging span, if it is logged. -/
  span : Option Text := none
deriving Repr, DecidableEq

/-- The version of the program. -/
def version : Text := "0.1.0".toList

/-- The platform that the program runs on. -/
def platform : Text := "linux".toList

/-- The message of a crash whose cause has no text. -/
def unknownMessage : Text := "Unknown panic".toList

/-- Characters between the sides of the box. -/
def width : Nat := 78

/-- A line across the box. -/
def rule (left right : Char) : Text := left :: List.replicate width '═' ++ [right]

/-- A text of at most `most` characters; a longer one is cut and marked. -/
def truncate (cs : Text) (most : Nat) : Text :=
  if cs.length ≤ most then cs else cs.take (most - 3) ++ "...".toList

/-- A line of text in the box. -/
def boxed (cs : Text) : Text :=
  let body := truncate cs (width - 2)
  "║  ".toList ++ body ++ List.replicate (width - 2 - body.length) ' ' ++ ['║']

/-- A number in decimal digits. -/
def digits (n : Nat) : Text := Nat.toDigits 10 n

/-- The lines on the phase, the span, the file and the progress. -/
def activityLines (c : Crash) : List Text :=
  let phase :=
    match c.activity.phase with
    | some p => p.name
    | none => "(not set, crashed before formatting started)"
  let span := c.span.toList.map fun s => boxed ("  Span: ".toList ++ s)
  let file := c.activity.file.toList.map fun f => boxed ("  File: ".toList ++ f)
  let p := c.progress
  let progress :=
    if p.total = 0 then []
    else
      [boxed ("  Progress: ".toList ++ digits p.processed ++ " / ".toList ++ digits p.total
        ++ " files (".toList ++ digits (p.processed * 100 / p.total) ++ "%)".toList)]
  [boxed "OPERATION CONTEXT:".toList, boxed ("  Phase: ".toList ++ phase.toList)] ++ span ++ file
    ++ progress

/-- The lines of a report, without the place in the program where it broke down. -/
def lines (c : Crash) : List Text :=
  [[], rule '╔' '╗', boxed "TAILSORT CRASH REPORT".toList, rule '╠' '╣',
    boxed ("Version: ".toList ++ version), boxed ("Platform: ".toList ++ platform),
    rule '╠' '╣', boxed ("PANIC: ".toList ++ c.message), rule '╠' '╣']
    ++ activityLines c
    ++ [rule '╠' '╣', boxed "Run with RUST_BACKTRACE=1 for stack trace".toList, rule '╚' '╝']
    ++ c.activity.file.toList.map ("Include this crash report and the file: ".toList ++ ·)

/-- The report as one text. -/
def text (c : Crash) : Text := Text.join ['\n'] (lines c)

end ClassSort.CrashReport
