import ClassSort.Text.Basic

/-!
# What the program is doing

While it works the program keeps note of the phase it is in and the file it works on,
for the report of a crash. Entering a phase or a file gives a guard that remembers what
was noted before; leaving the guard restores that. Progress over all files is counted
apart from this.
-/

namespace ClassSort

/-- The phases of formatting a file. -/
inductive Phase where
  | configResolution
  | parsing
  | extraction
  | sorting
  | editing
deriving Repr, DecidableEq

namespace Phase

/-- All phases, in order. -/
def all : List Phase := [.configResolution, .parsing, .extraction, .sorting, .editing]

/-- The name of a phase. -/
def name : Phase → String
  | .configResolution => "config_resolution"
  | .parsing => "parsing"
  | .extraction => "extraction"
  | .sorting => "sorting"
  | .editing => "rewriting"

/-- The phase with a given name. -/
def ofName? (name : String) : Option Phase := all.find? (·.name == name)

end Phase

/-- The phase and the file that are noted. -/
structure Activity where
  phase : Option Phase := none
  file : Option Text := none
deriving Repr, DecidableEq

/-- How many files are done, and of how many. -/
structure Progress where
  processed : Nat := 0
  total : Nat := 0
deriving Repr, DecidableEq

/-- Everything that is noted. Each guard has what it will restore, until it is left. -/
structure Monitor where
  activity : Activity := {}
  progress : Progress := {}
  guards : List (Option Activity) := []
deriving Repr, DecidableEq

/-- A change to what is noted. -/
inductive Note where
  /-- Enters a phase, with a new guard. -/
  | enter (p : Phase)
  /-- Begins a file, with a new guard. -/
  | begin (file : Text)
  /-- Leaves a guard, which are numbered from zero. -/
  | leave (guard : Nat)
  | reset
  | progress (processed total : Nat)
  /-- One more file is done. -/
  | increment
deriving Repr, DecidableEq

namespace Monitor

/-- The monitor with a new guard for what is noted. -/
def guarded (m : Monitor) : Monitor := { m with guards := m.guards ++ [some m.activity] }

/-- Restores what a guard remembers. A guard that was left already, or never made, does
nothing. -/
def leave (m : Monitor) (guard : Nat) : Monitor :=
  match m.guards[guard]? with
  | some (some saved) => { m with activity := saved, guards := m.guards.set guard none }
  | _ => m

/-- The monitor after a change. -/
def note (m : Monitor) : Note → Monitor
  | .enter p => { m.guarded with activity := { m.activity with phase := some p } }
  | .begin file => { m.guarded with activity := { m.activity with file := some file } }
  | .leave guard => m.leave guard
  | .reset => { m with activity := {} }
  | .progress processed total => { m with progress := ⟨processed, total⟩ }
  | .increment => { m with progress := { m.progress with processed := m.progress.processed + 1 } }

end Monitor

end ClassSort
