import ClassSort.Activity.Basic
import ClassSort.Language.Basic
import ClassSort.Project.Resolver

/-!
# Formatting the files of a project

A formatter sorts sources by the configuration that holds for their paths, and notes
what it is doing.
-/

namespace ClassSort

/-- Does some work under a note, and leaves its guard afterwards. -/
def Monitor.within {α : Type} (m : Monitor) (n : Note) (work : Monitor → α × Monitor) :
    α × Monitor :=
  let (result, after) := work (m.note n)
  (result, after.leave m.guards.length)

/-- A source that was parsed, and its parser. -/
structure SourceTree where
  parser : Parser
  source : Text
deriving Repr, DecidableEq

/-- The class units that are found in a tree. -/
def SourceTree.units (t : SourceTree) : List ClassUnit := t.parser.language.units t.source

/-- What the grammars of the languages allow. -/
structure Grammars where
  /-- The reason why the grammar of a language cannot be used. -/
  refusal? : Language → Option Text
  /-- Whether there is a tree for a source. -/
  hasTree : Language → Text → Bool

/-- Grammars that have a tree for every source: what is not understood is only left out of it. -/
def Grammars.total : Grammars := ⟨fun _ => none, fun _ _ => true⟩

/-- The tree of a source. -/
def Parser.parse (g : Grammars) (p : Parser) (source : Text) : Except Error SourceTree :=
  match g.refusal? p.language with
  | some reason => .error (.parse p.name.toList reason)
  | none =>
    if g.hasTree p.language source then .ok ⟨p, source⟩
    else .error (.parse p.name.toList "parser produced no tree".toList)

/-- What is kept from one file to the next. -/
structure Formatter where
  resolver : Resolver := {}
  monitor : Monitor := {}

namespace Formatter

/-- Sorts the classes of a source, phase by phase. Without a tree it ends early, and so it does
without class units. -/
def sortNoted (g : Grammars) (p : Parser) (r : Ranking) (source : Text) (m : Monitor) :
    Except Error Text × Monitor :=
  let (parsed, m) := m.within (.enter .parsing) fun m => (p.parse g source, m)
  match parsed with
  | .error e => (.error e, m)
  | .ok tree =>
    let (units, m) := m.within (.enter .extraction) fun m => (tree.units, m)
    if units.isEmpty then (.ok source, m)
    else
      let (edits, m) := m.within (.enter .sorting) fun m =>
        (ClassUnit.edits source r.ofSource units, m)
      m.within (.enter .editing) fun m => (.ok ((Edit.applyAll source edits).getD source), m)

/-- Formats a source with a parser and its grammar, under the configuration for a path. -/
def formatWith (g : Grammars) (fs : FileSystem) (f : Formatter) (p : Parser)
    (path source : Text) : Except Error Text × Formatter :=
  let ((result, resolver), monitor) := f.monitor.within (.begin path) fun m =>
    let ((found, resolver), m) := m.within (.enter .configResolution) fun m =>
      (f.resolver.vocabularyFor fs path, m)
    match found with
    | .error e => ((.error e, resolver), m)
    | .ok v =>
      let (result, m) := sortNoted g p v.rank source m
      ((result, resolver), m)
  (result, ⟨resolver, monitor⟩)

/-- Formats a source with a parser, under the configuration for a path. -/
def format (fs : FileSystem) (f : Formatter) (p : Parser) (path source : Text) :
    Except Error Text × Formatter :=
  f.formatWith .total fs p path source

/-- Formats a source with the parser of a given name. With a name that is not known the
source stays as it is. -/
def formatNamed (fs : FileSystem) (f : Formatter) (parser : String) (path source : Text) :
    Except Error Text × Formatter :=
  match Parser.ofName? parser with
  | some p => f.format fs p path source
  | none => (.ok source, f)

end Formatter

end ClassSort
