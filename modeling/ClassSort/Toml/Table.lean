import ClassSort.Json.Value

/-!
# Tables of TOML

A document builds up one table, statement by statement. How a table came about decides
what may still be done to it: a table with a header of its own is complete under that
header, one that only stands in the path of another header may still get a header, one
that was made by keys with points in them may only grow by such keys, and values in
braces and brackets never grow.
-/

namespace ClassSort.Toml

/-- How a table came about. -/
inductive Making where
  /-- In the path of a header. -/
  | passed
  /-- By a header of its own. -/
  | headed
  /-- By keys with points in them. -/
  | dotted
deriving Repr, DecidableEq

/-- What a key stands for. -/
inductive Node where
  | value (j : Json)
  | table (m : Making) (entries : List (String × Node))
  /-- An array of tables, the last one first. -/
  | tables (rows : List (List (String × Node)))
deriving Inhabited

/-- The entries of a table. -/
abbrev Entries := List (String × Node)

namespace Node

/-- The entry of a key. -/
def lookup (key : String) (es : Entries) : Option Node := Json.field? key es

/-- The entries with another node for a key, which goes to the end if it is new. -/
def set (key : String) (n : Node) : Entries → Entries
  | [] => [(key, n)]
  | (k, m) :: es => if k = key then (k, n) :: es else (k, m) :: set key n es

/-- Makes a change at the end of the path of a header. Tables that are missing on the way
are added, and of an array of tables the last one is meant. -/
def alter (change : Entries → Option Entries) : List String → Entries → Option Entries
  | [], es => change es
  | key :: path, es =>
    match lookup key es with
    | none => (alter change path []).map fun es' => set key (.table .passed es') es
    | some (.table m inner) => (alter change path inner).map fun es' => set key (.table m es') es
    | some (.tables (row :: rows)) =>
      (alter change path row).map fun es' => set key (.tables (es' :: rows)) es
    | some _ => none

/-- Gives a table its header. A table in the path of an earlier header keeps its
entries. -/
def head (key : String) (es : Entries) : Option Entries :=
  match lookup key es with
  | none => some (set key (.table .headed []) es)
  | some (.table .passed inner) => some (set key (.table .headed inner) es)
  | some _ => none

/-- Adds a table to an array of tables. -/
def append (key : String) (es : Entries) : Option Entries :=
  match lookup key es with
  | none => some (set key (.tables [[]]) es)
  | some (.tables rows) => some (set key (.tables ([] :: rows)) es)
  | some _ => none

/-- Gives a key its value, which may be done once. The parts of a key before the last
name tables that were made by such keys only. -/
def assign (value : Json) : List String → Entries → Option Entries
  | [], _ => none
  | [key], es => if (lookup key es).isSome then none else some (set key (.value value) es)
  | key :: path, es =>
    match lookup key es with
    | none => (assign value path []).map fun es' => set key (.table .dotted es') es
    | some (.table .dotted inner) =>
      (assign value path inner).map fun es' => set key (.table .dotted es') es
    | some _ => none

mutual

/-- The document of a node. -/
def toJson : Node → Json
  | .value j => j
  | .table _ es => .object (entriesJson es)
  | .tables rows => .array (rowsJson rows).reverse

/-- The fields of a table. -/
def entriesJson : List (String × Node) → List (String × Json)
  | [] => []
  | (k, n) :: es => (k, toJson n) :: entriesJson es

/-- The tables of an array. -/
def rowsJson : List (List (String × Node)) → List Json
  | [] => []
  | es :: rows => .object (entriesJson es) :: rowsJson rows

end

end Node

end ClassSort.Toml
