import ClassSort.Number.Decimal

/-!
# Documents

The tree of values in a configuration document. Tables keep the order and the
repetitions of the document, because some readers refuse a repeated key and others
take the last; `normalize` gives the value in its plain form.
-/

namespace ClassSort

/-- A number as a document distinguishes them. -/
inductive Number where
  | natural (n : Nat)
  /-- The negative integer `-(n + 1)`. -/
  | negSucc (n : Nat)
  | binary (x : Binary64)
deriving Repr, DecidableEq

/-- A value in a document. -/
inductive Json where
  | null
  | bool (b : Bool)
  | number (n : Number)
  | string (s : String)
  | array (items : List Json)
  | object (fields : List (String × Json))
  /-- A literal that denotes nothing: a number out of range, or a string with half
  of a surrogate pair. It may be skipped, but not used. -/
  | unreadable
deriving Repr, Inhabited

namespace Number

/-- The integer `i`. -/
def ofInt : Int → Number
  | .ofNat n => .natural n
  | .negSucc n => .negSucc n

/-- The nearest floating point number. -/
def toBinary : Number → Binary64
  | .natural n => Binary64.ofNat n
  | .negSucc n => (Binary64.ofNat (n + 1)).neg
  | .binary x => x

end Number

namespace Json

/-- A table entry put in its place in the order of the keys, over an entry of the
same key. -/
def insertField {α : Type} (key : String) (value : α) : List (String × α) → List (String × α)
  | [] => [(key, value)]
  | (k, v) :: rest =>
    if key = k then (key, value) :: rest
    else if key < k then (key, value) :: (k, v) :: rest
    else (k, v) :: insertField key value rest

/-- A table with its keys in order, the last of several entries of one key kept. -/
def sortFields {α : Type} (fields : List (String × α)) : List (String × α) :=
  fields.foldl (fun acc (k, v) => insertField k v acc) []

/-- The entry of a key in a table. -/
def field? {α : Type} (key : String) (fields : List (String × α)) : Option α :=
  (fields.find? (·.1 == key)).map Prod.snd

mutual

/-- How many arrays and tables are nested in a value, itself included. -/
def nesting : Json → Nat
  | .array items => nestingList items + 1
  | .object fields => nestingFields fields + 1
  | _ => 0

/-- The deepest nesting of some values. -/
def nestingList : List Json → Nat
  | [] => 0
  | j :: js => max (nesting j) (nestingList js)

/-- The deepest nesting of the values of a table. -/
def nestingFields : List (String × Json) → Nat
  | [] => 0
  | (_, j) :: fs => max (nesting j) (nestingFields fs)

end

mutual

/-- The value with every table in the order of its keys and each key once. Numbers
that are not finite have no place in a plain value and become `null`; a literal
that denotes nothing makes the whole value unusable. -/
def normalize : Json → Option Json
  | .null => some .null
  | .bool b => some (.bool b)
  | .number (.binary x) => some (if x.isFinite then .number (.binary x) else .null)
  | .number n => some (.number n)
  | .string s => some (.string s)
  | .array items => (normalizeList items).map .array
  | .object fields => (normalizeFields fields).map fun fs => .object (sortFields fs)
  | .unreadable => none

/-- The plain forms of some values. -/
def normalizeList : List Json → Option (List Json)
  | [] => some []
  | j :: js => do
    let v ← normalize j
    let vs ← normalizeList js
    return v :: vs

/-- The entries of a table with their plain values, in the order of the document. -/
def normalizeFields : List (String × Json) → Option (List (String × Json))
  | [] => some []
  | (k, j) :: fs => do
    let v ← normalize j
    let vs ← normalizeFields fs
    return (k, v) :: vs

end

/-- The text of a string value. -/
def string? : Json → Option String
  | .string s => some s
  | _ => none

end Json

end ClassSort
