import ClassSort.Text.Basic

/-!
# Globs

Patterns for paths. `*` and `?` stay inside one name, `**` as a whole name stands for any
number of directories, brackets hold a set of characters, and braces alternatives. A
pattern must match the whole path.
-/

namespace ClassSort.Glob

/-- A part of a pattern. -/
inductive Item where
  | char (c : Char)
  /-- `?` -/
  | any
  /-- `*` -/
  | star
  /-- A set of characters, given by ranges, or those outside of it. -/
  | set (negated : Bool) (ranges : List (Char × Char))
  /-- `**` in front, with the separator behind it. -/
  | leadingDirs
  /-- `**` at the end, with the separator before it. -/
  | trailingDirs
  /-- `**` between separators. -/
  | innerDirs
  /-- Braces. -/
  | oneOf (alternatives : List (List Item))

/-- Every end of a text, the text and the empty text included. -/
def ends : Text → List Text
  | [] => [[]]
  | c :: cs => (c :: cs) :: ends cs

/-- What may be left of a text behind a separator. -/
def behindSeparators : Text → List Text
  | [] => []
  | c :: cs => if c == '/' then cs :: behindSeparators cs else behindSeparators cs

/-- What may be left of a text after some characters that are no separators. -/
def behindName : Text → List Text
  | [] => [[]]
  | c :: cs => if c == '/' then [c :: cs] else (c :: cs) :: behindName cs

/-- Whether a character is in a set. -/
def inRanges (ranges : List (Char × Char)) (c : Char) : Bool :=
  ranges.any fun (lo, hi) => lo ≤ c && c ≤ hi

mutual

/-- What may be left of a text after one part of a pattern. -/
def Item.rests (cs : Text) : Item → List Text
  | .char c =>
    match cs with
    | d :: ds => if c == d then [ds] else []
    | [] => []
  | .any =>
    match cs with
    | d :: ds => if d == '/' then [] else [ds]
    | [] => []
  | .star => behindName cs
  | .set negated ranges =>
    match cs with
    | d :: ds => if inRanges ranges d == negated then [] else [ds]
    | [] => []
  | .leadingDirs => cs :: behindSeparators cs
  | .trailingDirs =>
    match cs with
    | '/' :: ds => ends ds
    | _ => []
  | .innerDirs =>
    match cs with
    | '/' :: ds => ds :: behindSeparators ds
    | _ => []
  | .oneOf alternatives => restsOfAny cs alternatives

/-- What may be left of a text after a pattern. -/
def restsOf (cs : Text) : List Item → List Text
  | [] => [cs]
  | i :: is => (i.rests cs).flatMap fun rest => restsOf rest is

/-- What may be left of a text after one of several patterns. -/
def restsOfAny (cs : Text) : List (List Item) → List Text
  | [] => []
  | a :: as => restsOf cs a ++ restsOfAny cs as

end

/-- Whether a pattern matches a whole text. -/
def accepts (pattern : List Item) (cs : Text) : Bool := (restsOf cs pattern).any List.isEmpty

/-- A set of characters up to its closing bracket. A bracket that comes first, and a
hyphen that is first or last, stand for themselves. The ranges are kept last one first. -/
def readSet? (first inRange : Bool) (ranges : List (Char × Char)) :
    Text → Option (List (Char × Char) × Text)
  | [] => none
  | c :: cs =>
    if c == ']' && !first then
      some ((if inRange then ('-', '-') :: ranges else ranges).reverse, cs)
    else if inRange then
      match ranges with
      | (lo, _) :: rest => if c < lo then none else readSet? false false ((lo, c) :: rest) cs
      | [] => none
    else if c == '-' && !first then readSet? false true ranges cs
    else readSet? false false ((c, c) :: ranges) cs

/-- A pattern that is being read: the parts of the innermost braces, last one first, then
the alternatives that are complete, and so on outwards. -/
structure Level where
  items : List Item
  complete : List (List Item)

/-- Where a pattern has been read to. -/
structure Reading where
  level : Level
  outer : List Level
  previous : Option Char

/-- The reading with one more part. -/
def Reading.add (r : Reading) (i : Item) (c : Char) : Reading :=
  { r with level := { r.level with items := i :: r.level.items }, previous := some c }

/-- The reading after a `**` that stands for directories between other parts: the
separator before it becomes a part of it. -/
def Reading.addDirs (r : Reading) (i : Item) (c : Char) : Reading :=
  let items :=
    match r.level.items with
    | .leadingDirs :: rest => .leadingDirs :: rest
    | .trailingDirs :: rest => .trailingDirs :: rest
    | _ :: rest => i :: rest
    | [] => [i]
  { r with level := { r.level with items }, previous := some c }

/-- Whether nothing has been read yet. -/
def Reading.isNew (r : Reading) : Bool := r.level.items.isEmpty

/-- Two stars: any number of directories if they are a whole name, and else like one. The
answer says how many more characters were used. -/
def Reading.doubleStar (r : Reading) (after : Text) : Reading × Nat :=
  let plain := (r.add .star '*', 0)
  let nested := !r.outer.isEmpty
  if r.isNew then
    match after with
    | [] => (r.add .leadingDirs '*', 0)
    | '/' :: _ => (r.add .leadingDirs '/', 1)
    | _ => plain
  else
    let bounded :=
      r.previous == some '/' || (nested && (r.previous == some ',' || r.previous == some '{'))
    match after with
    | [] => if bounded then (r.addDirs .trailingDirs '*', 0) else plain
    | c :: _ =>
      if !bounded then plain
      else if nested && (c == ',' || c == '}') then (r.addDirs .trailingDirs '*', 0)
      else if c == '/' then (r.addDirs .innerDirs '/', 1)
      else plain

/-- Reads a pattern. Brackets and braces must be closed, and a backslash must not be
last. -/
def readFrom? : Nat → Reading → Text → Option (List Item)
  | 0, _, _ => none
  | _, r, [] => if r.outer.isEmpty then some r.level.items.reverse else none
  | fuel + 1, r, c :: cs =>
    if c == '?' then readFrom? fuel (r.add .any c) cs
    else if c == '*' then
      match cs with
      | '*' :: rest =>
        let (r, used) := r.doubleStar rest
        readFrom? fuel r (rest.drop used)
      | _ => readFrom? fuel (r.add .star c) cs
    else if c == '[' then do
      let (negated, cs) :=
        match cs with
        | '!' :: cs => (true, cs)
        | '^' :: cs => (true, cs)
        | cs => (false, cs)
      let (ranges, rest) ← readSet? true false [] cs
      readFrom? fuel (r.add (.set negated ranges) ']') rest
    else if c == '{' then
      readFrom? fuel ⟨⟨[], []⟩, r.level :: r.outer, some c⟩ cs
    else if c == '}' then
      match r.outer with
      | [] => none
      | level :: outer =>
        let alternatives := (r.level.items.reverse :: r.level.complete).reverse
        readFrom? fuel
          ⟨{ level with items := .oneOf alternatives :: level.items }, outer, some c⟩ cs
    else if c == ',' && !r.outer.isEmpty then
      readFrom? fuel
        { r with level := ⟨[], r.level.items.reverse :: r.level.complete⟩, previous := some c } cs
    else if c == '\\' then
      match cs with
      | [] => none
      | d :: rest => readFrom? fuel (r.add (.char d) d) rest
    else readFrom? fuel (r.add (.char c) c) cs

/-- The pattern that a text spells. -/
def read? (cs : Text) : Option (List Item) :=
  readFrom? (cs.length + 1) ⟨⟨[], []⟩, [], none⟩ cs

end ClassSort.Glob
