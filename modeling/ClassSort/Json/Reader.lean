import ClassSort.Json.Value

/-!
# Reading JSON

A reader for JSON text. Integers stay exact while they fit in 64 bits and become
floating point beyond that; `-0` is the floating point `-0.0`. A decimal is read as
an integer of at most 64 bits times a power of ten, with one rounding for each, and
digits that no longer fit are dropped.
-/

namespace ClassSort.Json

/-- The white space of JSON. -/
def isSpace (c : Char) : Bool := c == ' ' || c == '\n' || c == '\t' || c == '\r'

/-- Drops leading white space. -/
def skipSpace (cs : Text) : Text := cs.dropWhile isSpace

/-- The largest significand that is kept exactly. -/
def maxSignificand : Nat := Nat.pow 2 64 - 1

/-- The largest exponent that can be written out. -/
def maxWrittenExponent : Nat := Nat.pow 2 31 - 1

/-- Appends digits to a significand while it fits; the digits that do not are left. -/
def absorb (acc : Nat) : Text → Nat × Text
  | [] => (acc, [])
  | d :: ds =>
    let next := 10 * acc + (d.toNat - '0'.toNat)
    if maxSignificand < next then (acc, d :: ds) else absorb next ds

/-- Divides by `10 ^ 308` until the exponent is in reach of one power of ten. Each
step costs 308 places, and no significand survives three of them. -/
def shrink : Nat → Magnitude → Int → Magnitude × Int
  | 0, f, e => (f, e)
  | fuel + 1, f, e =>
    if e < -308 && f != Magnitude.zero then
      shrink fuel (f.div (Magnitude.ofDecimal 1 308)) (e + 308)
    else (f, e)

/-- The floating point number `significand * 10 ^ exponent`, `none` beyond the range
of the format. -/
def ofParts (negative : Bool) (significand : Nat) (exponent : Int) : Option Binary64 :=
  let f := Magnitude.round significand 1
  if significand = 0 then some ⟨negative, Magnitude.zero⟩
  else if 308 < exponent then none
  else
    let (f, e) := shrink 4 f exponent
    if e < -308 then some ⟨negative, Magnitude.zero⟩
    else
      let value :=
        match e with
        | .ofNat k => f.mul (Magnitude.ofDecimal 1 k)
        | .negSucc k => f.div (Magnitude.ofDecimal 1 (k + 1))
      if value = .infinite then none else some ⟨negative, value⟩

/-- A floating point literal, or an unreadable one. -/
def floating (negative : Bool) (significand : Nat) (exponent : Int) : Json :=
  match ofParts negative significand exponent with
  | some x => .number (.binary x)
  | none => .unreadable

/-- The rest of a number after the letter of its exponent. -/
def readExponent (negative : Bool) (significand : Nat) (start : Int) (cs : Text) :
    Option (Json × Text) :=
  let (down, cs) :=
    match cs with
    | '+' :: r => (false, r)
    | '-' :: r => (true, r)
    | r => (false, r)
  let ds := cs.takeWhile Binary64.isDigit
  let rest := cs.dropWhile Binary64.isDigit
  if ds.isEmpty then none
  else
    let e := Binary64.digitsValue 0 ds
    if maxWrittenExponent < e then
      if significand ≠ 0 && !down then some (.unreadable, rest)
      else some (.number (.binary ⟨negative, Magnitude.zero⟩), rest)
    else some (floating negative significand (if down then start - e else start + e), rest)

/-- The rest of a number after its integer part. -/
def readFraction (negative : Bool) (significand : Nat) (dropped : Nat) (cs : Text) :
    Option (Json × Text) :=
  match cs with
  | '.' :: r =>
    let ds := r.takeWhile Binary64.isDigit
    let rest := r.dropWhile Binary64.isDigit
    if ds.isEmpty then none
    else
      let (significand, left) := absorb significand ds
      let exponent : Int := dropped - ((ds.length - left.length : Nat) : Int)
      match rest with
      | 'e' :: r | 'E' :: r => readExponent negative significand exponent r
      | r => some (floating negative significand exponent, r)
  | 'e' :: r | 'E' :: r => readExponent negative significand dropped r
  | r =>
    if dropped ≠ 0 then some (floating negative significand dropped, r)
    else if !negative then some (.number (.natural significand), r)
    else
      match significand with
      | 0 => some (.number (.binary ⟨true, Magnitude.zero⟩), r)
      | n + 1 =>
        if n < Nat.pow 2 63 then some (.number (.negSucc n), r)
        else some (.number (.binary (Binary64.ofNat (n + 1)).neg), r)

/-- A number: no sign but `-`, and no leading zeros. -/
def readNumber (cs : Text) : Option (Json × Text) :=
  let (negative, cs) :=
    match cs with
    | '-' :: r => (true, r)
    | r => (false, r)
  let ds := cs.takeWhile Binary64.isDigit
  let rest := cs.dropWhile Binary64.isDigit
  match ds with
  | [] => none
  | ['0'] => readFraction negative 0 0 rest
  | '0' :: _ => none
  | ds =>
    let (significand, left) := absorb 0 ds
    readFraction negative significand left.length rest

/-- A piece of a string: a character as it stands, or an escaped UTF-16 unit. -/
inductive StringPart where
  | char (c : Char)
  | unit (n : Nat)
deriving Repr

/-- The value of a hexadecimal digit. -/
def hexDigit? (c : Char) : Option Nat :=
  if '0' ≤ c && c ≤ '9' then some (c.toNat - '0'.toNat)
  else if 'a' ≤ c && c ≤ 'f' then some (c.toNat - 'a'.toNat + 10)
  else if 'A' ≤ c && c ≤ 'F' then some (c.toNat - 'A'.toNat + 10)
  else none

/-- The number that four hexadecimal digits denote. -/
def hexUnit? (a b c d : Char) : Option Nat := do
  let a ← hexDigit? a
  let b ← hexDigit? b
  let c ← hexDigit? c
  let d ← hexDigit? d
  return ((a * 16 + b) * 16 + c) * 16 + d

/-- The character that a one-letter escape stands for. -/
def escaped? : Char → Option Char
  | '"' => some '"'
  | '\\' => some '\\'
  | '/' => some '/'
  | 'b' => some '\x08'
  | 'f' => some '\x0c'
  | 'n' => some '\n'
  | 'r' => some '\r'
  | 't' => some '\t'
  | _ => none

/-- The parts of a string up to its closing quote, and what follows it. Control
characters must be escaped. -/
def stringParts : Text → Option (List StringPart × Text)
  | [] => none
  | '"' :: rest => some ([], rest)
  | '\\' :: 'u' :: a :: b :: c :: d :: rest => do
    let n ← hexUnit? a b c d
    let (parts, rest) ← stringParts rest
    return (.unit n :: parts, rest)
  | '\\' :: e :: rest => do
    let c ← escaped? e
    let (parts, rest) ← stringParts rest
    return (.char c :: parts, rest)
  | c :: rest =>
    if c.toNat < 0x20 then none
    else do
      let (parts, rest) ← stringParts rest
      return (.char c :: parts, rest)

/-- Whether a UTF-16 unit is the first half of a surrogate pair. -/
def isHighSurrogate (n : Nat) : Bool := 0xD800 ≤ n && n ≤ 0xDBFF

/-- Whether a UTF-16 unit is the second half of a surrogate pair. -/
def isLowSurrogate (n : Nat) : Bool := 0xDC00 ≤ n && n ≤ 0xDFFF

/-- The characters of a string, if every surrogate has its other half. -/
def joinParts : List StringPart → Option Text
  | [] => some []
  | .char c :: rest => (joinParts rest).map (c :: ·)
  | .unit n :: rest =>
    if isLowSurrogate n then none
    else if isHighSurrogate n then
      match rest with
      | .unit m :: rest =>
        if isLowSurrogate m then
          (joinParts rest).map (Char.ofNat (0x10000 + (n - 0xD800) * 0x400 + (m - 0xDC00)) :: ·)
        else none
      | _ => none
    else (joinParts rest).map (Char.ofNat n :: ·)

/-- A string after its opening quote. -/
def readString (cs : Text) : Option (Option String × Text) :=
  (stringParts cs).map fun (parts, rest) => ((joinParts parts).map String.ofList, rest)

mutual

/-- A value, reading at most `fuel` levels of recursion. -/
def readValue : Nat → Text → Option (Json × Text)
  | 0, _ => none
  | fuel + 1, cs =>
    match skipSpace cs with
    | 'n' :: 'u' :: 'l' :: 'l' :: r => some (.null, r)
    | 't' :: 'r' :: 'u' :: 'e' :: r => some (.bool true, r)
    | 'f' :: 'a' :: 'l' :: 's' :: 'e' :: r => some (.bool false, r)
    | '"' :: r => (readString r).map fun (s, r) => (s.elim .unreadable .string, r)
    | '[' :: r =>
      match skipSpace r with
      | ']' :: r => some (.array [], r)
      | r => (readItems fuel r).map fun (items, r) => (.array items, r)
    | '{' :: r =>
      match skipSpace r with
      | '}' :: r => some (.object [], r)
      | r => (readFields fuel r).map fun (fields, r) => (.object fields, r)
    | r => readNumber r

/-- The items of an array that is not empty, and its bracket. -/
def readItems : Nat → Text → Option (List Json × Text)
  | 0, _ => none
  | fuel + 1, cs => do
    let (item, r) ← readValue fuel cs
    match skipSpace r with
    | ',' :: r =>
      let (items, r) ← readItems fuel r
      return (item :: items, r)
    | ']' :: r => return ([item], r)
    | _ => none

/-- The entries of a table that is not empty, and its brace. -/
def readFields : Nat → Text → Option (List (String × Json) × Text)
  | 0, _ => none
  | fuel + 1, cs => do
    let '"' :: r := skipSpace cs | none
    let (some key, r) ← readString r | none
    let ':' :: r := skipSpace r | none
    let (value, r) ← readValue fuel r
    match skipSpace r with
    | ',' :: r =>
      let (fields, r) ← readFields fuel r
      return ((key, value) :: fields, r)
    | '}' :: r => return ([(key, value)], r)
    | _ => none

end

/-- The document that a text spells. Every level of recursion takes a character, so
the length of the text is fuel enough. -/
def read? (cs : Text) : Option Json := do
  let (value, rest) ← readValue (2 * cs.length + 2) cs
  if (skipSpace rest).isEmpty then return value else none

end ClassSort.Json
