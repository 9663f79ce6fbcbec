import ClassSort.Toml.Quoted

/-!
# Numbers, booleans and times of TOML

A value without quotes or brackets is one word. Integers may have underscores between
digits and three other bases; floating point numbers need a point or an exponent. Times
have no kind of their own in a configuration: a time becomes a table with one entry,
which holds its text.
-/

namespace ClassSort.Toml

/-- The digits of a number without the underscores, which must stand between digits. -/
def digits? (isDigit : Char → Bool) : Text → Option Text
  | [] => none
  | [d] => if isDigit d then some [d] else none
  | d :: '_' :: e :: ds =>
    if isDigit d && isDigit e then (digits? isDigit (e :: ds)).map (d :: ·) else none
  | d :: ds => if isDigit d then (digits? isDigit ds).map (d :: ·) else none

/-- An integer in the document: those that fit in 64 bits, with or without a sign, can
be used. -/
def integer (negative : Bool) (n : Nat) : Json :=
  if negative then
    if n ≤ Nat.pow 2 63 then .number (.ofInt (-(n : Int))) else .unreadable
  else if n < Nat.pow 2 64 then .number (.natural n)
  else .unreadable

/-- The value of digits in some base. -/
def valueIn (base : Nat) (ds : Text) : Nat :=
  ds.foldl (fun n d => base * n + (Json.hexDigit? d).getD 0) 0

/-- An integer in another base, after its mark. -/
def based? (base : Nat) (isDigit : Char → Bool) (cs : Text) : Option Json :=
  (digits? isDigit cs).map fun ds => integer false (valueIn base ds)

/-- Whether digits have a zero in front that does not belong there. -/
def hasLeadingZero : Text → Bool
  | '0' :: _ :: _ => true
  | _ => false

/-- The digits in front of a point or an exponent, and the rest. -/
def wholePart? (cs : Text) : Option (Text × Text) := do
  let isPart (c : Char) : Bool := Binary64.isDigit c || c == '_'
  let ds ← digits? Binary64.isDigit (cs.takeWhile isPart)
  if hasLeadingZero ds then none else return (ds, cs.dropWhile isPart)

/-- The part of a floating point number behind its letter `e`. -/
def exponentPart? (cs : Text) : Option Text :=
  match cs with
  | '+' :: cs => digits? Binary64.isDigit cs
  | '-' :: cs => (digits? Binary64.isDigit cs).map ('-' :: ·)
  | cs => digits? Binary64.isDigit cs

/-- The part of a floating point number behind its whole digits, without underscores. -/
def fractionPart? (cs : Text) : Option Text := do
  let (fraction, rest) ←
    match cs with
    | '.' :: cs =>
      let isPart (c : Char) : Bool := Binary64.isDigit c || c == '_'
      (digits? Binary64.isDigit (cs.takeWhile isPart)).map fun ds =>
        ('.' :: ds, cs.dropWhile isPart)
    | cs => some ([], cs)
  match rest with
  | [] => return fraction
  | e :: rest =>
    if e == 'e' || e == 'E' then
      let exponent ← exponentPart? rest
      return fraction ++ 'e' :: exponent
    else none

/-- A number whose optional sign has been read. One that is too large for floating point
is refused. -/
def number? (negative : Bool) (cs : Text) : Option Json :=
  if cs = "inf".toList then some (.number (.binary ⟨negative, .infinite⟩))
  else if cs = "nan".toList then some (.number (.binary ⟨negative, .nan⟩))
  else do
    let (whole, rest) ← wholePart? cs
    if rest.isEmpty then return integer negative (Binary64.digitsValue 0 whole)
    else
      let fraction ← fractionPart? rest
      let x ← Binary64.ofText? (whole ++ fraction)
      if x.magnitude = .infinite then none else return .number (.binary ⟨negative, x.magnitude⟩)

/-- The number of exactly `count` digits at the beginning of a text. -/
def fixed? (count : Nat) (cs : Text) : Option (Nat × Text) :=
  let ds := cs.take count
  if ds.length = count && ds.all Binary64.isDigit then
    some (Binary64.digitsValue 0 ds, cs.drop count)
  else none

/-- The days of a month. -/
def daysIn (year month : Nat) : Nat :=
  if month = 2 then
    if (year % 4 = 0 && year % 100 ≠ 0) || year % 400 = 0 then 29 else 28
  else if [4, 6, 9, 11].contains month then 30
  else 31

/-- What follows a date. -/
def date? (cs : Text) : Option Text := do
  let (year, cs) ← fixed? 4 cs
  let '-' :: cs := cs | none
  let (month, cs) ← fixed? 2 cs
  let '-' :: cs := cs | none
  let (day, cs) ← fixed? 2 cs
  if 1 ≤ month && month ≤ 12 && 1 ≤ day && day ≤ daysIn year month then return cs else none

/-- What follows hours and minutes. -/
def clock? (cs : Text) : Option Text := do
  let (hour, cs) ← fixed? 2 cs
  let ':' :: cs := cs | none
  let (minute, cs) ← fixed? 2 cs
  if hour ≤ 23 && minute ≤ 59 then return cs else none

/-- What follows the time of day, whose seconds may have a fraction. -/
def time? (cs : Text) : Option Text := do
  let cs ← clock? cs
  match cs with
  | ':' :: cs =>
    let (second, cs) ← fixed? 2 cs
    if 60 < second then none
    else
      match cs with
      | '.' :: d :: cs => if Binary64.isDigit d then return cs.dropWhile Binary64.isDigit else none
      | '.' :: [] => none
      | cs => return cs
  | cs => return cs

/-- What follows the offset of a time from universal time, if there is one. -/
def offset? (cs : Text) : Option Text :=
  match cs with
  | 'Z' :: cs | 'z' :: cs => some cs
  | '+' :: cs | '-' :: cs => clock? cs
  | cs => some cs

/-- The mark between a date and a time. -/
def isTimeMark (c : Char) : Bool := c == 'T' || c == 't' || c == ' '

/-- Whether a word is a date, a time, or both with an optional offset. -/
def isTime (cs : Text) : Bool :=
  match date? cs with
  | some [] => true
  | some (t :: rest) => isTimeMark t && ((time? rest).bind offset?) == some []
  | none => time? cs == some []

/-- The key of the table that a time becomes. -/
def timeKey : String := "$__toml_private_datetime"

/-- The text of a time, with capitals for its marks. -/
def timeText (cs : Text) : Text :=
  cs.map fun c => if isTimeMark c then 'T' else if c == 'z' then 'Z' else c

/-- The value of a word. -/
def word? (cs : Text) : Option Json :=
  match cs with
  | '0' :: 'x' :: ds => based? 16 (fun d => (Json.hexDigit? d).isSome) ds
  | '0' :: 'o' :: ds => based? 8 (fun d => '0' ≤ d && d ≤ '7') ds
  | '0' :: 'b' :: ds => based? 2 (fun d => d == '0' || d == '1') ds
  | '+' :: ds => number? false ds
  | '-' :: ds => number? true ds
  | cs =>
    if cs = "true".toList then some (.bool true)
    else if cs = "false".toList then some (.bool false)
    else if isTime cs then some (.object [(timeKey, .string (String.ofList (timeText cs)))])
    else number? false cs

/-- Whether a character can stand in a word. -/
def isWordChar (c : Char) : Bool := c.isAlphanum || ['+', '-', '_', '.', ':'].contains c

/-- The word at the beginning of a text, and what follows it. A date and a time may have
a blank between them. -/
def takeWord (cs : Text) : Text × Text :=
  let first := cs.takeWhile isWordChar
  match cs.dropWhile isWordChar with
  | ' ' :: d :: rest =>
    if date? first == some [] && Binary64.isDigit d then
      let second := (d :: rest).takeWhile isWordChar
      (first ++ ' ' :: second, (d :: rest).dropWhile isWordChar)
    else (first, ' ' :: d :: rest)
  | rest => (first, rest)

end ClassSort.Toml
