import ClassSort.Json.Reader

/-!
# Strings and keys of TOML

Basic strings have escapes, literal strings have none; both also come in a form that
spans lines. Each reader here starts behind the opening quotes and answers with the
characters of the string and what follows it.
-/

namespace ClassSort.Toml

/-- Blanks inside a line. -/
def isBlank (c : Char) : Bool := c == ' ' || c == '\t'

/-- The text without the blanks it begins with. -/
def skipBlanks (cs : Text) : Text := cs.dropWhile isBlank

/-- What follows a line end, if the text begins with one. -/
def newline? : Text → Option Text
  | '\n' :: cs => some cs
  | '\r' :: '\n' :: cs => some cs
  | _ => none

/-- Whether a character may stand in a string or a comment as it is. -/
def isPlain (c : Char) : Bool := c == '\t' || (0x20 ≤ c.toNat && c.toNat ≠ 0x7f)

/-- The character with a given code, unless the code is that of no character. -/
def scalar? (n : Nat) : Option Char := if n.isValidChar then some (Char.ofNat n) else none

/-- The number that hexadecimal digits denote. -/
def hex? (ds : Text) : Option Nat :=
  ds.foldlM (fun n d => (Json.hexDigit? d).map (16 * n + ·)) 0

/-- The character that a one-letter escape stands for. -/
def escaped? : Char → Option Char
  | '"' => some '"'
  | '\\' => some '\\'
  | 'b' => some '\x08'
  | 'e' => some '\x1b'
  | 'f' => some '\x0c'
  | 'n' => some '\n'
  | 'r' => some '\r'
  | 't' => some '\t'
  | _ => none

/-- An escape after its backslash: its character, and how many characters it takes. -/
def escape? : Text → Option (Char × Nat)
  | 'x' :: cs => if cs.length < 2 then none else ((hex? (cs.take 2)).bind scalar?).map (·, 3)
  | 'u' :: cs => if cs.length < 4 then none else ((hex? (cs.take 4)).bind scalar?).map (·, 5)
  | 'U' :: cs => if cs.length < 8 then none else ((hex? (cs.take 8)).bind scalar?).map (·, 9)
  | c :: _ => (escaped? c).map (·, 1)
  | [] => none

/-- Puts a character in front of a string that was read. -/
def cons (c : Char) (r : Text × Text) : Text × Text := (c :: r.1, r.2)

/-- A basic string on one line, after passing over `skip` characters. -/
def basic? (skip : Nat) : Text → Option (Text × Text)
  | [] => none
  | c :: cs =>
    if 0 < skip then basic? (skip - 1) cs
    else if c == '"' then some ([], cs)
    else if c == '\\' then do
      let (e, taken) ← escape? cs
      (basic? taken cs).map (cons e)
    else if isPlain c then (basic? 0 cs).map (cons c)
    else none

/-- A literal string on one line. -/
def literal? : Text → Option (Text × Text)
  | [] => none
  | c :: cs =>
    if c == '\'' then some ([], cs)
    else if isPlain c then (literal? cs).map (cons c)
    else none

/-- The end of a string over several lines, after its three closing quotes: up to two
more quotes belong to the string. -/
def lastQuotes (quote : Char) (cs : Text) : Text × Text :=
  let extra := min 2 (cs.takeWhile (· == quote)).length
  (List.replicate extra quote, cs.drop extra)

/-- Whether a backslash stands at the end of its line. -/
def endsLine (cs : Text) : Bool := (newline? (skipBlanks cs)).isSome

/-- A basic string over several lines. A line end is one character however it is
written; behind a backslash at the end of a line, it and all blanks and line ends after
it are left out. -/
def longBasic? (folding : Bool) (skip : Nat) : Text → Option (Text × Text)
  | [] => none
  | c :: cs =>
    if 0 < skip then longBasic? folding (skip - 1) cs
    else if folding && (isBlank c || c == '\n' || (c == '\r' && cs.head? == some '\n')) then
      longBasic? true 0 cs
    else if c == '"' && "\"\"".toList.isPrefixOf cs then some (lastQuotes '"' (cs.drop 2))
    else if c == '\\' then
      if endsLine cs then longBasic? true 0 cs
      else do
        let (e, taken) ← escape? cs
        (longBasic? false taken cs).map (cons e)
    else if c == '\n' || isPlain c then (longBasic? false 0 cs).map (cons c)
    else if c == '\r' && cs.head? == some '\n' then longBasic? false 0 cs
    else none

/-- A literal string over several lines. -/
def longLiteral? : Text → Option (Text × Text)
  | [] => none
  | c :: cs =>
    if c == '\'' && "''".toList.isPrefixOf cs then some (lastQuotes '\'' (cs.drop 2))
    else if c == '\n' || isPlain c then (longLiteral? cs).map (cons c)
    else if c == '\r' && cs.head? == some '\n' then longLiteral? cs
    else none

/-- A line end right behind the opening quotes is not part of the string. -/
def skipFirstLineEnd (cs : Text) : Text := (newline? cs).getD cs

/-- A string of any form, with its opening quotes. -/
def string? : Text → Option (Text × Text)
  | '"' :: '"' :: '"' :: cs => longBasic? false 0 (skipFirstLineEnd cs)
  | '\'' :: '\'' :: '\'' :: cs => longLiteral? (skipFirstLineEnd cs)
  | '"' :: cs => basic? 0 cs
  | '\'' :: cs => literal? cs
  | _ => none

/-- Whether a character may stand in a key without quotes. -/
def isBareKeyChar (c : Char) : Bool := c.isAlphanum || c == '_' || c == '-'

/-- One part of a key: bare, or a string on one line. -/
def keyPart? (cs : Text) : Option (String × Text) :=
  match cs with
  | '"' :: r => (basic? 0 r).map fun (k, rest) => (String.ofList k, rest)
  | '\'' :: r => (literal? r).map fun (k, rest) => (String.ofList k, rest)
  | cs =>
    let bare := cs.takeWhile isBareKeyChar
    if bare.isEmpty then none else some (String.ofList bare, cs.dropWhile isBareKeyChar)

/-- A key: parts with points between them, and blanks around the points. -/
def key? : Nat → Text → Option (List String × Text)
  | 0, _ => none
  | fuel + 1, cs => do
    let (part, rest) ← keyPart? (skipBlanks cs)
    match skipBlanks rest with
    | '.' :: rest =>
      let (parts, rest) ← key? fuel rest
      return (part :: parts, rest)
    | rest => return ([part], rest)

end ClassSort.Toml
