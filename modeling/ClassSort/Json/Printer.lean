import ClassSort.Json.Value

/-!
# Writing JSON

The compact form of a document: no white space, and only the escapes that JSON
requires.
-/

namespace ClassSort.Json

/-- A hexadecimal digit. -/
def hexChar (n : Nat) : Char := (Nat.toDigits 16 n).headD '0'

/-- A character inside a string. -/
def writeChar (c : Char) : Text :=
  match c with
  | '"' => ['\\', '"']
  | '\\' => ['\\', '\\']
  | '\x08' => ['\\', 'b']
  | '\x0c' => ['\\', 'f']
  | '\n' => ['\\', 'n']
  | '\r' => ['\\', 'r']
  | '\t' => ['\\', 't']
  | c =>
    if c.toNat < 0x20 then
      ['\\', 'u', '0', '0', hexChar (c.toNat / 16), hexChar (c.toNat % 16)]
    else [c]

/-- A string in quotes. -/
def writeString (s : String) : Text := '"' :: s.toList.flatMap writeChar ++ ['"']

/-- A number; one that has no notation is written `null`. -/
def writeNumber : Number → Text
  | .natural n => (toString n).toList
  | .negSucc n => '-' :: (toString (n + 1)).toList
  | .binary x => x.write?.getD "null".toList

mutual

/-- The text of a value. -/
def write : Json → Text
  | .null => "null".toList
  | .bool b => (if b then "true" else "false").toList
  | .number n => writeNumber n
  | .string s => writeString s
  | .array items => '[' :: writeItems items ++ [']']
  | .object fields => '{' :: writeFields fields ++ ['}']
  | .unreadable => "null".toList

/-- The texts of some values with commas between them. -/
def writeItems : List Json → Text
  | [] => []
  | [j] => write j
  | j :: js => write j ++ ',' :: writeItems js

/-- The texts of some entries with commas between them. -/
def writeFields : List (String × Json) → Text
  | [] => []
  | [(k, j)] => writeString k ++ ':' :: write j
  | (k, j) :: fs => writeString k ++ ':' :: write j ++ ',' :: writeFields fs

end

/-- The text of a value as a string. -/
def render (j : Json) : String := String.ofList (write j)

end ClassSort.Json
