import ClassSort.Text.Blank

/-!
# Lexemes of a script

The pieces that a script is read as. Everything that nests has an opening and a closing
lexeme of the same delimiter, also a template with its holes and an element with the
containers in it, so a nested construct can be passed over without being understood.
-/

namespace ClassSort.Script

/-- The languages of scripts. -/
inductive Dialect where
  | javaScript
  | typeScript
deriving Repr, DecidableEq

/-- What can nest. -/
inductive Delimiter where
  | paren
  | bracket
  | brace
  /-- A template, between its backticks. -/
  | template
  /-- A hole of a template. -/
  | hole
  /-- An element of markup, from the `<` of its start to the `>` of its end. -/
  | element
  /-- An expression in markup. -/
  | container
deriving Repr, DecidableEq

/-- The kinds of lexemes. -/
inductive Kind where
  /-- A name or a keyword. -/
  | word (text : String)
  | punct (text : String)
  /-- A string, with or without escapes. -/
  | string (escaped : Bool)
  /-- A string that is the value of an attribute. -/
  | attributeString
  /-- A number or a regular expression. -/
  | atom
  /-- The name of an attribute of an element. -/
  | attribute (name : String)
  | opening (d : Delimiter)
  | closing (d : Delimiter)
  | comment
  /-- Something that no script can contain. -/
  | malformed
deriving Repr, DecidableEq

/-- A lexeme and its range. -/
structure Lexeme where
  kind : Kind
  span : Span
deriving Repr, DecidableEq

/-- A script as lexemes, or what is left of it. -/
abbrev Lexemes := List Lexeme

/-- Whether a character is a blank of a script. -/
def isScriptBlank (c : Char) : Bool :=
  Text.isBlank c || c == '\ufeff' || c == '\u2060' || c == '\u200b'

/-- Characters of scripts that have a meaning of their own and never stand in a name. -/
def marks : List Char :=
  [':', ';', '\x60', '"', '\'', '@', '#', '.', ',', '|', '^', '&', '<', '=', '>', '+', '-', '*',
   '/', '\\', '%', '?', '!', '~', '(', ')', '[', ']', '{', '}']

/-- Whether a character can stand in a name. -/
def isWordChar (c : Char) : Bool := 0x20 ≤ c.toNat && !isScriptBlank c && !marks.contains c

/-- Whether a character can begin a name. -/
def isWordStart (c : Char) : Bool := isWordChar c && !c.isDigit

/-- Whether a character ends a line. -/
def isLineEnd (c : Char) : Bool := c == '\n' || c == '\r'

/-- Whether a character is a hexadecimal digit. -/
def isHexDigit (c : Char) : Bool :=
  c.isDigit || ('a' ≤ c && c ≤ 'f') || ('A' ≤ c && c ≤ 'F')

end ClassSort.Script
