import ClassSort.Text.Blank

/-!
# At-keywords of a stylesheet

A scanner that finds the at-keywords of a stylesheet outside comments and strings. The
same scanner serves all dialects, so line comments are recognized too.

Whether a quote or an `@` means anything depends on where it stands. A word among values
holds all characters up to a blank or a bracket, also these: `x@y` is one word in a
declaration and two parts in a selector. So the scanner keeps track of the part of a
statement that it is in.
-/

namespace ClassSort.Stylesheet

/-- An at-keyword with its `@`, and its range. -/
structure AtKeyword where
  text : Text
  span : Span
deriving Repr, DecidableEq

/-- A part of a statement. -/
inductive Position where
  /-- The selector of a rule or the name of a property. Values stand in it only between
  parentheses and behind an equals sign. -/
  | head (valued : Bool)
  /-- The condition of an at-rule. Values stand in it only behind a colon. -/
  | condition (valued : Bool)
  /-- Values, inside some brackets; those of a declaration may be a list with commas. -/
  | values (listed : Bool) (brackets : Nat)
deriving Repr, DecidableEq

/-- What the scanner is in the middle of. -/
inductive Mode where
  /-- Code, where a letter would begin a word or not. -/
  | code (fresh : Bool)
  /-- A word among values. -/
  | word
  /-- After a `/`, in a word or not. -/
  | slash (inWord : Bool)
  /-- After a backslash in a selector. -/
  | escape
  /-- A block comment, after a `*` or not. -/
  | block (star : Bool)
  /-- A line comment. -/
  | line
  /-- A string, after a backslash or not. -/
  | quoted (quote : Char) (escaped : Bool)
  /-- An at-keyword that began at an offset, kept backwards. -/
  | keyword (start : Nat) (text : Text)
deriving Repr, DecidableEq

/-- The scanner between two characters, inside some braces. -/
structure Scanner where
  mode : Mode := .code true
  depth : Nat := 0
  position : Position := .head false
deriving Repr, DecidableEq

/-- Whether a character can stand in an at-keyword. -/
def isKeywordChar (c : Char) : Bool := c.isAlpha || c == '_' || c == '-'

/-- Whether a character ends a word. -/
def endsWord (c : Char) : Bool :=
  Text.isAsciiBlank c || [',', ';', '!', '{', '}', '(', ')', '[', ']'].contains c

/-- Whether a letter behind the character begins a word. Behind a digit it is a unit. -/
def beforeWord (c : Char) : Bool := !(c.isAlphanum || c == '#' || c == '%')

/-- Whether a character ends a statement, or opens or closes a block of them. -/
def isMark (c : Char) : Bool := c == ';' || c == '{' || c == '}'

/-- Whether a colon in front of the text belongs to a declaration, and not to the selector
of a block. -/
def declares (rest : Text) : Bool := rest.find? isMark != some '{'

/-- Whether a text begins with a letter. -/
def startsAlpha (rest : Text) : Bool := rest.head?.any Char.isAlpha

namespace Position

/-- Whether values can stand here. -/
def holdsValues : Position → Bool
  | head valued | condition valued => valued
  | values _ _ => true

/-- Whether a semicolon ends the statement. Between brackets it does not. -/
def isClosed : Position → Bool
  | values _ brackets => brackets == 0
  | _ => true

/-- The position after the character `c` in front of `rest`. -/
def next (p : Position) (c : Char) (rest : Text) : Position :=
  match p with
  | head valued =>
    if c == '(' || c == '=' then head true
    else if c == ')' || c == ']' then head false
    else if c == ':' && declares rest then values true 0
    else head valued
  | condition valued =>
    if c == ':' then condition true
    else if c == ')' then condition false
    else condition valued
  | values listed brackets =>
    if c == '(' || c == '[' then values listed (brackets + 1)
    else if c == ')' || c == ']' then values listed (brackets - 1)
    else if c == ',' && brackets == 0 && !listed then condition false
    else values listed brackets

/-- The keywords of rules with a condition. -/
def conditional : List Text := ["@media", "@supports", "@namespace", "@keyframes"].map String.toList

/-- The keywords of rules with a value. -/
def valued : List Text := ["@import", "@charset"].map String.toList

/-- The position behind an at-keyword. In a block the rule can be one with values; outside of
blocks it has a condition. -/
def behind (keyword : Text) (depth : Nat) : Position :=
  if conditional.contains keyword then condition false
  else if valued.contains keyword then values false 0
  else if depth == 0 then condition false
  else values false 0

end Position

namespace Scanner

/-- The scanner after a character that is neither part of a word nor the beginning of
anything. -/
def pass (s : Scanner) (c : Char) (rest : Text) : Scanner :=
  if c == '{' then ⟨.code true, s.depth + 1, .head false⟩
  else if c == '}' then ⟨.code true, s.depth - 1, .head false⟩
  else if c == ';' && s.position.isClosed then ⟨.code true, s.depth, .head false⟩
  else ⟨.code (beforeWord c), s.depth, s.position.next c rest⟩

/-- The next character, at offset `pos`, of code. -/
def stepCode (s : Scanner) (fresh : Bool) (pos : Nat) (c : Char) (rest : Text) : Scanner :=
  if c == '"' || c == '\'' then { s with mode := .quoted c false }
  else if c == '@' then { s with mode := .keyword pos [c] }
  else if c == '/' then { s with mode := .slash false }
  else if c == '\\' && !s.position.holdsValues then { s with mode := .escape }
  else if fresh && c.isAlpha && s.position.holdsValues then { s with mode := .word }
  else s.pass c rest

/-- The scanner after the character `c` at offset `pos`, in front of `rest`. -/
def step (s : Scanner) (pos : Nat) (c : Char) (rest : Text) : Scanner :=
  match s.mode with
  | .code fresh => s.stepCode fresh pos c rest
  | .word =>
    if c == '/' then { s with mode := .slash true }
    else if endsWord c then s.stepCode true pos c rest
    else s
  | .slash inWord =>
    if c == '*' then { s with mode := .block false }
    else if inWord && !endsWord c then { s with mode := .word }
    -- two slashes begin a word if values stand here and a letter follows
    else if c == '/' && !(s.position.holdsValues && startsAlpha rest) then
      { s with mode := .line }
    else s.stepCode true pos c rest
  | .escape => { s with mode := .code false }
  | .block star => { s with mode := if c == '/' && star then .code true else .block (c == '*') }
  | .line => { s with mode := if c == '\n' then .code true else .line }
  | .quoted quote escaped =>
    { s with
      mode :=
        if escaped then .quoted quote false
        else if c == '\\' then .quoted quote true
        else if c == quote || c == '\n' then .code true
        else .quoted quote false }
  | .keyword start text =>
    if isKeywordChar c then { s with mode := .keyword start (c :: text) }
    else stepCode { s with position := .behind text.reverse s.depth } true pos c rest

/-- The at-keyword that ends at offset `pos`. -/
def completed? (s : Scanner) (pos : Nat) : Option AtKeyword :=
  match s.mode with
  | .keyword start text => some ⟨text.reverse, ⟨start, pos⟩⟩
  | _ => none

/-- The at-keyword that is complete when `c` comes at offset `pos`. -/
def completedBy? (s : Scanner) (pos : Nat) (c : Char) : Option AtKeyword :=
  if isKeywordChar c then none else s.completed? pos

/-- The at-keywords of a text that stands at offset `pos`. -/
def scan (s : Scanner) (pos : Nat) : Text → List AtKeyword
  | [] => (s.completed? pos).toList
  | c :: cs => (s.completedBy? pos c).toList ++ (s.step pos c cs).scan (pos + c.utf8Size) cs

end Scanner

/-- The at-keywords of a stylesheet. -/
def atKeywords (source : Text) : List AtKeyword := Scanner.scan {} 0 source

end ClassSort.Stylesheet
