import ClassSort.Text.Blank

/-!
# Attributes of markup

A scanner that finds the attributes of the start tags in a document. It reads one
character at a time and keeps what it is in the middle of as a `Mode`. Comments and
the contents of `script` and `style` hold no attributes; everything else that is not a
start tag is passed over as text. Around a malformed tag the scanner is lenient: what
cannot stand in a tag is skipped, and a `<` always begins anew.

A comment can stand wherever a blank can, and that includes the beginning of a quoted
value. There a `<` is looked at more closely: without an end, further on in the document,
`<!--` begins no comment and belongs to the value.
-/

namespace ClassSort.Markup

/-- An attribute with a value, and the range of the value without its quotes. -/
structure Attribute where
  name : Text
  value : Span
deriving Repr, DecidableEq

/-- Where a comment can stand. Names are kept backwards, as everywhere in the scanner. -/
inductive CommentPlace where
  | text
  /-- A start tag, between attributes. -/
  | tag (name : Text)
  /-- After the name of an attribute. -/
  | named (tag name : Text)
  /-- After the equals sign of an attribute. -/
  | assigned (tag name : Text)
  /-- After the opening quote of a value, with nothing but blanks and comments since. -/
  | front (tag name : Text) (quote : Char) (start : Nat)
deriving Repr, DecidableEq

/-- What the scanner is in the middle of. Names are kept backwards while they are
read. -/
inductive Mode where
  /-- Text between tags. -/
  | text
  /-- After a `<`. -/
  | opened (within : CommentPlace)
  /-- After `<!` and perhaps one dash. -/
  | declared (dash : Bool) (within : CommentPlace)
  /-- An end tag or a declaration, up to its `>`. -/
  | skipped
  /-- A comment, after some dashes. -/
  | comment (dashes : Nat) (within : CommentPlace)
  /-- The name of a start tag. -/
  | tagName (name : Text)
  /-- A start tag, between attributes. -/
  | tag (name : Text)
  /-- The name of an attribute. -/
  | attributeName (tag name : Text)
  /-- After the name of an attribute. -/
  | named (tag name : Text)
  /-- After the equals sign of an attribute. -/
  | assigned (tag name : Text)
  /-- A value in quotes, where a comment can still begin. -/
  | front (tag name : Text) (quote : Char) (start : Nat)
  /-- A value in quotes, where it is only text. -/
  | quoted (tag name : Text) (quote : Char) (start : Nat)
  /-- A value without quotes. -/
  | bare (tag name : Text) (start : Nat)
  /-- Text that ends only at `closing`, of which `left` is still to come. -/
  | raw (closing left : Text)
deriving Repr, DecidableEq

/-- Whether a character can stand in the name of a tag. -/
def isTagNameChar (c : Char) : Bool := c.isAlphanum || c == '-' || c == ':'

/-- Whether a character can stand in a value without quotes. -/
def isBareChar (c : Char) : Bool :=
  !(Text.isAsciiBlank c || c == '<' || c == '>' || c == '"' || c == '\'' || c == '=')

/-- Whether a character can stand in the name of an attribute. -/
def isNameChar (c : Char) : Bool := isBareChar c && c != '/'

/-- The same text in capitals. -/
def upper (cs : Text) : Text := cs.map Char.toUpper

/-- The mode after the `>` of a start tag whose name, read backwards, is `name`. -/
def Mode.afterTag (name : Text) : Mode :=
  let name := upper name.reverse
  if name = "SCRIPT".toList then .raw "</SCRIPT".toList "</SCRIPT".toList
  else if name = "STYLE".toList then .raw "</STYLE".toList "</STYLE".toList
  else .text

/-- The next character of text. -/
def stepText (c : Char) : Mode := if c == '<' then .opened .text else .text

/-- The next character between the attributes of a start tag. -/
def stepTag (name : Text) (c : Char) : Mode :=
  if c == '>' then .afterTag name
  else if c == '<' then .opened (.tag name)
  else if isNameChar c then .attributeName name [c]
  else .tag name

/-- The next character after the name of an attribute. -/
def stepNamed (tag name : Text) (c : Char) : Mode :=
  if Text.isAsciiBlank c then .named tag name
  else if c == '=' then .assigned tag name
  else if c == '<' then .opened (.named tag name)
  else stepTag tag c

/-- The next character, at offset `pos`, after an equals sign. -/
def stepAssigned (tag name : Text) (pos : Nat) (c : Char) : Mode :=
  if Text.isAsciiBlank c || c == '=' then .assigned tag name
  else if c == '"' || c == '\'' then .front tag name c (pos + 1)
  else if isBareChar c then .bare tag name pos
  else if c == '<' then .opened (.assigned tag name)
  else stepTag tag c

/-- Whether a comment, after some dashes, ends in a text. -/
def closesComment (dashes : Nat) : Text → Bool
  | [] => false
  | c :: cs =>
    if c == '-' then closesComment (dashes + 1) cs
    else if c == '>' && 2 ≤ dashes then true
    else closesComment 0 cs

/-- Whether a comment begins with a `<` in front of the text. -/
def opensComment : Text → Bool
  | '!' :: '-' :: '-' :: cs => closesComment 0 cs
  | _ => false

/-- The next character, in front of `rest`, at the beginning of a quoted value. -/
def stepFront (tag name : Text) (quote : Char) (start : Nat) (c : Char) (rest : Text) : Mode :=
  if c == quote then .tag tag
  else if Text.isAsciiBlank c then .front tag name quote start
  else if c == '<' && opensComment rest then .opened (.front tag name quote start)
  else .quoted tag name quote start

/-- The next character of a declaration that is not a comment. -/
def stepSkipped (c : Char) : Mode := if c == '>' then .text else .skipped

/-- The mode after a comment. -/
def afterComment : CommentPlace → Mode
  | .text => .text
  | .tag name => .tag name
  | .named tag name => .named tag name
  | .assigned tag name => .assigned tag name
  | .front tag name quote start => .front tag name quote start

/-- The next character after a `<`. -/
def stepOpened (within : CommentPlace) (c : Char) : Mode :=
  if c == '!' then .declared false within
  else if c == '/' then .skipped
  else if isTagNameChar c then .tagName [c]
  else if Text.isAsciiBlank c then .opened within
  else stepText c

/-- The mode after the character `c` at offset `pos`, in front of `rest`. -/
def step (m : Mode) (pos : Nat) (c : Char) (rest : Text) : Mode :=
  match m with
  | .text => stepText c
  | .opened within => stepOpened within c
  | .declared dash within =>
    if c == '-' then (if dash then .comment 0 within else .declared true within)
    else stepSkipped c
  | .skipped => stepSkipped c
  | .comment dashes within =>
    if c == '-' then .comment (dashes + 1) within
    else if c == '>' && 2 ≤ dashes then afterComment within
    else .comment 0 within
  | .tagName name => if isTagNameChar c then .tagName (c :: name) else stepTag name c
  | .tag name => stepTag name c
  | .attributeName tag name =>
    if isNameChar c then .attributeName tag (c :: name) else stepNamed tag name c
  | .named tag name => stepNamed tag name c
  | .assigned tag name => stepAssigned tag name pos c
  | .front tag name quote start => stepFront tag name quote start c rest
  | .quoted tag name quote start => if c == quote then .tag tag else .quoted tag name quote start
  | .bare tag name start => if isBareChar c then .bare tag name start else stepTag tag c
  | .raw closing left =>
    match left with
    | [] => stepSkipped c
    | l :: left =>
      if c.toUpper == l then (if left.isEmpty then .skipped else .raw closing left)
      else .raw closing closing

/-- The attribute that is complete when `c` comes at offset `pos`. -/
def completed? (m : Mode) (pos : Nat) (c : Char) : Option Attribute :=
  match m with
  | .front _ name quote start | .quoted _ name quote start =>
    if c == quote then some ⟨name.reverse, ⟨start, pos⟩⟩ else none
  | .bare _ name start => if isBareChar c then none else some ⟨name.reverse, ⟨start, pos⟩⟩
  | _ => none

/-- The attribute that is complete at the end of the document, at offset `pos`. -/
def completedAtEnd? (m : Mode) (pos : Nat) : Option Attribute :=
  match m with
  | .bare _ name start => some ⟨name.reverse, ⟨start, pos⟩⟩
  | _ => none

/-- The attributes of a text that stands at offset `pos`, from a given mode on. -/
def scan (m : Mode) (pos : Nat) : Text → List Attribute
  | [] => (completedAtEnd? m pos).toList
  | c :: cs => (completed? m pos c).toList ++ scan (step m pos c cs) (pos + c.utf8Size) cs

/-- The attributes of a document. -/
def attributes (source : Text) : List Attribute := scan .text 0 source

end ClassSort.Markup
