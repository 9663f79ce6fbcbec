import ClassSort.Script.Lexeme

/-!
# Scanning single lexemes

Each function here answers with the beginning of a text that makes up one lexeme. What
follows the lexeme is the rest of the text, so nothing is ever lost or counted twice.
-/

namespace ClassSort.Script.Scan

/-- A string after its opening quote, up to its closing quote or else to the end of the
line, and whether it was closed. -/
def string (quote : Char) (escaped : Bool) : Text → Text × Bool
  | [] => ([], false)
  | c :: cs =>
    if escaped then
      let (body, closed) := string quote (c == '\r' && cs.head? == some '\n') cs
      (c :: body, closed)
    else if c == quote then ([c], true)
    else if isLineEnd c then ([], false)
    else
      let (body, closed) := string quote (c == '\\') cs
      (c :: body, closed)

/-- Whether what follows a backslash is an escape. -/
def isEscape : Text → Bool
  | 'x' :: a :: b :: _ => isHexDigit a && isHexDigit b
  | 'u' :: '{' :: cs =>
    isHexDigit (cs.headD ' ') && (cs.dropWhile isHexDigit).head? == some '}'
  | 'u' :: a :: b :: c :: d :: _ => [a, b, c, d].all isHexDigit
  | c :: _ => c != 'x' && c != 'u'
  | [] => false

/-- Whether every backslash of a text begins an escape. -/
def escapesValid : Text → Bool
  | [] => true
  | ['\\'] => false
  | '\\' :: c :: cs => isEscape (c :: cs) && escapesValid cs
  | _ :: cs => escapesValid cs

/-- The text of a template up to a hole or its end. -/
def templateText (escaped : Bool) : Text → Text
  | [] => []
  | c :: cs =>
    if escaped then c :: templateText false cs
    else if c == '\x60' || (c == '$' && cs.head? == some '{') then []
    else c :: templateText (c == '\\') cs

/-- A block comment after its opening mark. -/
def blockComment (star : Bool) : Text → Text
  | [] => []
  | c :: cs => if star && c == '/' then [c] else c :: blockComment (c == '*') cs

/-- A regular expression after its opening slash, without flags, if it ends on its line. -/
def regex? (escaped set : Bool) : Text → Option Text
  | [] => none
  | c :: cs =>
    if isLineEnd c then none
    else if escaped then (regex? false set cs).map (c :: ·)
    else if c == '/' && !set then some [c]
    else (regex? (c == '\\') (c == '[' || (set && c != ']')) cs).map (c :: ·)

/-- Digits at the beginning of a text, with single underscores between them. -/
def digits (isDigit : Char → Bool) : Text → Text
  | [] => []
  | [d] => if isDigit d then [d] else []
  | d :: '_' :: e :: cs =>
    if isDigit d then
      if isDigit e then d :: '_' :: digits isDigit (e :: cs) else [d]
    else []
  | d :: cs => if isDigit d then d :: digits isDigit cs else []

/-- The exponent of a number at the beginning of a text. -/
def exponent (cs : Text) : Text :=
  match cs with
  | e :: cs =>
    let sign := cs.take 1 |>.filter fun c => c == '+' || c == '-'
    let ds := digits Char.isDigit (cs.drop sign.length)
    if (e == 'e' || e == 'E') && !ds.isEmpty then e :: sign ++ ds else []
  | [] => []

/-- A number in decimal notation. -/
def decimal (cs : Text) : Text :=
  let whole := digits Char.isDigit cs
  match cs.drop whole.length with
  | '.' :: rest =>
    let fraction := digits Char.isDigit rest
    whole ++ '.' :: fraction ++ exponent (rest.drop fraction.length)
  | 'n' :: _ => whole ++ ['n']
  | rest => whole ++ exponent rest

/-- The digits of the base that a letter after a first zero stands for. -/
def baseDigit? (letter : Char) : Option (Char → Bool) :=
  if letter == 'x' || letter == 'X' then some isHexDigit
  else if letter == 'b' || letter == 'B' then some fun c => c == '0' || c == '1'
  else if letter == 'o' || letter == 'O' then some fun c => '0' ≤ c && c ≤ '7'
  else none

/-- A number in another base, if there is one at the beginning of a text. -/
def based? (cs : Text) : Option Text :=
  match cs with
  | '0' :: letter :: rest => do
    let isDigit ← baseDigit? letter
    let ds := digits isDigit rest
    let mark := (rest.drop ds.length).take 1 |>.filter (· == 'n')
    if ds.isEmpty then none else return '0' :: letter :: ds ++ mark
  | _ => none

/-- A number. -/
def number (cs : Text) : Text := (based? cs).getD (decimal cs)

/-- Whether a text begins with one to `most` characters of a class and a semicolon. -/
def isClosedRun (p : Char → Bool) (most : Nat) (cs : Text) : Bool :=
  let body := cs.takeWhile p
  !body.isEmpty && body.length ≤ most && (cs.dropWhile p).head? == some ';'

/-- Whether the text after an ampersand is a character reference: `#` with digits, or a
name, and a semicolon. -/
def isReference (cs : Text) : Bool :=
  match cs with
  | '#' :: x :: cs =>
    if x == 'x' || x == 'X' then isClosedRun isHexDigit 6 cs
    else isClosedRun Char.isDigit 5 (x :: cs)
  | cs => isClosedRun Char.isAlpha 30 cs

/-- The value of an attribute after its opening quote, up to and including its closing
quote, and whether it was closed. An ampersand that begins no reference takes the next
character with it. -/
def attributeString (quote : Char) (taken : Bool) : Text → Text × Bool
  | [] => ([], false)
  | c :: cs =>
    if !taken && c == quote then ([c], true)
    else
      let bare := match cs with
        | d :: _ => d != '#' && !d.isAlpha
        | [] => false
      let (body, closed) := attributeString quote (!taken && c == '&' && bare) cs
      (c :: body, closed)

/-- Whether every ampersand before a letter or `#` begins a reference. -/
def referencesValid : Text → Bool
  | [] => true
  | '&' :: cs =>
    (match cs with
      | d :: _ => (d != '#' && !d.isAlpha) || isReference cs
      | [] => true) && referencesValid cs
  | _ :: cs => referencesValid cs

/-- The operators and other marks, longer ones first. The mark `>` always stands alone,
because it also ends a list of type arguments. -/
def puncts : List String :=
  ["...", "===", "!==", "**=", "<<=", "&&=", "||=", "??=",
   "=>", "==", "!=", "++", "+=", "--", "-=", "**", "*=", "/=", "%=", "<<", "<=", "&&", "&=", "||",
   "|=", "^=", "??", "?.",
   "?", "=", "!", "+", "-", "*", "/", "%", "<", ">", "&", "|", "^", "~", ".", ",", ";", ":", "@",
   "#"]

/-- The mark at the beginning of a text. A `?.` before a digit is a `?`. -/
def punct? (cs : Text) : Option String :=
  match cs with
  | '?' :: '.' :: d :: _ => if d.isDigit then some "?" else some "?."
  | _ => puncts.find? fun p => p.toList.isPrefixOf cs

/-- The end of an element after its `<`, up to and including the `>`. -/
def endTag : Text → Text
  | [] => []
  | c :: cs => if c == '>' then [c] else c :: endTag cs

/-- A list of type arguments after its `<`, up to and including its `>`. -/
def typeArguments (depth : Nat) : Text → Text
  | [] => []
  | c :: cs =>
    if c == '>' && depth == 0 then [c]
    else c :: typeArguments (if c == '<' then depth + 1 else if c == '>' then depth - 1 else depth) cs

end ClassSort.Script.Scan
