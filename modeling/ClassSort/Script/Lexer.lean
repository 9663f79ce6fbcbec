import ClassSort.Script.Scan

/-!
# Dividing a script into lexemes

Which lexeme comes next depends on what stands around it: a `/` divides or begins a
regular expression, a `<` compares or begins an element, and inside elements and
templates the rules are different altogether. The lexer therefore keeps a stack of
frames, one for each construct that is open, and whether an operand may begin.

`read` takes one piece off a text and answers with the rest. Closing marks without
their opening ones close nothing; a frame that is left open inside another is dropped
with it.
-/

namespace ClassSort.Script

/-- Where in a start tag the lexer is. -/
inductive TagPlace where
  /-- Before the name of the element. -/
  | name
  /-- Between attributes. -/
  | attributes
  /-- After the `=` of an attribute. -/
  | value
deriving Repr, DecidableEq

/-- A construct that is open. -/
inductive Frame where
  /-- Braces around statements or members of a class. -/
  | block
  /-- Braces around the members of an object. -/
  | object
  /-- Parentheses, and whether they hold the condition of a statement. -/
  | paren (condition : Bool)
  | bracket
  | template
  | hole
  | container
  | tag (place : TagPlace)
  /-- The contents of an element. -/
  | children
deriving Repr, DecidableEq

/-- What the lexer knows about the text behind it. -/
structure LexState where
  frames : List Frame := []
  /-- Whether an operand may begin. -/
  operand : Bool := true
  /-- Whether a statement may begin. -/
  fresh : Bool := true
  /-- Whether the name of a member follows. -/
  afterDot : Bool := false
  /-- Whether a condition in parentheses follows. -/
  beforeCondition : Bool := false
deriving Repr, DecidableEq

/-- One piece of a text: how many characters it has, what it is, and the state behind
it. Blanks and the text of elements and templates are no lexemes. -/
structure Piece where
  length : Nat
  kind : Option Kind
  state : LexState
deriving Repr, DecidableEq

namespace LexState

/-- The state after an operand. -/
def afterOperand (st : LexState) : LexState :=
  { st with operand := false, fresh := false, afterDot := false, beforeCondition := false }

/-- The state after an operator. -/
def afterOperator (st : LexState) : LexState :=
  { st with operand := true, fresh := false, afterDot := false, beforeCondition := false }

/-- The state where a statement begins. -/
def atStatement (st : LexState) : LexState := { st.afterOperator with fresh := true }

/-- The state with one more frame. -/
def push (f : Frame) (st : LexState) : LexState := { st with frames := f :: st.frames }

/-- The state with another innermost frame. -/
def replace (f : Frame) (st : LexState) : LexState := { st with frames := f :: st.frames.drop 1 }

/-- The state without the innermost frame. -/
def pop (st : LexState) : LexState := { st with frames := st.frames.drop 1 }

end LexState

/-- Words after which an operand begins. -/
def operandWords : List String :=
  ["return", "typeof", "instanceof", "in", "of", "new", "delete", "void", "throw", "case", "do",
   "else", "yield", "await", "default", "extends"]

/-- Words after which a statement begins. -/
def statementWords : List String := ["do", "else"]

/-- Words with a condition in parentheses. -/
def conditionWords : List String := ["if", "while", "for", "with"]

/-- The state after a word. -/
def LexState.afterWord (text : String) (st : LexState) : LexState :=
  if st.afterDot then st.afterOperand
  else if conditionWords.contains text then { st.afterOperand with beforeCondition := true }
  else if text = "await" && st.beforeCondition then
    { st.afterOperand with beforeCondition := true }
  else if statementWords.contains text then st.atStatement
  else if text = "of" && st.operand then st.afterOperand
  else if operandWords.contains text then st.afterOperator
  else st.afterOperand

/-- The state after a mark. -/
def LexState.afterPunct (text : String) (st : LexState) : LexState :=
  if text = "." || text = "?." then { st.afterOperator with afterDot := true }
  else if text = "++" || text = "--" then { st with fresh := false, afterDot := false }
  else if text = "!" && !st.operand then st.afterOperand
  else if text = ";" || text = "=>" then st.atStatement
  else st.afterOperator

/-- The frame of an opening brace in code. -/
def LexState.braceFrame (previousColon : Bool) (st : LexState) : Frame :=
  if !st.operand || st.fresh then .block
  else if previousColon then
    match st.frames with
    | [] | .block :: _ => .block
    | _ => .object
  else .object

/-- Whether a frame belongs to code rather than to markup or a template. -/
def Frame.isCode : Frame → Bool
  | .template | .tag _ | .children => false
  | _ => true

/-- Whether a frame is closed by a mark. -/
def Frame.closedBy (mark : Char) : Frame → Bool
  | .paren _ => mark == ')'
  | .bracket => mark == ']'
  | .block | .object | .hole | .container => mark == '}'
  | _ => false

/-- The frame that a mark closes and the frames around it. Only the code around the
mark is searched. -/
def closeFrame? (mark : Char) : List Frame → Option (Frame × List Frame)
  | [] => none
  | f :: fs =>
    if f.closedBy mark then some (f, fs) else if f.isCode then closeFrame? mark fs else none

/-- The delimiter of a frame. -/
def Frame.delimiter : Frame → Delimiter
  | .block | .object => .brace
  | .paren _ => .paren
  | .bracket => .bracket
  | .template => .template
  | .hole => .hole
  | .container => .container
  | .tag _ | .children => .element

/-- The delimiter that a closing mark has on its own. -/
def markDelimiter (mark : Char) : Delimiter :=
  if mark == ')' then .paren else if mark == ']' then .bracket else .brace

/-- A closing mark. -/
def readClosing (st : LexState) (mark : Char) : Piece :=
  match closeFrame? mark st.frames with
  | none => ⟨1, some (.closing (markDelimiter mark)), st.afterOperand⟩
  | some (f, fs) =>
    let st := { st with frames := fs }
    let st :=
      match f with
      | .block => st.atStatement
      | .paren true => st.atStatement
      | _ => st.afterOperand
    ⟨1, some (.closing f.delimiter), st⟩

/-- A text without the blanks it begins with. -/
def skipBlanks (cs : Text) : Text := cs.dropWhile isScriptBlank

/-- Whether a text contains the end of an element with a given name. -/
def closesLater (name : Text) : Text → Bool := Text.includes ('<' :: '/' :: name)

/-- Whether the text after a `<` is a list of type parameters. -/
def beginsTypeParameters (cs : Text) : Bool :=
  let name := cs.takeWhile isWordChar
  let rest := skipBlanks (cs.dropWhile isWordChar)
  match rest with
  | ',' :: _ | '=' :: _ => true
  | '>' :: rest => (skipBlanks rest).head? == some '(' && !closesLater name rest
  | _ =>
    let second := rest.takeWhile isWordChar
    let next := (skipBlanks (rest.dropWhile isWordChar)).headD '>'
    (second = "extends".toList && !(['=', '>', '/'].contains next)) ||
      (name = "const".toList && !second.isEmpty)

/-- Whether the text after a `<` begins an element, where an operand may begin. -/
def beginsElement (d : Dialect) (cs : Text) : Bool :=
  match skipBlanks cs with
  | '>' :: _ => true
  | c :: cs => isWordStart c && !(d = .typeScript && beginsTypeParameters (c :: cs))
  | [] => false

/-- The `<` of an element. An element without a name begins with its contents. -/
def readElementStart (st : LexState) (cs : Text) : Piece :=
  let after := cs.drop 1
  match skipBlanks after with
  | '>' :: rest => ⟨cs.length - rest.length, some (.opening .element), st.push .children⟩
  | _ => ⟨1, some (.opening .element), st.push (.tag .name)⟩

/-- A quoted string in code. -/
def readString (st : LexState) (quote : Char) (cs : Text) : Piece :=
  let (body, closed) := Scan.string quote false (cs.drop 1)
  let kind := if closed && Scan.escapesValid body then .string (body.contains '\\') else .malformed
  ⟨body.length + 1, some kind, st.afterOperand⟩

/-- A word. -/
def readWord (st : LexState) (cs : Text) : Piece :=
  let body := (cs.drop 1).takeWhile isWordChar
  let text := String.ofList (cs.take 1 ++ body)
  ⟨body.length + 1, some (.word text), st.afterWord text⟩

/-- A mark, or a character that has no meaning. -/
def readPunct (st : LexState) (cs : Text) : Piece :=
  match Scan.punct? cs with
  | some p => ⟨p.length, some (.punct p), st.afterPunct p⟩
  | none => ⟨1, some .malformed, st.afterOperand⟩

/-- A slash: a comment, a regular expression or a mark. -/
def readSlash (st : LexState) (cs : Text) : Piece :=
  match cs with
  | '/' :: '/' :: rest =>
    ⟨(rest.takeWhile (!isLineEnd ·)).length + 2, some .comment, st⟩
  | '/' :: '*' :: rest => ⟨(Scan.blockComment false rest).length + 2, some .comment, st⟩
  | _ =>
    if st.operand then
      match Scan.regex? false false (cs.drop 1) with
      | some body =>
        let flags := (cs.drop (body.length + 1)).takeWhile Char.isLower
        ⟨body.length + flags.length + 1, some .atom, st.afterOperand⟩
      | none => readPunct st cs
    else readPunct st cs

/-- The next piece of code. -/
def readCode (d : Dialect) (previousColon : Bool) (st : LexState) (cs : Text) : Piece :=
  match cs with
  | [] => ⟨0, none, st⟩
  | c :: rest =>
    if isScriptBlank c then ⟨(cs.takeWhile isScriptBlank).length, none, st⟩
    else if c == '/' then readSlash st cs
    else if c == '"' || c == '\'' then readString st c cs
    else if c == '\x60' then ⟨1, some (.opening .template), st.push .template⟩
    else if c.isDigit || (c == '.' && (rest.head?.map Char.isDigit).getD false) then
      ⟨max 1 (Scan.number cs).length, some .atom, st.afterOperand⟩
    else if isWordStart c || (c == '#' && (rest.head?.map isWordStart).getD false) ||
        (c == '\\' && rest.head? == some 'u') then
      readWord st cs
    else if c == '(' then
      ⟨1, some (.opening .paren), (st.push (.paren st.beforeCondition)).afterOperator⟩
    else if c == '[' then ⟨1, some (.opening .bracket), (st.push .bracket).afterOperator⟩
    else if c == '{' then
      let frame := st.braceFrame previousColon
      let st := st.push frame
      ⟨1, some (.opening .brace), if frame = .block then st.atStatement else st.afterOperator⟩
    else if c == ')' || c == ']' || c == '}' then readClosing st c
    else if c == '<' && st.operand && beginsElement d rest then readElementStart st cs
    else readPunct st cs

/-- The next piece of a template. -/
def readTemplate (st : LexState) (cs : Text) : Piece :=
  match cs with
  | '\x60' :: _ => ⟨1, some (.closing .template), st.pop.afterOperand⟩
  | '$' :: '{' :: _ => ⟨2, some (.opening .hole), (st.push .hole).afterOperator⟩
  | cs =>
    let body := Scan.templateText false cs
    ⟨max 1 body.length, if Scan.escapesValid body then none else some .malformed, st⟩

/-- The opening brace of a container. -/
def readContainerStart (st : LexState) : Piece :=
  ⟨1, some (.opening .container), (st.push .container).afterOperator⟩

/-- The next piece of the contents of an element. -/
def readChildren (st : LexState) (cs : Text) : Piece :=
  match cs with
  | '<' :: rest =>
    if (skipBlanks rest).head? == some '/' then
      ⟨(Scan.endTag rest).length + 1, some (.closing .element), st.pop.afterOperand⟩
    else readElementStart st cs
  | '{' :: _ => readContainerStart st
  | cs => ⟨max 1 (cs.takeWhile fun c => c != '<' && c != '{').length, none, st⟩

/-- Whether a character can stand in the name of an element or an attribute. -/
def isTagWordChar (c : Char) : Bool := isWordChar c || c == '-' || c == ':' || c == '.'

/-- A word in a start tag: first the name of the element, then those of attributes. -/
def readTagWord (st : LexState) (place : TagPlace) (cs : Text) : Piece :=
  let body := cs.takeWhile isTagWordChar
  let kind := if place = .name then none else some (.attribute (String.ofList body))
  ⟨max 1 body.length, kind, st.replace (.tag .attributes)⟩

/-- The next piece of a start tag. -/
def readTag (st : LexState) (place : TagPlace) (cs : Text) : Piece :=
  match cs with
  | [] => ⟨0, none, st⟩
  | c :: rest =>
    let between := st.replace (.tag .attributes)
    if isScriptBlank c then ⟨(cs.takeWhile isScriptBlank).length, none, st⟩
    else if c == '>' then ⟨1, none, st.replace .children⟩
    else if c == '/' then
      match rest with
      | '/' :: _ | '*' :: _ => readSlash st cs
      | rest =>
        match skipBlanks rest with
        | '>' :: after => ⟨cs.length - after.length, some (.closing .element), st.pop.afterOperand⟩
        | _ => ⟨1, some .malformed, between⟩
    else if c == '{' then readContainerStart between
    else if c == '=' then ⟨1, some (.punct "="), st.replace (.tag .value)⟩
    else if c == '"' || c == '\'' then
      let (body, closed) := Scan.attributeString c false rest
      let valid := closed && Scan.referencesValid body
      ⟨body.length + 1, some (if valid then .attributeString else .malformed), between⟩
    else if c == '<' then
      if place = .value then readElementStart between cs
      else ⟨(Scan.typeArguments 0 rest).length + 1, none, between⟩
    else if isWordStart c then readTagWord st place cs
    else ⟨1, some .malformed, between⟩

/-- The next piece of a script. -/
def read (d : Dialect) (previousColon : Bool) (st : LexState) (cs : Text) : Piece :=
  match st.frames with
  | .template :: _ => readTemplate st cs
  | .children :: _ => readChildren st cs
  | .tag place :: _ => readTag st place cs
  | _ => readCode d previousColon st cs

/-- The lexemes of a text that stands at offset `pos`. A piece takes at least one
character, so the length of the text is fuel enough. -/
def lexFrom (d : Dialect) : Nat → Bool → LexState → Nat → Text → Lexemes
  | 0, _, _, _, _ => []
  | _, _, _, _, [] => []
  | fuel + 1, previousColon, st, pos, c :: cs =>
    let piece := read d previousColon st (c :: cs)
    let length := max 1 piece.length
    let stop := pos + Text.size ((c :: cs).take length)
    let rest := (c :: cs).drop length
    match piece.kind with
    | none => lexFrom d fuel previousColon piece.state stop rest
    | some kind =>
      ⟨kind, ⟨pos, stop⟩⟩ :: lexFrom d fuel (kind == .punct ":") piece.state stop rest

/-- The length of a first line that names the program to run the script with. -/
def interpreterLine : Text → Nat
  | '#' :: '!' :: cs => (cs.takeWhile (!isLineEnd ·)).length + 2
  | _ => 0

/-- The lexemes of a script. -/
def lex (d : Dialect) (source : Text) : Lexemes :=
  let skip := interpreterLine source
  lexFrom d source.length false {} (Text.size (source.take skip)) (source.drop skip)

end ClassSort.Script
