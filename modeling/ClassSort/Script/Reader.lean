import ClassSort.Script.Expr
import ClassSort.Script.TypeReader

/-!
# Reading expressions

A recursive descent over lexemes. Binary operators are read by precedence; an operand
with an assignment behind it is an assignment, and everything from its target on belongs
to it. Functions, classes and elements are passed over as whole constructs.

A reader answers with what it found and the lexemes behind it. All readers recurse on a
fuel that bounds the depth of the descent.
-/

namespace ClassSort.Script

/-- The words that name a binary operator. -/
def wordOperators : List String := ["instanceof", "in"]

/-- The precedence of the operators, and whether they group to the right. -/
def precedence? (op : String) : Option (Nat × Bool) :=
  if op = "??" then some (1, false)
  else if op = "||" then some (2, false)
  else if op = "&&" then some (3, false)
  else if op = "|" then some (4, false)
  else if op = "^" then some (5, false)
  else if op = "&" then some (6, false)
  else if ["==", "!=", "===", "!=="].contains op then some (7, false)
  else if ["<", "<=", ">", ">=", "instanceof", "in"].contains op then some (8, false)
  else if ["<<", ">>", ">>>"].contains op then some (9, false)
  else if ["+", "-"].contains op then some (10, false)
  else if ["*", "/", "%"].contains op then some (11, false)
  else if op = "**" then some (12, true)
  else none

/-- The precedence of a type behind an expression. -/
def typePrecedence : Nat := 8

/-- What an operator does to class lists. -/
def BinaryOp.ofText (op : String) : BinaryOp :=
  if op = "+" then .plus
  else if op = "||" || op = "??" then .fallback
  else if op = "&&" then .guarded
  else .other

/-- The operators of assignments. -/
def assignments : List String :=
  ["=", "+=", "-=", "*=", "/=", "%=", "**=", "<<=", "&=", "|=", "^=", "&&=", "||=", "??=", ">>=",
   ">>>="]

/-- The mark at the beginning of some lexemes. Marks `>` and `=` that touch form one. -/
def joinedPunct (text : String) (stop : Nat) : Lexemes → String × Lexemes
  | ⟨.punct p, s⟩ :: ts =>
    if s.start = stop && (p = ">" || p = "=" || p = "==" || p = "===") then
      if p = ">" then joinedPunct (text ++ ">") s.stop ts
      else if p = "=" then (text ++ "=", ts)
      else (text, ⟨.punct p, s⟩ :: ts)
    else (text, ⟨.punct p, s⟩ :: ts)
  | ts => (text, ts)

/-- The operator at the beginning of some lexemes. -/
def operator? (ts : Lexemes) : Option (String × Lexemes) :=
  match skipComments ts with
  | ⟨.punct ">", s⟩ :: ts => some (joinedPunct ">" s.stop ts)
  | ⟨.punct p, _⟩ :: ts => some (p, ts)
  | ⟨.word w, _⟩ :: ts => if wordOperators.contains w then some (w, ts) else none
  | _ => none

/-- Whether an expression can be assigned to. Only a plain `=` takes an array or an object
apart. -/
def Expr.isTarget (op : String) : Expr → Bool
  | .other _ | .subscript _ _ _ | .paren _ _ | .wrapped _ _ => true
  | .object _ _ | .array _ _ => op = "="
  | _ => false

/-- Whether an expression can begin here. -/
def beginsExpr (ts : Lexemes) : Bool :=
  match skipComments ts with
  | ⟨.word w, _⟩ :: _ => !wordOperators.contains w
  | ⟨.string _, _⟩ :: _ | ⟨.atom, _⟩ :: _ | ⟨.opening _, _⟩ :: _ => true
  | ⟨.punct p, _⟩ :: _ => ["!", "~", "+", "-", "++", "--"].contains p
  | _ => false

/-- Whether the word `import` makes sense here: with arguments, or as `import.meta`. -/
def beginsImport (ts : Lexemes) : Bool :=
  match skipComments ts with
  | ⟨.opening .paren, _⟩ :: _ => true
  | ⟨.punct ".", _⟩ :: rest => (skipComments rest).head?.any (·.kind == .word "meta")
  | _ => false

/-- Marks in front of an operand. -/
def unaryMarks : List String := ["!", "~", "+", "-", "++", "--"]

/-- Words in front of an operand. -/
def unaryWords : List String := ["typeof", "void", "delete", "await"]

/-- Words in front of the name of a method. -/
def methodWords : List String := ["get", "set", "async", "static"]

/-- What follows an optional type behind a colon. -/
def skipReturnType (d : Dialect) (fuel : Nat) (ts : Lexemes) : Lexemes :=
  if d = .typeScript then
    match skipPunct? ":" ts with
    | some (_, rest) => ((skipType? fuel rest).map Prod.snd).getD ts
    | none => ts
  else ts

/-- What follows an optional list of type parameters. -/
def skipOptionalTypeParameters (d : Dialect) (ts : Lexemes) : Lexemes :=
  if d = .typeScript then
    match skipPunct? "<" ts with
    | some (_, rest) => ((skipTypeParameters? rest.length 0 rest).map Prod.snd).getD ts
    | none => ts
  else ts

/-- What follows the parameters and the body of a function, and where it ends. -/
def skipFunction? (d : Dialect) (fuel : Nat) (ts : Lexemes) : Option (Nat × Lexemes) := do
  let ts := skipOptionalTypeParameters d ts
  let (_, ts) ← skipGroup? .paren ts
  skipGroup? .brace (skipReturnType d fuel ts)

/-- What follows the head and the body of a class, and where it ends. -/
def skipClass? : Nat → Lexemes → Option (Nat × Lexemes)
  | 0, _ => none
  | _, [] => none
  | fuel + 1, t :: ts =>
    match t.kind with
    | .opening .brace => closeAll? [.brace] ts
    | .opening d => do
      let (_, ts) ← closeAll? [d] ts
      skipClass? fuel ts
    | .closing _ | .malformed => none
    | _ => skipClass? fuel ts

/-- What follows a type in parentheses behind a colon. -/
def skipParenType? (d : Dialect) (ts : Lexemes) : Option Lexemes := do
  if d = .typeScript then
    let (_, ts) ← skipPunct? ":" ts
    (skipGroup? .paren ts).map Prod.snd
  else none

/-- Words that begin an operand of their own. -/
def constructWords : List String := ["class", "function", "new"]

/-- Whether a list of parameters can begin here, behind its parenthesis. -/
def beginsParameters (ts : Lexemes) : Bool :=
  match skipComments ts with
  | ⟨.word w, _⟩ :: _ => !constructWords.contains w
  | ⟨.closing .paren, _⟩ :: _ | ⟨.opening .brace, _⟩ :: _ | ⟨.opening .bracket, _⟩ :: _
  | ⟨.punct "...", _⟩ :: _ | ⟨.punct "@", _⟩ :: _ => true
  | _ => false

/-- What follows a list of parameters in parentheses. -/
def skipParameters? (ts : Lexemes) : Option Lexemes :=
  match skipComments ts with
  | ⟨.opening .paren, _⟩ :: rest =>
    if beginsParameters rest then (closeAll? [.paren] rest).map Prod.snd else none
  | _ => none

/-- What follows the `=>` of a function with parameters in parentheses. Its result may
have a type; a type in parentheses does not take the `=>` for itself if another one is
missing then. -/
def skipArrow? (d : Dialect) (fuel : Nat) (ts : Lexemes) : Option Lexemes := do
  let ts ← skipParameters? ts
  match skipPunct? "=>" ts, skipPunct? "=>" (skipReturnType d fuel ts) with
  | some (_, rest), _ | none, some (_, rest) => some rest
  | none, none => ((skipParenType? d ts).bind (skipPunct? "=>")).map Prod.snd

mutual

/-- An expression without commas. -/
def readExpr (d : Dialect) : Nat → Lexemes → Option (Expr × Lexemes)
  | 0, _ => none
  | fuel + 1, ts => do
    let (left, ts) ← readBinary d fuel 0 ts
    match skipPunct? "?" ts with
    | none => return (left, ts)
    | some (_, ts) =>
      let (consequence, ts) ← readExpr d fuel ts
      let (_, ts) ← skipPunct? ":" ts
      let (alternative, ts) ← readExpr d fuel ts
      return (.ternary ⟨left.span.start, alternative.span.stop⟩ left consequence alternative, ts)

/-- An expression, or several with commas between them, which hold no class list. -/
def readSequence (d : Dialect) : Nat → Lexemes → Option (Expr × Lexemes)
  | 0, _ => none
  | fuel + 1, ts => do
    let (first, ts) ← readExpr d fuel ts
    match skipPunct? "," ts with
    | none => return (first, ts)
    | some (_, ts) =>
      let (rest, ts) ← readSequence d fuel ts
      return (.other ⟨first.span.start, rest.span.stop⟩, ts)

/-- Operands with operators of at least some precedence between them. -/
def readBinary (d : Dialect) : Nat → Nat → Lexemes → Option (Expr × Lexemes)
  | 0, _, _ => none
  | fuel + 1, least, ts => do
    let (left, ts) ← readUnary d fuel ts
    readOperators d fuel least left ts

/-- The operators behind an operand, with their right operands. -/
def readOperators (d : Dialect) : Nat → Nat → Expr → Lexemes → Option (Expr × Lexemes)
  | 0, _, _, _ => none
  | fuel + 1, least, left, ts =>
    match operator? ts with
    | some (op, rest) =>
      match precedence? op with
      | some (p, toRight) =>
        if p < least then some (left, ts)
        else do
          let (right, rest) ← readBinary d fuel (if toRight then p else p + 1) rest
          readOperators d fuel least
            (.binary ⟨left.span.start, right.span.stop⟩ (.ofText op) left right) rest
      | none => some (left, ts)
    | none =>
      match d, skipComments ts with
      | .typeScript, ⟨.word w, _⟩ :: rest =>
        if (w = "as" || w = "satisfies") && least ≤ typePrecedence then do
          let (stop, rest) ← skipType? fuel rest
          readOperators d fuel least (.wrapped ⟨left.span.start, stop⟩ (some left)) rest
        else some (left, ts)
      | _, _ => some (left, ts)

/-- An operand with the marks and words in front of it. -/
def readUnary (d : Dialect) : Nat → Lexemes → Option (Expr × Lexemes)
  | 0, _ => none
  | fuel + 1, ts =>
    match skipComments ts with
    | ⟨.punct p, s⟩ :: rest =>
      if unaryMarks.contains p then do
        let (e, rest) ← readUnary d fuel rest
        return (.other ⟨s.start, e.span.stop⟩, rest)
      else readPostfix d fuel ts
    | ⟨.word w, s⟩ :: rest =>
      if unaryWords.contains w then do
        let (e, rest) ← readUnary d fuel rest
        return (.other ⟨s.start, e.span.stop⟩, rest)
      else if w = "yield" then
        let rest := ((skipPunct? "*" rest).map Prod.snd).getD rest
        if beginsExpr rest then do
          let (e, rest) ← readExpr d fuel rest
          return (.other ⟨s.start, e.span.stop⟩, rest)
        else some (.other s, rest)
      else readPostfix d fuel ts
    | _ => readPostfix d fuel ts

/-- An operand with what stands behind it, assignments included. -/
def readPostfix (d : Dialect) : Nat → Lexemes → Option (Expr × Lexemes)
  | 0, _ => none
  | fuel + 1, ts => do
    let (e, ts) ← readPrimary d fuel ts
    let (e, ts) ← readSuffixes d fuel e ts
    match operator? ts with
    | some (op, rest) =>
      if op = "++" || op = "--" then
        return (.other ⟨e.span.start, (skipComments ts).head?.elim 0 (·.span.stop)⟩, rest)
      else if assignments.contains op && e.isTarget op then
        let (value, rest) ← readExpr d fuel rest
        return (.other ⟨e.span.start, value.span.stop⟩, rest)
      else return (e, ts)
    | none => return (e, ts)

/-- The calls, members and indexes behind an operand. -/
def readSuffixes (d : Dialect) : Nat → Expr → Lexemes → Option (Expr × Lexemes)
  | 0, _, _ => none
  | fuel + 1, e, ts =>
    match skipComments ts with
    | ⟨.punct ".", _⟩ :: rest =>
      match skipComments rest with
      | ⟨.word _, s⟩ :: rest => readSuffixes d fuel (.other ⟨e.span.start, s.stop⟩) rest
      | _ => none
    | ⟨.punct "?.", _⟩ :: rest =>
      match skipComments rest with
      | ⟨.word _, s⟩ :: rest => readSuffixes d fuel (.other ⟨e.span.start, s.stop⟩) rest
      | ⟨.opening .paren, _⟩ :: rest => do
        let (arguments, stop, rest) ← readItems d fuel .paren rest
        readSuffixes d fuel (.call ⟨e.span.start, stop⟩ e arguments) rest
      | ⟨.opening .bracket, _⟩ :: rest => readIndex d fuel e rest
      | _ => none
    | ⟨.opening .paren, _⟩ :: rest => do
      let (arguments, stop, rest) ← readItems d fuel .paren rest
      readSuffixes d fuel (.call ⟨e.span.start, stop⟩ e arguments) rest
    | ⟨.opening .bracket, _⟩ :: rest => readIndex d fuel e rest
    | ⟨.opening .template, s⟩ :: rest => do
      let (_, stop, rest) ← readHoles d fuel rest
      readSuffixes d fuel (.other ⟨min e.span.start s.start, stop⟩) rest
    | ⟨.punct "!", s⟩ :: rest =>
      if d = .typeScript then
        readSuffixes d fuel (.wrapped ⟨e.span.start, s.stop⟩ (some e)) rest
      else some (e, ts)
    | ⟨.punct "<", _⟩ :: rest =>
      match (if d = .typeScript then skipTypeList? fuel rest else none) with
      | some (_, ⟨.opening .paren, s⟩ :: rest) => readSuffixes d fuel e (⟨.opening .paren, s⟩ :: rest)
      | some (_, ⟨.opening .template, s⟩ :: rest) =>
        readSuffixes d fuel e (⟨.opening .template, s⟩ :: rest)
      | _ => some (e, ts)
    | _ => some (e, ts)

/-- An index after its bracket, and what stands behind it. -/
def readIndex (d : Dialect) : Nat → Expr → Lexemes → Option (Expr × Lexemes)
  | 0, _, _ => none
  | fuel + 1, e, ts => do
    let (index, ts) ← readSequence d fuel ts
    match skipComments ts with
    | ⟨.closing .bracket, s⟩ :: ts =>
      readSuffixes d fuel (.subscript ⟨e.span.start, s.stop⟩ e index) ts
    | _ => none

/-- The items of an array or the arguments of a call, up to the closing delimiter, and
where it ends. Items may be left out between commas. -/
def readItems (d : Dialect) : Nat → Delimiter → Lexemes → Option (List Expr × Nat × Lexemes)
  | 0, _, _ => none
  | fuel + 1, delimiter, ts =>
    match skipComments ts with
    | ⟨.closing e, s⟩ :: rest => if e = delimiter then some ([], s.stop, rest) else none
    | ⟨.punct ",", _⟩ :: rest => readItems d fuel delimiter rest
    | ⟨.punct "...", s⟩ :: rest => do
      let (e, rest) ← readExpr d fuel rest
      readMoreItems d fuel delimiter (.other ⟨s.start, e.span.stop⟩) rest
    | _ => do
      let (e, rest) ← readExpr d fuel ts
      readMoreItems d fuel delimiter e rest

/-- The items behind a first one. -/
def readMoreItems (d : Dialect) :
    Nat → Delimiter → Expr → Lexemes → Option (List Expr × Nat × Lexemes)
  | 0, _, _, _ => none
  | fuel + 1, delimiter, first, ts =>
    match skipComments ts with
    | ⟨.punct ",", _⟩ :: rest => do
      let (items, stop, rest) ← readItems d fuel delimiter rest
      return (first :: items, stop, rest)
    | ⟨.closing e, s⟩ :: rest => if e = delimiter then some ([first], s.stop, rest) else none
    | _ => none

/-- The holes of a template up to its end, and where it ends. -/
def readHoles (d : Dialect) : Nat → Lexemes → Option (List (Span × Expr) × Nat × Lexemes)
  | 0, _ => none
  | fuel + 1, ts =>
    match ts with
    | ⟨.closing .template, s⟩ :: rest => some ([], s.stop, rest)
    | ⟨.opening .hole, s⟩ :: rest => do
      let (e, rest) ← readSequence d fuel rest
      match skipComments rest with
      | ⟨.closing .hole, s'⟩ :: rest =>
        let (holes, stop, rest) ← readHoles d fuel rest
        return ((⟨s.start, s'.stop⟩, e) :: holes, stop, rest)
      | _ => none
    | _ => none

/-- The function body or the expression behind an arrow; the function began at `start`. -/
def readArrowBody (d : Dialect) : Nat → Nat → Lexemes → Option (Expr × Lexemes)
  | 0, _, _ => none
  | fuel + 1, start, ts =>
    match skipGroup? .brace ts with
    | some (stop, ts) => some (.other ⟨start, stop⟩, ts)
    | none => do
      let (body, ts) ← readExpr d fuel ts
      return (.other ⟨start, body.span.stop⟩, ts)

/-- An operand that begins with a word. -/
def readWordOperand (d : Dialect) : Nat → String → Span → Lexemes → Option (Expr × Lexemes)
  | 0, _, _, _ => none
  | fuel + 1, w, s, ts =>
    if w = "function" then do
      let ts := ((skipPunct? "*" ts).map Prod.snd).getD ts
      let ts :=
        match skipComments ts with
        | ⟨.word _, _⟩ :: rest => rest
        | _ => ts
      let (stop, ts) ← skipFunction? d fuel ts
      return (.other ⟨s.start, stop⟩, ts)
    else if w = "class" then do
      let (stop, ts) ← skipClass? ts.length ts
      return (.other ⟨s.start, stop⟩, ts)
    else if w = "new" then readNew d fuel s.start ts
    else if w = "import" && !beginsImport ts then none
    else if w.startsWith "#" then none
    else
      match skipPunct? "=>" ts with
      | some (_, ts) => readArrowBody d fuel s.start ts
      | none =>
        if w = "async" then
          match skipComments ts with
          | ⟨.word "function", _⟩ :: rest => do
            let (e, rest) ← readWordOperand d fuel "function" s rest
            return (e, rest)
          | ⟨.word _, _⟩ :: rest =>
            match skipPunct? "=>" rest with
            | some (_, rest) => readArrowBody d fuel s.start rest
            | none => some (.other s, ts)
          | _ =>
            match skipArrow? d fuel (skipOptionalTypeParameters d ts) with
            | some rest => readArrowBody d fuel s.start rest
            | none => some (.other s, ts)
        else some (.other s, ts)

/-- What is behind the word `new` that stands at `start`. -/
def readNew (d : Dialect) : Nat → Nat → Lexemes → Option (Expr × Lexemes)
  | 0, _, _ => none
  | fuel + 1, start, ts =>
    match skipComments ts with
    | ⟨.punct ".", _⟩ :: rest =>
      match skipComments rest with
      | ⟨.word "target", s⟩ :: rest => some (.other ⟨start, s.stop⟩, rest)
      | _ => none
    | _ => do
      let (callee, ts) ← readPrimary d fuel ts
      readNewSuffixes d fuel start callee.span.stop ts

/-- The members behind the constructor of a `new` expression, and its arguments. -/
def readNewSuffixes (d : Dialect) : Nat → Nat → Nat → Lexemes → Option (Expr × Lexemes)
  | 0, _, _, _ => none
  | fuel + 1, start, stop, ts =>
    match skipComments ts with
    | ⟨.punct ".", _⟩ :: rest =>
      match skipComments rest with
      | ⟨.word _, s⟩ :: rest => readNewSuffixes d fuel start s.stop rest
      | _ => none
    | ⟨.opening .bracket, _⟩ :: rest => do
      let (stop, rest) ← closeAll? [.bracket] rest
      readNewSuffixes d fuel start stop rest
    | ⟨.punct "<", _⟩ :: rest =>
      match (if d = .typeScript then skipTypeList? fuel rest else none) with
      | some (stop, rest) => readNewSuffixes d fuel start stop rest
      | none => some (.other ⟨start, stop⟩, ts)
    | ⟨.opening .paren, _⟩ :: rest => do
      let (_, stop, rest) ← readItems d fuel .paren rest
      return (.other ⟨start, stop⟩, rest)
    | _ => some (.other ⟨start, stop⟩, ts)

/-- An operand on its own. -/
def readPrimary (d : Dialect) : Nat → Lexemes → Option (Expr × Lexemes)
  | 0, _ => none
  | fuel + 1, ts =>
    match skipComments ts with
    | ⟨.string escaped, s⟩ :: rest => some (.string s escaped, rest)
    | ⟨.atom, s⟩ :: rest => some (.other s, rest)
    | ⟨.word w, s⟩ :: rest => readWordOperand d fuel w s rest
    | ⟨.opening .paren, s⟩ :: rest =>
      match skipArrow? d fuel (⟨.opening .paren, s⟩ :: rest) with
      | some rest => readArrowBody d fuel s.start rest
      | none => do
        let (inner, rest) ← readSequence d fuel rest
        match skipComments rest with
        | ⟨.closing .paren, s'⟩ :: rest => return (.paren ⟨s.start, s'.stop⟩ inner, rest)
        | _ => none
    | ⟨.opening .bracket, s⟩ :: rest => do
      let (items, stop, rest) ← readItems d fuel .bracket rest
      return (.array ⟨s.start, stop⟩ items, rest)
    | ⟨.opening .brace, s⟩ :: rest => do
      let (members, stop, rest) ← readMembers d fuel rest
      return (.object ⟨s.start, stop⟩ members, rest)
    | ⟨.opening .template, s⟩ :: rest => do
      let (holes, stop, rest) ← readHoles d fuel rest
      return (.template ⟨s.start, stop⟩ holes, rest)
    | ⟨.opening .element, s⟩ :: rest => do
      let (stop, rest) ← closeAll? [.element] rest
      return (.other ⟨s.start, stop⟩, rest)
    | ⟨.punct "<", s⟩ :: rest =>
      if d = .typeScript then do
        let (_, rest) ← skipTypeParameters? rest.length 0 rest
        let rest ← skipArrow? d fuel rest
        readArrowBody d fuel s.start rest
      else none
    | _ => none

/-- The members of an object up to its brace, and where it ends. A comment between
members counts as one. -/
def readMembers (d : Dialect) : Nat → Lexemes → Option (List Member × Nat × Lexemes)
  | 0, _ => none
  | fuel + 1, ts =>
    match ts with
    | ⟨.comment, s⟩ :: rest => do
      let (members, stop, rest) ← readMembers d fuel rest
      return (.other s :: members, stop, rest)
    | ⟨.closing .brace, s⟩ :: rest => some ([], s.stop, rest)
    | ⟨.punct ",", _⟩ :: rest => readMembers d fuel rest
    | ⟨.punct "...", s⟩ :: rest => do
      let (e, rest) ← readExpr d fuel rest
      readMoreMembers d fuel (.other ⟨s.start, e.span.stop⟩) rest
    | _ => do
      let (member, rest) ← readMember d fuel ts
      readMoreMembers d fuel member rest

/-- The members behind a first one. -/
def readMoreMembers (d : Dialect) :
    Nat → Member → Lexemes → Option (List Member × Nat × Lexemes)
  | 0, _, _ => none
  | fuel + 1, first, ts =>
    match skipComments ts with
    | ⟨.punct ",", _⟩ :: _ | ⟨.closing .brace, _⟩ :: _ => do
      let (members, stop, rest) ← readMembers d fuel ts
      return (first :: members, stop, rest)
    | _ => none

/-- A member of an object that is no spread. -/
def readMember (d : Dialect) : Nat → Lexemes → Option (Member × Lexemes)
  | 0, _ => none
  | fuel + 1, ts =>
    match ts with
    | ⟨.punct "*", s⟩ :: rest => readMethod d fuel s.start rest
    | ⟨.word w, s⟩ :: rest =>
      match skipComments rest with
      | ⟨.word _, _⟩ :: _ | ⟨.string _, _⟩ :: _ | ⟨.atom, _⟩ :: _ | ⟨.opening .bracket, _⟩ :: _
      | ⟨.punct "*", _⟩ :: _ =>
        if methodWords.contains w then readMethod d fuel s.start rest else none
      | ⟨.punct ",", _⟩ :: _ | ⟨.closing .brace, _⟩ :: _ => some (.other s, rest)
      | _ => readKeyed d fuel (.name s) rest
    | _ => do
      let (key, rest) ← readKey d fuel ts
      readKeyed d fuel key rest

/-- The key of a member. -/
def readKey (d : Dialect) : Nat → Lexemes → Option (Key × Lexemes)
  | 0, _ => none
  | fuel + 1, ts =>
    match skipComments ts with
    | ⟨.word _, s⟩ :: rest => some (.name s, rest)
    | ⟨.string escaped, s⟩ :: rest => some (.string s escaped, rest)
    | ⟨.atom, s⟩ :: rest => some (.other s, rest)
    | ⟨.opening .bracket, s⟩ :: rest => do
      let (_, rest) ← readSequence d fuel rest
      match skipComments rest with
      | ⟨.closing .bracket, s'⟩ :: rest => return (.other ⟨s.start, s'.stop⟩, rest)
      | _ => none
    | _ => none

/-- The rest of a member after its key: a value, or the parameters and body of a method. -/
def readKeyed (d : Dialect) : Nat → Key → Lexemes → Option (Member × Lexemes)
  | 0, _, _ => none
  | fuel + 1, key, ts =>
    match skipPunct? ":" ts with
    | some (_, ts) => do
      let (value, ts) ← readExpr d fuel ts
      return (.pair ⟨key.span.start, value.span.stop⟩ key value, ts)
    | none => do
      let (stop, ts) ← skipFunction? d fuel ts
      return (.other ⟨key.span.start, stop⟩, ts)

/-- A method after the first of its modifiers. -/
def readMethod (d : Dialect) : Nat → Nat → Lexemes → Option (Member × Lexemes)
  | 0, _, _ => none
  | fuel + 1, start, ts =>
    match skipPunct? "*" ts with
    | some (_, ts) => readMethod d fuel start ts
    | none => do
      let (key, rest) ← readKey d fuel ts
      match skipFunction? d fuel rest with
      | some (stop, rest) => return (.other ⟨start, stop⟩, rest)
      | none =>
        match key with
        | .name _ => readMethod d fuel start rest
        | _ => none

end

/-- Fuel for reading some lexemes: each of them is behind at most a few calls. -/
def fuelFor (ts : Lexemes) : Nat := 24 * ts.length + 48

/-- What stands in a container, if anything does. -/
def readContents (d : Dialect) (ts : Lexemes) : Option (Option Expr × Lexemes) :=
  match skipComments ts with
  | ⟨.closing .container, s⟩ :: rest => some (none, ⟨.closing .container, s⟩ :: rest)
  | ⟨.punct "...", s⟩ :: rest =>
    (readExpr d (fuelFor rest) rest).map fun (e, rest) =>
      (some (.other ⟨s.start, e.span.stop⟩), rest)
  | ts => (readSequence d (fuelFor ts) ts).map fun (e, rest) => (some e, rest)

/-- The expression in a container, after its opening brace. -/
def readContainer (d : Dialect) (start : Nat) (ts : Lexemes) : Option Expr := do
  let (inner, rest) ← readContents d ts
  match skipComments rest with
  | ⟨.closing .container, s⟩ :: _ => return .wrapped ⟨start, s.stop⟩ inner
  | _ => none

/-- Whether some lexemes are further expression statements, each behind a semicolon. -/
def areStatements (d : Dialect) : Nat → Lexemes → Bool
  | 0, _ => false
  | fuel + 1, ts =>
    match skipComments ts with
    | [] => true
    | ⟨.punct ";", _⟩ :: rest =>
      match skipComments rest with
      | [] => true
      | ⟨.punct ";", _⟩ :: _ => areStatements d fuel rest
      | _ =>
        match readSequence d (fuelFor rest) rest with
        | some (_, rest) => areStatements d fuel rest
        | none => false
    | _ => false

/-- The first expression of a script that consists of expressions only. -/
def readProgram (d : Dialect) (ts : Lexemes) : Option Expr := do
  let (e, rest) ← readSequence d (fuelFor ts) ts
  if areStatements d (rest.length + 1) rest then return e else none

end ClassSort.Script
