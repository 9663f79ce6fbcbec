import ClassSort.Toml.Scalar
import ClassSort.Toml.Table

/-!
# Reading TOML

A document is read line by line. Headers choose the table that the keys after them
belong to. The result is a document like any other, so that configurations in either
notation mean the same.
-/

namespace ClassSort.Toml

/-- What follows a comment, up to its line end; `none` if it holds a control character. -/
def skipComment? (cs : Text) : Option Text :=
  match cs with
  | '#' :: cs =>
    let body := cs.takeWhile fun c => c != '\n' && c != '\r'
    if body.all isPlain then some (cs.drop body.length) else none
  | cs => some cs

/-- What follows blanks, line ends and comments. -/
def skipLines? : Nat → Text → Option Text
  | 0, cs => some cs
  | fuel + 1, cs => do
    let cs ← skipComment? (skipBlanks cs)
    match newline? cs with
    | some cs => skipLines? fuel cs
    | none => return cs

/-- How deep arrays and tables in braces may be nested. -/
def maxDepth : Nat := 80

mutual

/-- A value at some depth of arrays and tables. -/
def value? : Nat → Nat → Text → Option (Json × Text)
  | 0, _, _ => none
  | fuel + 1, depth, cs =>
    match cs with
    | '"' :: _ | '\'' :: _ => (string? cs).map fun (s, rest) => (.string (String.ofList s), rest)
    | '[' :: cs => if maxDepth ≤ depth then none else items? fuel (depth + 1) cs []
    | '{' :: cs => if maxDepth ≤ depth then none else fields? fuel (depth + 1) cs []
    | cs =>
      let (word, rest) := takeWord cs
      (word? word).map (·, rest)

/-- The items of an array after its bracket or a comma, behind those that were read
already, last one first. -/
def items? : Nat → Nat → Text → List Json → Option (Json × Text)
  | 0, _, _, _ => none
  | fuel + 1, depth, cs, read => do
    let cs ← skipLines? cs.length cs
    match cs with
    | ']' :: rest => return (.array read.reverse, rest)
    | cs =>
      let (item, rest) ← value? fuel depth cs
      let rest ← skipLines? rest.length rest
      match rest with
      | ',' :: rest => items? fuel depth rest (item :: read)
      | ']' :: rest => return (.array (item :: read).reverse, rest)
      | _ => none

/-- The entries of a table in braces after its brace or a comma, added to those that
were read already. -/
def fields? : Nat → Nat → Text → Entries → Option (Json × Text)
  | 0, _, _, _ => none
  | fuel + 1, depth, cs, read => do
    let cs ← skipLines? cs.length cs
    match cs with
    | '}' :: rest => return (.object (Node.entriesJson read), rest)
    | cs =>
      let (key, rest) ← key? cs.length cs
      let '=' :: rest := rest | none
      let (value, rest) ← value? fuel depth (skipBlanks rest)
      let read ← Node.assign value key read
      let rest ← skipLines? rest.length rest
      match rest with
      | ',' :: rest => fields? fuel depth rest read
      | '}' :: rest => return (.object (Node.entriesJson read), rest)
      | _ => none

end

/-- What follows the end of a statement: blanks, a comment, and a line end or the end of
the document. -/
def endStatement? (cs : Text) : Option Text := do
  let cs ← skipComment? (skipBlanks cs)
  if cs.isEmpty then return [] else newline? cs

/-- One statement: the path of the table that the next keys belong to, the document so
far, and what follows. -/
def statement? (path : List String) (es : Entries) (cs : Text) :
    Option (List String × Entries × Text) :=
  match cs with
  | '[' :: '[' :: cs => do
    let (key, rest) ← key? cs.length cs
    let last ← key.getLast?
    let ']' :: ']' :: rest := rest | none
    let es ← Node.alter (Node.append last) key.dropLast es
    return (key, es, ← endStatement? rest)
  | '[' :: cs => do
    let (key, rest) ← key? cs.length cs
    let last ← key.getLast?
    let ']' :: rest := rest | none
    let es ← Node.alter (Node.head last) key.dropLast es
    return (key, es, ← endStatement? rest)
  | cs => do
    let (key, rest) ← key? cs.length cs
    let '=' :: rest := rest | none
    let rest := skipBlanks rest
    let (value, rest) ← value? (2 * rest.length + 2) 0 rest
    let es ← Node.alter (Node.assign value key) path es
    return (path, es, ← endStatement? rest)

/-- All statements of a document. -/
def statements? : Nat → List String → Entries → Text → Option Entries
  | 0, _, _, _ => none
  | fuel + 1, path, es, cs => do
    let cs ← skipLines? cs.length cs
    if cs.isEmpty then return es
    else
      let (path, es, cs) ← statement? path es cs
      statements? fuel path es cs

/-- The document that a text spells. A mark of the byte order may stand in front. -/
def read? (cs : Text) : Option Json := do
  let cs := (Text.after? ['\ufeff'] cs).getD cs
  let es ← statements? (cs.length + 1) [] [] cs
  return .object (Node.entriesJson es)

end ClassSort.Toml
