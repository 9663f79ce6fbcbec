import ClassSort.Script.Lexeme

/-!
# Passing over types and nested constructs

Types and function bodies hold no class lists, so reading one means only finding where
it ends.
-/

namespace ClassSort.Script

/-- The lexemes without the comments they begin with. -/
def skipComments (ts : Lexemes) : Lexemes := ts.dropWhile (·.kind == .comment)

/-- What follows the end of some open constructs, innermost first, and where they end.
Every construct must end with its own delimiter. -/
def closeAll? : List Delimiter → Lexemes → Option (Nat × Lexemes)
  | [], _ => none
  | _, [] => none
  | d :: ds, t :: ts =>
    match t.kind with
    | .opening e => closeAll? (e :: d :: ds) ts
    | .closing e =>
      if e ≠ d then none
      else if ds.isEmpty then some (t.span.stop, ts)
      else closeAll? ds ts
    | .malformed => none
    | _ => closeAll? (d :: ds) ts

/-- What follows a construct of a given delimiter, and where it ends. -/
def skipGroup? (d : Delimiter) (ts : Lexemes) : Option (Nat × Lexemes) :=
  match skipComments ts with
  | ⟨.opening e, _⟩ :: ts => if e = d then closeAll? [d] ts else none
  | _ => none

/-- What follows one mark, and where it ends. -/
def skipPunct? (text : String) (ts : Lexemes) : Option (Nat × Lexemes) :=
  match skipComments ts with
  | ⟨.punct p, s⟩ :: ts => if p = text then some (s.stop, ts) else none
  | _ => none

/-- What follows a list of type parameters after its `<`, and where it ends. -/
def skipTypeParameters? : Nat → Nat → Lexemes → Option (Nat × Lexemes)
  | 0, _, _ => none
  | _, _, [] => none
  | fuel + 1, depth, t :: ts =>
    match t.kind with
    | .punct "<" => skipTypeParameters? fuel (depth + 1) ts
    | .punct ">" =>
      if depth = 0 then some (t.span.stop, ts) else skipTypeParameters? fuel (depth - 1) ts
    | .opening d => do
      let (_, ts) ← closeAll? [d] ts
      skipTypeParameters? fuel depth ts
    | .closing _ | .malformed | .punct ";" => none
    | _ => skipTypeParameters? fuel depth ts

/-- Words that stand in front of a type. -/
def typeModifiers : List String :=
  ["keyof", "typeof", "readonly", "unique", "infer", "asserts", "abstract"]

/-- Whether a type can begin here. -/
def beginsType (ts : Lexemes) : Bool :=
  match skipComments ts with
  | ⟨.word w, _⟩ :: _ => w != "extends" && w != "is"
  | ⟨.string _, _⟩ :: _ | ⟨.atom, _⟩ :: _ | ⟨.opening _, _⟩ :: _ => true
  | _ => false

mutual

/-- What follows a type, and where it ends. -/
def skipType? : Nat → Lexemes → Option (Nat × Lexemes)
  | 0, _ => none
  | fuel + 1, ts => do
    let ts :=
      match skipPunct? "|" ts, skipPunct? "&" ts with
      | some (_, ts), _ | _, some (_, ts) => ts
      | _, _ => ts
    let (stop, rest) ← skipTypeOperand? fuel ts
    match skipComments rest with
    | ⟨.punct "|", _⟩ :: ts | ⟨.punct "&", _⟩ :: ts | ⟨.word "is", _⟩ :: ts => skipType? fuel ts
    | ⟨.word "extends", _⟩ :: ts =>
      let (_, ts) ← skipType? fuel ts
      let (_, ts) ← skipPunct? "?" ts
      let (_, ts) ← skipType? fuel ts
      let (_, ts) ← skipPunct? ":" ts
      skipType? fuel ts
    | _ => some (stop, rest)

/-- What follows a type without operators, and where it ends. -/
def skipTypeOperand? : Nat → Lexemes → Option (Nat × Lexemes)
  | 0, _ => none
  | fuel + 1, ts => do
    match skipComments ts with
    | ⟨.word w, s⟩ :: ts =>
      if typeModifiers.contains w && beginsType ts then skipTypeOperand? fuel ts
      else if w = "new" then skipFunctionType? fuel ts
      else skipTypeName? fuel s.stop ts
    | ⟨.string _, s⟩ :: ts | ⟨.atom, s⟩ :: ts => skipTypeSuffix? fuel s.stop ts
    | ⟨.punct "-", _⟩ :: ts => skipTypeOperand? fuel ts
    | ⟨.punct "<", _⟩ :: ts =>
      let (_, ts) ← skipTypeParameters? ts.length 0 ts
      skipFunctionType? fuel ts
    | ⟨.opening .paren, s⟩ :: ts =>
      let (stop, rest) ← closeAll? [.paren] ts
      match skipPunct? "=>" rest with
      | some _ => skipFunctionType? fuel (⟨.opening .paren, s⟩ :: ts)
      | none => skipTypeSuffix? fuel stop rest
    | ⟨.opening d, _⟩ :: ts =>
      if d = .bracket || d = .brace || d = .template then
        let (stop, ts) ← closeAll? [d] ts
        skipTypeSuffix? fuel stop ts
      else none
    | _ => none

/-- What follows the parameters and the result of a function type. -/
def skipFunctionType? : Nat → Lexemes → Option (Nat × Lexemes)
  | 0, _ => none
  | fuel + 1, ts => do
    let (_, ts) ← skipGroup? .paren ts
    let (_, ts) ← skipPunct? "=>" ts
    skipType? fuel ts

/-- What follows the name of a type that has been read up to `stop`: more names behind
points, and type arguments. -/
def skipTypeName? : Nat → Nat → Lexemes → Option (Nat × Lexemes)
  | 0, _, _ => none
  | fuel + 1, stop, ts => do
    match skipComments ts with
    | ⟨.punct ".", _⟩ :: ⟨.word _, s⟩ :: ts => skipTypeName? fuel s.stop ts
    | ⟨.punct "<", _⟩ :: rest =>
      match skipTypeList? fuel rest with
      | some (stop, rest) => skipTypeSuffix? fuel stop rest
      | none => some (stop, ts)
    | _ => skipTypeSuffix? fuel stop ts

/-- What follows a type that has been read up to `stop`: brackets behind it. -/
def skipTypeSuffix? : Nat → Nat → Lexemes → Option (Nat × Lexemes)
  | 0, _, _ => none
  | fuel + 1, stop, ts => do
    match skipComments ts with
    | ⟨.opening .bracket, _⟩ :: ts =>
      let (stop, ts) ← closeAll? [.bracket] ts
      skipTypeSuffix? fuel stop ts
    | _ => some (stop, ts)

/-- What follows a list of types after its `<`, and where it ends. -/
def skipTypeList? : Nat → Lexemes → Option (Nat × Lexemes)
  | 0, _ => none
  | fuel + 1, ts => do
    let (_, ts) ← skipType? fuel ts
    match skipComments ts with
    | ⟨.punct ",", _⟩ :: ts => skipTypeList? fuel ts
    | ⟨.punct ">", s⟩ :: ts => some (s.stop, ts)
    | _ => none

end

end ClassSort.Script
