import ClassSort.Script.Lexeme

/-!
# Expressions

The tree of a script expression, as far as class lists can be found in it. Parts that
hold none, such as functions and elements, are `other`; conditions, callees and indexes
are kept in the tree although nothing is ever taken from them, so that it can be said
where they are.
-/

namespace ClassSort.Script

/-- A binary operator, by what it does to the class lists of its operands. -/
inductive BinaryOp where
  /-- Joins two texts: `+`. -/
  | plus
  /-- Falls back to its right operand: `||` or `??`. -/
  | fallback
  /-- Takes its right operand on a condition: `&&`. -/
  | guarded
  /-- Any other. -/
  | other
deriving Repr, DecidableEq

/-- The key of a member of an object. -/
inductive Key where
  /-- A string with its quotes. -/
  | string (span : Span) (escaped : Bool)
  | name (span : Span)
  /-- A number or a computed key. -/
  | other (span : Span)
deriving Repr, DecidableEq

mutual

/-- An expression, with its range. -/
inductive Expr where
  | string (span : Span) (escaped : Bool)
  /-- A template with its holes, each with its range. -/
  | template (span : Span) (holes : List (Span × Expr))
  /-- An expression in parentheses. -/
  | paren (span : Span) (inner : Expr)
  /-- An expression in a container, or with a type or a mark behind it. A container may
  be empty. -/
  | wrapped (span : Span) (inner : Option Expr)
  | binary (span : Span) (op : BinaryOp) (left right : Expr)
  | ternary (span : Span) (condition consequence alternative : Expr)
  | call (span : Span) (callee : Expr) (arguments : List Expr)
  | array (span : Span) (items : List Expr)
  | object (span : Span) (members : List Member)
  | subscript (span : Span) (object index : Expr)
  | other (span : Span)

/-- A member of an object, with its range. -/
inductive Member where
  | pair (span : Span) (key : Key) (value : Expr)
  /-- A method, a spread, a short form or a comment. -/
  | other (span : Span)

end

/-- The range of a key. -/
def Key.span : Key → Span
  | .string s _ | .name s | .other s => s

/-- The range of an expression. -/
def Expr.span : Expr → Span
  | .string s _ | .template s _ | .paren s _ | .wrapped s _ | .binary s _ _ _
  | .ternary s _ _ _ | .call s _ _ | .array s _ | .object s _ | .subscript s _ _
  | .other s => s

/-- The range of a member. -/
def Member.span : Member → Span
  | .pair s _ _ | .other s => s

end ClassSort.Script
