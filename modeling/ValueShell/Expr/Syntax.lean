/-!
# Expressions

The syntax trees of expressions.
-/

set_option autoImplicit false

namespace ValueShell.Expr

/-- A constant. -/
inductive Literal where
  | none
  | bool (b : Bool)
  | int (n : Nat)
  | real (x : Float)
  | imaginary (x : Float)
  | text (s : String)
  | bytes (s : String)
  | ellipsis

/-- How a parameter of a function takes its arguments. -/
inductive ParamKind where
  | positional
  /-- Takes the remaining positional arguments; the bare mark has the empty name. -/
  | rest
  | keywordOnly
  /-- Takes the remaining named arguments. -/
  | namedRest
  /-- The mark after which parameters may also be named. -/
  | divider
  deriving DecidableEq

/-- How an argument is passed. -/
inductive ArgKind where
  | positional
  | spread
  | named (name : String)
  | namedSpread
  deriving DecidableEq

inductive UnaryOp where
  | plus | minus | invert | not
  deriving DecidableEq

inductive BinaryOp where
  | add | sub | mul | div | floorDiv | mod | power | matMul
  | bitOr | bitXor | bitAnd | shiftLeft | shiftRight
  deriving DecidableEq

inductive CompareOp where
  | eq | ne | lt | le | gt | ge | isIn | notIn | same | notSame
  deriving DecidableEq

/-- What a comprehension builds. -/
inductive Gathering where
  | list | set | generator
  deriving DecidableEq

end Expr

/-- An expression. -/
inductive Expr where
  | literal (l : Expr.Literal)
  | name (s : String)
  | list (items : List Expr)
  | tuple (items : List Expr)
  | set (items : List Expr)
  /-- Entries without a key spread another mapping. -/
  | dict (entries : List (Option Expr × Expr))
  /-- A comprehension; each clause has a target, an iterable and conditions. -/
  | comprehension (kind : Expr.Gathering) (element : Expr) (clauses : List (Expr × Expr × List Expr))
  | dictComprehension (key value : Expr) (clauses : List (Expr × Expr × List Expr))
  | lambda (params : List (String × Expr.ParamKind × Option Expr)) (body : Expr)
  | call (function : Expr) (args : List (Expr.ArgKind × Expr))
  | attribute (object : Expr) (name : String)
  | index (object subscript : Expr)
  | slice (start stop step : Option Expr)
  | unary (op : Expr.UnaryOp) (operand : Expr)
  | binary (op : Expr.BinaryOp) (left right : Expr)
  | compare (first : Expr) (rest : List (Expr.CompareOp × Expr))
  | both (left right : Expr)
  | either (left right : Expr)
  | choice (condition yes no : Expr)
  | starred (operand : Expr)
  | assign (name : String) (value : Expr)

instance : Inhabited Expr := ⟨.literal .none⟩

end ValueShell
