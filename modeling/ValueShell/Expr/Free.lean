import ValueShell.Expr.Syntax

/-!
# Free names

The free names of an expression are those whose values come from around it: neither the parameters of a
function in its body, nor what the targets of a comprehension bind behind them.
-/

set_option autoImplicit false

namespace ValueShell.Expr

mutual

/-- The names that a target of a comprehension binds. -/
def boundNames : Expr → List String
  | .name s => [s]
  | .tuple targets => boundNamesOf targets
  | .list targets => boundNamesOf targets
  | .starred target => boundNames target
  | _ => []

/-- The names that targets bind. -/
def boundNamesOf : List Expr → List String
  | [] => []
  | target :: rest => boundNames target ++ boundNamesOf rest

end

/-- Leaves names out. -/
def without (bound names : List String) : List String := names.filter fun s => !bound.contains s

mutual

/-- The names whose values an expression takes from around it. -/
def freeNames : Expr → List String
  | .literal _ => []
  | .name s => [s]
  | .list items => freeNamesOf items
  | .tuple items => freeNamesOf items
  | .set items => freeNamesOf items
  | .dict entries => freeInEntries entries
  | .comprehension _ element clauses => freeInClauses (freeNames element) clauses
  | .dictComprehension key value clauses => freeInClauses (freeNames key ++ freeNames value) clauses
  | .lambda params body => freeInDefaults params ++ without (params.map (·.1)) (freeNames body)
  | .call function args => freeNames function ++ freeInArgs args
  | .attribute object _ => freeNames object
  | .index object subscript => freeNames object ++ freeNames subscript
  | .slice start stop step => freeInOption start ++ freeInOption stop ++ freeInOption step
  | .unary _ operand => freeNames operand
  | .binary _ left right => freeNames left ++ freeNames right
  | .compare first rest => freeNames first ++ freeInComparisons rest
  | .both left right => freeNames left ++ freeNames right
  | .either left right => freeNames left ++ freeNames right
  | .choice condition yes no => freeNames condition ++ freeNames yes ++ freeNames no
  | .starred operand => freeNames operand
  | .assign _ value => freeNames value

def freeNamesOf : List Expr → List String
  | [] => []
  | e :: rest => freeNames e ++ freeNamesOf rest

def freeInOption : Option Expr → List String
  | none => []
  | some e => freeNames e

def freeInEntries : List (Option Expr × Expr) → List String
  | [] => []
  | (key, value) :: rest => freeInOption key ++ freeNames value ++ freeInEntries rest

def freeInDefaults : List (String × ParamKind × Option Expr) → List String
  | [] => []
  | (_, _, default) :: rest => freeInOption default ++ freeInDefaults rest

def freeInArgs : List (ArgKind × Expr) → List String
  | [] => []
  | (_, e) :: rest => freeNames e ++ freeInArgs rest

def freeInComparisons : List (CompareOp × Expr) → List String
  | [] => []
  | (_, e) :: rest => freeNames e ++ freeInComparisons rest

def freeInClauses (inner : List String) : List (Expr × Expr × List Expr) → List String
  | [] => inner
  | (target, iterable, conditions) :: rest =>
    freeNames iterable ++ without (boundNames target) (freeNamesOf conditions ++ freeInClauses inner rest)

end

end ValueShell.Expr
