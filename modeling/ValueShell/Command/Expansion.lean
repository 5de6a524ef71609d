import ValueShell.Command.Token
import ValueShell.Expr.Eval

/-!
# Double-quoted words

A double-quoted word holds variables and expressions. Expanding it cuts its text up into
substitutions and the pieces between them, which are quoted so that they stand for themselves.
-/

set_option autoImplicit false

namespace ValueShell.Token

open Text

/-- The token at the head of a text that is not empty, and what is left. A dollar sign that begins no
substitution is a literal. -/
def expandStep (cs : List Char) : Except Fault (Token × List Char) :=
  if cs.head? == some '$' then
    match cutVariable cs with
    | some (piece, left) => .ok (ofPiece .substitution piece, left)
    | none => do
      match ← cutExpression cs with
      | some (piece, left) => .ok (ofPiece .substitution piece, left)
      | none => .ok (⟨.literal, "$"⟩, cs.drop 1)
  else
    let isPlain (c : Char) : Bool := c != '$'
    .ok (⟨.singleQuoted, String.ofList (quoteChars (cs.takeWhile isPlain))⟩, cs.dropWhile isPlain)

/-- Expands a text. Every step takes at least one character. -/
def expandFrom : Nat → List Char → Reading
  | 0, _ => { tokens := [] }
  | n + 1, cs =>
    if cs.isEmpty then { tokens := [] }
    else
      match expandStep cs with
      | .error fault => { tokens := [], fault }
      | .ok (t, left) => (expandFrom n left).cons t

/-- The tokens that the text of a double-quoted word stands for. -/
def expandText (text : String) : Reading := expandFrom text.length text.toList

/-- The text that a quoted word stands for. -/
def unquote (word : String) : Except Fault String := do
  match ← Expr.evalText {} word with
  | .text s => .ok s
  | _ => .error .wrongKind

/-- The tokens that a double-quoted word stands for. -/
def expandQuoted (word : String) : Except Fault (List Token) := do
  let text ← unquote word
  let r := expandText text
  match r.fault with
  | some fault => .error fault
  | none => .ok r.tokens

end ValueShell.Token
