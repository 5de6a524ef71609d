import ValueShell.Script.Line

/-!
# The indentation to expect

After each line of a script the indentation of the next one is predicted from the indentations of
the lines around it. They are kept in a stack, whose widths grow from the bottom to the top.
-/

set_option autoImplicit false

namespace ValueShell.Script

/-- The width of an indentation: a space counts one, any other blank eight. -/
def indentWidth (indent : List Char) : Nat :=
  (indent.map fun c => if c = ' ' then 1 else 8).foldl (· + ·) 0

/-- An indentation that is kept, with its width. -/
structure Indent where
  text : List Char
  width : Nat
  deriving DecidableEq, Repr

/-- The indentations of the lines around, innermost first. -/
abbrev IndentStack := List Indent

/-- Puts an indentation on the stack, in the place of those that are not narrower. -/
def IndentStack.push (s : IndentStack) (indent : List Char) : IndentStack :=
  let width := indentWidth indent
  { text := indent, width } :: List.dropWhile (fun i => i.width ≥ width) s

/-- The stack after a line. An empty line leaves the innermost block, a line of the host language
that ends in a colon opens one, and one that begins like a statement that ends a block leaves it. -/
def IndentStack.after (s : IndentStack) (line : Line) : IndentStack :=
  if line.content.isEmpty then List.tail s
  else
    let s := s.push line.indent
    if line.mode = .host then
      if line.content.getLast? == some ':' then s.push (line.indent ++ List.replicate 4 ' ')
      else if "pass".toList.isPrefixOf line.content || "return".toList.isPrefixOf line.content then
        List.tail s
      else s
    else s

/-- The indentation that the stack predicts. -/
def IndentStack.prediction (s : IndentStack) : List Char := ((List.head? s).map Indent.text).getD []

/-- The predictions after each of the lines. -/
def predictions (s : IndentStack) : List Line → List (List Char)
  | [] => []
  | line :: rest =>
    let s := s.after line
    s.prediction :: predictions s rest

end ValueShell.Script
