import ValueShell.Text.Blank

/-!
# Lines

Line ends. A text file may end its lines in a carriage return, a line feed or both; reading one
normalizes them to line feeds. A line keeps the line feed that ends it until it is trimmed.
-/

set_option autoImplicit false

namespace ValueShell.Text

/-- Turns a carriage return, with the line feed after it if there is one, into one line feed. -/
def normalizeNewlines : List Char → List Char
  | [] => []
  | '\r' :: '\n' :: rest => '\n' :: normalizeNewlines rest
  | '\r' :: rest => '\n' :: normalizeNewlines rest
  | c :: rest => c :: normalizeNewlines rest

/-- The lines of a text, each with its line feed, when the line being read holds `line` (last
character first). -/
def linesFrom (line : List Char) : List Char → List (List Char)
  | [] => if line.isEmpty then [] else [line.reverse]
  | c :: rest => if c == '\n' then ('\n' :: line).reverse :: linesFrom [] rest else linesFrom (c :: line) rest

/-- The lines of a text, each with the line feed that ends it. -/
def lines (cs : List Char) : List (List Char) := linesFrom [] cs

/-- A carriage return or a line feed. -/
def isLineEnd (c : Char) : Bool := c == '\r' || c == '\n'

/-- A line without the line ends at its end. -/
def trimLine (cs : List Char) : List Char := trimEnd isLineEnd cs

/-- A string without the line ends at its end. -/
def trimLineEnd (s : String) : String := String.ofList (trimLine s.toList)

/-- The lines of a string, each with the line feed that ends it. -/
def linesOf (s : String) : List String := (lines s.toList).map String.ofList

/-- The lines of a string without their line ends. -/
def bareLines (s : String) : List String := (linesOf s).map trimLineEnd

end ValueShell.Text
