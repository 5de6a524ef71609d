import ValueShell.Command.Expansion
import ValueShell.Files.Glob

/-!
# The values of words

A word is a sequence of tokens that stand next to each other. A single token gives its value; several
are put together as text. A word with an unquoted `*` or `?` stands for the paths that match it.
-/

set_option autoImplicit false

namespace ValueShell

/-- What words are evaluated in: the names, the home directory and the files. -/
structure WordScope where
  names : Bindings := []
  home : Option String := none
  files : Files.Tree := {}

namespace WordScope

/-- The value of a substitution: of the variable, or of the expression between the braces. -/
def substitution (s : WordScope) (text : String) : Except Fault Value :=
  let cs := text.toList
  let body := if ['$', Char.ofNat 0x7B].isPrefixOf cs then (cs.drop 2).dropLast else cs.drop 1
  Expr.evalText { globals := s.names } (String.ofList body)

/-- The value of a token. -/
def tokenValue (s : WordScope) (t : Token) : Except Fault Value :=
  match t.kind with
  | .literal => .ok (.text t.text)
  | .singleQuoted => Expr.evalText {} t.text
  | .substitution => s.substitution t.text
  | kind => .error (.complaint (.unexpectedPiece kind.name))

/-- The part of a pattern that a token gives. Only a literal keeps its stars and question marks. -/
def tokenPattern (s : WordScope) (t : Token) : Except Fault String := do
  let v ← s.tokenValue t
  match t.kind, v with
  | .literal, v => .ok v.display
  | _, .text text => .ok (Files.escapePattern text)
  | _, _ => .error .noAttribute

/-- The word has an unquoted star or question mark. -/
def hasPattern (word : List Token) : Bool :=
  word.any fun t => t.kind = .literal && t.text.toList.any fun c => c = '*' || c = '?'

/-- The values of a word. -/
def evalWord (s : WordScope) (word : List Token) : Except Fault (List Value) :=
  if word.isEmpty then .ok []
  else if hasPattern word then do
    let parts ← word.mapM s.tokenPattern
    let pattern := Files.expandHome s.home (String.join parts)
    .ok ((Files.glob s.files pattern).map .text)
  else do
    let values ← word.mapM s.tokenValue
    let value := match values with
      | [v] => v
      | vs => .text (String.join (vs.map Value.display))
    match value with
    | .text text => .ok [.text (Files.expandHome s.home text)]
    | v => .ok [v]

end WordScope

end ValueShell
