import ValueShell.Command.Token
import ValueShell.Text.Quoted

/-!
# Command trees

A command line is a tree of processes, joined by operators. A process has words, each a sequence of
pieces that stand next to each other, and redirections.
-/

set_option autoImplicit false

namespace ValueShell

open Text

/-- What joins two commands. -/
inductive Operator where
  | sequence
  | andThen
  | orElse
  | pipe
  deriving DecidableEq, Repr, Inhabited

/-- The sign of an operator. -/
def Operator.sign : Operator → String
  | .sequence => ";"
  | .andThen => "&&"
  | .orElse => "||"
  | .pipe => "|"

/-- The operator with a sign. -/
def Operator.ofSign? : String → Option Operator
  | ";" => some .sequence
  | "&&" => some .andThen
  | "||" => some .orElse
  | "|" => some .pipe
  | _ => none

mutual

/-- A command. -/
inductive Tree where
  | process (words : List (List Piece)) (redirects : List Redirect)
  | binary (op : Operator) (left right : Tree)
  | assign (command : Tree) (name : String)

/-- A part of a word. -/
inductive Piece where
  | token (t : Token)
  /-- A command whose output is put in. -/
  | backquote (command : Tree)

/-- A redirection of output. -/
inductive Redirect where
  | descriptor (append : Bool) (source target : Nat)
  | file (append : Bool) (source : Nat) (target : List Piece)
  | capture (name : String)

end

instance : Inhabited Tree := ⟨.process [] []⟩
instance : Inhabited Piece := ⟨.token default⟩
instance : Inhabited Redirect := ⟨.capture ""⟩

/-- A text between brackets, its parts divided by commas. -/
def bracketed (parts : List String) : String := "[" ++ ", ".intercalate parts ++ "]"

/-- The texts of all parts, if all have one. -/
def allTexts : List (Option String) → Option (List String)
  | [] => some []
  | none :: _ => none
  | some s :: rest => (allTexts rest).map (s :: ·)

mutual

/-- The text of a process; nothing for any other tree, or if a word holds one. -/
def Tree.text? : Tree → Option String
  | .process words redirects =>
    match Tree.wordTexts words, Tree.redirectTexts redirects with
    | some words, some redirects =>
      some ("<Process(args=" ++ bracketed words ++ ", redirects=" ++ bracketed redirects ++ ")>")
    | _, _ => none
  | _ => none

/-- The texts of words. -/
def Tree.wordTexts : List (List Piece) → Option (List String)
  | [] => some []
  | word :: rest =>
    match Tree.pieceTexts word, Tree.wordTexts rest with
    | some pieces, some others => some (bracketed pieces :: others)
    | _, _ => none

/-- The texts of the pieces of a word. -/
def Tree.pieceTexts : List Piece → Option (List String)
  | [] => some []
  | piece :: rest =>
    match Piece.text? piece, Tree.pieceTexts rest with
    | some s, some others => some (s :: others)
    | _, _ => none

/-- The text of a piece of a word. -/
def Piece.text? : Piece → Option String
  | .token t => some ("(" ++ quote t.kind.name ++ ", " ++ quote t.text ++ ")")
  | .backquote command =>
    match Tree.text? command with
    | some s => some ("(" ++ quote TokenKind.backquote.name ++ ", " ++ s ++ ")")
    | none => none

/-- The texts of redirections. -/
def Tree.redirectTexts : List Redirect → Option (List String)
  | [] => some []
  | redirect :: rest =>
    match Redirect.text? redirect, Tree.redirectTexts rest with
    | some s, some others => some (s :: others)
    | _, _ => none

/-- The text of a redirection. -/
def Redirect.text? : Redirect → Option String
  | .descriptor append source target =>
    some ("(" ++ truth append ++ ", " ++ toString source ++ ", " ++ toString target ++ ")")
  | .file append source target =>
    match Tree.pieceTexts target with
    | some pieces =>
      some ("(" ++ truth append ++ ", " ++ toString source ++ ", " ++ bracketed pieces ++ ")")
    | none => none
  | .capture name => some ("('=>', " ++ quote name ++ ")")
where
  /-- The text of a truth value. -/
  truth (b : Bool) : String := if b then "True" else "False"

end

/-- The names that captures give. -/
def Redirect.captured : List Redirect → List String
  | [] => []
  | .capture name :: rest => name :: Redirect.captured rest
  | _ :: rest => Redirect.captured rest

/-- The names under which a command hands back results, in the order in which they are written.
Commands inside of words are not searched. -/
def Tree.resultNames : Tree → List String
  | .process _ redirects => Redirect.captured redirects
  | .binary _ left right => left.resultNames ++ right.resultNames
  | .assign command name => command.resultNames ++ [name]

end ValueShell
