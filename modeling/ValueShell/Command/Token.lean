import ValueShell.Expr.Parser
import ValueShell.Fragment
import ValueShell.Text.Digit

/-!
# Tokens of a command line

`Token.next?` cuts one token off the head of a text, and `Token.raw` cuts a text up into tokens until
nothing is left or no token begins. The classes of tokens are tried in a fixed order, and the first
that fits takes as much as it can.
-/

set_option autoImplicit false

namespace ValueShell

open Text

/-- What a token is. -/
inductive TokenKind where
  | space
  | singleQuoted
  | doubleQuoted
  /-- A variable or an expression whose value is put in. -/
  | substitution
  | redirect
  | pipe
  /-- The arrow that stores a status. -/
  | arrow
  /-- The arrow that captures output. -/
  | capture
  | literal
  | andThen
  | orElse
  | openParen
  | closeParen
  | semicolon
  | backquote
  | ending
  deriving DecidableEq, Repr, Inhabited

/-- The name of a kind of token. -/
def TokenKind.name : TokenKind → String
  | .space => "space"
  | .singleQuoted => "single_quoted"
  | .doubleQuoted => "double_quoted"
  | .substitution => "substitution"
  | .redirect => "redirect"
  | .pipe => "pipe"
  | .arrow => "right_arrow"
  | .capture => "bright_arrow"
  | .literal => "literal"
  | .andThen => "andop"
  | .orElse => "orop"
  | .openParen => "parenthesis_start"
  | .closeParen => "parenthesis_end"
  | .semicolon => "semicolon"
  | .backquote => "bquote"
  | .ending => "eof"

/-- All kinds of tokens. -/
def TokenKind.all : List TokenKind :=
  [.space, .singleQuoted, .doubleQuoted, .substitution, .redirect, .pipe, .arrow, .capture, .literal,
    .andThen, .orElse, .openParen, .closeParen, .semicolon, .backquote, .ending]

/-- The kind of token with a name. -/
def TokenKind.ofName? (name : String) : Option TokenKind :=
  TokenKind.all.find? fun kind => kind.name == name

/-- Space next to a token of this kind separates words. -/
def TokenKind.isSpaceSensitive : TokenKind → Bool
  | .singleQuoted => true
  | .doubleQuoted => true
  | .substitution => true
  | .literal => true
  | .backquote => true
  | _ => false

/-- The token is part of a word, without being a command of its own. -/
def TokenKind.isWordPart : TokenKind → Bool
  | .singleQuoted => true
  | .doubleQuoted => true
  | .substitution => true
  | .literal => true
  | _ => false

/-- A token with its text. -/
structure Token where
  kind : TokenKind
  text : String
  deriving DecidableEq, Repr, Inhabited

namespace Token

/-- The token at the end of every text. -/
def eof : Token := ⟨.ending, ""⟩

/-- A piece cut off the head of a text, and what is left. -/
abbrev Cut := List Char × List Char

/-- Cuts off the longest piece of a class, which must not be empty. -/
def cutWhile (p : Char → Bool) (cs : List Char) : Option Cut :=
  match cs.takeWhile p with
  | [] => none
  | piece => some (piece, cs.dropWhile p)

/-- Cuts off a fixed piece. -/
def cutText (piece cs : List Char) : Option Cut :=
  if piece.isPrefixOf cs then some (piece, cs.drop piece.length) else none

/-- The parts of a redirection: the digits before the sign, whether it is doubled, and the digits
after an ampersand. -/
structure RedirectSign where
  source : List Char
  append : Bool
  target : Option (List Char)

/-- The text of a redirection's sign. -/
def RedirectSign.text (r : RedirectSign) : List Char :=
  r.source ++ '>' :: ((if r.append then ['>'] else []) ++ ((r.target.map fun ds => '&' :: ds).getD []))

/-- A redirection's sign at the head of a text, and what is left. -/
def cutRedirect (cs : List Char) : Option (RedirectSign × List Char) :=
  let source := cs.takeWhile isDecimalDigit
  match cs.dropWhile isDecimalDigit with
  | '>' :: rest =>
    let (append, rest) := match rest with
      | '>' :: rest => (true, rest)
      | _ => (false, rest)
    match rest with
    | '&' :: after =>
      match cutWhile isDecimalDigit after with
      | some (digits, after) => some (⟨source, append, some digits⟩, after)
      | none => some (⟨source, append, none⟩, rest)
    | _ => some (⟨source, append, none⟩, rest)
  | _ => none

/-- A space or a tab. -/
def isGap (c : Char) : Bool := c = ' ' || c = '\t'

/-- A variable: a dollar sign and a name. -/
def cutVariable : List Char → Option Cut
  | '$' :: c :: rest =>
    if isAsciiNameStart c then
      some ('$' :: c :: rest.takeWhile isAsciiNameChar, rest.dropWhile isAsciiNameChar)
    else none
  | _ => none

/-- The characters of unquoted words, beside the minus and equals signs. -/
def isPlainChar (c : Char) : Bool :=
  c.isAlphanum || ['!', '#', '%', '*', '+', ',', '.', '/', ':', '?', '@', '[', '\\', ']', '^', '_',
    Char.ofNat 0x7B, Char.ofNat 0x7D, '~'].contains c

/-- The longest unquoted word at the head of a text. A minus or equals sign belongs to it unless it
begins an arrow. -/
def plainWord : List Char → Cut
  | [] => ([], [])
  | c :: rest =>
    if isPlainChar c || ((c = '-' || c = '=') && rest.head? != some '>') then
      let (word, left) := plainWord rest
      (c :: word, left)
    else ([], c :: rest)

/-- An unquoted word. -/
def cutLiteral (cs : List Char) : Option Cut :=
  match plainWord cs with
  | ([], _) => none
  | cut => some cut

/-- A quoted word at the head of a text. -/
def cutString (cs : List Char) : Except Fault (Option (TokenKind × Cut)) :=
  let quoted (kind : TokenKind) : Except Fault (Option (TokenKind × Cut)) := do
    let f ← Fragment.first cs
    if f.kind = .string then .ok (some (kind, f.text, cs.drop f.text.length))
    else .error (.complaint .brokenString)
  match cs with
  | c :: _ =>
    if c = doubleQuote then quoted .doubleQuoted
    else if c = apostrophe then quoted .singleQuoted
    else .ok none
  | [] => .ok none

/-- The text up to the brace that closes an expression, at a nesting of braces, and the text after
it. Every brace counts, also one inside of a string. -/
def upToBrace : Nat → List Char → Option Cut
  | _, [] => none
  | depth, c :: rest =>
    if c = Char.ofNat 0x7D then
      match depth with
      | 0 => some ([], rest)
      | depth + 1 => (upToBrace depth rest).map fun (body, left) => (c :: body, left)
    else
      (upToBrace (if c = Char.ofNat 0x7B then depth + 1 else depth) rest).map fun (body, left) =>
        (c :: body, left)

/-- An expression between braces after a dollar sign. Its text must be an expression. -/
def cutExpression (cs : List Char) : Except Fault (Option Cut) :=
  let opening := ['$', Char.ofNat 0x7B]
  if opening.isPrefixOf cs then
    match upToBrace 0 (cs.drop 2) with
    | none => .error (.complaint .unclosedExpression)
    | some (body, left) => do
      let _ ← Expr.parse (String.ofList body)
      .ok (some (opening ++ body ++ [Char.ofNat 0x7D], left))
  else .ok none

/-- The signs with a fixed text, in the order in which they are tried. -/
def signs : List (List Char × TokenKind) :=
  [("&&".toList, .andThen), ("||".toList, .orElse), ("|".toList, .pipe), ("->".toList, .arrow),
    ("=>".toList, .capture), ("(".toList, .openParen), (")".toList, .closeParen),
    (";".toList, .semicolon), ("`".toList, .backquote)]

/-- A sign with a fixed text. -/
def cutSign (cs : List Char) : Option (TokenKind × Cut) :=
  signs.findSome? fun (text, kind) => (cutText text cs).map fun cut => (kind, cut)

/-- The token at the head of a text as its kind, its characters and what is left; nothing if no token
begins here. -/
def next? (cs : List Char) : Except Fault (Option (TokenKind × Cut)) := do
  match cutRedirect cs with
  | some (sign, left) => .ok (some (.redirect, sign.text, left))
  | none =>
    match cutSign cs with
    | some found => .ok (some found)
    | none =>
      match ← cutString cs with
      | some found => .ok (some found)
      | none =>
        match cutVariable cs with
        | some cut => .ok (some (.substitution, cut))
        | none =>
          match ← cutExpression cs with
          | some cut => .ok (some (.substitution, cut))
          | none =>
            .ok (((cutText ['$'] cs).map fun cut => (TokenKind.literal, cut)).or
              (((cutWhile isGap cs).map fun cut => (TokenKind.space, cut)).or
                ((cutLiteral cs).map fun cut => (TokenKind.literal, cut))))

/-- The token for a piece of text; all space has the same text. -/
def ofPiece (kind : TokenKind) (piece : List Char) : Token :=
  ⟨kind, if kind = .space then " " else String.ofList piece⟩

/-- How much of a text that cannot be read is shown. -/
def shownLength : Nat := 100

/-- Tokens, and what ended them: a fault, or nothing if the end of the text was reached. -/
structure Reading where
  tokens : List Token
  fault : Option Fault := none
  deriving Inhabited

/-- Puts a token before a reading. -/
def Reading.cons (t : Token) (r : Reading) : Reading := { r with tokens := t :: r.tokens }

/-- Cuts a text up into tokens. Every token takes at least one character, so as many steps as there
are characters, and one for the end, are enough. -/
def rawFrom : Nat → List Char → Reading
  | 0, _ => { tokens := [] }
  | n + 1, cs =>
    if cs.isEmpty then { tokens := [eof] }
    else
      match next? cs with
      | .error fault => { tokens := [], fault }
      | .ok none =>
        { tokens := []
          fault := some (.complaint (.unreadable (String.ofList (cs.take shownLength)))) }
      | .ok (some (kind, piece, left)) => (rawFrom n left).cons (ofPiece kind piece)

/-- The tokens of a text without the white space around it; the last is the end unless a fault stops
the reading. -/
def raw (text : String) : Reading :=
  let cs := strip text.toList
  rawFrom (cs.length + 1) cs

end Token

end ValueShell
