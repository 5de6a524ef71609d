import ValueShell.Fault
import ValueShell.Text.Blank
import ValueShell.Text.Letter
import ValueShell.Text.Lines
import ValueShell.Text.Quoted

/-!
# Fragments of text

A loose reading of a text line by line: names, numbers, strings, operators and line ends, each with
its place. Characters that begin none of these are fragments of their own, so only two things stop the
reading: a text that ends inside of a string or bracket, and a line that goes back to an indentation
that no line before it has.

Strings with three quotes go over several lines, and so do strings with a backslash at the end of a
line. Brackets are only counted, and a text with more closing than opening ones is never complete.
-/

set_option autoImplicit false

namespace ValueShell

open Text

namespace Fragment

/-- What a fragment is. -/
inductive Kind where
  | name
  | number
  | string
  | operator
  | comment
  /-- The end of a line that says something. -/
  | newline
  /-- The end of any other line. -/
  | lineEnd
  | indent
  | dedent
  /-- Nothing known. -/
  | unknown
  /-- The end of the text. -/
  | ending
  deriving DecidableEq, Repr

end Fragment

/-- A piece of a text with the line and column where it begins and where it ends. -/
structure Fragment where
  kind : Fragment.Kind
  text : List Char
  start : Nat × Nat
  stop : Nat × Nat

namespace Fragment

/-- The operators, longer ones before those that they begin with. -/
def operators : List (List Char) :=
  ["...", "**=", "//=", "<<=", ">>=", "!=", "%=", "&=", "**", "*=", "+=", "-=", "->", "//", "/=", ":=",
    "<<", "<=", "==", ">=", ">>", "@=", "^=", "|=", "%", "&", "(", ")", "*", "+", ",", "-", ".", "/",
    ":", ";", "<", "=", ">", "@", "[", "]", "^", "\x7b", "|", "\x7d", "~"].map String.toList

/-- White space inside of a line. -/
def isGap (c : Char) : Bool := c = ' ' || c = '\t' || c = '\x0c'

/-- A piece at the head of a text, and what follows. -/
abbrev Cut := List Char × List Char

/-- The digits of a class after a first one; single underscores may stand between them. -/
def moreDigits (isDigit : Char → Bool) : List Char → Cut
  | '_' :: d :: rest =>
    if isDigit d then
      let (ds, left) := moreDigits isDigit rest
      ('_' :: d :: ds, left)
    else ([], '_' :: d :: rest)
  | c :: rest =>
    if isDigit c then
      let (ds, left) := moreDigits isDigit rest
      (c :: ds, left)
    else ([], c :: rest)
  | [] => ([], [])

/-- Digits of a class that may have single underscores between them. -/
def digits? (isDigit : Char → Bool) : List Char → Option Cut
  | [] => none
  | c :: rest =>
    if isDigit c then
      let (ds, left) := moreDigits isDigit rest
      some (c :: ds, left)
    else none

/-- An exponent. -/
def exponent? : List Char → Option Cut
  | e :: rest =>
    if e = 'e' || e = 'E' then
      match rest with
      | s :: rest' =>
        if s = '+' || s = '-' then (digits? Char.isDigit rest').map fun (ds, r) => (e :: s :: ds, r)
        else (digits? Char.isDigit rest).map fun (ds, r) => (e :: ds, r)
      | [] => none
    else none
  | [] => none

/-- Puts a piece before a cut. -/
def after (piece : List Char) (cut : Cut) : Cut := (piece ++ cut.1, cut.2)

/-- A piece with the exponent after it, if there is one. -/
def withExponent (cut : Cut) : Cut :=
  match exponent? cut.2 with
  | some e => after cut.1 e
  | none => cut

/-- A number with a point or an exponent. -/
def real? (cs : List Char) : Option Cut :=
  match digits? Char.isDigit cs with
  | some (whole, '.' :: rest) =>
    match digits? Char.isDigit rest with
    | some (fraction, rest) => some (withExponent (whole ++ '.' :: fraction, rest))
    | none => some (withExponent (whole ++ ['.'], rest))
  | some (whole, rest) => (exponent? rest).map (after whole)
  | none =>
    match cs with
    | '.' :: rest => (digits? Char.isDigit rest).map fun (ds, r) => withExponent ('.' :: ds, r)
    | _ => none

/-- The mark of an imaginary number after a piece. -/
def imaginary? : Cut → Option Cut
  | (piece, 'j' :: rest) => some (piece ++ ['j'], rest)
  | (piece, 'J' :: rest) => some (piece ++ ['J'], rest)
  | _ => none

/-- Digits after the mark of a base; an underscore may stand before each. -/
def based? (isDigit : Char → Bool) (mark : List Char) (cs : List Char) : Option Cut :=
  match cs with
  | '_' :: rest => (digits? isDigit rest).map (after (mark ++ ['_']))
  | _ => (digits? isDigit cs).map (after mark)

/-- A whole number. Zeros go together only with zeros. -/
def whole? : List Char → Option Cut
  | '0' :: x :: rest =>
    let based :=
      if x = 'x' || x = 'X' then based? (fun c => (hexValue? c).isSome) ['0', x] rest
      else if x = 'b' || x = 'B' then based? (fun c => c = '0' || c = '1') ['0', x] rest
      else if x = 'o' || x = 'O' then based? (fun c => (octalValue? c).isSome) ['0', x] rest
      else none
    based.or (digits? (· = '0') ('0' :: x :: rest))
  | '0' :: rest => some (['0'], rest)
  | cs => digits? Char.isDigit cs

/-- A number. -/
def number? (cs : List Char) : Option Cut :=
  (((digits? Char.isDigit cs).bind imaginary?).or ((real? cs).bind imaginary?)).or
    ((real? cs).or (whole? cs))

/-- An operator. -/
def operator? (cs : List Char) : Option Cut :=
  (operators.find? fun op => op.isPrefixOf cs).map fun op => (op, cs.drop op.length)

/-- The letters that may stand before the quote of a string, in either case and order. -/
def stringMarks : List (List Char) :=
  ["", "b", "r", "u", "f", "br", "rb", "fr", "rf"].map String.toList

/-- The letters before a quote, the quote, and the text after it. -/
def opening? (cs : List Char) : Option (List Char × Char × List Char) :=
  let mark := cs.takeWhile fun c => "bBrRuUfF".toList.contains c
  match cs.drop mark.length with
  | q :: rest =>
    if (q = apostrophe || q = doubleQuote) && stringMarks.contains (mark.map Char.toLower) then
      some (mark, q, rest)
    else none
  | [] => none

/-- The text up to the end of a string: after three quotes if `long`, after one quote otherwise. A
backslash hides the character after it, but not a line end: such a string does not end here. -/
def close? (quote : Char) (long : Bool) : List Char → Option Cut
  | [] => none
  | '\\' :: c :: rest =>
    if c = '\n' then none else (close? quote long rest).map (after ['\\', c])
  | c :: rest =>
    if c = '\\' then none
    else if c = quote then
      if !long then some ([c], rest)
      else if [quote, quote].isPrefixOf rest then some ([c, quote, quote], rest.drop 2)
      else (close? quote long rest).map (after [c])
    else (close? quote long rest).map (after [c])

/-- The body of a string on one line, with its closing quote or with the backslash and line end that
continue it. -/
def shortBody? (quote : Char) : List Char → Option Cut
  | [] => none
  | '\\' :: '\n' :: rest => some (['\\', '\n'], rest)
  | '\\' :: '\r' :: '\n' :: rest => some (['\\', '\r', '\n'], rest)
  | '\\' :: c :: rest => (shortBody? quote rest).map (after ['\\', c])
  | c :: rest =>
    if c = quote then some ([c], rest)
    else if c = '\n' || c = '\\' then none
    else (shortBody? quote rest).map (after [c])

/-- A string that goes on in the next line. -/
structure Open where
  text : List Char
  start : Nat × Nat
  quote : Char
  long : Bool

/-- What one line leaves for the next. -/
structure State where
  /-- Opening brackets less closing ones. -/
  brackets : Int := 0
  /-- The line ended in a backslash. -/
  joined : Bool := false
  open? : Option Open := none
  /-- An open string ends in error with a line that has no backslash at its end. -/
  strict : Bool := false
  /-- The indentations of the lines around, innermost first. -/
  indents : List Nat := [0]

/-- What stands at a place of a line. -/
inductive Piece where
  | fragment (kind : Kind) (cut : Cut)
  /-- A backslash at the end of the line. -/
  | join (cut : Cut)
  /-- A string that goes on in the next line. -/
  | opens (quote : Char) (long : Bool)
  /-- Nothing is left but white space. -/
  | nothing

/-- The piece at the head of a text that does not begin with white space. -/
def piece? (cs : List Char) : Option Piece :=
  match cs with
  | [] => some .nothing
  | '\\' :: '\n' :: rest => some (.join (['\\', '\n'], rest))
  | '\\' :: '\r' :: '\n' :: rest => some (.join (['\\', '\r', '\n'], rest))
  | '#' :: _ =>
    let inside (c : Char) : Bool := !isLineEnd c
    some (.fragment .comment (cs.takeWhile inside, cs.dropWhile inside))
  | _ =>
    match opening? cs with
    | some (mark, q, rest) =>
      if [q, q].isPrefixOf rest then
        match close? q true (rest.drop 2) with
        | some cut => some (.fragment .string (after (mark ++ [q, q, q]) cut))
        | none => some (.opens q true)
      else
        match shortBody? q rest with
        | some cut =>
          if cut.1.getLast? == some '\n' then some (.opens q false)
          else some (.fragment .string (after (mark ++ [q]) cut))
        | none => plain? cs
    | none => plain? cs
where
  /-- A number, a line end, an operator or a name. -/
  plain? (cs : List Char) : Option Piece :=
    match number? cs with
    | some cut => some (.fragment .number cut)
    | none =>
      match cs with
      | '\n' :: rest => some (.fragment .newline (['\n'], rest))
      | '\r' :: '\n' :: rest => some (.fragment .newline (['\r', '\n'], rest))
      | _ =>
        match operator? cs with
        | some cut => some (.fragment .operator cut)
        | none =>
          match cs.takeWhile isWordChar with
          | [] => none
          | c :: word =>
            some (.fragment (if isIdentifierStart c then .name else .operator)
              (c :: word, cs.drop (word.length + 1)))

/-- The fragments of the rest of a line. Each step reads at least one character. -/
def scanLine (line : Nat) : Nat → Nat → List Char → State → List Fragment × State
  | 0, _, _, s => ([], s)
  | n + 1, column, cs, s =>
    let gap := cs.takeWhile isGap
    let rest := cs.drop gap.length
    let start := column + gap.length
    match piece? rest with
    | none =>
      match cs with
      | [] => ([], s)
      | c :: rest =>
        let (others, s) := scanLine line n (column + 1) rest s
        (⟨.unknown, [c], (line, column), (line, column + 1)⟩ :: others, s)
    | some .nothing => ([], s)
    | some (.join (piece, rest)) =>
      scanLine line n (start + piece.length) rest { s with joined := true }
    | some (.opens quote long) =>
      ([], { s with
        open? := some ⟨rest, (line, start), quote, long⟩
        strict := if long then s.strict else true })
    | some (.fragment kind (piece, rest)) =>
      let opening := piece == ['('] || piece == ['['] || piece == [Char.ofNat 0x7B]
      let closing := piece == [')'] || piece == [']'] || piece == [Char.ofNat 0x7D]
      let kind := if kind = .newline && s.brackets > 0 then .lineEnd else kind
      let s :=
        if kind = .operator && opening then { s with brackets := s.brackets + 1 }
        else if kind = .operator && closing then { s with brackets := s.brackets - 1 }
        else s
      let stop := start + piece.length
      let (others, s) := scanLine line n stop rest s
      (⟨kind, piece, (line, start), (line, stop)⟩ :: others, s)

/-- The width of the white space at the head of a line. -/
def indentation (width : Nat) : List Char → Nat
  | ' ' :: rest => indentation (width + 1) rest
  | '\t' :: rest => indentation ((width / 8 + 1) * 8) rest
  | '\x0c' :: rest => indentation 0 rest
  | _ => width

/-- What a text and its end leave behind. -/
structure Scan where
  fragments : List Fragment
  fault : Option Fault := none

/-- Puts fragments before a scan. -/
def Scan.after (fs : List Fragment) (s : Scan) : Scan := { s with fragments := fs ++ s.fragments }

/-- The end of the text: a line end that is not written, the way back to no indentation, and the
ending. -/
def finish (line : Nat) (last : List Char) (indents : List Nat) : Scan :=
  let width := last.length
  let implied :=
    match last.getLast? with
    | none => []
    | some c =>
      if isLineEnd c || (strip last).head? == some '#' then []
      else [⟨.newline, [], (line - 1, width), (line - 1, width + 1)⟩]
  let back := indents.dropLast.map fun _ => ⟨.dedent, [], (line, 0), (line, 0)⟩
  { fragments := implied ++ back ++ [⟨.ending, [], (line, 0), (line, 0)⟩] }

/-- The fragments of the lines from the given number on; `last` is the line before them. -/
def scanLines (number : Nat) (last : List Char) (s : State) : List (List Char) → Scan
  | [] =>
    if s.open?.isSome || s.brackets ≠ 0 || s.joined then { fragments := [], fault := some .unfinished }
    else finish number last s.indents
  | line :: rest =>
    let fuel := line.length + 1
    match s.open? with
    | some o =>
      match close? o.quote o.long line with
      | some (piece, after) =>
        let s := { s with open? := none, strict := false }
        let (others, s) := scanLine number fuel piece.length after s
        let whole : Fragment := ⟨.string, o.text ++ piece, o.start, (number, piece.length)⟩
        (scanLines (number + 1) line s rest).after (whole :: others)
      | none =>
        let continued := ['\n', '\\'].isPrefixOf line.reverse || ['\n', '\r', '\\'].isPrefixOf line.reverse
        if s.strict && !continued then
          let whole : Fragment := ⟨.unknown, o.text ++ line, o.start, (number, line.length)⟩
          (scanLines (number + 1) line { s with open? := none } rest).after [whole]
        else
          scanLines (number + 1) line { s with open? := some { o with text := o.text ++ line } } rest
    | none =>
      if s.brackets ≠ 0 || s.joined then
        let (others, s) := scanLine number fuel 0 line { s with joined := false }
        (scanLines (number + 1) line s rest).after others
      else
        let blank := line.takeWhile isGap
        let column := blank.length
        match line.drop column with
        | [] => finish number last s.indents
        | c :: body =>
          if c = '#' || isLineEnd c then
            let comment := if c = '#' then trimLine (c :: body) else []
            let stop := column + comment.length
            let comments : List Fragment :=
              if c = '#' then [⟨.comment, comment, (number, column), (number, stop)⟩] else []
            let ending : Fragment :=
              ⟨.lineEnd, (c :: body).drop comment.length, (number, stop), (number, line.length)⟩
            (scanLines (number + 1) line s rest).after (comments ++ [ending])
          else
            let width := indentation 0 line
            let outer := s.indents.dropWhile (· > width)
            if width > s.indents.headD 0 then
              let (others, s) := scanLine number fuel column (c :: body)
                { s with indents := width :: s.indents }
              let indent : Fragment := ⟨.indent, blank, (number, 0), (number, column)⟩
              (scanLines (number + 1) line s rest).after (indent :: others)
            else
              let back : List Fragment := (s.indents.take (s.indents.length - outer.length)).map
                fun _ => ⟨.dedent, [], (number, column), (number, column)⟩
              if outer.headD 0 ≠ width then { fragments := [], fault := some .badIndentation }
              else
                let (others, s) := scanLine number fuel column (c :: body) { s with indents := outer }
                (scanLines (number + 1) line s rest).after (back ++ others)

/-- The fragments of a text. -/
def scan (cs : List Char) : Scan := scanLines 1 [] {} (lines cs)

/-- The first fragment of a text, or why there is none. -/
def first (cs : List Char) : Except Fault Fragment :=
  match scan cs with
  | { fragments := f :: _, .. } => .ok f
  | { fault := some fault, .. } => .error fault
  | _ => .error .exhausted

end Fragment

end ValueShell
