/-!
# Patterns of file names

A pattern is a text in which `*` stands for any characters, `?` for any one character and a set
between brackets for one of its members, or for any other character if it begins with `!`. A bracket
that is not closed stands for itself.
-/

set_option autoImplicit false

namespace ValueShell.Files

/-- A part of a pattern. -/
inductive Glyph where
  /-- Any characters. -/
  | star
  /-- Any one character. -/
  | any
  /-- One of the characters in the ranges, or one that is in none of them. -/
  | set (negated : Bool) (ranges : List (Char × Char))
  | char (c : Char)
  deriving Repr, DecidableEq

/-- The one-character part matches the character. -/
def Glyph.accepts : Glyph → Char → Bool
  | .star, _ => false
  | .any, _ => true
  | .set negated ranges, c => negated != ranges.any fun r => r.1 ≤ c && c ≤ r.2
  | .char d, c => c = d

/-- The property holds for some end of the list. -/
def someTail (p : List Char → Bool) : List Char → Bool
  | [] => p []
  | c :: rest => p (c :: rest) || someTail p rest

/-- The pattern matches the whole name. -/
def matchGlyphs : List Glyph → List Char → Bool
  | [], cs => cs.isEmpty
  | .star :: rest, cs => someTail (matchGlyphs rest) cs
  | g :: rest, c :: cs => g.accepts c && matchGlyphs rest cs
  | _ :: _, [] => false

/-- Cuts the members of a set at the hyphens that make ranges: not at the first member, and not
before two members have come after the last such hyphen. `wait` counts how many members must still
come. -/
def cutRanges : Nat → List Char → List Char → List (List Char)
  | _, part, [] => [part.reverse]
  | 0, part, '-' :: rest => part.reverse :: cutRanges 2 [] rest
  | 0, part, c :: rest => cutRanges 0 (c :: part) rest
  | wait + 1, part, c :: rest => cutRanges wait (c :: part) rest

/-- A hyphen at the end of a set stands for itself. -/
def closeRanges : List (List Char) → List (List Char)
  | [part, []] => [part ++ ['-']]
  | part :: rest => part :: closeRanges rest
  | [] => []

/-- Removes ranges whose ends are in the wrong order, with both ends. -/
def dropEmptyRanges : List (List Char) → List (List Char)
  | [] => []
  | part :: rest =>
    match dropEmptyRanges rest with
    | next :: others =>
      match part.getLast?, next.head? with
      | some a, some b => if a > b then (part.dropLast ++ next.drop 1) :: others else part :: next :: others
      | _, _ => part :: next :: others
    | [] => [part]

/-- The ranges of characters that the parts of a set stand for. The last member of a part and the
first one of the next are the ends of a range. -/
def rangesOf : Option Char → List (List Char) → List (Char × Char)
  | _, [] => []
  | start, part :: rest =>
    let (joined, part) := match start, part with
      | some a, b :: others => ([(a, b)], others)
      | _, _ => ([], part)
    if rest.isEmpty then joined ++ part.map fun c => (c, c)
    else joined ++ part.dropLast.map (fun c => (c, c)) ++ rangesOf part.getLast? rest

/-- The set whose members are written like this. -/
def setOf (members : List Char) : Glyph :=
  let negated := members.head? == some '!'
  let parts :=
    if members.contains '-' then
      dropEmptyRanges (closeRanges (cutRanges (if negated then 2 else 1) [] members))
    else [members]
  match parts with
  | ['!' :: first] => if first.isEmpty then .any else .set true (rangesOf none [first])
  | ('!' :: first) :: rest => .set true (rangesOf none (first :: rest))
  | _ => .set false (rangesOf none parts)

/-- The members of a set that begins here, and what follows its closing bracket. A closing bracket
that comes first is a member. -/
def setMembers? (cs : List Char) : Option (List Char × List Char) :=
  let (mark, rest) := match cs with
    | '!' :: rest => (['!'], rest)
    | _ => ([], cs)
  let (first, rest) := match rest with
    | ']' :: rest => ([']'], rest)
    | _ => ([], rest)
  match rest.dropWhile (· ≠ ']') with
  | [] => none
  | _ :: after => some (mark ++ first ++ rest.takeWhile (· ≠ ']'), after)

/-- The parts of a pattern. Every step reads at least one character. -/
def glyphsFrom : Nat → List Char → List Glyph
  | 0, _ => []
  | _ + 1, [] => []
  | n + 1, '*' :: rest => .star :: glyphsFrom n rest
  | n + 1, '?' :: rest => .any :: glyphsFrom n rest
  | n + 1, '[' :: rest =>
    match setMembers? rest with
    | some (members, after) => setOf members :: glyphsFrom n after
    | none => .char '[' :: glyphsFrom n rest
  | n + 1, c :: rest => .char c :: glyphsFrom n rest

/-- The parts of a pattern. -/
def glyphs (pattern : List Char) : List Glyph := glyphsFrom (pattern.length + 1) pattern

/-- The name matches the pattern. -/
def nameMatches (pattern name : String) : Bool := matchGlyphs (glyphs pattern.toList) name.toList

/-- A text written so that in a pattern it stands only for itself as far as stars and question marks
go. -/
def escapePattern (s : String) : String :=
  String.ofList (s.toList.flatMap fun c =>
    if c = '*' then ['[', '*', ']'] else if c = '?' then ['[', '?', ']'] else [c])

end ValueShell.Files
