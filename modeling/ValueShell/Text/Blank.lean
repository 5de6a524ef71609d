import ValueShell.Text.Ranges

/-!
# White space

White space: stripping it from the ends of a text and splitting a text into words at it.
-/

set_option autoImplicit false

namespace ValueShell.Text

/-- The characters that count as white space. -/
def blankRanges : Ranges :=
  [(0x9, 0xD), (0x1C, 0x20), (0x85, 0x85), (0xA0, 0xA0), (0x1680, 0x1680), (0x2000, 0x200A),
    (0x2028, 0x2029), (0x202F, 0x202F), (0x205F, 0x205F), (0x3000, 0x3000)]

/-- The character is white space. -/
def isBlank (c : Char) : Bool := blankRanges.contains c

/-- Removes the characters of a class from the end of a list. -/
def trimEnd (p : Char → Bool) (cs : List Char) : List Char := (cs.reverse.dropWhile p).reverse

/-- Removes the characters of a class from both ends of a list. -/
def trim (p : Char → Bool) (cs : List Char) : List Char := trimEnd p (cs.dropWhile p)

/-- Removes the white space at both ends. -/
def strip (cs : List Char) : List Char := trim isBlank cs

/-- The words of a text, in order, when the word being read holds `word` (last character first). -/
def wordsFrom (word : List Char) : List Char → List (List Char)
  | [] => if word.isEmpty then [] else [word.reverse]
  | c :: rest =>
    if isBlank c then
      if word.isEmpty then wordsFrom [] rest else word.reverse :: wordsFrom [] rest
    else wordsFrom (c :: word) rest

/-- The words of a text: its longest pieces without white space. -/
def words (cs : List Char) : List (List Char) := wordsFrom [] cs

/-- The words of a string. -/
def wordsOf (s : String) : List String := (words s.toList).map String.ofList

end ValueShell.Text
