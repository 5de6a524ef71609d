/-!
# Ranges of characters

Sets of characters given by ranges of code points.
-/

set_option autoImplicit false

namespace ValueShell.Text

/-- A set of characters: the code points of every range, both ends included. -/
abbrev Ranges := List (Nat × Nat)

/-- The ranges of a class, from a code point on: how many code points are passed over and how many are
taken, in turn. -/
def Ranges.ofLengths (first : Nat) : List Nat → Ranges
  | passed :: taken :: rest =>
    (first + passed, first + passed + taken - 1) :: ofLengths (first + passed + taken) rest
  | _ => []

/-- The character lies in one of the ranges. -/
def Ranges.contains (ranges : Ranges) (c : Char) : Bool :=
  ranges.any fun range => range.1 ≤ c.toNat && c.toNat ≤ range.2

end ValueShell.Text
