/-!
# Kinds of streams

What flows into a command or out of it: text, values, nothing, or text and values together.
-/

set_option autoImplicit false

namespace ValueShell

/-- The kind of a stream. -/
inductive StreamKind where
  | text
  | values
  | nothing
  | mixed
  deriving DecidableEq, Repr, Inhabited

namespace StreamKind

/-- The short name of a kind. -/
def name : StreamKind → String
  | .text => "ST"
  | .values => "PY"
  | .nothing => "NO"
  | .mixed => "MIX"

/-- The kind with a short name. -/
def ofName? : String → Option StreamKind
  | "ST" => some .text
  | "PY" => some .values
  | "NO" => some .nothing
  | "MIX" => some .mixed
  | _ => none

/-- The kind of two streams together. -/
def merge (x y : StreamKind) : StreamKind :=
  if x = y then x
  else if y = .nothing then x
  else if x = .nothing then y
  else .mixed

/-- The stream goes through a descriptor. -/
def isText : StreamKind → Bool
  | .text => true
  | .mixed => true
  | _ => false

end StreamKind

end ValueShell
