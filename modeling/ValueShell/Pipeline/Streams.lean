import ValueShell.Value.Display
import ValueShell.Value.Order

/-!
# Streams of a command

Where the input of a command comes from and where its output goes. A part of a command has the streams
of the whole unless it is given its own.
-/

set_option autoImplicit false

namespace ValueShell

/-- The input and the output of a command, where they are given. -/
structure Streams (χ : Type) where
  input : Option χ := none
  output : Option χ := none
  deriving DecidableEq, Repr, Inhabited

/-- The streams of a part: what it is given, and what the whole has for the rest. -/
def Streams.within {χ : Type} (outer : Option (Streams χ)) (input output : Option χ) : Streams χ where
  input := input.or (outer.bind Streams.input)
  output := output.or (outer.bind Streams.output)

/-- The streams of parts, each of which lies within the one before it. -/
def Streams.nested {χ : Type} (outer : Option (Streams χ)) :
    List (Option χ × Option χ) → List (Streams χ)
  | [] => []
  | (input, output) :: rest =>
    let s := Streams.within outer input output
    s :: Streams.nested (some s) rest

/-- An end of a text stream. -/
inductive Descriptor where
  | input
  | output
  | readEnd (pipe : Nat)
  | writeEnd (pipe : Nat)
  deriving DecidableEq, Repr, Inhabited

/-- What a stream goes through. -/
inductive Channel where
  | descriptor (d : Descriptor)
  | values (pipe : Nat)
  deriving DecidableEq, Repr, Inhabited

/-- The standard stream that a number means. No other number can be opened as text. -/
def Descriptor.ofValue (v : Value) : Except Fault Descriptor :=
  if v.equal (.int 0) then .ok .input
  else if v.equal (.int 1) then .ok .output
  else if !v.isKey then .error .wrongKind
  else .error (.complaint (.unknownDescriptor v.display))

end ValueShell
