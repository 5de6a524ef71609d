import ValueShell.Files.Tree
import ValueShell.Text.Lines

/-!
# Programs of the system

A program is given words, an input and the files, writes to descriptors and ends with a status. The
status is the number that a process that waits for it gets: an exit code times 256, or the number of
the signal that ended it.
-/

set_option autoImplicit false

namespace ValueShell.Program

/-- What a program is run in. -/
structure Context where
  files : Files.Tree := {}
  environment : List (String × String) := []
  /-- Everything that can be read from the standard input. -/
  input : String := ""
  /-- The descriptors that can be written to. -/
  open_ : List Nat := [1, 2]

/-- What a program did. -/
structure Result where
  /-- What was written to which descriptor, in order. -/
  writes : List (Nat × String) := []
  status : Nat := 0
  deriving Repr, DecidableEq, Inhabited

/-- The status of a program that exits with a code. -/
def exitStatus (code : Nat) : Nat := code % 256 * 256

/-- The result of writing to the standard output. -/
def Result.ofOutput (text : String) : Result := { writes := [(1, text)] }

/-- The result of failing with a message. -/
def Result.ofError (message : String) (code : Nat) : Result :=
  { writes := [(2, message)], status := exitStatus code }

/-- Why a file cannot be read, as programs of the system say it. -/
def reason : Fault → String
  | .noSuchFile _ => "No such file or directory"
  | .isDirectory _ => "Is a directory"
  | .notDirectory _ => "Not a directory"
  | .noPermission _ => "Permission denied"
  | .linkCircle _ => "Too many levels of symbolic links"
  | _ => "Invalid argument"

/-- The texts that the operands of a program mean: `-` is the input, which can be read once, and
anything else a file. Without operands the input is read. -/
def readOperands (c : Context) (operands : List String) : List (String × Except Fault String) :=
  go c.input (if operands.isEmpty then ["-"] else operands)
where
  /-- Reads operands when `left` is left of the input. -/
  go (left : String) : List String → List (String × Except Fault String)
    | [] => []
    | "-" :: rest => ("-", .ok left) :: go "" rest
    | path :: rest => (path, c.files.read path) :: go left rest

/-- The operands make a program read its input. -/
def operandsReadInput (operands : List String) : Bool := operands.isEmpty || operands.contains "-"

end ValueShell.Program
