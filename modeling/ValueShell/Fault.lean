/-!
# Causes of failure

Everything that can go wrong, one constructor for each cause. The causes with a wording of their own
are complaints; `Fault.message?` gives the text of a cause that has one.
-/

set_option autoImplicit false

namespace ValueShell

/-- A cause that is reported by its wording. -/
inductive Complaint where
  /-- No token begins here. -/
  | unreadable (rest : String)
  /-- A quoted word does not end on its line. -/
  | brokenString
  | unclosedExpression
  /-- The token cannot stand here in a command line. -/
  | unexpectedToken (kind text : String)
  /-- The token cannot be part of a word. -/
  | unexpectedPiece (kind : String)
  | arrowWithoutName
  | captureWithoutName
  | parenthesisMismatch
  | backquoteMismatch
  /-- A redirection appends and names a descriptor at the same time. -/
  | appendToDescriptor (descriptor : Nat)
  /-- Values and text together flow into a command that reads values. -/
  | mixedPipe
  /-- A command that reads values and one that reads text share their input. -/
  | mixedReaders
  | unknownDescriptor (descriptor : String)
  | unknownOperator (operator : String)
  | unknownTree
  /-- The direction of a sort is neither of its two words. -/
  | sortDirection
  | wrongParameters
  /-- The command line of a listing has an unknown option. -/
  | optionExit
  /-- A command that has no output produced some. -/
  | forbiddenOutput
  /-- The script ends inside a one-line string literal. -/
  | literalAtEnd
  /-- A line ends inside a one-line string literal. -/
  | literalAtLineEnd
  /-- The script ends inside a string literal of several lines. -/
  | documentAtEnd
  | stated (text : String)
  deriving Repr, DecidableEq, Inhabited

/-- The wording of a complaint. -/
def Complaint.message : Complaint → String
  | .unreadable rest => "Failed to tokenize: " ++ rest
  | .brokenString => "Wrong string format"
  | .unclosedExpression => "Expected \x7d but EOF found."
  | .unexpectedToken kind text => "Unexpected token: " ++ kind ++ ": " ++ text
  | .unexpectedPiece kind => "Unexpected token: " ++ kind
  | .arrowWithoutName => "-> must be followed with python var."
  | .captureWithoutName => "=> must be followed with python var."
  | .parenthesisMismatch => "Parenthesis mismatch"
  | .backquoteMismatch => "backquote mismatch"
  | .appendToDescriptor n => "Can not use both >> and &" ++ toString n ++ "."
  | .mixedPipe =>
    "Can not pipe combination of python outputs and file outputs to commands that read python data."
  | .mixedReaders =>
    "Can not combile cmd that reads python object and cmd that reads file stream."
  | .unknownDescriptor fd => "Unknown file descriptor: " ++ fd
  | .unknownOperator op => "('Unknown op:', " ++ op ++ ")"
  | .unknownTree => "('Unexpected ast: ', None)"
  | .sortDirection => "args[2] must be desc or asc."
  | .wrongParameters => "Wrong params"
  | .optionExit => "OptionParser exit."
  | .forbiddenOutput => "A pycmd with [outType= No] outputs something."
  | .literalAtEnd => "EOF while scanning string literal"
  | .literalAtLineEnd => "EOL while scanning string literal"
  | .documentAtEnd => "EOF while scanning here document"
  | .stated text => text

/-- A cause of failure. -/
inductive Fault where
  | complaint (c : Complaint)
  | undefined (name : String)
  /-- A column or entry is missing; the key is given if it is a text. -/
  | missingKey (key : Option String)
  /-- An operation does not apply to values of these kinds. -/
  | wrongKind
  /-- A value of the right kind has no meaning for the operation. -/
  | invalidValue
  | divisionByZero
  | overflow
  | outOfMemory
  | outOfRange
  | noAttribute
  /-- A condition that a command relies on does not hold. -/
  | unmet
  | tooDeep
  /-- A text is no expression. -/
  | badSyntax
  /-- An expression begins with white space. -/
  | badIndentation
  /-- A text ends inside of a string of several lines or inside of brackets. -/
  | unfinished
  /-- There is no next element. -/
  | exhausted
  | badRecord
  | noSuchFile (path : String)
  | isDirectory (path : String)
  | notDirectory (path : String)
  | noPermission (path : String)
  | linkCircle (path : String)
  | badDescriptor
  | noChildren
  /-- Nothing that is still running can make the command go on. -/
  | stuck
  deriving Repr, DecidableEq, Inhabited

/-- The text that is shown for a cause, if it has one. -/
def Fault.message? : Fault → Option String
  | .complaint c => some c.message
  | .undefined name => some ("name '" ++ name ++ "' is not defined")
  | .missingKey key => key
  | _ => none

end ValueShell
