import ValueShell.Command.Tree
import ValueShell.Pipeline.Command

/-!
# Plans of command trees

Before a command runs, the kinds of streams that flow between its parts are worked out. A part that
produces values where text is needed is marked to have them written as text. Commands that would read
text and values together are refused.
-/

set_option autoImplicit false

namespace ValueShell

/-- What flows into a part of a command and out of it. -/
structure Kinds where
  input : StreamKind
  output : StreamKind
  deriving DecidableEq, Repr, Inhabited

mutual

/-- A command tree with the kinds of its parts, where they are known. -/
inductive Plan where
  | process (kinds : Option Kinds) (words : List (List PlanPiece)) (redirects : List Redirect)
  | binary (kinds : Option Kinds) (op : Operator) (left right : Plan)
  | assign (kinds : Option Kinds) (command : Plan) (name : String)
  | rendered (kinds : Option Kinds) (command : Plan)

/-- A part of a word. -/
inductive PlanPiece where
  | token (t : Token)
  | backquote (command : Plan)

end

instance : Inhabited Plan := ⟨.process none [] []⟩

namespace Plan

/-- The kinds of a part, where they are known. -/
def kinds? : Plan → Option Kinds
  | .process kinds _ _ => kinds
  | .binary kinds _ _ _ => kinds
  | .assign kinds _ _ => kinds
  | .rendered kinds _ => kinds

mutual

/-- The plan of a tree whose kinds are not worked out. -/
def ofTree : Tree → Plan
  | .process words redirects => .process none (ofWords words) redirects
  | .binary op left right => .binary none op (ofTree left) (ofTree right)
  | .assign command name => .assign none (ofTree command) name

def ofWords : List (List Piece) → List (List PlanPiece)
  | [] => []
  | word :: rest => ofPieces word :: ofWords rest

def ofPieces : List Piece → List PlanPiece
  | [] => []
  | .token t :: rest => .token t :: ofPieces rest
  | .backquote command :: rest => .backquote (ofTree command) :: ofPieces rest

end

/-- The text is the name of a variable, or such a name and a line feed. -/
def isName (cs : List Char) : Bool :=
  match cs with
  | c :: rest =>
    let rest := if rest.getLast? = some '\n' then rest.dropLast else rest
    Text.isAsciiNameStart c && rest.all Text.isAsciiNameChar
  | [] => false

/-- What the first word of a process names, as far as it can be told without evaluating it: its text,
or the value of the variable that it is. A list or tuple names what its first element does. -/
def firstName (names : Bindings) (piece : Piece) : Except Fault Value :=
  match piece with
  | .backquote _ => .ok .none
  | .token t =>
    match t.kind with
    | .literal => .ok (.text t.text)
    | .singleQuoted => .ok (.text t.text)
    | .substitution =>
      let cs := t.text.toList
      let body := if ['$', Char.ofNat 0x7B].isPrefixOf cs then (cs.drop 2).dropLast else cs.drop 1
      if !isName body then .ok .none
      else
        match (names.find? (String.ofList body)).getD .none with
        | .list [] => .error .outOfRange
        | .tuple [] => .error .outOfRange
        | .list (.text s :: _) => .ok (.text s)
        | .tuple (.text s :: _) => .ok (.text s)
        | v => .ok v
    | _ => .ok .none

/-- The registered command that a process runs, as far as it can be told before it runs. -/
def commandOf (registry : Registry) (names : Bindings) (words : List (List Piece)) :
    Except Fault (Option Command) :=
  match words with
  | [piece] :: _ => (firstName names piece).map registry.find?
  | _ => .ok none

/-- The kinds of a process that runs a registered command or a program of the system. -/
def kindsOf : Option Command → Kinds
  | some c => ⟨c.inputKind, c.outputKind⟩
  | none => ⟨.text, .text⟩

/-- A plan with its kinds. -/
abbrev Diagnosed := Plan × Kinds

/-- Writes the values of a plan as text. -/
def render (p : Plan) : Plan := .rendered none p

/-- Joins two plans by an operator. -/
def join (op : Operator) (left right : Diagnosed) : Except Fault Diagnosed :=
  let (l, lk) := left
  let (r, rk) := right
  match op with
  | .pipe =>
    let kinds : Kinds := ⟨lk.input, rk.output⟩
    if lk.output = .mixed && rk.input = .values then .error (.complaint .mixedPipe)
    else
      let l := if !lk.output.isText && rk.input.isText then .rendered (some ⟨lk.input, .text⟩) l else l
      .ok (.binary (some kinds) op l r, kinds)
  | _ =>
    let kinds : Kinds := ⟨lk.input.merge rk.input, lk.output.merge rk.output⟩
    if kinds.input = .mixed then .error (.complaint .mixedReaders)
    else
      let l := if kinds.output.isText && !lk.output.isText then render l else l
      let r := if kinds.output.isText && !rk.output.isText then render r else r
      .ok (.binary (some kinds) op l r, kinds)

mutual

/-- Works out the kinds of a tree. -/
def diagnose (registry : Registry) (names : Bindings) : Tree → Except Fault Diagnosed
  | .process words redirects => do
    let command ← commandOf registry names words
    let kinds := kindsOf command
    let (words, input) ← diagnoseWords registry names kinds.input words
    let kinds : Kinds := ⟨input, kinds.output⟩
    let plan := Plan.process (some kinds) words redirects
    if command.isSome && kinds.output = .text then .ok (.rendered (some kinds) plan, kinds)
    else .ok (plan, kinds)
  | .assign command name => do
    let (plan, kinds) ← diagnose registry names command
    .ok (.assign (some kinds) plan name, kinds)
  | .binary op left right => do
    let left ← diagnose registry names left
    let right ← diagnose registry names right
    join op left right

/-- Works out the kinds of the commands in words. They share the input of the process. -/
def diagnoseWords (registry : Registry) (names : Bindings) (input : StreamKind) :
    List (List Piece) → Except Fault (List (List PlanPiece) × StreamKind)
  | [] => .ok ([], input)
  | word :: rest => do
    let (word, input) ← diagnosePieces registry names input word
    let (others, input) ← diagnoseWords registry names input rest
    .ok (word :: others, input)

/-- Works out the kinds of the commands in the pieces of a word. -/
def diagnosePieces (registry : Registry) (names : Bindings) (input : StreamKind) :
    List Piece → Except Fault (List PlanPiece × StreamKind)
  | [] => .ok ([], input)
  | .token t :: rest => do
    let (others, input) ← diagnosePieces registry names input rest
    .ok (.token t :: others, input)
  | .backquote command :: rest => do
    let (plan, kinds) ← diagnose registry names command
    let merged := kinds.input.merge input
    if merged = .mixed then .error (.complaint .mixedReaders)
    else
      let plan := if kinds.output = .values then render plan else plan
      let (others, input) ← diagnosePieces registry names merged rest
      .ok (.backquote plan :: others, input)

end

/-- The plan of a whole command line. Values that it produces are written as text. -/
def ofCommand (registry : Registry) (names : Bindings) (tree : Tree) : Except Fault Plan := do
  let (plan, kinds) ← diagnose registry names tree
  .ok (if kinds.output.isText then plan else render plan)

end Plan

end ValueShell
