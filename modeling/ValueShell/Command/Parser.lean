import ValueShell.Command.Alias
import ValueShell.Command.Expansion
import ValueShell.Command.Tree

/-!
# The grammar of command lines

Recursive descent over the tokens of a command line. The head of the tokens is the current one, and
going on past the last token meets the fault that ended the reading. `|` and the arrow that stores a
status bind tightest, then `&&` and `||`, then `;`; all group to the left.

The first argument of each function bounds the depth of the descent; `parse` gives enough for every
reading.
-/

set_option autoImplicit false

namespace ValueShell

namespace Tree

/-- What is left to be read: the tokens, the current one first, and the fault behind them. -/
structure Input where
  tokens : List Token
  fault : Fault

/-- The current token. -/
def Input.current (i : Input) : Token := i.tokens.headD Token.eof

/-- Goes on to the next token. -/
def Input.advance (i : Input) : Except Fault Input :=
  match i.tokens with
  | _ :: t :: rest => .ok { i with tokens := t :: rest }
  | _ => .error i.fault

/-- The text begins like the name of a variable. -/
def beginsLikeName (s : String) : Bool :=
  match s.toList with
  | c :: _ => Text.isAsciiNameStart c
  | [] => false

/-- The name after an arrow. -/
def resultName (i : Input) (c : Complaint) : Except Fault (String × Input) :=
  if i.current.kind = .literal && beginsLikeName i.current.text then do
    let next ← i.advance
    .ok (i.current.text, next)
  else .error (.complaint c)

/-- The source, the mode and the target of a redirection's sign. -/
def redirectParts (text : String) : Except Fault (Bool × Nat × Option Nat) :=
  match Token.cutRedirect text.toList with
  | none => .error .noAttribute
  | some (sign, _) =>
    let source := if sign.source.isEmpty then 1 else Text.numberOfDigits sign.source
    match sign.append, sign.target.map Text.numberOfDigits with
    | true, some target => .error (.complaint (.appendToDescriptor target))
    | append, target => .ok (append, source, target)

mutual

/-- Commands divided by semicolons. -/
def sequence : Nat → Bool → Option Tree → Input → Except Fault (Tree × Input)
  | 0, _, _, _ => .error .tooDeep
  | n + 1, inside, before, i => do
    let (next, i) ← condition n inside none i
    let tree := match before with
      | some left => .binary .sequence left next
      | none => next
    if i.current.kind ≠ .semicolon then .ok (tree, i)
    else
      let i ← i.advance
      match i.current.kind with
      | .ending => .ok (tree, i)
      | .closeParen => .ok (tree, i)
      | .backquote => .ok (tree, i)
      | _ => sequence n inside (some tree) i

/-- Commands joined by conditions on their status. -/
def condition : Nat → Bool → Option (Tree × Operator) → Input → Except Fault (Tree × Input)
  | 0, _, _, _ => .error .tooDeep
  | n + 1, inside, before, i => do
    let (first, i) ← command n inside i
    let (next, i) ← pipeline n inside first i
    let tree := match before with
      | some (left, op) => .binary op left next
      | none => next
    match i.current.kind with
    | .andThen => do
      let i ← i.advance
      condition n inside (some (tree, .andThen)) i
    | .orElse => do
      let i ← i.advance
      condition n inside (some (tree, .orElse)) i
    | _ => .ok (tree, i)

/-- The rest of a pipeline. -/
def pipeline : Nat → Bool → Tree → Input → Except Fault (Tree × Input)
  | 0, _, _, _ => .error .tooDeep
  | n + 1, inside, left, i => do
    match i.current.kind with
    | .pipe => do
      let i ← i.advance
      let (right, i) ← command n inside i
      pipeline n inside (.binary .pipe left right) i
    | .arrow => do
      let i ← i.advance
      let (name, i) ← resultName i .arrowWithoutName
      pipeline n inside (.assign left name) i
    | _ => .ok (left, i)

/-- A process, or commands between parentheses. -/
def command : Nat → Bool → Input → Except Fault (Tree × Input)
  | 0, _, _ => .error .tooDeep
  | n + 1, inside, i => do
    if i.current.kind = .openParen then
      let i ← i.advance
      let (tree, i) ← sequence n inside none i
      if i.current.kind ≠ .closeParen then .error (.complaint .parenthesisMismatch)
      else
        let i ← i.advance
        .ok (tree, i)
    else
      let (first, i) ← word n inside [] i
      processRest n inside [first] [] i

/-- The words and redirections of a process after the first word. -/
def processRest : Nat → Bool → List (List Piece) → List Redirect → Input →
    Except Fault (Tree × Input)
  | 0, _, _, _, _ => .error .tooDeep
  | n + 1, inside, words, redirects, i => do
    match i.current.kind with
    | .space => do
      let i ← i.advance
      if i.current.kind = .backquote && inside then .ok (.process words redirects, i)
      else
        let (next, i) ← word n inside [] i
        processRest n inside (words ++ [next]) redirects i
    | .redirect => do
      let (append, source, target) ← redirectParts i.current.text
      let i ← i.advance
      match target with
      | some descriptor =>
        processRest n inside words (redirects ++ [.descriptor append source descriptor]) i
      | none => do
        let (target, i) ← word n inside [] i
        processRest n inside words (redirects ++ [.file append source target]) i
    | .capture => do
      let i ← i.advance
      let (name, i) ← resultName i .captureWithoutName
      processRest n inside words (redirects ++ [.capture name]) i
    | _ => .ok (.process words redirects, i)

/-- The rest of a word. A word is not empty. -/
def word : Nat → Bool → List Piece → Input → Except Fault (List Piece × Input)
  | 0, _, _, _ => .error .tooDeep
  | n + 1, inside, pieces, i => do
    let t := i.current
    if t.kind = .doubleQuoted then
      let expanded ← Token.expandQuoted t.text
      let i ← i.advance
      word n inside (pieces ++ expanded.map .token) i
    else if t.kind.isWordPart then
      let i ← i.advance
      word n inside (pieces ++ [.token t]) i
    else if t.kind = .backquote && !inside then
      let (tree, i) ← backquoted n i
      word n inside (pieces ++ [.backquote tree]) i
    else if pieces.isEmpty then .error (.complaint (.unexpectedToken t.kind.name t.text))
    else .ok (pieces, i)

/-- A command between backquotes, and the tokens after them. -/
def backquoted : Nat → Input → Except Fault (Tree × Input)
  | 0, _ => .error .tooDeep
  | n + 1, i => do
    let i ← i.advance
    if i.current.kind = .space then backquoted n i
    else
      let (tree, i) ← sequence n true none i
      if i.current.kind ≠ .backquote then .error (.complaint .backquoteMismatch)
      else
        let i ← i.advance
        .ok (tree, i)

end

/-- The tree of the tokens of a command line, and what follows the last token that it takes. -/
def ofReading (r : Token.Reading) : Except Fault (Tree × Input) :=
  let fault := r.fault.getD .exhausted
  match r.tokens with
  | [] => .error fault
  | tokens => sequence (8 * tokens.length + 8) false none { tokens, fault }

/-- The tree of a command line, and what follows the last token that it takes. -/
def parse (aliases : List Alias) (text : String) : Except Fault (Tree × Input) :=
  ofReading (Token.tokens aliases false text)

end Tree

end ValueShell
