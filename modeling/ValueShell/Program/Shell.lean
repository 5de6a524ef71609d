import ValueShell.Program.Filters

/-!
# A small shell

Runs scripts of simple commands, one after the other or depending on each other's success. Commands
have words with quotes and variables, and may copy one descriptor to another.
-/

set_option autoImplicit false

namespace ValueShell.Program

open ValueShell.Text

/-- A part of a word of a script. -/
inductive ScriptPart where
  | text (s : String)
  | variable_ (name : String) (quoted : Bool)

/-- A token of a script. -/
inductive ScriptToken where
  | word (parts : List ScriptPart)
  /-- Writing to the first descriptor goes to the second. -/
  | copy (source target : Nat)
  | next
  | andThen
  | orElse

/-- A character may stand in the name of a variable. -/
def isVariableChar (c : Char) : Bool := c.isAlphanum || c = '_'

/-- Cuts a variable off what follows a dollar sign. -/
def cutScriptVariable (quoted : Bool) (cs : List Char) : Option (ScriptPart × List Char) :=
  match cs with
  | '$' :: rest => some (.variable_ "$" quoted, rest)
  | '?' :: rest => some (.variable_ "?" quoted, rest)
  | c :: rest =>
    if c = Char.ofNat 0x7B then
      match rest.dropWhile isVariableChar with
      | d :: left =>
        if d = Char.ofNat 0x7D then
          some (.variable_ (String.ofList (rest.takeWhile isVariableChar)) quoted, left)
        else none
      | [] => none
    else if isVariableChar c && !c.isDigit then
      some (.variable_ (String.ofList (cs.takeWhile isVariableChar)) quoted, cs.dropWhile isVariableChar)
    else none
  | [] => none

/-- Reads what stands between double quotes. `steps` bounds the parts. -/
def quotedParts : Nat → List Char → Option (List ScriptPart × List Char)
  | 0, _ => none
  | _ + 1, [] => none
  | steps + 1, c :: cs =>
    let more (part : ScriptPart) (rest : List Char) :=
      (quotedParts steps rest).map fun (parts, rest) => (part :: parts, rest)
    if c = '"' then some ([], cs)
    else if c = '$' then
      match cutScriptVariable true cs with
      | some (part, rest) => more part rest
      | none => more (.text "$") cs
    else if c = '\\' then
      match cs with
      | d :: rest =>
        if d = '"' || d = '\\' || d = '$' then more (.text d.toString) rest
        else more (.text "\\") cs
      | [] => none
    else more (.text c.toString) cs

/-- Reads the parts of a word. `steps` bounds them. -/
def wordParts : Nat → List Char → Option (List ScriptPart × List Char)
  | 0, _ => none
  | _ + 1, [] => some ([], [])
  | steps + 1, c :: cs =>
    let more (part : ScriptPart) (rest : List Char) :=
      (wordParts steps rest).map fun (parts, rest) => (part :: parts, rest)
    if c = ' ' || c = '\t' || c = '\n' || c = ';' || c = '&' || c = '|' || c = '>' then some ([], c :: cs)
    else if c = '\'' then
      match cs.dropWhile (· ≠ '\'') with
      | _ :: rest => more (.text (String.ofList (cs.takeWhile (· ≠ '\'')))) rest
      | [] => none
    else if c = '"' then
      match quotedParts steps cs with
      | some (parts, rest) =>
        (wordParts steps rest).map fun (others, rest) => (.text "" :: parts ++ others, rest)
      | none => none
    else if c = '$' then
      match cutScriptVariable false cs with
      | some (part, rest) => more part rest
      | none => more (.text "$") cs
    else if c = '\\' then
      match cs with
      | d :: rest => more (.text d.toString) rest
      | [] => more (.text "\\") []
    else more (.text c.toString) cs

/-- The number that digits write. -/
def numberOf (digits : List Char) : Nat :=
  digits.foldl (fun n c => n * 10 + (c.toNat - '0'.toNat)) 0

/-- A copy of a descriptor at the head of a script. -/
def cutCopy (cs : List Char) : Option (ScriptToken × List Char) :=
  let source := cs.takeWhile Char.isDigit
  match cs.dropWhile Char.isDigit with
  | '>' :: '&' :: rest =>
    let target := rest.takeWhile Char.isDigit
    if target.isEmpty then none
    else
      some (.copy (if source.isEmpty then 1 else numberOf source) (numberOf target),
        rest.dropWhile Char.isDigit)
  | _ => none

/-- The tokens of a script; nothing if it cannot be read. `steps` bounds them. -/
def scriptTokens : Nat → List Char → Option (List ScriptToken)
  | 0, _ => none
  | _ + 1, [] => some []
  | steps + 1, c :: cs =>
    let more (t : ScriptToken) (rest : List Char) := (scriptTokens steps rest).map (t :: ·)
    if c = ' ' || c = '\t' then scriptTokens steps cs
    else if c = ';' || c = '\n' then more .next cs
    else
      match c :: cs with
      | '&' :: '&' :: rest => more .andThen rest
      | '|' :: '|' :: rest => more .orElse rest
      | all =>
        match cutCopy all with
        | some (t, rest) => more t rest
        | none =>
          match wordParts (steps + 1) all with
          | some (parts, rest) => if parts.isEmpty then none else more (.word parts) rest
          | none => none

/-- When a command is run. -/
inductive Condition where
  | always
  | afterSuccess
  | afterFailure
  deriving DecidableEq

/-- A command of a script. -/
structure ScriptCommand where
  condition : Condition
  words : List (List ScriptPart) := []
  copies : List (Nat × Nat) := []

/-- The commands of a script. `current` is the one being read. -/
def scriptCommands (current : ScriptCommand) : List ScriptToken → List ScriptCommand
  | [] => [current]
  | .word parts :: rest => scriptCommands { current with words := current.words ++ [parts] } rest
  | .copy source target :: rest =>
    scriptCommands { current with copies := current.copies ++ [(source, target)] } rest
  | .next :: rest => current :: scriptCommands { condition := .always } rest
  | .andThen :: rest => current :: scriptCommands { condition := .afterSuccess } rest
  | .orElse :: rest => current :: scriptCommands { condition := .afterFailure } rest

/-- Reads a script. -/
def readScript (script : String) : Option (List ScriptCommand) :=
  (scriptTokens (script.length + 1) script.toList).map (scriptCommands { condition := .always })

/-- A shell while it runs a script. -/
structure ShellState where
  writes : List (Nat × String) := []
  /-- The exit code of the last command. -/
  code : Nat := 0
  /-- The status with which the shell has ended. -/
  ended : Option Nat := none

/-- The number that stands for the shell's own process. -/
def ownProcess : String := "1"

/-- The value of a variable. -/
def variableValue (c : Context) (s : ShellState) (name : String) : String :=
  if name = "$" then ownProcess
  else if name = "?" then toString s.code
  else (c.environment.lookup name).getD ""

/-- The fields of a word: `done` are finished, and `current` is being put together. -/
def expandParts (c : Context) (s : ShellState) (done : List String) (current : Option String) :
    List ScriptPart → List String
  | [] => done ++ current.toList
  | .text t :: rest => expandParts c s done (some (current.getD "" ++ t)) rest
  | .variable_ name true :: rest =>
    expandParts c s done (some (current.getD "" ++ variableValue c s name)) rest
  | .variable_ name false :: rest =>
    match wordsOf (variableValue c s name) with
    | [] => expandParts c s done current rest
    | [word] => expandParts c s done (some (current.getD "" ++ word)) rest
    | first :: others =>
      expandParts c s (done ++ [current.getD "" ++ first] ++ others.dropLast) others.getLast? rest

/-- The descriptor that writing to a descriptor reaches; nothing if it is not open. -/
def redirected (open_ : List Nat) (copies : List (Nat × Nat)) : Except Nat (Nat → Nat) :=
  copies.foldlM (fun f (source, target) =>
    if open_.contains (f target) then .ok fun n => if n = source then f target else f n
    else .error target) id

/-- The numbers of signals. -/
def signalNumber (name : String) : Option Nat :=
  match name with
  | "HUP" => some 1
  | "INT" => some 2
  | "KILL" => some 9
  | "TERM" => some 15
  | n => if !n.isEmpty && n.all Char.isDigit then some (numberOf n.toList) else none

/-- What a command of the shell gives: what it writes, its exit code, and the status with which the
shell ends, if it does. `run` runs any other program. -/
def shellCommand (s : ShellState) (run : String → List String → Option Result) (name : String)
    (args : List String) : List (Nat × String) × Nat × Option Nat :=
  match name with
  | "echo" =>
    let (style, words) : EchoStyle × List String := match args with
      | "-n" :: rest => ({ newline := false, escapes := true }, rest)
      | words => ({ escapes := true }, words)
    ([(1, echoWords style words)], 0, none)
  | ":" => ([], 0, none)
  | "exit" =>
    match args with
    | [] => ([], s.code, some (exitStatus s.code))
    | n :: _ =>
      if !n.isEmpty && n.all Char.isDigit then
        let code := numberOf n.toList % 256
        ([], code, some (exitStatus code))
      else ([(2, "sh: 1: exit: Illegal number: " ++ n ++ "\n")], 2, some (exitStatus 2))
  | "kill" =>
    let (signal, target) := match args with
      | [option, target] =>
        match option.toList with
        | '-' :: name => (signalNumber (String.ofList name), target)
        | _ => (none, target)
      | ["-s", name, target] => (signalNumber name, target)
      | [target] => (some 15, target)
      | _ => (none, "")
    match signal with
    | some n => if target = ownProcess then ([], 0, some n) else ([], 1, none)
    | none => ([(2, "sh: 1: kill: Illegal number\n")], 2, none)
  | _ =>
    match run name args with
    | some r => (r.writes, if r.status % 256 = 0 then r.status / 256 else 128 + r.status, none)
    | none => ([(2, "sh: 1: " ++ name ++ ": not found\n")], 127, none)

/-- Runs a command of a script. -/
def shellStep (c : Context) (run : String → List String → Option Result) (s : ShellState)
    (command : ScriptCommand) : ShellState :=
  let wanted := match command.condition with
    | .always => true
    | .afterSuccess => s.code == 0
    | .afterFailure => s.code != 0
  if s.ended.isSome || !wanted then s
  else
    match command.words.flatMap (expandParts c s [] none) with
    | [] => s
    | name :: args =>
      match redirected c.open_ command.copies with
      | .error target =>
        { s with
          writes := s.writes ++ [(2, "sh: 1: " ++ toString target ++ ": Bad file descriptor\n")]
          code := 2 }
      | .ok route =>
        let (writes, code, ended) := shellCommand s run name args
        { writes := s.writes ++ writes.map fun (n, text) => (route n, text), code, ended }

/-- Runs a script. -/
def runScript (c : Context) (run : String → List String → Option Result) (script : String) : Result :=
  match readScript script with
  | none => .ofError "sh: 1: Syntax error\n" 2
  | some commands =>
    let s := commands.foldl (shellStep c run) {}
    { writes := s.writes, status := s.ended.getD (exitStatus s.code) }

/-- The names of the commands in a script. -/
def scriptWords (script : String) : List (List String) :=
  ((readScript script).getD []).map fun command =>
    command.words.map fun parts => String.join (parts.map fun part =>
      match part with
      | .text t => t
      | .variable_ .. => "$")

end ValueShell.Program
