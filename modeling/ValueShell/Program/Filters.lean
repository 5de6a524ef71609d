import ValueShell.Program.Basic
import ValueShell.Value.Reading

/-!
# Programs that print, copy and filter lines
-/

set_option autoImplicit false

namespace ValueShell.Program

open ValueShell.Text

/-- The character of an escape after a backslash, if there is one. -/
def escape? : Char → Option Char
  | 'a' => some '\x07'
  | 'b' => some '\x08'
  | 'e' => some '\x1b'
  | 'f' => some '\x0c'
  | 'n' => some '\n'
  | 'r' => some '\r'
  | 't' => some '\t'
  | 'v' => some '\x0b'
  | '\\' => some '\\'
  | _ => none

/-- Replaces escapes. The second part tells that an escape ends all output. -/
def unescape : List Char → List Char × Bool
  | [] => ([], false)
  | ['\\'] => (['\\'], false)
  | '\\' :: 'c' :: _ => ([], true)
  | '\\' :: c :: rest =>
    let (others, ended) := unescape rest
    match escape? c with
    | some d => (d :: others, ended)
    | none => ('\\' :: c :: others, ended)
  | c :: rest =>
    let (others, ended) := unescape rest
    (c :: others, ended)

/-- How words are printed. -/
structure EchoStyle where
  newline : Bool := true
  escapes : Bool := false

/-- Prints words with blanks between them. -/
def echoWords (style : EchoStyle) (words : List String) : String :=
  let text := " ".intercalate words
  let (text, ended) := if style.escapes then
      let (cs, ended) := unescape text.toList
      (String.ofList cs, ended)
    else (text, false)
  if style.newline && !ended then text ++ "\n" else text

/-- Reads the options before the words that are printed. -/
def echoOptions (style : EchoStyle) : List String → EchoStyle × List String
  | [] => (style, [])
  | word :: rest =>
    match word.toList with
    | '-' :: c :: cs =>
      if (c :: cs).all fun c => c = 'n' || c = 'e' || c = 'E' then
        echoOptions ((c :: cs).foldl (fun style c =>
          if c = 'n' then { style with newline := false }
          else { style with escapes := c = 'e' }) style) rest
      else (style, word :: rest)
    | _ => (style, word :: rest)

/-- Prints its words. -/
def echo (args : List String) : Result :=
  let (style, words) := echoOptions {} args
  .ofOutput (echoWords style words)

/-- Copies its operands. -/
def cat (c : Context) (args : List String) : Result :=
  let writes := (readOperands c args).map fun (path, text) =>
    match text with
    | .ok text => (1, text)
    | .error fault => (2, "cat: " ++ path ++ ": " ++ reason fault ++ "\n")
  { writes, status := exitStatus (if writes.any fun w => w.1 == 2 then 1 else 0) }

/-- A line with a line feed at its end. -/
def withLineFeed (line : String) : String := if line.endsWith "\n" then line else line ++ "\n"

/-- Sorts the lines of its operands. -/
def sort (c : Context) (args : List String) : Result :=
  let texts := readOperands c args
  match texts.findSome? fun (path, text) =>
      match text with
      | .ok _ => none
      | .error fault => some (path, fault) with
  | some (path, fault) => .ofError ("sort: cannot read: " ++ path ++ ": " ++ reason fault ++ "\n") 2
  | none =>
    let lines := texts.flatMap fun (_, text) =>
      (linesOf (match text with
        | .ok text => text
        | .error _ => "")).map withLineFeed
    let sorted := (lines.map trimLineFeed).mergeSort fun a b => compare a b != .gt
    .ofOutput (String.join (sorted.map (· ++ "\n")))
where
  trimLineFeed (line : String) : String :=
    String.ofList (trimEnd (· = '\n') line.toList)

/-- Copies the lines of each operand, the last first. -/
def tac (c : Context) (args : List String) : Result :=
  let writes := (readOperands c args).map fun (path, text) =>
    match text with
    | .ok text => (1, String.join (linesOf text).reverse)
    | .error fault =>
      (2, "tac: failed to open '" ++ path ++ "' for reading: " ++ reason fault ++ "\n")
  { writes, status := exitStatus (if writes.any fun w => w.1 == 2 then 1 else 0) }

/-- One text is part of another. -/
def isPart (part : List Char) : List Char → Bool
  | [] => part.isEmpty
  | c :: cs => part.isPrefixOf (c :: cs) || isPart part cs

/-- Copies the lines of its operands that hold a word, or those that do not. -/
def grep (c : Context) (args : List String) : Result :=
  let (inverted, args) := match args with
    | "-v" :: rest => (true, rest)
    | args => (false, args)
  match args with
  | [] => .ofError "Usage: grep [OPTION]... PATTERNS [FILE]...\nTry 'grep --help' for more information.\n" 2
  | word :: operands =>
    let mark (path : String) := if operands.length > 1 then path ++ ":" else ""
    let writes := (readOperands c operands).flatMap fun (path, text) =>
      match text with
      | .ok text =>
        let kept := (linesOf text).filter fun line => isPart word.toList line.toList != inverted
        if kept.isEmpty then []
        else [(1, String.join (kept.map fun line => mark path ++ withLineFeed line))]
      | .error fault => [(2, "grep: " ++ path ++ ": " ++ reason fault ++ "\n")]
    let code := if writes.any fun w => w.1 == 2 then 2 else if writes.isEmpty then 1 else 0
    { writes, status := exitStatus code }

/-- Counts up. -/
def seq (args : List String) : Result :=
  match args.mapM fun a => Value.readInt? a 10 with
  | some [last] => .ofOutput (counted 1 1 last)
  | some [first, last] => .ofOutput (counted first 1 last)
  | some [first, step, last] => .ofOutput (counted first step last)
  | _ => .ofError "seq: invalid argument\nTry 'seq --help' for more information.\n" 1
where
  /-- The numbers from one to another, each on a line. -/
  counted (first step last : Int) : String :=
    let count := if step > 0 then (last - first) / step + 1
      else if step < 0 then (first - last) / -step + 1 else 0
    String.join ((List.range count.toNat).map fun (i : Nat) => toString (first + (i : Int) * step) ++ "\n")

end ValueShell.Program
