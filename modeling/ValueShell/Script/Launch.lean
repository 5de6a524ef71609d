import ValueShell.Files.System
import ValueShell.Script.Convert
import ValueShell.Text.Lines

/-!
# Launching a script

The command line takes a script as a file, as an argument or from its input, converts it, and runs the
result. What is run, and what else is done, is computed here.
-/

set_option autoImplicit false

namespace ValueShell.Script

open ValueShell.Text

/-- What the command line does. -/
structure Launch where
  /-- The words of the command that is run in the end. -/
  command : Option (List String) := none
  /-- What is printed to the error output. -/
  errors : String := ""
  /-- The status, if nothing is run. -/
  status : Option Nat := none
  fault : Option Fault := none
  files : Files.Tree

/-- How the command line is used. -/
def usage : String := "Usage: pysh [-c cmd | file | -]\n"

/-- The complaint about a script that is already converted. -/
def alreadyConverted : String := "An input file shoundn't be *.py.\n"

/-- The program that runs converted scripts. -/
def interpreter : String := "python"

/-- Runs a script that is given as text. -/
def launchText (files : Files.Tree) (script : List Char) (args : List String) : Launch :=
  let w := convert {} script
  match w.fault with
  | some fault => { files, fault }
  | none => { files, command := some ([interpreter, interpreter, "-c", w.text] ++ args) }

/-- Converts a script file into a file beside it and runs that. -/
def launchFile (files : Files.Tree) (path : String) (args : List String) : Launch :=
  let (stem, ending) := Files.splitEnding path
  if ending = ".py" then { files, errors := alreadyConverted, status := some 1 }
  else
    let target := stem ++ ".py"
    match files.read path with
    | .error fault => { files, fault }
    | .ok script =>
      match files.openFile target false with
      | .error fault => { files, fault }
      | .ok (location, files) =>
        let w := convert { signature := true } (normalizeNewlines script.toList)
        let files := files.append location w.text
        match w.fault with
        | some fault => { files, fault }
        | none => { files, command := some ([interpreter, interpreter, target] ++ args) }

/-- What the command line does for its arguments and its input. -/
def launch (files : Files.Tree) (input : List Char) (args : List String) : Launch :=
  let wrong : Launch := { files, errors := usage, status := some 1 }
  match args with
  | [] => wrong
  | "-" :: rest => launchText files input rest
  | ["-c"] => wrong
  | "-c" :: script :: rest => launchText files script.toList rest
  | path :: rest => launchFile files path rest

end ValueShell.Script
