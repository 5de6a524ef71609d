import ValueShell.Script.Call
import ValueShell.Script.Line

/-!
# Scripts in the host language alone

Converting a script leaves the lines of the host language as they are and turns every command line
into a call that runs it, with an assignment of the results that the command line names.
-/

set_option autoImplicit false

namespace ValueShell.Script

open ValueShell.Text

/-- How a converted script is written. -/
structure Style where
  /-- The comment at the head of a file. -/
  signature : Bool := false
  /-- The function that runs a command line. -/
  runFunction : String := "pysh.shell.runner.run"

/-- The comment at the head of a converted file. -/
def signatureText : String :=
  "# -*- coding: utf-8 -*-\n# This file was auto-generated by pysh.\n# Don't edit this by hand.\n"

/-- The line that makes the function known. -/
def importText : String := "import pysh.shell.runner\n"

/-- The names under which a command line hands back results. -/
def resultNames (content : String) : Except Fault (List String) :=
  (Tree.parse [] content).map fun (tree, _) => tree.resultNames

/-- The call that runs a command line, with the names that its results are assigned to. -/
def callText (style : Style) (content : String) (names : List String) : String :=
  (Call.ofCommand style.runFunction content names).source

/-- The text of a line after its indentation and before its end. -/
def lineText (style : Style) (line : Line) : Except Fault String :=
  let content := String.ofList line.content
  match line.mode with
  | .host => .ok content
  | .shell =>
    if line.content.isEmpty then .ok ""
    else (resultNames content).map (callText style content)

/-- A text that was written, and the fault that ended the writing. -/
structure Written where
  text : String
  fault : Option Fault := none

/-- Puts a text before what was written. -/
def Written.after (head : String) (w : Written) : Written := { w with text := head ++ w.text }

/-- Writes lines one after the other. -/
def writeLines (style : Style) (fault : Option Fault) : List Line → Written
  | [] => { text := "", fault }
  | line :: rest =>
    match lineText style line with
    | .error fault => { text := String.ofList line.indent, fault }
    | .ok text =>
      (writeLines style fault rest).after (String.ofList line.indent ++ text ++ "\n")

/-- The converted script. -/
def convert (style : Style) (script : List Char) : Written :=
  let r := lines script
  (writeLines style (r.complaint.map .complaint) r.lines).after
    ((if style.signature then signatureText else "") ++ importText)

end ValueShell.Script
