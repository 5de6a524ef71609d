import ValueShell.Value.Basic

/-!
# Paths

Paths as texts: taking them apart at slashes, joining them and replacing a leading tilde by a home
directory.
-/

set_option autoImplicit false

namespace ValueShell.Files

/-- The components of a path between its slashes; empty ones are kept. -/
def components (path : String) : List String :=
  (go [] path.toList).map String.ofList
where
  /-- Splits characters at slashes, when the component being read holds `part`, last first. -/
  go (part : List Char) : List Char → List (List Char)
    | [] => [part.reverse]
    | c :: rest => if c = '/' then part.reverse :: go [] rest else go (c :: part) rest

/-- The path begins at the root. -/
def isAbsolute (path : String) : Bool := path.toList.head? == some '/'

/-- The path of a name in a directory. -/
def join (directory name : String) : String :=
  if isAbsolute name || directory.isEmpty then name
  else if directory.toList.getLast? == some '/' then directory ++ name
  else directory ++ "/" ++ name

/-- The directory part and the last name of a path. -/
def split (path : String) : String × String :=
  let cs := path.toList
  let name := (cs.reverse.takeWhile (· ≠ '/')).reverse
  let head := cs.take (cs.length - name.length)
  let trimmed := (head.reverse.dropWhile (· = '/')).reverse
  (String.ofList (if trimmed.isEmpty then head else trimmed), String.ofList name)

/-- The path without the ending of its last name, and that ending with its point. Points at the
beginning of the name do not begin an ending. -/
def splitEnding (path : String) : String × String :=
  let (_, name) := split path
  let cs := name.toList
  let body := cs.dropWhile (· = '.')
  if body.contains '.' then
    let ending := (body.reverse.takeWhile (· ≠ '.')).reverse
    let keep := path.toList.length - ending.length - 1
    (String.ofList (path.toList.take keep), "." ++ String.ofList ending)
  else (path, "")

/-- Replaces a leading tilde, alone or before a slash, by the home directory, and one before the name
of the superuser by that user's. -/
def expandHome (home : Option String) (path : String) : String :=
  match path.toList with
  | '~' :: rest =>
    let user := rest.takeWhile (· ≠ '/')
    let tail := rest.dropWhile (· ≠ '/')
    let directory :=
      if user.isEmpty then some (home.getD "/root")
      else if user = "root".toList then some "/root"
      else none
    match directory with
    | none => path
    | some d =>
      let trimmed := (d.toList.reverse.dropWhile (· = '/')).reverse
      let expanded := trimmed ++ tail
      if expanded.isEmpty then "/" else String.ofList expanded
  | _ => path

end ValueShell.Files
