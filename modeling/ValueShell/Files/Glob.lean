import ValueShell.Files.Pattern
import ValueShell.Files.Tree

/-!
# Paths that match a pattern

Each component of a pattern is matched against the names in a directory. A name that begins with a
point is matched only by a component that does.
-/

set_option autoImplicit false

namespace ValueShell.Files

/-- The text has characters that make it a pattern. -/
def isPattern (s : String) : Bool := s.toList.any fun c => c = '*' || c = '?' || c = '['

/-- The name begins with a point. -/
def isHidden (s : String) : Bool := s.toList.head? == some '.'

/-- Joins two paths of which one may be empty. -/
def joinNonempty (directory name : String) : String :=
  if directory.isEmpty then name else if name.isEmpty then directory else join directory name

/-- The names in a directory that match a pattern; only directories if asked for. -/
def matchingNames (t : Tree) (directory pattern : String) (onlyDirectories : Bool) : List String :=
  match t.list (if directory.isEmpty then "." else directory) with
  | .error _ => []
  | .ok names => names.filter fun name =>
      (!onlyDirectories || t.isDirectory (joinNonempty directory name)) &&
      (isHidden pattern || !isHidden name) && nameMatches pattern name

/-- The name in a directory, if it is there; an empty name asks for the directory itself. -/
def literalName (t : Tree) (directory name : String) : List String :=
  if name.isEmpty then if t.isDirectory directory then [name] else []
  else if t.exists_ (joinNonempty directory name) then [name] else []

/-- The paths that match a pattern. The directory part of a pattern is shorter than the pattern, which
bounds the steps. -/
def globFrom (t : Tree) : Nat → Bool → String → List String
  | 0, _, _ => []
  | n + 1, onlyDirectories, pattern =>
    let (directory, name) := split pattern
    if !isPattern pattern then
      if name.isEmpty then if t.isDirectory directory then [pattern] else []
      else if t.exists_ pattern then [pattern] else []
    else if directory.isEmpty then matchingNames t "" name onlyDirectories
    else
      let directories :=
        if directory ≠ pattern && isPattern directory then globFrom t n true directory else [directory]
      directories.flatMap fun d =>
        (if isPattern name then matchingNames t d name onlyDirectories else literalName t d name).map
          fun found => join d found

/-- The paths that match a pattern, in order. -/
def glob (t : Tree) (pattern : String) : List String :=
  (globFrom t (pattern.length + 1) false pattern).mergeSort fun a b => compare a b != .gt

end ValueShell.Files
