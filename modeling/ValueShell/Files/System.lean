import ValueShell.Files.Tree

/-!
# The system around a working directory

The directories and programs that are there before anything is set up, and what changes in the files
of the working directory.
-/

set_option autoImplicit false

namespace ValueShell.Files

/-- The working directory. -/
def workLocation : Location := ["work"]

/-- The programs of the system. -/
def programs : List String := ["cat", "echo", "false", "grep", "seq", "sh", "sort", "tac", "true"]

/-- The tree before anything is set up. -/
def system : Tree :=
  let directory (l : Location) : Location × Entry := (l, { node := .directory, mode := 0o755 })
  let program (parent : Location) (name : String) : Location × Entry :=
    (parent ++ [name], { node := .program name, mode := 0o755 })
  { entries :=
      [["bin"], ["dev"], ["etc"], ["home"], ["root"], ["tmp"], ["usr"], ["usr", "bin"],
        ["usr", "local"], ["usr", "local", "bin"], workLocation].map directory ++
      programs.map (program ["bin"]) ++ programs.map (program ["usr", "bin"]) ++
      [(["dev", "null"], { node := .null, mode := 0o666 })]
    current := workLocation }

namespace Tree

/-- The location of a path in the working directory. -/
def workPath (path : String) : Location :=
  workLocation ++ (components path).filter fun c => c ≠ "" && c ≠ "."

/-- Puts a node into the working directory. -/
def addNode (t : Tree) (path : String) (node : Node) (mode : Nat) : Tree :=
  t.put (workPath path) { node, mode }

/-- Changes the entry that a path means. -/
def modifyEntry (t : Tree) (path : String) (f : Entry → Entry) : Tree :=
  match t.resolve true path with
  | .ok l =>
    match t.entryAt? l with
    | some e => t.put l (f e)
    | none => t
  | .error _ => t

/-- A location as a path in the working directory; nothing if it lies outside. -/
def relative? (l : Location) : Option String :=
  if workLocation.isPrefixOf l then some ("/".intercalate (l.drop workLocation.length)) else none

/-- The files of the working directory with their contents. -/
def workFiles (t : Tree) : List (String × String) :=
  t.entries.filterMap fun (l, e) =>
    match e.node, relative? l with
    | .file content, some path => some (path, content)
    | _, _ => none

/-- The owner can read every file of the working directory. -/
def isReadable (t : Tree) : Bool :=
  t.entries.all fun (l, e) =>
    match e.node, relative? l with
    | .file _, some _ => Entry.allows e 4
    | _, _ => true

/-- The files of the working directory that are new or have another content. -/
def changedFiles (before after : Tree) : List (String × String) :=
  let old := before.workFiles
  after.workFiles.filter fun f => !old.contains f

/-- The current directory as it is shown: nothing if it is the working directory, a path inside of it,
or a path from the root. -/
def shownDirectory (t : Tree) : Option String :=
  if t.current = workLocation then none else (relative? t.current).or (some (pathOf t.current))

end Tree

end ValueShell.Files
