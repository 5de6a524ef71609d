import ValueShell.Fault
import ValueShell.Files.Path

/-!
# Trees of files

A file system as data: what stands at each path, and the current directory. Paths are resolved
component by component, and links are followed.
-/

set_option autoImplicit false

namespace ValueShell.Files

/-- The names from the root down. -/
abbrev Location := List String

/-- What stands at a location. -/
inductive Node where
  | directory
  | file (content : String)
  | link (target : String)
  | fifo
  /-- Takes everything and gives nothing. -/
  | null
  /-- A command of the system. -/
  | program (name : String)
  deriving Inhabited

/-- A node with its access rights and its times in milliseconds. -/
structure Entry where
  node : Node
  mode : Nat
  accessed : Int := 0
  modified : Int := 0
  deriving Inhabited

/-- A tree of files. -/
structure Tree where
  entries : List (Location × Entry) := []
  current : Location := []
  deriving Inhabited

namespace Tree

/-- What stands at a location; the root is always a directory. -/
def entryAt? (t : Tree) (l : Location) : Option Entry :=
  if l.isEmpty then some { node := .directory, mode := 0o755 }
  else (t.entries.find? fun e => e.1 == l).map (·.2)

/-- Puts an entry at a location. -/
def put (t : Tree) (l : Location) (e : Entry) : Tree :=
  if t.entries.any fun x => x.1 == l then
    { t with entries := t.entries.map fun x => if x.1 == l then (l, e) else x }
  else { t with entries := t.entries ++ [(l, e)] }

/-- The names in a directory, in order. -/
def names (t : Tree) (l : Location) : List String :=
  let inside := t.entries.filterMap fun e =>
    match e.1.reverse with
    | name :: parent => if parent.reverse == l then some name else none
    | [] => none
  inside.mergeSort fun a b => compare a b != .gt

/-- How many links may be followed on the way. -/
def maxLinks : Nat := 40

/-- The location that a path means, going down from a directory. The last component need not exist.
A link in the middle is followed, and one at the end if asked for. `links` and `steps` bound the links
that are followed and the components that are read. -/
def walk (t : Tree) (path : String) (follow : Bool) :
    Nat → Nat → Location → List String → Except Fault Location
  | 0, _, _, _ => .error (.linkCircle path)
  | _, 0, _, _ => .error (.linkCircle path)
  | _, _ + 1, here, [] => .ok here
  | links + 1, steps + 1, here, c :: rest =>
    match (t.entryAt? here).map Entry.node with
    | some .directory =>
      if c = "" || c = "." then walk t path follow (links + 1) steps here rest
      else if c = ".." then walk t path follow (links + 1) steps here.dropLast rest
      else
        let next := here ++ [c]
        match (t.entryAt? next).map Entry.node with
        | none => if rest.isEmpty then .ok next else .error (.noSuchFile path)
        | some (.link target) =>
          if rest.isEmpty && !follow then .ok next
          else
            let start := if isAbsolute target then [] else here
            walk t path follow links steps start (components target ++ rest)
        | some _ => walk t path follow (links + 1) steps next rest
    | _ => .error (.notDirectory path)

/-- The location that a path means. -/
def resolve (t : Tree) (follow : Bool) (path : String) : Except Fault Location :=
  if path.isEmpty then .error (.noSuchFile path)
  else if path.toList.contains (Char.ofNat 0) then .error .invalidValue
  else
    let start := if isAbsolute path then [] else t.current
    let longest := (t.entries.map fun e =>
      match e.2.node with
      | .link target => target.length + 1
      | _ => 1).foldl max 1
    walk t path follow maxLinks (path.length + 2 + maxLinks * longest) start (components path)

/-- The entry that a path means. -/
def find (t : Tree) (follow : Bool) (path : String) : Except Fault Entry := do
  let l ← t.resolve follow path
  match t.entryAt? l with
  | some e => .ok e
  | none => .error (.noSuchFile path)

/-- Something stands at the path. -/
def exists_ (t : Tree) (path : String) : Bool :=
  match t.find false path with
  | .ok _ => true
  | .error _ => false

/-- The path means a directory. -/
def isDirectory (t : Tree) (path : String) : Bool :=
  match t.find true path with
  | .ok { node := .directory, .. } => true
  | _ => false

/-- The names in the directory that a path means. -/
def list (t : Tree) (path : String) : Except Fault (List String) := do
  let l ← t.resolve true path
  match (t.entryAt? l).map Entry.node with
  | some .directory => .ok (t.names l)
  | some _ => .error (.notDirectory path)
  | none => .error (.noSuchFile path)

/-- The owner has a right to the entry: four to read, two to write, one to execute. -/
def Entry.allows (e : Entry) (right : Nat) : Bool := e.mode / 64 / right % 2 == 1

/-- The content of the file that a path means. -/
def read (t : Tree) (path : String) : Except Fault String := do
  let e ← t.find true path
  match e.node with
  | .directory => .error (.isDirectory path)
  | .file content => if Entry.allows e 4 then .ok content else .error (.noPermission path)
  | _ => .ok ""

/-- Opens a file for writing: its location, and the tree in which it is there, and is empty unless it
is opened to append. A path that ends in a slash means no file. -/
def openFile (t : Tree) (path : String) (append : Bool) : Except Fault (Location × Tree) := do
  let bare := String.ofList (path.toList.reverse.dropWhile (· = '/')).reverse
  let l ← t.resolve true (if bare.isEmpty then path else bare)
  if bare ≠ path then .error (.isDirectory path)
  else
    match t.entryAt? l with
    | none => .ok (l, t.put l { node := .file "", mode := 0o644 })
    | some e =>
      match e.node with
      | .directory => .error (.isDirectory path)
      | .file _ =>
        if !Entry.allows e 2 then .error (.noPermission path)
        else if append then .ok (l, t)
        else .ok (l, t.put l { e with node := .file "" })
      | _ => .ok (l, t)

/-- Adds to the end of a file. -/
def append (t : Tree) (l : Location) (content : String) : Tree :=
  match t.entryAt? l with
  | some e =>
    match e.node with
    | .file before => t.put l { e with node := .file (before ++ content) }
    | _ => t
  | none => t

/-- Makes the directory that a path means the current one. -/
def enter (t : Tree) (path : String) : Except Fault Tree := do
  let l ← t.resolve true path
  match (t.entryAt? l).map Entry.node with
  | some .directory => .ok { t with current := l }
  | some _ => .error (.notDirectory path)
  | none => .error (.noSuchFile path)

/-- The path of a location. -/
def pathOf (l : Location) : String := "/" ++ "/".intercalate l

end Tree

end ValueShell.Files
