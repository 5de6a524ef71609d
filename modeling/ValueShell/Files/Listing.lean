import ValueShell.Files.Tree
import ValueShell.Value.Display

/-!
# Listings of files

A listing has a row for each file with its type, its rights, its owner, its times and its path.
-/

set_option autoImplicit false

namespace ValueShell.Files

/-- What a listing shows of a file: the word of its type and rights, and its times in
milliseconds. -/
structure Status where
  mode : Nat
  accessed : Int
  modified : Int

/-- The word of an entry's type. -/
def Node.typeBits : Node → Nat
  | .directory => 0o040000
  | .file _ => 0o100000
  | .link _ => 0o120000
  | .fifo => 0o010000
  | .null => 0o020000
  | .program _ => 0o100000

/-- The status of an entry. -/
def Entry.status (e : Entry) : Status :=
  { mode := e.node.typeBits + e.mode, accessed := e.accessed, modified := e.modified }

/-- The letter of a type. -/
def typeMark (mode : Nat) : String :=
  match mode / 0o10000 % 16 with
  | 0o4 => "d"
  | 0o6 => "b"
  | 0o12 => "l"
  | 0o14 => "s"
  | 0o1 => "p"
  | 0o2 => "c"
  | 0o10 => "-"
  | _ => "?"

/-- The columns of a listing. -/
def listingColumns : List String := ["type", "mode", "user", "group", "mtime", "atime", "path"]

/-- A time in a listing; the fraction of its second is cut off unless it is asked for. -/
def listedTime (full : Bool) (millis : Int) : Value :=
  .moment (if full then millis * 1000 else Int.tdiv millis 1000 * 1000000)

/-- The row of a file. -/
def listingRow (path : String) (s : Status) (full : Bool) : Value :=
  .tuple [.text (typeMark s.mode), .permission (s.mode % 0o1000), .text "root", .text "root",
    listedTime full s.modified, listedTime full s.accessed, .text path]

/-- The options of a listing. -/
structure ListingOptions where
  /-- Lists a directory itself. -/
  directory : Bool := false
  /-- Shows fractions of seconds. -/
  fullTime : Bool := false

/-- The long options. -/
def longOptions : List String := ["--directory", "--fulltime", "--help"]

/-- Sets a long option, which may be abbreviated. -/
def ListingOptions.setLong (o : ListingOptions) (arg : String) : Except Fault ListingOptions :=
  let possible :=
    if longOptions.contains arg then [arg] else longOptions.filter fun l => arg.toList.isPrefixOf l.toList
  match possible with
  | ["--directory"] => .ok { o with directory := true }
  | ["--fulltime"] => .ok { o with fullTime := true }
  | _ => .error (.complaint .optionExit)

/-- Sets short options. -/
def ListingOptions.setShort (o : ListingOptions) : List Char → Except Fault ListingOptions
  | [] => .ok o
  | 'd' :: rest => ListingOptions.setShort { o with directory := true } rest
  | _ :: _ => .error (.complaint .optionExit)

/-- Separates options from the other arguments. -/
def readOptions (o : ListingOptions) : List Value → Except Fault (ListingOptions × List Value)
  | [] => .ok (o, [])
  | arg :: rest =>
    let keep : Except Fault (ListingOptions × List Value) :=
      (readOptions o rest).map fun (o, others) => (o, arg :: others)
    match arg with
    | .text "--" => .ok (o, rest)
    | .text s =>
      match s.toList with
      | '-' :: '-' :: _ => (o.setLong s).bind fun o => readOptions o rest
      | '-' :: c :: cs => (o.setShort (c :: cs)).bind fun o => readOptions o rest
      | _ => keep
    | .list _ => keep
    | .tuple _ => keep
    | .range .. => keep
    | _ => .error .wrongKind

/-- The rows of a listing and the fault that ended it. -/
structure Listed where
  rows : List Value
  fault : Option Fault := none

/-- Puts rows before a listing. -/
def Listed.after (rows : List Value) (l : Listed) : Listed := { l with rows := rows ++ l.rows }

/-- The rows of the visible names in a directory, with the status of the last. -/
def listNames (t : Tree) (full : Bool) (path : String) (last : Status) :
    List String → Listed × Option Status
  | [] => ({ rows := [] }, some last)
  | name :: rest =>
    let joined := join path name
    match t.find false joined with
    | .error fault => ({ rows := [], fault }, none)
    | .ok e =>
      let (others, last) := listNames t full path e.status rest
      (others.after [listingRow joined e.status full], last)

/-- The rows of one path. The contents of a directory are followed by a row for the path itself,
which shows the status of the last name. Any other path has no row. -/
def listPath (t : Tree) (o : ListingOptions) (path : String) : Listed :=
  match t.find false path with
  | .error fault => { rows := [], fault }
  | .ok e =>
    match e.node with
    | .directory =>
      if o.directory then { rows := [] }
      else
        match t.list path with
        | .error fault => { rows := [], fault }
        | .ok names =>
          let visible := names.filter fun n => n.toList.head? != some '.'
          match listNames t o.fullTime path e.status visible with
          | (listed, some last) => { listed with rows := listed.rows ++ [listingRow path last o.fullTime] }
          | (listed, none) => listed
    | _ => { rows := [] }

/-- The rows of all paths. -/
def listPaths (t : Tree) (o : ListingOptions) : List Value → Listed
  | [] => { rows := [] }
  | .text path :: rest =>
    let first := listPath t o path
    match first.fault with
    | some _ => first
    | none => (listPaths t o rest).after first.rows
  | _ :: _ => { rows := [], fault := some .wrongKind }

end ValueShell.Files
