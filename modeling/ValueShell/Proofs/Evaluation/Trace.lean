import Mathlib.Logic.Function.Basic
import ValueShell.Evaluation.Job
import ValueShell.Proofs.Pipeline.Diagnosis

/-!
# What the evaluation of a plan does

Processes are black boxes here: all that is known of one is what it was asked to run and the status that
it ends with. An evaluation launches processes and stores statuses, and `Traces p es c` says that the
evaluation of `p` can do the events `es` and end with the status `c`. The two sides of a pipe go on at
the same time, the pipe ends with its right side, and what the left side has not done by then it never
does.

`interpret` evaluates a plan the direct way, one command after the other. It agrees with the traces
of a plan without pipes in everything (`interpret_of_traces`), and with those of any plan in what is
stored under a name, as long as nothing is stored under this name in the left side of a pipe
(`interpret_rc_of_traces`).
-/

set_option autoImplicit false

namespace ValueShell.Evaluation

variable {c : Int} {p : Plan} {name : String}

/-- A process of which nothing is known but what it is asked to run. -/
structure BlackBox where
  words : List (List PlanPiece)
  redirects : List Redirect

/-- Something that an evaluation does. -/
inductive Event where
  | launched (process : BlackBox) (status : Int)
  | stored (name : String) (status : Int)

/-! ## Interleaving -/

/-- The events `es` are those of `ls` and those of `rs`, each in their order. -/
inductive Interleaves {α : Type} : List α → List α → List α → Prop
  | nil : Interleaves [] [] []
  | left {e ls rs es} : Interleaves ls rs es → Interleaves (e :: ls) rs (e :: es)
  | right {e ls rs es} : Interleaves ls rs es → Interleaves ls (e :: rs) (e :: es)

namespace Interleaves

variable {α : Type} {ls rs es : List α}

theorem append_left (front : List α) (h : Interleaves ls rs es) :
    Interleaves (front ++ ls) rs (front ++ es) := by
  induction front with
  | nil => exact h
  | cons e front ih => exact .left ih

theorem append_right (front : List α) (h : Interleaves ls rs es) :
    Interleaves ls (front ++ rs) (front ++ es) := by
  induction front with
  | nil => exact h
  | cons e front ih => exact .right ih

theorem mem_iff (h : Interleaves ls rs es) (e : α) : e ∈ es ↔ e ∈ ls ∨ e ∈ rs := by
  induction h with
  | nil => simp
  | left _ ih => simp [ih, or_assoc]
  | right _ ih => simp [ih, or_left_comm]

end Interleaves

/-! ## Traces -/

/-- The evaluation of a plan can do some events and end with a status. -/
inductive Traces : Plan → List Event → Int → Prop
  | process {kinds words redirects} (c : Int) :
      Traces (.process kinds words redirects) [.launched ⟨words, redirects⟩ c] c
  | stored {kinds command name es c} : Traces command es c →
      Traces (.assign kinds command name) (es ++ [.stored name c]) c
  | rendered {kinds command es c} : Traces command es c → Traces (.rendered kinds command) es c
  | stops {kinds op left right es c} : op ≠ .pipe → Traces left es c → Job.goesOn op c = false →
      Traces (.binary kinds op left right) es c
  | goesOn {kinds op left right es c es' c'} : op ≠ .pipe → Traces left es c →
      Job.goesOn op c = true → Traces right es' c' →
      Traces (.binary kinds op left right) (es ++ es') c'
  | pipe {kinds left right ls c rs c' front es} : Traces left ls c → Traces right rs c' →
      front <+: ls → Interleaves front rs es → Traces (.binary kinds .pipe left right) es c'

/-- The process that an event launches. -/
def Event.process? : Event → Option BlackBox
  | .launched b _ => some b
  | .stored _ _ => none

/-- What is stored after an event. -/
def Event.update (rc : String → Option Int) : Event → String → Option Int
  | .launched _ _ => rc
  | .stored name c => Function.update rc name (some c)

/-- Every process that is launched has the status that `codes` says, the first one after `n` others. -/
def Faithful (codes : Nat → BlackBox → Int) : Nat → List Event → Prop
  | _, [] => True
  | n, .launched b c :: es => c = codes n b ∧ Faithful codes (n + 1) es
  | n, .stored _ _ :: es => Faithful codes n es

/-- Events are faithful if a first part of them is, and the rest after that. -/
theorem faithful_append {codes : Nat → BlackBox → Int} (es es' : List Event) (n : Nat) :
    Faithful codes n (es ++ es') ↔
      Faithful codes n es ∧ Faithful codes (n + (es.filterMap Event.process?).length) es' := by
  induction es generalizing n with
  | nil => simp [Faithful]
  | cons e es ih =>
    cases e with
    | launched b c =>
      have hlength : ((Event.launched b c :: es).filterMap Event.process?).length =
          1 + (es.filterMap Event.process?).length := by
        simp [Event.process?, Nat.add_comm]
      simp only [List.cons_append, Faithful, ih, hlength, and_assoc, Nat.add_assoc]
    | stored name c => exact ih n

end ValueShell.Evaluation
