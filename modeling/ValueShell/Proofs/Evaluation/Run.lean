import ValueShell.Evaluation.Session
import ValueShell.Proofs.Task.Tasks

/-!
# Runs of an evaluation

`Run leaf next plan w r` says that the evaluation of `plan` in the world `w` can come to the runner `r`.
The runner takes steps, and between them it is told that a command or process has ended. Which ends are
told, in which order, and what has happened to the world in the meantime is left to `next`, so that a
statement about all runs is one about every order in which processes end. `run_of_deliver` says that
what `deliver` returns is such a run.
-/

set_option autoImplicit false

namespace ValueShell.Evaluation

open ValueShell.Task

variable {π : Type}

/-- A runner that is told of an end, in a world where this end is taken notice of. -/
def tell (c : Completion) (w : World) (r : Runner (Job π) Mark Response World) :
    Runner (Job π) Mark Response World :=
  ({ r with world := w } : Runner (Job π) Mark Response World).push
    (.call (.respond (.status c.status)) .ended (some c.owner))

/-- The evaluation of `plan` in the world `w` can come to a runner. `next w c w'` holds if the end `c` can
be told in the world `w`, which is `w'` afterwards. -/
inductive Run (leaf : Leaf π) (next : World → Completion → World → Prop) (plan : Plan) (w : World) :
    Runner (Job π) Mark Response World → Prop
  | start : Run leaf next plan w (evaluation plan w)
  | step {r} : Run leaf next plan w r → Run leaf next plan w (Runner.step (Job.behavior leaf) r).1
  | report {r c w'} : Run leaf next plan w r → r.stack = [] → r.done = false →
      next r.world c w' → Run leaf next plan w (tell c w' r)

variable {leaf : Leaf π} {next : World → Completion → World → Prop} {plan : Plan} {w : World}

/-- What holds in the beginning and is kept by all tasks, and by the world between the ends, holds
throughout a run. -/
theorem Run.holds {P : Job π → Prop} {Q : Response → Prop} {I : World → Prop}
    (hb : (Job.behavior leaf).Maintains P Q I) (hplan : P (.evaluate standardStreams plan)) (hw : I w)
    (hrespond : ∀ status, P (.respond (.status status))) (hnext : ∀ w c w', next w c w' → I w → I w')
    {r : Runner (Job π) Mark Response World} (h : Run leaf next plan w r) : r.Holds P Q I := by
  induction h with
  | start => exact Runner.holds_ofTask _ hplan hw
  | step _ ih => exact ih.step hb
  | report _ _ _ hc ih => exact (ih.setWorld (hnext _ _ _ hc ih.world)).push (hrespond _)

/-- A run goes on while entries are processed. -/
theorem Run.drain {halted : World → Bool} {r : Runner (Job π) Mark Response World}
    {x : Runner (Job π) Mark Response World × Option Fault}
    (hx : Runner.drain (Job.behavior leaf) halted r = some x) (h : Run leaf next plan w r) :
    Run leaf next plan w x.1 ∧ (x.2 = none → x.1.stack = [] ∨ halted x.1.world = true) := by
  revert h
  refine Runner.drain.partial_correctness (Job.behavior leaf) halted
    (fun r x => Run leaf next plan w r →
      Run leaf next plan w x.1 ∧ (x.2 = none → x.1.stack = [] ∨ halted x.1.world = true)) ?_ r x hx
  intro drain ih r x hx h
  split at hx
  · rename_i hend
    cases hx
    refine ⟨h, fun _ => ?_⟩
    simpa only [Bool.or_eq_true, List.isEmpty_iff] using hend
  · have hstep := h.step
    split at hx
    · rename_i heq
      rw [heq] at hstep
      cases hx
      exact ⟨hstep, fun hnone => by cases hnone⟩
    · rename_i heq
      rw [heq] at hstep
      exact ih _ _ hx hstep

/-- What `deliver` returns is a run in which the ends are told as the world reports them. -/
theorem run_of_deliver {r : Runner (Job π) Mark Response World} {fault : Option Fault}
    (h : leaf.deliver (evaluation plan w) = some (r, fault)) :
    Run leaf (fun w c w' => w.nextCompletion = .ok (c, w')) plan w r := by
  have hall := Leaf.deliver.partial_correctness leaf
    (fun r x => Run leaf (fun w c w' => w.nextCompletion = .ok (c, w')) plan w r →
      Run leaf (fun w c w' => w.nextCompletion = .ok (c, w')) plan w x.1) ?_
    (evaluation plan w) (r, fault) h
  · exact hall .start
  · intro deliver ih r x hx hr
    split at hx
    · cases hx
    · rename_i hdrain
      cases hx
      exact (hr.drain hdrain).1
    · rename_i r' hdrain
      obtain ⟨hr', hstack⟩ := hr.drain hdrain
      split at hx
      · cases hx
        exact hr'
      · rename_i hgoes
        simp only [Bool.or_eq_true, not_or, Bool.not_eq_true] at hgoes
        have hempty : r'.stack = [] :=
          (hstack rfl).resolve_right (by rw [hgoes.2]; exact Bool.false_ne_true)
        split at hx
        · cases hx
          exact hr'
        · rename_i c w' hnext
          exact ih _ _ hx (hr'.report hempty hgoes.1 hnext)

end ValueShell.Evaluation
