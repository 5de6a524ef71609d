import ValueShell.Proofs.Evaluation.Report
import ValueShell.Proofs.Evaluation.Run

/-!
# Between two reports

A runner that has nothing to do waits for the processes of a tree of running tasks (`Waiting`), or the
evaluation is over (`Over`). Whichever process reports next, the runner comes to such a point again
(`settles_of_report`). Hence no run fails, whatever the order of the reports, and each can be continued to
such a point (`settles_of_run`). As a plan launches only so many processes (`launches_le`), the reports
come to an end, and with them the evaluation (`deliver_ends`).
-/

set_option autoImplicit false

namespace ValueShell.Evaluation

open ValueShell.Task

variable {report : Completion}

/-- After the events `h` of the plan, the runner waits for the processes of the tree `l`. Reports of other
processes are made to tasks that are disposed. -/
structure Waiting (codes : Nat → BlackBox → Int) (plan : Plan) (h : List Event) (l : Live) (r : Machine) :
    Prop where
  stack : r.stack = []
  running : r.done = false
  proper : l.Proper
  placed : Placed r.controllers none .only l
  nodup : l.ids.Nodup
  tidy : r.world.Tidy l.holdings
  noted : Noted codes h r.controllers r.world
  expected : ∀ c ∈ l.reports, c ∈ r.world.completions
  known : ∀ c ∈ r.world.completions, c ∈ l.reports ∨ Dead r.controllers c.owner
  future : ∀ es c, Future l es c → Traces plan (h ++ es) c

/-- The evaluation is over, after the events `h` of the plan. -/
structure Over (codes : Nat → BlackBox → Int) (plan : Plan) (h : List Event) (c : Int) (r : Machine) :
    Prop where
  stack : r.stack = []
  done : r.done = true
  response : r.response = some (.status c)
  calm : r.world.recorded = none
  noted : Noted codes h r.controllers r.world
  traces : Traces plan h c

/-- The runner has nothing to do. -/
inductive Settled (codes : Nat → BlackBox → Int) (plan : Plan) (h : List Event) (r : Machine) : Prop
  | waiting (l : Live) : Waiting codes plan h l r → Settled codes plan h r
  | ended (c : Int) : Over codes plan h c r → Settled codes plan h r

variable {codes : Nat → BlackBox → Int} {plan : Plan} {h : List Event} {l l' : Live} {r r' : Machine}
  {w w' : World} {ks ks' : List Task} {parent : Option Nat} {mark : Mark} {c : Int} {n : Nat}

theorem Settled.stack (hsettled : Settled codes plan h r) : r.stack = [] := by
  cases hsettled with
  | waiting l hwaiting => exact hwaiting.stack
  | ended c hover => exact hover.stack

/-- How many processes some events launch. -/
def launches (es : List Event) : Nat := (es.filterMap Event.process?).length

/-- Nothing has happened yet in the world. -/
structure Fresh (w : World) : Prop where
  stored : w.stored = []
  processes : w.processes = []
  completions : w.completions = []
  workers : w.workers = []
  recorded : w.recorded = none

/-- A stored status is found among the results. -/
theorem find?_results {name : String} {stored : Option Int}
    (hstored : w.stored.lookup name = stored.map Stored.status) :
    Bindings.find? w.results name = stored.map Value.int := by
  unfold Bindings.find? World.results
  revert hstored
  induction w.stored with
  | nil =>
    intro hstored
    rw [List.lookup_nil, eq_comm, Option.map_eq_none_iff] at hstored
    rw [hstored]
    rfl
  | cons e rest ih =>
    intro hstored
    obtain ⟨key, s⟩ := e
    by_cases hname : key = name
    · subst hname
      rw [List.lookup_cons_self, eq_comm, Option.map_eq_some_iff] at hstored
      obtain ⟨c, rfl, rfl⟩ := hstored
      simp
    · have hne : (name == key) = false := beq_eq_false_iff_ne.mpr fun heq => hname heq.symm
      rw [List.lookup_cons, hne] at hstored
      rw [← ih hstored, List.map_cons, List.find?_cons_of_neg]
      cases s <;> simpa using hname

/-- What is found under a name once the evaluation is over. -/
theorem Over.results (hover : Over codes plan h c r) (name : String) :
    Bindings.find? r.world.results name = (h.foldl Event.update (fun _ => none) name).map Value.int :=
  find?_results (hover.noted.stored name)

end ValueShell.Evaluation
