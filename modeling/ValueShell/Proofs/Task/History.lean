import ValueShell.Proofs.Task.Worlds

/-!
# Histories of a runner

A history says which entries a runner has processed, what tasks were told while each of them was
processed, and whether the runner failed. What tasks are told is seen by recording it: `recorded` has the
same tasks as a behavior and writes down every start and every resumption, and `forget_step` says that a
recorded step is the step itself. `Goes` relates two runners by a history. It goes through any number of
runs, also through those that fail (`Goes.run`).
-/

set_option autoImplicit false

namespace ValueShell.Task

variable {τ σ ρ ω : Type}

/-- What a task is told, and what it asks for in return. -/
inductive Told (τ σ ρ : Type) where
  | start (self : Nat) (task : τ) (state : σ) (requests : List (Request τ σ ρ))
  | resume (self : Nat) (state : σ) (response : ρ) (requests : List (Request τ σ ρ))

/-- The same tasks, with a record of what they are told. -/
def Behavior.recorded (b : Behavior τ σ ρ ω) : Behavior τ σ ρ (ω × List (Told τ σ ρ)) where
  start := fun place state task w =>
    let x := b.start place state task w.1
    { task := x.task, requests := x.requests, fault := x.fault
      world := (x.world, w.2 ++ [.start place.self task state x.requests]) }
  resume := fun place task state response w =>
    let x := b.resume place task state response w.1
    { task := x.task, requests := x.requests, fault := x.fault
      world := (x.world, w.2 ++ [.resume place.self state response x.requests]) }
  dispose := fun task w =>
    let d := b.dispose task w.1
    { task := d.task, fault := d.fault, world := (d.world, w.2) }

namespace Runner

variable {b : Behavior τ σ ρ ω}

/-! ## Recording -/

/-- A runner with an empty record. -/
def recording (r : Runner τ σ ρ ω) : Runner τ σ ρ (ω × List (Told τ σ ρ)) :=
  { world := (r.world, []), stack := r.stack, later := r.later, controllers := r.controllers
    root := r.root, response := r.response, done := r.done }

/-- A runner without its record. -/
def forget (r : Runner τ σ ρ (ω × List (Told τ σ ρ))) : Runner τ σ ρ ω :=
  { world := r.world.1, stack := r.stack, later := r.later, controllers := r.controllers
    root := r.root, response := r.response, done := r.done }

/-- What comes of processing something, without the record. -/
def forgetting (x : Runner τ σ ρ (ω × List (Told τ σ ρ)) × Option Fault) :
    Runner τ σ ρ ω × Option Fault := (x.1.forget, x.2)

theorem shows_recorded (b : Behavior τ σ ρ ω) : b.recorded.Shows Prod.fst b :=
  ⟨fun _ _ _ _ => rfl, fun _ _ _ _ _ => rfl, fun _ _ => rfl⟩

/-- A recorded step is the step. -/
theorem forget_step (r : Runner τ σ ρ (ω × List (Told τ σ ρ))) :
    forgetting (step b.recorded r) = step b r.forget :=
  (shows_recorded b).step r

/-! ## Histories -/

/-- What tasks are told while the top of the stack is processed. -/
def told (b : Behavior τ σ ρ ω) (r : Runner τ σ ρ ω) : List (Told τ σ ρ) :=
  (step b.recorded r.recording).1.world.2

end Runner

/-- An entry that was processed, with what tasks were told and why the runner failed. -/
structure Processed (τ σ ρ : Type) where
  entry : Entry τ σ ρ
  told : List (Told τ σ ρ)
  fault : Option Fault

namespace Runner

variable {b : Behavior τ σ ρ ω}

/-- The runner goes to another one and processes the entries of the history on the way. What was put off
may be taken up whenever the stack is empty. -/
inductive Goes (b : Behavior τ σ ρ ω) (r : Runner τ σ ρ ω) :
    List (Processed τ σ ρ) → Runner τ σ ρ ω → Prop
  | refl : Goes b r [] r
  | step {history r' e rest} : Goes b r history r' → r'.stack = e :: rest →
      Goes b r (history ++ [⟨e, told b r', (Runner.step b r').2⟩]) (Runner.step b r').1
  | again {history r'} : Goes b r history r' → Goes b r history r'.resumeLater

theorem Goes.drain {halted : ω → Bool} {r r' : Runner τ σ ρ ω} {history : List (Processed τ σ ρ)}
    {x : Runner τ σ ρ ω × Option Fault} (hx : Runner.drain b halted r' = some x)
    (h : Goes b r history r') : ∃ more, Goes b r (history ++ more) x.1 := by
  revert h history
  refine Runner.drain.partial_correctness b halted
    (fun r' x => ∀ {history}, Goes b r history r' → ∃ more, Goes b r (history ++ more) x.1) ?_ r' x hx
  intro drain ih r' x hx history h
  split at hx
  · cases hx
    exact ⟨[], by rwa [List.append_nil]⟩
  · rename_i hmore
    simp only [Bool.or_eq_true, List.isEmpty_iff, not_or] at hmore
    obtain ⟨e, rest, hstack⟩ := List.exists_cons_of_ne_nil hmore.1
    have hstep := h.step hstack
    split at hx
    · rename_i heq
      cases hx
      rw [heq] at hstep
      exact ⟨_, hstep⟩
    · rename_i heq
      rw [heq] at hstep
      obtain ⟨more, hgoes⟩ := ih _ _ hx hstep
      exact ⟨_, by rwa [List.append_assoc] at hgoes⟩

/-- A run goes on. -/
theorem Goes.run {r r' : Runner τ σ ρ ω} {history : List (Processed τ σ ρ)}
    {x : Runner τ σ ρ ω × Option Fault} (h : Goes b r history r') (hx : Runner.run b r' = some x) :
    ∃ more, Goes b r (history ++ more) x.1 :=
  h.again.drain hx

end Runner

end ValueShell.Task
