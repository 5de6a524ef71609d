import ValueShell.Task.Runner

/-!
# Runners in richer worlds

A behavior may be the same as another one but for a world that holds more, for instance a record of what
has happened. If what is shown of the richer world always changes as the plain world does (`Shows`), then
so does a step of the runner (`Shows.step`). A step can therefore be watched without being disturbed.
-/

set_option autoImplicit false

namespace ValueShell.Task

variable {τ σ ρ ω ω' : Type}

/-- A reaction, with what is shown of its world. -/
def Reaction.mapWorld (f : ω' → ω) (x : Reaction τ σ ρ ω') : Reaction τ σ ρ ω :=
  { task := x.task, world := f x.world, requests := x.requests, fault := x.fault }

/-- A disposal, with what is shown of its world. -/
def Disposal.mapWorld (f : ω' → ω) (d : Disposal τ ω') : Disposal τ ω :=
  { task := d.task, world := f d.world, fault := d.fault }

/-- A runner, with what is shown of its world. -/
def Runner.mapWorld (f : ω' → ω) (r : Runner τ σ ρ ω') : Runner τ σ ρ ω :=
  { world := f r.world, stack := r.stack, later := r.later, controllers := r.controllers
    root := r.root, response := r.response, done := r.done }

/-- The first behavior does to its world what the second one does to what is shown of it. -/
structure Behavior.Shows (b' : Behavior τ σ ρ ω') (f : ω' → ω) (b : Behavior τ σ ρ ω) : Prop where
  start : ∀ place state task w, (b'.start place state task w).mapWorld f = b.start place state task (f w)
  resume : ∀ place task state response w,
    (b'.resume place task state response w).mapWorld f = b.resume place task state response (f w)
  dispose : ∀ task w, (b'.dispose task w).mapWorld f = b.dispose task (f w)

namespace Behavior.Shows

open Runner

variable {b' : Behavior τ σ ρ ω'} {f : ω' → ω} {b : Behavior τ σ ρ ω}

/-- What comes of processing something, with what is shown of the world. -/
def result (f : ω' → ω) (x : Runner τ σ ρ ω' × Option Fault) : Runner τ σ ρ ω × Option Fault :=
  (x.1.mapWorld f, x.2)

theorem mapWorld_foldl_take (self : Nat) (qs : List (Request τ σ ρ)) (r : Runner τ σ ρ ω') :
    (qs.foldl (take self) r).mapWorld f = qs.foldl (take self) (r.mapWorld f) := by
  induction qs generalizing r with
  | nil => rfl
  | cons q rest ih =>
    have hq : (take self r q).mapWorld f = take self (r.mapWorld f) q := by
      cases q <;> rfl
    rw [List.foldl_cons, List.foldl_cons, ih, hq]

theorem disposeEach (h : b'.Shows f b) (cs : List Nat) (r : Runner τ σ ρ ω') :
    result f (Runner.disposeEach b' cs r) = Runner.disposeEach b cs (r.mapWorld f) := by
  induction cs generalizing r with
  | nil => rfl
  | cons c rest ih =>
    have hcontrollers : (r.mapWorld f).controllers = r.controllers := rfl
    rw [Runner.disposeEach, Runner.disposeEach, hcontrollers]
    cases r.controllers[c]? with
    | none => exact ih r
    | some k =>
      have hdispose : b.dispose k.task (r.mapWorld f).world = (b'.dispose k.task r.world).mapWorld f :=
        (h.dispose k.task r.world).symm
      dsimp only
      rw [hdispose]
      cases hfault : (b'.dispose k.task r.world).fault with
      | some fault =>
        simp only [Disposal.mapWorld, hfault]
        rfl
      | none =>
        simp only [Disposal.mapWorld, hfault]
        exact ih _

theorem handleFault (h : b'.Shows f b) (fault : Fault) (r : Runner τ σ ρ ω') :
    result f (Runner.handleFault b' fault r) = Runner.handleFault b fault (r.mapWorld f) := by
  have hroot : (r.mapWorld f).root = r.root := rfl
  unfold Runner.handleFault
  rw [hroot]
  cases r.root with
  | none => rfl
  | some root =>
    have hsubtree : (r.mapWorld f).subtree root = r.subtree root := rfl
    dsimp only
    rw [hsubtree, ← h.disposeEach]
    unfold result
    cases Runner.disposeEach b' (r.subtree root) r with
    | mk r' other => cases other <;> rfl

theorem absorb (h : b'.Shows f b) (self : Nat) (x : Reaction τ σ ρ ω') (r : Runner τ σ ρ ω') :
    result f (Runner.absorb b' self x r) = Runner.absorb b self (x.mapWorld f) (r.mapWorld f) := by
  have hfault : (x.mapWorld f).fault = x.fault := rfl
  unfold Runner.absorb
  dsimp only
  rw [hfault]
  cases x.fault with
  | none =>
    unfold result
    rw [mapWorld_foldl_take]
    rfl
  | some fault =>
    dsimp only
    rw [h.handleFault, mapWorld_foldl_take]
    rfl

theorem process_call (h : b'.Shows f b) (task : τ) (state : σ) (parent : Option Nat)
    (r : Runner τ σ ρ ω') :
    result f (Runner.start b' task state parent r) = Runner.start b task state parent (r.mapWorld f) := by
  unfold Runner.start
  dsimp only
  rw [h.absorb, h.start]
  cases parent <;> rfl

theorem process_finish (h : b'.Shows f b) (response : ρ) (c : Nat) (r : Runner τ σ ρ ω') :
    result f (Runner.finish b' response c r) = Runner.finish b response c (r.mapWorld f) := by
  have hsubtree : (r.mapWorld f).subtree c = r.subtree c := rfl
  unfold Runner.finish
  rw [hsubtree, ← h.disposeEach]
  cases Runner.disposeEach b' (r.subtree c) r with
  | mk r' fault =>
    cases fault with
    | some fault => rfl
    | none =>
      have hcontrollers : (r'.mapWorld f).controllers = r'.controllers := rfl
      dsimp only [result]
      rw [hcontrollers]
      cases r'.controllers[c]? with
      | none => rfl
      | some k =>
        dsimp only
        cases k.parent with
        | none => rfl
        | some p =>
          dsimp only
          cases r'.controllers[p]? with
          | none => rfl
          | some caller =>
            dsimp only
            split
            · rfl
            · split
              · rfl
              · refine (h.absorb _ _ _).trans ?_
                rw [h.resume]
                rfl

/-- A step in the richer world shows the step in the plain one. -/
theorem step (h : b'.Shows f b) (r : Runner τ σ ρ ω') :
    result f (Runner.step b' r) = Runner.step b (r.mapWorld f) := by
  have hstack : (r.mapWorld f).stack = r.stack := rfl
  unfold Runner.step
  rw [hstack]
  cases r.stack with
  | nil => rfl
  | cons e rest =>
    cases e with
    | call task state parent => exact h.process_call task state parent _
    | finish response c => exact h.process_finish response c _

end Behavior.Shows

end ValueShell.Task
