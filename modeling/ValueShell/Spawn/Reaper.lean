import ValueShell.Fault

/-!
# Ends of processes

Whoever starts a process registers for its end. The end may come before the registration; then it is
kept until someone asks for it.
-/

set_option autoImplicit false

namespace ValueShell

/-- Who waits for the end of which process, and the ends that nobody has asked for. -/
structure Reaper (κ : Type) where
  waiting : List (Nat × κ) := []
  unclaimed : List (Nat × Int) := []
  /-- Reaping ends once nobody waits any more. -/
  stopping : Bool := false
  deriving Repr

namespace Reaper

variable {κ : Type}

/-- Registers for the end of a process. If it has ended, its status is told at once. -/
def register (r : Reaper κ) (process : Nat) (who : κ) : Except Fault (Option Int × Reaper κ) :=
  match r.unclaimed.lookup process with
  | some status =>
    .ok (some status, { r with unclaimed := r.unclaimed.filter fun e => e.1 != process })
  | none =>
    if r.waiting.any fun e => e.1 == process then .error .unmet
    else .ok (none, { r with waiting := r.waiting ++ [(process, who)] })

/-- Lets reaping end. -/
def stop (r : Reaper κ) : Reaper κ := { r with stopping := true }

/-- A process has ended: tells who waits for it, or keeps the status. -/
def reap (r : Reaper κ) (process : Nat) (status : Int) : Option κ × Reaper κ :=
  match r.waiting.lookup process with
  | some who => (some who, { r with waiting := r.waiting.filter fun e => e.1 != process })
  | none =>
    (none, { r with
      unclaimed := (r.unclaimed.filter fun e => e.1 != process) ++ [(process, status)] })

/-- What came of reaping. -/
structure Reaped (κ : Type) where
  /-- Who was told which status, in order. -/
  told : List (κ × Int) := []
  /-- The ends that were not looked at. -/
  rest : List (Nat × Int) := []
  fault : Option Fault := none
  /-- Nobody waits, and someone still may. -/
  blocked : Bool := false
  reaper : Reaper κ

/-- Reaps ends of processes until it may end. It is a fault if someone waits and no process is left. -/
def run (r : Reaper κ) : List (Nat × Int) → Reaped κ
  | [] =>
    if !r.waiting.isEmpty then { fault := some .noChildren, reaper := r }
    else { blocked := !r.stopping, reaper := r }
  | (process, status) :: rest =>
    if r.waiting.isEmpty then { rest := (process, status) :: rest, blocked := !r.stopping, reaper := r }
    else
      let (who, r) := r.reap process status
      let others := run r rest
      match who with
      | some who => { others with told := (who, status) :: others.told }
      | none => others

end Reaper

end ValueShell
