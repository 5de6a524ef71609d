import ValueShell.Evaluation.Process
import ValueShell.Proofs.Pipeline.Diagnosis

/-!
# What leaves results, names and ends of pipes alone

Results are stored by tasks and by nothing else, ends of pipes are opened and closed by tasks and by nothing
else, and the names that words see are not changed at all. Whatever goes on beside the tasks, be it commands
that are asked for values, workers or processes, leaves all of them as they are (`outline_turn`), and so
does waiting for a worker or for the end of a command (`outline_join`, `standing_nextCompletion`).
-/

set_option autoImplicit false

namespace ValueShell.Evaluation

open ValueShell.Spawn

/-- What nothing but a task may change: the results and the names that words see. -/
structure Standing where
  stored : List (String × Stored)
  names : Bindings

/-- What nothing but a task may change, and the ends of pipes that are open. -/
structure Outline where
  standing : Standing
  isOpen : Descriptor → Bool

namespace World

variable {w w' : World}

/-- The results of a world and the names that words see in it. -/
def standing (w : World) : Standing where
  stored := w.stored
  names := w.scope.names

/-- The descriptor is an end of a pipe of text that is open on this side. -/
def isOpen (w : World) : Descriptor → Bool
  | .readEnd n => (w.textPipes[n]?).any TextPipe.readOpen
  | .writeEnd n => (w.textPipes[n]?).any TextPipe.writeOpen
  | _ => false

/-- The results of a world, the names that words see in it and the ends that are open. -/
def outline (w : World) : Outline where
  standing := w.standing
  isOpen := w.isOpen

theorem standing_of_outline (h : w'.outline = w.outline) : w'.standing = w.standing :=
  congrArg Outline.standing h

theorem isOpen_of_outline (h : w'.outline = w.outline) : w'.isOpen = w.isOpen :=
  congrArg Outline.isOpen h

/-! ## Pipes, files and streams -/

theorem standing_close {d : Descriptor} (h : w.close d = .ok w') : w'.standing = w.standing := by
  unfold close at h
  split at h
  · split at h
    · split at h <;> cases h
      rfl
    · cases h
  · split at h
    · split at h <;> cases h
      rfl
    · cases h
  · cases h
    rfl

@[simp] theorem standing_closeFile (w : World) (n : Nat) : (w.closeFile n).standing = w.standing := by
  unfold closeFile
  split
  · split <;> rfl
  · rfl

theorem standing_openFile {path : String} {append : Bool} {n : Nat}
    (h : w.openFile path append = .ok (n, w')) : w'.standing = w.standing := by
  obtain ⟨opened, -, hopened⟩ := Plan.ok_of_bind h
  cases hopened
  rfl

theorem any_setPipe {n : Nat} {p : TextPipe} (hp : w.textPipes[n]? = some p) (q : TextPipe)
    (f : TextPipe → Bool) (m : Nat) :
    ((w.textPipes.set n q)[m]?).any f = if m = n then f q else (w.textPipes[m]?).any f := by
  by_cases hm : m = n
  · subst hm
    rw [List.getElem?_set_self (List.getElem?_eq_some_iff.mp hp).1, if_pos rfl, Option.any_some]
  · rw [List.getElem?_set_ne (Ne.symm hm), if_neg hm]

/-- What is read from a pipe or written to it does not open or close its ends. -/
theorem outline_setPipe {n : Nat} {p q : TextPipe} (hp : w.textPipes[n]? = some p)
    (hread : q.readOpen = p.readOpen) (hwrite : q.writeOpen = p.writeOpen) :
    ({ w with textPipes := w.textPipes.set n q } : World).outline = w.outline := by
  have hsame (f : TextPipe → Bool) (hf : f q = f p) (m : Nat) :
      ((w.textPipes.set n q)[m]?).any f = (w.textPipes[m]?).any f := by
    rw [any_setPipe hp]
    split
    next hm => rw [hm, hp, Option.any_some, hf]
    next => rfl
  refine congrArg (Outline.mk w.standing) (funext fun d => ?_)
  cases d with
  | input => rfl
  | output => rfl
  | readEnd m => exact hsame TextPipe.readOpen hread m
  | writeEnd m => exact hsame TextPipe.writeOpen hwrite m

theorem outline_modifyPipe (w : World) (n : Nat) {f : TextPipe → TextPipe}
    (hread : ∀ p, (f p).readOpen = p.readOpen) (hwrite : ∀ p, (f p).writeOpen = p.writeOpen) :
    ({ w with textPipes := w.textPipes.modify n f } : World).outline = w.outline := by
  cases hp : w.textPipes[n]? with
  | none => rw [List.modify_eq_self (List.getElem?_eq_none_iff.mp hp)]
  | some p =>
    rw [List.modify_eq_set, hp]
    exact outline_setPipe hp (hread p) (hwrite p)

@[simp] theorem outline_write (w : World) (sink : Sink) (text : String) :
    (w.write sink text).outline = w.outline := by
  cases sink with
  | output => rfl
  | pipe n => exact outline_modifyPipe w n (fun _ => rfl) fun _ => rfl
  | file n => rfl

@[simp] theorem outline_emit (w : World) (e : Endpoint) (text : String) :
    (w.emit e text).outline = w.outline := by
  cases e with
  | writeEnd n => exact outline_modifyPipe w n (fun _ => rfl) fun _ => rfl
  | _ => rfl

@[simp] theorem standing_emit (w : World) (e : Endpoint) (text : String) :
    (w.emit e text).standing = w.standing :=
  standing_of_outline (outline_emit w e text)

@[simp] theorem outline_capture (w : World) (c : Nat) (vs : List Value) :
    (w.capture c vs).outline = w.outline := rfl

@[simp] theorem outline_setWork (w : World) (n : Nat) (worker : Worker) :
    (w.setWork n worker).outline = w.outline := rfl

/-! ## Commands -/

@[simp] theorem outline_pullLine (w : World) (d : Descriptor) : (w.pullLine d).2.outline = w.outline := by
  unfold pullLine
  split
  · rfl
  · split
    · rfl
    · split
      · rename_i hp
        exact outline_setPipe hp rfl rfl
      · rfl
  · rfl

theorem outline_pull (steps : Nat) :
    (∀ w n, (pull steps w n).2.outline = w.outline) ∧
      (∀ w n a, (pullInput steps w n a).2.1.outline = w.outline) ∧
      ∀ w p source, (pullPipe steps w p source).2.2.outline = w.outline := by
  induction steps with
  | zero => exact ⟨fun w n => rfl, fun w n a => rfl, fun w p source => rfl⟩
  | succ steps ih =>
    obtain ⟨hpull, hinput, hpipe⟩ := ih
    refine ⟨fun w n => ?_, fun w n a => ?_, fun w p source => ?_⟩
    · rw [pull]
      split
      · rfl
      · rename_i a _
        split
        · rfl
        · split
          · exact hpull _ _
          · rfl
          · rfl
          · have hread := hinput w n a
            split
            · rename_i heq
              rwa [heq] at hread
            · rename_i heq
              rw [heq] at hread
              exact (hpull _ _).trans hread
            · rename_i heq
              rw [heq] at hread
              exact (hpull _ _).trans hread
    · rw [pullInput]
      split
      · rfl
      · exact outline_pullLine w _
      · exact hpipe w _ _
    · cases source with
      | some n =>
        have hread := hpull w n
        rw [pullPipe]
        split
        · rename_i heq
          rwa [heq] at hread
        · rename_i heq
          rwa [heq] at hread
        · rename_i heq
          rw [heq] at hread
          exact (hpipe _ _ _).trans hread
      | none =>
        rw [pullPipe]
        split
        · rfl
        · split
          · exact hpipe _ _ _
          · rfl
          · rfl

/-! ## Workers and processes -/

theorem outline_workerTurn (w : World) (n : Nat) : (w.workerTurn n).2.outline = w.outline := by
  unfold workerTurn
  split
  · rfl
  · split
    · rfl
    · split
      · rename_i p source sink _
        have hread := (outline_pull maxSteps).2.2 w p source
        split <;> rename_i heq <;> rw [heq] at hread <;> simpa using hread
      · rename_i a sink _
        have hread := (outline_pull maxSteps).1 w a
        split <;> rename_i heq <;> rw [heq] at hread <;> simpa using hread
      · rename_i a c _
        have hread := (outline_pull maxSteps).1 w a
        split <;> rename_i heq <;> rw [heq] at hread <;> simpa using hread
      · split
        · rfl
        · split
          · rfl
          · rename_i hp
            exact outline_setPipe hp rfl rfl

theorem outline_workersTurn (ns : List Nat) (w : World) : (w.workersTurn ns).2.outline = w.outline := by
  induction ns generalizing w with
  | nil => rfl
  | cons n rest ih =>
    rw [workersTurn]
    dsimp only
    split
    · exact outline_workerTurn w n
    · exact (ih _).trans (outline_workerTurn w n)

theorem outline_readInput (w : World) (p : ChildProcess) : (w.readInput p).2.outline = w.outline := by
  unfold readInput
  split
  · rfl
  · split
    · rename_i hp
      exact outline_setPipe hp rfl rfl
    · rfl
  · rfl

theorem outline_foldl {α : Type} {f : World → α → World} (hf : ∀ w a, (f w a).outline = w.outline)
    (l : List α) (w : World) : (l.foldl f w).outline = w.outline := by
  induction l generalizing w with
  | nil => rfl
  | cons a rest ih => rw [List.foldl_cons, ih, hf]

theorem outline_runProcess (w : World) (n : Nat) (p : ChildProcess) :
    (w.runProcess n p).outline = w.outline := by
  have hread : ∀ c : Bool, (if c then w.readInput p else ("", w)).2.outline = w.outline := by
    intro c
    cases c with
    | true => exact outline_readInput w p
    | false => rfl
  unfold runProcess
  cases p.program with
  | none =>
    dsimp only
    split <;>
    · refine outline_foldl (fun w x => ?_) _ _
      split
      · exact outline_emit w _ _
      · rfl
  | some program =>
    dsimp only
    split <;>
    · refine (outline_foldl (fun w x => ?_) _ _).trans (hread _)
      split
      · exact outline_emit w _ _
      · rfl

theorem outline_processTurn (h : w.processTurn = some w') : w'.outline = w.outline := by
  unfold processTurn at h
  obtain ⟨⟨p, n⟩, -, rfl⟩ := Option.map_eq_some_iff.mp h
  exact outline_runProcess w n p

theorem outline_turn (h : w.turn = some w') : w'.outline = w.outline := by
  have hworkers := outline_workersTurn (List.range w.workers.length) w
  unfold turn at h
  split at h
  · rename_i heq
    rw [heq] at hworkers
    cases h
    exact hworkers
  · rename_i heq
    rw [heq] at hworkers
    exact (outline_processTurn h).trans hworkers

/-! ## Waiting -/

theorem outline_runUntil {holds : World → Bool} {turns : Nat} (h : runUntil holds turns w = .ok w') :
    w'.outline = w.outline := by
  induction turns generalizing w with
  | zero => cases h
  | succ turns ih =>
    rw [runUntil] at h
    split at h
    · cases h
      rfl
    · split at h
      · rename_i hturn
        exact (ih h).trans (outline_turn hturn)
      · cases h

theorem outline_join {n : Nat} (h : w.join n = .ok w') : w'.outline = w.outline := outline_runUntil h

theorem standing_join {n : Nat} (h : w.join n = .ok w') : w'.standing = w.standing :=
  standing_of_outline (outline_join h)

theorem standing_nextCompletion {c : Completion} (h : w.nextCompletion = .ok (c, w')) :
    w'.standing = w.standing := by
  obtain ⟨w₁, hrun, hfirst⟩ := Plan.ok_of_bind h
  have hstanding := standing_of_outline (outline_runUntil hrun)
  split at hfirst
  · cases hfirst
    exact hstanding
  · cases hfirst

theorem standing_finishProcesses (turns : Nat) (w : World) :
    (w.finishProcesses turns).standing = w.standing := by
  induction turns generalizing w with
  | zero => rfl
  | succ turns ih =>
    rw [finishProcesses]
    split
    · rename_i hturn
      exact (ih _).trans (standing_of_outline (outline_processTurn hturn))
    · rfl

end World

theorem Job.standing_closeEnd {toEnd : Nat → Descriptor} {n : Option Nat} {w w' : World}
    (h : closeEnd toEnd n w = .ok w') : w'.standing = w.standing := by
  cases n with
  | none =>
    cases h
    rfl
  | some n => exact World.standing_close h

namespace ProcessTask

theorem standing_closeAll {ds : List Descriptor} {w w' : World} (h : closeAll w ds = .ok w') :
    w'.standing = w.standing := by
  induction ds generalizing w with
  | nil =>
    cases h
    rfl
  | cons d rest ih =>
    obtain ⟨w₁, hclose, hrest⟩ := Plan.ok_of_bind h
    exact (ih hrest).trans (World.standing_close hclose)

theorem standing_joinAll {ns : List Nat} {w w' : World} (h : joinAll w ns = .ok w') :
    w'.standing = w.standing := by
  induction ns generalizing w with
  | nil =>
    cases h
    rfl
  | cons n rest ih =>
    obtain ⟨w₁, hjoin, hrest⟩ := Plan.ok_of_bind h
    exact (ih hrest).trans (World.standing_join hjoin)

end ProcessTask

theorem WordTask.standing_closeBackquote {b : Backquote} {w w' : World} (h : closeBackquote b w = .ok w') :
    w'.standing = w.standing := by
  obtain ⟨w₁, hwrite, h⟩ := Plan.ok_of_bind h
  obtain ⟨w₂, hjoin, hread⟩ := Plan.ok_of_bind h
  exact ((World.standing_close hread).trans (World.standing_join hjoin)).trans (World.standing_close hwrite)

end ValueShell.Evaluation
