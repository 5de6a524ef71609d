import Mathlib.Data.List.Nodup
import ValueShell.Proofs.Evaluation.Arrivals
import ValueShell.Proofs.Evaluation.Standing

/-!
# How tasks give up their pipes

The task of two plans that are joined by a pipe of text makes that pipe, and a word makes one for each
command in it. They close the ends when what they have called finishes, and those that are left when they
are disposed.

What such a task does about its pipes when it is resumed or disposed is a list of steps (`Prompt.closings`).
They are some of those that it still owes (`Job.remaining`): it takes them, and owes the others afterwards
(`performs`). Ends that are open can be closed, so steps that close different ends can be taken unless a
worker is waited for in vain (`World.takes`).
-/

set_option autoImplicit false

namespace ValueShell.Evaluation

open ValueShell.Task

/-! ## Steps -/

/-- A step in giving up a pipe. -/
inductive Closing where
  | close (d : Descriptor)
  | wait (worker : Nat)

/-- The descriptor that a step closes. -/
def Closing.descriptor? : Closing → Option Descriptor
  | .close d => some d
  | .wait _ => none

/-- The descriptors that steps close. -/
def closes (steps : List Closing) : List Descriptor := steps.filterMap Closing.descriptor?

@[simp] theorem closes_nil : closes [] = [] := rfl

@[simp] theorem closes_close (d : Descriptor) (steps : List Closing) :
    closes (.close d :: steps) = d :: closes steps := rfl

@[simp] theorem closes_wait (n : Nat) (steps : List Closing) : closes (.wait n :: steps) = closes steps := rfl

@[simp] theorem closes_append (steps others : List Closing) :
    closes (steps ++ others) = closes steps ++ closes others :=
  List.filterMap_append

namespace World

variable {w w' : World}

/-- Takes a step. -/
def take (w : World) : Closing → Except Fault World
  | .close d => w.close d
  | .wait n => w.join n

/-- Takes steps one after the other. -/
def takeAll (w : World) (steps : List Closing) : Except Fault World := steps.foldlM take w

/-- The descriptors that are tried to be closed when steps are taken, up to the first that fails. -/
def tried (w : World) : List Closing → List Descriptor
  | [] => []
  | step :: rest =>
    step.descriptor?.toList ++
      match w.take step with
      | .ok w => w.tried rest
      | .error _ => []

theorem takeAll_cons (w : World) (step : Closing) (rest : List Closing) :
    w.takeAll (step :: rest) = w.take step >>= fun w => w.takeAll rest :=
  List.foldlM_cons

theorem takeAll_append (w : World) (steps others : List Closing) :
    w.takeAll (steps ++ others) = w.takeAll steps >>= fun w => w.takeAll others :=
  List.foldlM_append

/-- An open end can be closed, and nothing else is closed with it. -/
theorem exists_close {d : Descriptor} (h : w.isOpen d = true) :
    ∃ w', w.close d = .ok w' ∧ ∀ e, w'.isOpen e = true ↔ w.isOpen e = true ∧ e ≠ d := by
  cases d with
  | input => cases h
  | output => cases h
  | readEnd n =>
    obtain ⟨p, hp, hopen⟩ := (Option.any_eq_true _ _).mp h
    refine ⟨WordTask.withPipe w n { p with readOpen := false }, ?_, fun e => ?_⟩
    · simp only [close, hp, hopen, if_true]
      rfl
    · cases e <;> grind [isOpen, WordTask.withPipe, any_setPipe hp]
  | writeEnd n =>
    obtain ⟨p, hp, hopen⟩ := (Option.any_eq_true _ _).mp h
    refine ⟨WordTask.withPipe w n (WordTask.shut p), ?_, fun e => ?_⟩
    · simp only [close, hp, hopen, if_true]
      rfl
    · cases e <;> grind [isOpen, WordTask.withPipe, WordTask.shut, any_setPipe hp]

theorem eq_stuck_of_runUntil {holds : World → Bool} {turns : Nat} {fault : Fault}
    (h : runUntil holds turns w = .error fault) : fault = .stuck := by
  induction turns generalizing w with
  | zero =>
    cases h
    rfl
  | succ turns ih =>
    rw [runUntil] at h
    split at h
    · cases h
    · split at h
      · exact ih h
      · cases h
        rfl

theorem tried_isPrefix (w : World) (steps : List Closing) : w.tried steps <+: closes steps := by
  induction steps generalizing w with
  | nil => exact List.prefix_rfl
  | cons step rest ih =>
    have hcloses : closes (step :: rest) = step.descriptor?.toList ++ closes rest := by
      cases step <;> rfl
    rw [tried, hcloses, List.prefix_append_right_inj]
    split
    · exact ih _
    · exact List.nil_prefix

theorem tried_of_takeAll {steps : List Closing} (h : w.takeAll steps = .ok w') :
    w.tried steps = closes steps := by
  induction steps generalizing w with
  | nil => rfl
  | cons step rest ih =>
    rw [takeAll_cons] at h
    obtain ⟨w₁, hstep, hrest⟩ := Plan.ok_of_bind h
    rw [tried, hstep]
    cases step with
    | close d => exact congrArg (d :: ·) (ih hrest)
    | wait n => exact ih hrest

/-- Steps are taken, and only the ends that they close are closed; or a worker is waited for in vain. -/
inductive Takes (w : World) (steps : List Closing) : Prop
  | all {w' : World} (taken : w.takeAll steps = .ok w')
      (isOpen : ∀ d, w'.isOpen d = true ↔ w.isOpen d = true ∧ d ∉ closes steps)
  | stuck (taken : w.takeAll steps = .error .stuck)

/-- Ends that are open and different can be closed. -/
theorem takes {steps : List Closing} (hnodup : (closes steps).Nodup)
    (hopen : ∀ d ∈ closes steps, w.isOpen d = true) : w.Takes steps := by
  induction steps generalizing w with
  | nil => exact .all rfl fun d => (and_iff_left List.not_mem_nil).symm
  | cons step rest ih =>
    cases step with
    | close d =>
      obtain ⟨hd, hrest⟩ := List.nodup_cons.mp hnodup
      obtain ⟨w₁, hclose, hisOpen⟩ := exists_close (hopen d List.mem_cons_self)
      have htake : w.takeAll (.close d :: rest) = w₁.takeAll rest := by
        rw [takeAll_cons, take, hclose]
        rfl
      have hopen₁ : ∀ e ∈ closes rest, w₁.isOpen e = true := by
        intro e he
        refine (hisOpen e).mpr ⟨hopen e (List.mem_cons_of_mem d he), ?_⟩
        rintro rfl
        exact hd he
      cases ih hrest hopen₁ with
      | all taken isOpen =>
        refine .all (htake.trans taken) fun e => ?_
        rw [isOpen, hisOpen, closes_close, List.mem_cons, not_or, and_assoc]
      | stuck taken => exact .stuck (htake.trans taken)
    | wait n =>
      cases hjoin : w.join n with
      | error fault =>
        cases eq_stuck_of_runUntil hjoin
        apply Takes.stuck
        rw [takeAll_cons, take, hjoin]
        rfl
      | ok w₁ =>
        have hisOpen := isOpen_of_outline (outline_join hjoin)
        have htake : w.takeAll (.wait n :: rest) = w₁.takeAll rest := by
          rw [takeAll_cons, take, hjoin]
          rfl
        cases ih hnodup (fun d hd => (congrFun hisOpen d).trans (hopen d hd)) with
        | all taken isOpen =>
          rw [hisOpen] at isOpen
          exact .all (htake.trans taken) isOpen
        | stuck taken => exact .stuck (htake.trans taken)

end World

/-! ## What a task does about its pipes -/

/-- The steps in which the pipe of a command in a word is given up: its lines are collected before the end
that they are read from is closed. -/
def Backquote.closings (b : Backquote) : List Closing :=
  [.close (.writeEnd b.pipe), .wait b.worker, .close (.readEnd b.pipe)]

/-- The step for an end, if it is still open. -/
def endClosings (toEnd : Nat → Descriptor) (n : Option Nat) : List Closing :=
  (n.map fun n => Closing.close (toEnd n)).toList

/-- The steps for the command at a place, if it is still running. -/
def WordTask.closingsAt (t : WordTask) (i : Nat) : List Closing :=
  match (t.running[i]?).join with
  | some b => b.closings
  | none => []

/-- The steps that a task still owes, which give up all that is left of its pipes. -/
def Job.remaining : Job LeafTask → List Closing
  | .joinText _ _ _ read write => endClosings .writeEnd write ++ endClosings .readEnd read
  | .leaf (.word t) => (List.range t.running.length).flatMap t.closingsAt
  | _ => []

/-- What a task that was started is prompted to do. -/
inductive Prompt where
  | resume (mark : Mark) (response : Response)
  | dispose

namespace Prompt

/-- The steps that a task takes then. -/
def closings (job : Job LeafTask) : Prompt → List Closing
  | .resume mark _ =>
    match job, mark with
    | .joinText _ _ _ read write, mark =>
      if mark = .left then endClosings .writeEnd write else endClosings .readEnd read
    | .leaf (.word t), .backquote i => t.closingsAt i
    | _, _ => []
  | .dispose => job.remaining

/-- What becomes of the task and of the world. -/
def outcome (self : Nat) (job : Job LeafTask) (w : World) : Prompt → Disposal (Job LeafTask) World
  | .resume mark response =>
    let x := job.resume LeafTask.leaf self mark response w
    { task := x.task, world := x.world, fault := x.fault }
  | .dispose => job.dispose LeafTask.leaf w

/-- A task is resumed at most once for each task that it has called, and never after it was disposed. It
may be disposed at any time. -/
def Allowed (requests : List LeafRequest) (earlier : List Prompt) : Prompt → Prop
  | .resume mark _ => (∃ called, .call called mark ∈ requests) ∧ .dispose ∉ earlier ∧
      ∀ response, .resume mark response ∉ earlier
  | .dispose => True

end Prompt

/-- The tasks that make pipes of text. -/
inductive Job.HasPipes : Job LeafTask → Prop
  | joinText (streams : Streams Channel) (left right : Plan) (read write : Option Nat) :
      HasPipes (.joinText streams left right read write)
  | word (t : WordTask) : HasPipes (.leaf (.word t))

/-- A task has taken steps of those that it owed and owes the others, or it has failed because a step did. -/
inductive Performs (job : Job LeafTask) (w : World) (steps : List Closing)
    (x : Disposal (Job LeafTask) World) : Prop
  | done (taken : w.takeAll steps = .ok x.world) (hasPipes : x.task.HasPipes)
      (left : (closes steps ++ closes x.task.remaining).Perm (closes job.remaining))
  | failed {fault : Fault} {rest : List Descriptor} (taken : w.takeAll steps = .error fault)
      (raised : x.fault = some fault) (left : (closes steps ++ rest).Perm (closes job.remaining))

/-- A task that goes on as another one exactly if steps can be taken performs these steps. -/
theorem performs_of_takeAll {job job' : Job LeafTask} {w : World} {steps : List Closing}
    {result : Except Fault World} {x : Disposal (Job LeafTask) World} (hresult : w.takeAll steps = result)
    (hjob' : job'.HasPipes) (hleft : (closes steps ++ closes job'.remaining).Perm (closes job.remaining))
    (hok : ∀ w', result = .ok w' → x.task = job' ∧ x.world = w')
    (herror : ∀ fault, result = .error fault → x.fault = some fault) : Performs job w steps x := by
  cases result with
  | ok w' =>
    obtain ⟨rfl, rfl⟩ := hok w' rfl
    exact .done hresult hjob' hleft
  | error fault => exact .failed hresult (herror fault rfl) hleft

/-! ### Joined plans -/

theorem takeAll_endClosings (toEnd : Nat → Descriptor) (n : Option Nat) (w : World) :
    w.takeAll (endClosings toEnd n) = Job.closeEnd toEnd n w := by
  cases n with
  | none => rfl
  | some n => exact bind_pure (w.close (toEnd n))

theorem performs_joinText (self : Nat) (streams : Streams Channel) (left right : Plan)
    (read write : Option Nat) (w : World) (p : Prompt) :
    Performs (.joinText streams left right read write) w
      (p.closings (.joinText streams left right read write))
      (p.outcome self (.joinText streams left right read write) w) := by
  have hremaining (read write : Option Nat) :
      closes (Job.remaining (.joinText streams left right read write)) =
        closes (endClosings .writeEnd write) ++ closes (endClosings .readEnd read) := closes_append _ _
  cases p with
  | resume mark response =>
    by_cases hmark : mark = .left
    · rw [Prompt.closings, if_pos hmark]
      refine performs_of_takeAll (takeAll_endClosings ..) (.joinText streams left right read none) ?_ ?_ ?_
      · rw [hremaining, hremaining]
        exact .refl _
      all_goals
        intro _ h
        cases write <;> simp_all [Prompt.outcome, Job.resume, Job.closeEnd, Job.ask, Job.failWith]
    · rw [Prompt.closings, if_neg hmark]
      refine performs_of_takeAll (takeAll_endClosings ..) (.joinText streams left right none write) ?_ ?_ ?_
      · rw [hremaining, hremaining]
        exact List.perm_append_comm.trans (.of_eq (by simp [endClosings]))
      all_goals
        intro _ h
        cases read <;> simp_all [Prompt.outcome, Job.resume, Job.closeEnd, Job.ask, Job.failWith]
  | dispose =>
    refine performs_of_takeAll (World.takeAll_append ..) (.joinText streams left right none none) ?_ ?_ ?_
    · rw [hremaining none none]
      exact .of_eq (List.append_nil _)
    all_goals
      intro _ h
      simp only [takeAll_endClosings] at h
      simp only [Prompt.outcome, Job.dispose]
      cases hwrite : Job.closeEnd .writeEnd write w with
      | error fault => simp_all [bind, Except.bind]
      | ok w₁ =>
        cases hread : Job.closeEnd .readEnd read w₁ <;> simp_all [bind, Except.bind]

/-! ### Words -/

theorem takeAll_closings (b : Backquote) (w : World) :
    w.takeAll b.closings = WordTask.closeBackquote b w := by
  have hlast (w : World) : w.takeAll [.close (.readEnd b.pipe)] = w.close (.readEnd b.pipe) := bind_pure _
  simp only [Backquote.closings, World.takeAll_cons, hlast]
  rfl

namespace WordTask

/-- The word once nobody runs the command at a place. -/
def withoutRunning (t : WordTask) (i : Nat) : WordTask := { t with running := t.running.set i none }

theorem length_withoutRunning (t : WordTask) (i : Nat) :
    (t.withoutRunning i).running.length = t.running.length :=
  List.length_set

theorem closingsAt_of_none {t : WordTask} {i : Nat} (h : (t.running[i]?).join = none) :
    t.closingsAt i = [] := by
  rw [closingsAt, h]

theorem closingsAt_of_some {t : WordTask} {i : Nat} {b : Backquote} (h : (t.running[i]?).join = some b) :
    t.closingsAt i = b.closings := by
  rw [closingsAt, h]

theorem closingsAt_withoutRunning (t : WordTask) (i j : Nat) :
    (t.withoutRunning i).closingsAt j = if j = i then [] else t.closingsAt j := by
  by_cases hj : j = i
  · subst hj
    rw [if_pos rfl]
    apply closingsAt_of_none
    rw [withoutRunning, List.getElem?_set_self']
    cases t.running[j]? <;> rfl
  · rw [if_neg hj, closingsAt, closingsAt, withoutRunning, List.getElem?_set_ne (Ne.symm hj)]

theorem flatMap_withoutRunning (t : WordTask) {i : Nat} {is : List Nat} (hi : i ∉ is) :
    is.flatMap (t.withoutRunning i).closingsAt = is.flatMap t.closingsAt := by
  refine List.flatMap_congr fun j hj => ?_
  have hne : j ≠ i := fun heq => hi (heq ▸ hj)
  rw [closingsAt_withoutRunning, if_neg hne]

/-- The steps for the command at a place are some of those that the word owes. -/
theorem perm_withoutRunning (t : WordTask) {i : Nat} (hi : i < t.running.length) :
    (t.closingsAt i ++ Job.remaining (.leaf (.word (t.withoutRunning i)))).Perm
      (Job.remaining (.leaf (.word t))) := by
  have hrange := List.perm_cons_erase (List.mem_range.mpr hi)
  have hothers : i ∉ (List.range t.running.length).erase i := List.nodup_range.not_mem_erase
  simp only [Job.remaining, length_withoutRunning]
  refine ((hrange.flatMap_right _).append_left _).trans ?_
  rw [List.flatMap_cons, closingsAt_withoutRunning, if_pos rfl, List.nil_append,
    flatMap_withoutRunning t hothers, ← List.flatMap_cons]
  exact (hrange.flatMap_right _).symm

/-- The pipes at some places are given up one after the other. -/
theorem performs_go {is : List Nat} (hnodup : is.Nodup) (t : WordTask) (w : World) :
    (∃ fault, w.takeAll (is.flatMap t.closingsAt) = .error fault ∧ (dispose.go t w is).fault = some fault) ∨
      ∃ t', (dispose.go t w is).task = .leaf (.word t') ∧
        w.takeAll (is.flatMap t.closingsAt) = .ok (dispose.go t w is).world ∧
        t'.running.length = t.running.length ∧ ∀ j, j ∈ is ∨ t.closingsAt j = [] → t'.closingsAt j = [] := by
  induction is generalizing t w with
  | nil =>
    refine .inr ⟨t, rfl, rfl, rfl, ?_⟩
    rintro j (hj | hj)
    · cases hj
    · exact hj
  | cons i is ih =>
    obtain ⟨hi, hnodup⟩ := List.nodup_cons.mp hnodup
    rw [List.flatMap_cons]
    cases hrunning : (t.running[i]?).join with
    | none =>
      have hnone := closingsAt_of_none hrunning
      have hgo : dispose.go t w (i :: is) = dispose.go t w is := by
        simp only [dispose.go, hrunning]
      rw [hnone, List.nil_append, hgo]
      refine (ih hnodup t w).imp_right ?_
      rintro ⟨t', htask, htaken, hlength, hempty⟩
      refine ⟨t', htask, htaken, hlength, fun j hj => hempty j ?_⟩
      rw [List.mem_cons, or_assoc] at hj
      rcases hj with rfl | hj
      · exact .inr hnone
      · exact hj
    | some b =>
      rw [closingsAt_of_some hrunning, ← flatMap_withoutRunning t hi, World.takeAll_append, takeAll_closings]
      cases hclose : closeBackquote b w with
      | error fault =>
        refine .inl ⟨fault, rfl, ?_⟩
        simp only [dispose.go, hrunning, hclose]
      | ok w₁ =>
        have hgo : dispose.go t w (i :: is) = dispose.go (t.withoutRunning i) w₁ is := by
          simp only [dispose.go, hrunning, hclose]
          rfl
        rw [hgo]
        refine (ih hnodup (t.withoutRunning i) w₁).imp_right ?_
        rintro ⟨t', htask, htaken, hlength, hempty⟩
        refine ⟨t', htask, htaken, hlength.trans (length_withoutRunning t i), fun j hj => hempty j ?_⟩
        rw [closingsAt_withoutRunning, ite_eq_left_iff]
        rw [List.mem_cons] at hj
        rcases hj with (rfl | hj) | hj
        · exact .inr fun hne => absurd rfl hne
        · exact .inl hj
        · exact .inr fun _ => hj

theorem conclude_eq (t : WordTask) (w : World) :
    (t.conclude w).task = .leaf (.word t) ∧ (t.conclude w).world = w := by
  rw [conclude]
  split
  · exact ⟨rfl, rfl⟩
  · dsimp only
    split <;> exact ⟨rfl, rfl⟩

end WordTask

/-- A word that has taken steps is a word with the commands that are still running. -/
theorem performs_of_word {t t' : WordTask} {w w' : World} {steps : List Closing}
    {x : Disposal (Job LeafTask) World} (htaken : w.takeAll steps = .ok w')
    (hx : x.task = .leaf (.word t') ∧ x.world = w')
    (hleft : (closes steps ++ closes (Job.remaining (.leaf (.word t')))).Perm
      (closes (Job.remaining (.leaf (.word t))))) :
    Performs (.leaf (.word t)) w steps x := by
  obtain ⟨htask, rfl⟩ := hx
  refine .done htaken ?_ ?_
  · rw [htask]
    exact .word t'
  · rw [htask]
    exact hleft

theorem performs_backquote (self : Nat) (t : WordTask) (i : Nat) (response : Response) (w : World) :
    Performs (.leaf (.word t)) w (t.closingsAt i)
      (Prompt.outcome self (.leaf (.word t)) w (.resume (.backquote i) response)) := by
  cases hrunning : (t.running[i]?).join with
  | none =>
    simp only [Prompt.outcome, Job.resume, LeafTask.leaf, WordTask.resume, hrunning]
    rw [WordTask.closingsAt_of_none hrunning]
    exact performs_of_word rfl ⟨rfl, rfl⟩ (.refl _)
  | some b =>
    have hi := (List.getElem?_eq_some_iff.mp (Option.join_eq_some_iff.mp hrunning)).1
    have hleft := (t.perm_withoutRunning hi).filterMap Closing.descriptor?
    rw [List.filterMap_append] at hleft
    have htaken : w.takeAll (t.closingsAt i) = WordTask.closeBackquote b w := by
      rw [WordTask.closingsAt_of_some hrunning, takeAll_closings]
    cases hclose : WordTask.closeBackquote b w with
    | error fault =>
      simp only [Prompt.outcome, Job.resume, LeafTask.leaf, WordTask.resume, hrunning, hclose]
      exact .failed (htaken.trans hclose) rfl hleft
    | ok w₁ =>
      simp only [Prompt.outcome, Job.resume, LeafTask.leaf, WordTask.resume, hrunning, hclose]
      exact performs_of_word (htaken.trans hclose) (WordTask.conclude_eq _ _) hleft

theorem performs_word (self : Nat) (t : WordTask) (w : World) (p : Prompt) :
    Performs (.leaf (.word t)) w (p.closings (.leaf (.word t))) (p.outcome self (.leaf (.word t)) w) := by
  cases p with
  | dispose =>
    obtain ⟨fault, htaken, hfault⟩ | ⟨t', htask, htaken, hlength, hempty⟩ :=
      WordTask.performs_go List.nodup_range t w
    · exact .failed htaken hfault (.of_eq (List.append_nil _))
    · have hnone : Job.remaining (.leaf (.word t')) = [] := by
        rw [Job.remaining, hlength, List.flatMap_eq_nil_iff]
        exact fun j hj => hempty j (.inl hj)
      refine performs_of_word htaken ⟨htask, rfl⟩ (.of_eq ?_)
      rw [hnone]
      exact List.append_nil _
  | resume mark response =>
    cases mark with
    | backquote i => exact performs_backquote self t i response w
    | piece i =>
      cases response with
      | token token => exact performs_of_word rfl (WordTask.conclude_eq _ _) (.refl _)
      | _ => exact performs_of_word rfl ⟨rfl, rfl⟩ (.refl _)
    | _ => exact performs_of_word rfl ⟨rfl, rfl⟩ (.refl _)

/-- Resumed or disposed, a task takes the steps that are its own, and fails if one of them does. -/
theorem performs {job : Job LeafTask} (h : job.HasPipes) (self : Nat) (w : World) (p : Prompt) :
    Performs job w (p.closings job) (p.outcome self job w) := by
  cases h with
  | joinText streams left right read write => exact performs_joinText self streams left right read write w p
  | word t => exact performs_word self t w p

end ValueShell.Evaluation
