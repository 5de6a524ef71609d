import ValueShell.Evaluation.Job

/-!
# What running tasks hold of the world

A task that renders values holds a pipe and the worker that reads it, and the task of a pipe holds the
pipe. `World.Tidy w hs` says that the world `w` has all that is in `hs`, that no two of the holdings are
in each other's way, and that no worker runs for nobody. When nothing is ever put into a pipe of values,
opening adds a holding, and closing always succeeds and gives it back: in particular a worker ends as
soon as its pipe is closed, because every other worker that has not ended is blocked
(`Tidy.join_worker`).
-/

set_option autoImplicit false

namespace ValueShell.Evaluation

/-- Something in the world that a running task holds. -/
inductive Holding where
  /-- A pipe of values with the worker that writes them as text. -/
  | worker (pipe worker : Nat)
  /-- A pipe of values between two commands. -/
  | values (pipe : Nat)
  | readEnd (pipe : Nat)
  | writeEnd (pipe : Nat)

/-- Two holdings are not in each other's way. Pipes for workers and pipes between commands are told apart
by who reads them. -/
def Holding.Apart : Holding → Holding → Prop
  | .worker p n, .worker p' n' => p ≠ p' ∧ n ≠ n'
  | .readEnd n, .readEnd n' => n ≠ n'
  | .writeEnd n, .writeEnd n' => n ≠ n'
  | _, _ => True

theorem Holding.Apart.symm {x y : Holding} (h : x.Apart y) : y.Apart x := by
  cases x <;> cases y <;> simp_all [Holding.Apart, eq_comm]

namespace World

/-- The world has what is held: a pipe that is read by a worker is open and empty, and so is an end of a
pipe of text. -/
def Holds (w : World) : Holding → Prop
  | .worker p n => (∃ sink, w.workers[n]? = some { work := .writePipe p none sink }) ∧
      w.valuePipes[p]? = some { reader := .text }
  | .values p => ∃ pipe, w.valuePipes[p]? = some pipe ∧ pipe.reader = .values
  | .readEnd n => ∃ pipe, w.textPipes[n]? = some pipe ∧ pipe.readOpen = true
  | .writeEnd n => ∃ pipe, w.textPipes[n]? = some pipe ∧ pipe.writeOpen = true

/-- The world has all that is held, each worker that has not ended is held, and no child process is
only recorded. -/
structure Tidy (w : World) (hs : List Holding) : Prop where
  apart : hs.Pairwise Holding.Apart
  holds : ∀ h ∈ hs, w.Holds h
  workers : ∀ n k, w.workers[n]? = some k → k.finished = true ∨ ∃ p, .worker p n ∈ hs
  recorded : w.recorded = none

/-- Two worlds agree in what is stored, what has been launched and what has been reported. -/
structure Agrees (w w' : World) : Prop where
  stored : w'.stored = w.stored
  processes : w'.processes = w.processes
  completions : w'.completions = w.completions

variable {w w' : World} {hs hs' : List Holding} {x : Holding} {n p : Nat} {sink : Sink}

theorem Agrees.refl (w : World) : w.Agrees w := ⟨rfl, rfl, rfl⟩

theorem Agrees.trans {w'' : World} (h : w.Agrees w') (h' : w'.Agrees w'') : w.Agrees w'' :=
  ⟨h'.stored.trans h.stored, h'.processes.trans h.processes, h'.completions.trans h.completions⟩

/-- The order in which things are held does not matter. -/
theorem Tidy.perm (h : w.Tidy hs) (hperm : hs.Perm hs') : w.Tidy hs' where
  apart := (hperm.pairwise_iff fun hxy => hxy.symm).mp h.apart
  holds := fun x hx => h.holds x (hperm.mem_iff.mpr hx)
  workers := fun n k hk => (h.workers n k hk).imp_right fun ⟨p, hp⟩ => ⟨p, hperm.mem_iff.mp hp⟩
  recorded := h.recorded

/-! ## Opening -/

theorem getElem?_of_prefix {α : Type} {l l' : List α} (hl : l <+: l') {a : α} (h : l[n]? = some a) :
    l'[n]? = some a := by
  obtain ⟨rest, rfl⟩ := hl
  rw [List.getElem?_append_left (List.getElem?_eq_some_iff.mp h).1]
  exact h

/-- What is held stays when pipes and workers are added. -/
theorem Holds.mono (h : w.Holds x) (hworkers : w.workers <+: w'.workers)
    (hvalues : w.valuePipes <+: w'.valuePipes) (htext : w.textPipes <+: w'.textPipes) : w'.Holds x := by
  cases x with
  | worker p n =>
    obtain ⟨⟨sink, hworker⟩, hpipe⟩ := h
    exact ⟨⟨sink, getElem?_of_prefix hworkers hworker⟩, getElem?_of_prefix hvalues hpipe⟩
  | values p =>
    obtain ⟨q, hq, hreader⟩ := h
    exact ⟨q, getElem?_of_prefix hvalues hq, hreader⟩
  | readEnd n =>
    obtain ⟨q, hq, hopen⟩ := h
    exact ⟨q, getElem?_of_prefix htext hq, hopen⟩
  | writeEnd n =>
    obtain ⟨q, hq, hopen⟩ := h
    exact ⟨q, getElem?_of_prefix htext hq, hopen⟩

theorem Tidy.newValuePipe (h : w.Tidy hs) :
    (w.newValuePipe .values).2.Tidy (.values w.valuePipes.length :: hs) where
  apart := List.pairwise_cons.mpr ⟨fun x _ => by cases x <;> trivial, h.apart⟩
  holds := by
    intro x hx
    rcases List.mem_cons.mp hx with rfl | hx
    · exact ⟨{ reader := .values }, by simp [World.newValuePipe], rfl⟩
    · exact (h.holds x hx).mono (List.prefix_refl _) (List.prefix_append _ _) (List.prefix_refl _)
  workers := fun n k hk => (h.workers n k hk).imp_right fun ⟨p, hp⟩ => ⟨p, List.mem_cons_of_mem _ hp⟩
  recorded := h.recorded

theorem Tidy.newTextPipe (h : w.Tidy hs) :
    w.newTextPipe.2.Tidy (.readEnd w.textPipes.length :: .writeEnd w.textPipes.length :: hs) where
  apart := by
    have hnew : ∀ n pipe, w.textPipes[n]? = some pipe → w.textPipes.length ≠ n := by
      intro n pipe hn heq
      have := (List.getElem?_eq_some_iff.mp hn).1
      omega
    refine List.pairwise_cons.mpr ⟨fun x hx => ?_, List.pairwise_cons.mpr ⟨fun x hx => ?_, h.apart⟩⟩
    · rcases List.mem_cons.mp hx with rfl | hx
      · trivial
      · cases x with
        | readEnd n =>
          obtain ⟨q, hq, _⟩ := h.holds _ hx
          exact hnew n q hq
        | _ => trivial
    · cases x with
      | writeEnd n =>
        obtain ⟨q, hq, _⟩ := h.holds _ hx
        exact hnew n q hq
      | _ => trivial
  holds := by
    intro x hx
    rcases List.mem_cons.mp hx with rfl | hx
    · exact ⟨{}, by simp [World.newTextPipe], rfl⟩
    · rcases List.mem_cons.mp hx with rfl | hx
      · exact ⟨{}, by simp [World.newTextPipe], rfl⟩
      · exact (h.holds x hx).mono (List.prefix_refl _) (List.prefix_refl _) (List.prefix_append _ _)
  workers := fun n k hk => (h.workers n k hk).imp_right fun ⟨p, hp⟩ =>
    ⟨p, List.mem_cons_of_mem _ (List.mem_cons_of_mem _ hp)⟩
  recorded := h.recorded

/-- Giving back what needs no closing. -/
theorem Tidy.drop (h : w.Tidy (x :: hs)) (hx : ∀ p n, x ≠ .worker p n) : w.Tidy hs where
  apart := (List.pairwise_cons.mp h.apart).2
  holds := fun y hy => h.holds y (List.mem_cons_of_mem x hy)
  workers := by
    intro n k hk
    refine (h.workers n k hk).imp_right fun ⟨p, hp⟩ => ⟨p, ?_⟩
    rcases List.mem_cons.mp hp with heq | hp
    · exact absurd heq.symm (hx p n)
    · exact hp
  recorded := h.recorded

/-- A pipe that a worker reads is no pipe between two commands. -/
theorem worker_pipe_ne {p' : Nat} (hworker : w.Holds (.worker p n)) (hvalues : w.Holds (.values p')) :
    p ≠ p' := by
  rintro rfl
  obtain ⟨q, hq, hreader⟩ := hvalues
  rw [hworker.2, Option.some.injEq] at hq
  rw [← hq] at hreader
  cases hreader

theorem closeValues_of_ne {p' : Nat} (hne : p ≠ p') :
    (w.closeValues p).valuePipes[p']? = w.valuePipes[p']? :=
  List.getElem?_modify_ne _ _ hne

/-- Closing a pipe of values between two commands, which may happen more than once. -/
theorem Tidy.closeValues (h : w.Tidy hs) (hp : w.Holds (.values p)) :
    (w.closeValues p).Tidy hs where
  apart := h.apart
  holds := by
    intro x hx
    have hx := h.holds x hx
    cases x with
    | worker p' n => exact ⟨hx.1, (closeValues_of_ne (worker_pipe_ne hx hp).symm).trans hx.2⟩
    | values p' =>
      obtain ⟨q', hq', hreader'⟩ := hx
      by_cases heq : p = p'
      · subst heq
        refine ⟨q'.close, ?_, hreader'⟩
        change (w.valuePipes.modify p ValuePipe.close)[p]? = _
        rw [List.getElem?_modify_eq, hq']
        rfl
      · exact ⟨q', (closeValues_of_ne heq).trans hq', hreader'⟩
    | readEnd n => exact hx
    | writeEnd n => exact hx
  workers := h.workers
  recorded := h.recorded

theorem Tidy.store (h : w.Tidy hs) (name : String) (s : Stored) : (w.store name s).Tidy hs := by
  unfold World.store
  split
  · exact ⟨h.apart, h.holds, h.workers, h.recorded⟩
  · exact ⟨h.apart, h.holds, h.workers, h.recorded⟩

/-- The world once a worker has ended. -/
def ended (w : World) (p n : Nat) (sink : Sink) : World :=
  (w.closeValues p).setWork n { work := .writePipe p none sink, finished := true }

/-- A worker that has ended is not held any more. -/
theorem Tidy.ended (sink : Sink) (h : w.Tidy (.worker p n :: hs)) : (w.ended p n sink).Tidy hs := by
  have hapart := (List.pairwise_cons.mp h.apart).1
  have hheld := h.holds _ List.mem_cons_self
  obtain ⟨_, hworker⟩ := hheld.1
  have hlt := (List.getElem?_eq_some_iff.mp hworker).1
  refine ⟨(List.pairwise_cons.mp h.apart).2, fun x hx => ?_, fun m k hm => ?_, h.recorded⟩
  · have hx' := h.holds x (List.mem_cons_of_mem _ hx)
    cases x with
    | readEnd m => exact hx'
    | writeEnd m => exact hx'
    | worker p' m =>
      obtain ⟨⟨sink', hworker'⟩, hpipe'⟩ := hx'
      obtain ⟨hp, hn⟩ := hapart _ hx
      exact ⟨⟨sink', (List.getElem?_set_ne hn).trans hworker'⟩, (closeValues_of_ne hp).trans hpipe'⟩
    | values p' =>
      have hne := worker_pipe_ne hheld hx'
      obtain ⟨q, hq, hreader⟩ := hx'
      exact ⟨q, (closeValues_of_ne hne).trans hq, hreader⟩
  · by_cases heq : n = m
    · subst heq
      have hset : (w.workers.set n { work := .writePipe p none sink, finished := true })[n]? = some k := hm
      rw [List.getElem?_set_self hlt, Option.some.injEq] at hset
      rw [← hset]
      exact Or.inl rfl
    · have hold : w.workers[m]? = some k := (List.getElem?_set_ne heq).symm.trans hm
      rcases h.workers m k hold with hfinished | ⟨p', hp'⟩
      · exact Or.inl hfinished
      · rcases List.mem_cons.mp hp' with heq' | hmem
        · cases heq'
          exact absurd rfl heq
        · exact Or.inr ⟨p', hmem⟩

end World

end ValueShell.Evaluation
