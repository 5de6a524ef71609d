import ValueShell.Task.Runner

/-!
# What the tasks of a runner keep

Tasks may keep something about themselves (`P`), about the responses that they give (`Q`) and about the
world (`I`). What they keep whenever they are started, resumed or disposed holds of everything in the
runner at all times. The argument is about the runner alone: `Holds.step` is what one step keeps, whether
or not the tasks fail. `Every` is the case in which nothing is said of responses and of the world.
-/

set_option autoImplicit false

namespace ValueShell.Task

variable {τ σ ρ ω : Type}

/-- A request hands only tasks with `P` and responses with `Q` to the runner. -/
def Request.Hands (P : τ → Prop) (Q : ρ → Prop) : Request τ σ ρ → Prop
  | .call task _ => P task
  | .callLater task _ => P task
  | .finish response => Q response

/-- An entry starts only a task with `P`, or passes on a response with `Q`. -/
def Entry.Hands (P : τ → Prop) (Q : ρ → Prop) : Entry τ σ ρ → Prop
  | .call task _ _ => P task
  | .finish response _ => Q response

/-- A reaction after which everything is kept. -/
structure Reaction.Keeps (P : τ → Prop) (Q : ρ → Prop) (I : ω → Prop) (x : Reaction τ σ ρ ω) : Prop where
  task : P x.task
  world : I x.world
  requests : ∀ q ∈ x.requests, q.Hands P Q

section Keeps

variable {P : τ → Prop} {Q : ρ → Prop} {I : ω → Prop} {x : Reaction τ σ ρ ω}

theorem Reaction.Keeps.idle (htask : P x.task) (hworld : I x.world) (h : x.requests = []) :
    x.Keeps P Q I := by
  refine ⟨htask, hworld, fun q hq => ?_⟩
  rw [h] at hq
  cases hq

theorem Reaction.Keeps.single {q : Request τ σ ρ} (htask : P x.task) (hworld : I x.world)
    (h : x.requests = [q]) (hq : q.Hands P Q) : x.Keeps P Q I := by
  refine ⟨htask, hworld, fun q' hq' => ?_⟩
  rw [h, List.mem_singleton] at hq'
  rw [hq']
  exact hq

theorem Reaction.Keeps.pair {q q' : Request τ σ ρ} (htask : P x.task) (hworld : I x.world)
    (h : x.requests = [q, q']) (hq : q.Hands P Q) (hq' : q'.Hands P Q) : x.Keeps P Q I := by
  refine ⟨htask, hworld, fun q'' hq'' => ?_⟩
  rw [h, List.mem_cons, List.mem_singleton] at hq''
  rcases hq'' with rfl | rfl
  · exact hq
  · exact hq'

end Keeps

/-- Tasks with `P` keep it, call only tasks with `P`, respond only with `Q`, and keep `I` of the world, as
long as they are told only responses with `Q`. -/
structure Behavior.Maintains (b : Behavior τ σ ρ ω) (P : τ → Prop) (Q : ρ → Prop) (I : ω → Prop) :
    Prop where
  start : ∀ place state task w, P task → I w → (b.start place state task w).Keeps P Q I
  resume : ∀ place task state response w, P task → Q response → I w →
    (b.resume place task state response w).Keeps P Q I
  dispose : ∀ task w, P task → I w → P (b.dispose task w).task ∧ I (b.dispose task w).world

namespace Runner

/-- Every task of the runner has `P`, every response that is passed on has `Q`, and the world has `I`. -/
structure Holds (P : τ → Prop) (Q : ρ → Prop) (I : ω → Prop) (r : Runner τ σ ρ ω) : Prop where
  controllers : ∀ k ∈ r.controllers, P k.task
  stack : ∀ e ∈ r.stack, e.Hands P Q
  later : ∀ e ∈ r.later, e.Hands P Q
  world : I r.world

section Holds

variable {P : τ → Prop} {Q : ρ → Prop} {I : ω → Prop} {b : Behavior τ σ ρ ω} {r : Runner τ σ ρ ω}

theorem holds_ofTask {task : τ} (state : σ) {w : ω} (h : P task) (hw : I w) :
    (ofTask task state w : Runner τ σ ρ ω).Holds P Q I := by
  refine ⟨fun k hk => ?_, fun e he => ?_, fun e he => ?_, hw⟩
  · cases hk
  · rw [ofTask, List.mem_singleton] at he
    subst he
    exact h
  · cases he

theorem Holds.push (h : r.Holds P Q I) {e : Entry τ σ ρ} (he : e.Hands P Q) : (r.push e).Holds P Q I := by
  refine ⟨h.controllers, fun e' he' => ?_, h.later, h.world⟩
  rcases List.mem_cons.mp he' with rfl | he'
  · exact he
  · exact h.stack e' he'

theorem Holds.take (h : r.Holds P Q I) (self : Nat) {q : Request τ σ ρ} (hq : q.Hands P Q) :
    (Runner.take self r q).Holds P Q I := by
  cases q with
  | call task state => exact h.push hq
  | finish response => exact h.push hq
  | callLater task state =>
    refine ⟨h.controllers, h.stack, fun e he => ?_, h.world⟩
    rcases List.mem_append.mp he with he | he
    · exact h.later e he
    · rw [List.mem_singleton] at he
      subst he
      exact hq

theorem Holds.foldl_take (self : Nat) (qs : List (Request τ σ ρ)) (hqs : ∀ q ∈ qs, q.Hands P Q)
    {r : Runner τ σ ρ ω} (h : r.Holds P Q I) : (qs.foldl (Runner.take self) r).Holds P Q I := by
  induction qs generalizing r with
  | nil => exact h
  | cons q rest ih =>
    have hq : q.Hands P Q := hqs q List.mem_cons_self
    exact ih (fun q' hq' => hqs q' (List.mem_cons_of_mem q hq')) (h.take self hq)

theorem Holds.setWorld (h : r.Holds P Q I) {w : ω} (hw : I w) :
    ({ r with world := w } : Runner τ σ ρ ω).Holds P Q I :=
  ⟨h.controllers, h.stack, h.later, hw⟩

theorem Holds.modify (h : r.Holds P Q I) (c : Nat) {f : Controller τ σ → Controller τ σ}
    (hf : ∀ k, P k.task → P (f k).task) : (r.modify c f).Holds P Q I := by
  refine ⟨fun k hk => ?_, h.stack, h.later, h.world⟩
  change k ∈ r.controllers.modify c f at hk
  obtain ⟨i, hi, hik⟩ := List.mem_iff_getElem.mp hk
  rw [← hik, List.getElem_modify]
  split
  · exact hf _ (h.controllers _ (List.getElem_mem _))
  · exact h.controllers _ (List.getElem_mem _)

theorem Holds.disposeEach (hb : b.Maintains P Q I) (cs : List Nat) {r : Runner τ σ ρ ω}
    (h : r.Holds P Q I) : (Runner.disposeEach b cs r).1.Holds P Q I := by
  induction cs generalizing r with
  | nil => exact h
  | cons c rest ih =>
    rw [Runner.disposeEach]
    split
    · exact ih h
    · rename_i k hk
      have hkP : P k.task := h.controllers k (List.mem_of_getElem? hk)
      obtain ⟨htask, hworld⟩ := hb.dispose k.task r.world hkP h.world
      dsimp only
      split
      · exact (h.setWorld hworld).modify c fun _ _ => htask
      · exact ih ((h.setWorld hworld).modify c fun _ _ => htask)

theorem Holds.handleFault (hb : b.Maintains P Q I) (fault : Fault) (h : r.Holds P Q I) :
    (Runner.handleFault b fault r).1.Holds P Q I := by
  unfold Runner.handleFault
  split
  · exact h
  · rename_i root _
    have hd := Holds.disposeEach hb (r.subtree root) h
    split
    · rename_i heq
      rw [heq] at hd
      exact hd
    · rename_i heq
      rw [heq] at hd
      exact hd

theorem Holds.absorb (hb : b.Maintains P Q I) (self : Nat) {x : Reaction τ σ ρ ω} (hx : x.Keeps P Q I)
    (h : r.Holds P Q I) : (Runner.absorb b self x r).1.Holds P Q I := by
  unfold Runner.absorb
  have hchanged : (r.modify self fun k => { k with task := x.task }).Holds P Q I :=
    h.modify self fun _ _ => hx.task
  have htaken := Holds.foldl_take self x.requests hx.requests (hchanged.setWorld hx.world)
  dsimp only
  split
  · exact htaken.handleFault hb _
  · exact htaken

theorem Holds.start (hb : b.Maintains P Q I) {task : τ} (state : σ) (parent : Option Nat) (htask : P task)
    (h : r.Holds P Q I) : (Runner.start b task state parent r).1.Holds P Q I := by
  unfold Runner.start
  have hadd : ∀ r' : Runner τ σ ρ ω, r'.Holds P Q I →
      ({ r' with controllers := r'.controllers ++ [{ task, state, parent }] } :
        Runner τ σ ρ ω).Holds P Q I := by
    intro r' h'
    refine ⟨fun k hk => ?_, h'.stack, h'.later, h'.world⟩
    rcases List.mem_append.mp hk with hk | hk
    · exact h'.controllers k hk
    · rw [List.mem_singleton] at hk
      subst hk
      exact htask
  cases parent with
  | none =>
    have hroot : ({ r with root := some r.controllers.length } : Runner τ σ ρ ω).Holds P Q I :=
      ⟨h.controllers, h.stack, h.later, h.world⟩
    exact Holds.absorb hb _ (hb.start _ state task _ htask h.world) (hadd _ hroot)
  | some p =>
    have hcaller :
        (r.modify p fun k => { k with children := k.children ++ [r.controllers.length] }).Holds P Q I :=
      h.modify _ fun _ hk => hk
    exact Holds.absorb hb _ (hb.start _ state task _ htask h.world) (hadd _ hcaller)

theorem Holds.finish (hb : b.Maintains P Q I) {response : ρ} (c : Nat) (hresponse : Q response)
    (h : r.Holds P Q I) : (Runner.finish b response c r).1.Holds P Q I := by
  unfold Runner.finish
  have hd := Holds.disposeEach hb (r.subtree c) h
  split
  · rename_i heq
    rw [heq] at hd
    exact hd
  · rename_i r' heq
    rw [heq] at hd
    split
    · exact hd
    · split
      · exact ⟨hd.controllers, hd.stack, hd.later, hd.world⟩
      · rename_i p _
        split
        · exact hd
        · rename_i caller hcaller
          have hcallerP : P caller.task := hd.controllers caller (List.mem_of_getElem? hcaller)
          split
          · exact hd
          · dsimp only
            have herased := hd.modify p (f := fun _ => { caller with children := caller.children.erase c })
              fun _ _ => hcallerP
            split
            · exact herased
            · refine Holds.absorb hb _ ?_ herased
              exact hb.resume _ caller.task _ response _ hcallerP hresponse hd.world

/-- One step keeps what the tasks keep. -/
theorem Holds.step (hb : b.Maintains P Q I) (h : r.Holds P Q I) : (Runner.step b r).1.Holds P Q I := by
  unfold Runner.step
  split
  · exact h
  · rename_i e rest hstack
    have hrest : ({ r with stack := rest } : Runner τ σ ρ ω).Holds P Q I :=
      ⟨h.controllers, fun e' he' => h.stack e' (by rw [hstack]; exact List.mem_cons_of_mem e he'),
        h.later, h.world⟩
    have he : e.Hands P Q := h.stack e (by rw [hstack]; exact List.mem_cons_self)
    cases e with
    | call task state parent => exact hrest.start hb state parent he
    | finish response c => exact hrest.finish hb c he

theorem Holds.resumeLater (h : r.Holds P Q I) : r.resumeLater.Holds P Q I := by
  unfold Runner.resumeLater
  split
  · exact ⟨h.controllers, fun e he => h.later e (List.mem_reverse.mp he),
      fun e he => absurd he List.not_mem_nil, h.world⟩
  · exact h

end Holds

end Runner

/-! ## Tasks alone -/

/-- A request hands only tasks with `P` to the runner. -/
def Request.Asks (P : τ → Prop) : Request τ σ ρ → Prop
  | .call task _ => P task
  | .callLater task _ => P task
  | .finish _ => True

/-- Tasks with `P` keep it, and call only tasks with `P`. -/
structure Behavior.Keeps (b : Behavior τ σ ρ ω) (P : τ → Prop) : Prop where
  start : ∀ place state task w, P task →
    P (b.start place state task w).task ∧ ∀ q ∈ (b.start place state task w).requests, q.Asks P
  resume : ∀ place task state response w, P task →
    P (b.resume place task state response w).task ∧
      ∀ q ∈ (b.resume place task state response w).requests, q.Asks P
  dispose : ∀ task w, P task → P (b.dispose task w).task

namespace Runner

/-- Every task of the runner has `P`: those that were started and those that wait to be. -/
abbrev Every (P : τ → Prop) (r : Runner τ σ ρ ω) : Prop := r.Holds P (fun _ => True) fun _ => True

variable {P : τ → Prop} {b : Behavior τ σ ρ ω}

theorem maintains_of_keeps (hb : b.Keeps P) : b.Maintains P (fun _ => True) fun _ => True := by
  have hhands : ∀ q : Request τ σ ρ, q.Asks P → q.Hands P fun _ => True := by
    intro q hq
    cases q <;> exact hq
  refine ⟨fun place state task w htask _ => ?_, fun place task state response w htask _ _ => ?_,
    fun task w htask _ => ⟨hb.dispose task w htask, trivial⟩⟩
  · obtain ⟨hkept, hasks⟩ := hb.start place state task w htask
    exact ⟨hkept, trivial, fun q hq => hhands q (hasks q hq)⟩
  · obtain ⟨hkept, hasks⟩ := hb.resume place task state response w htask
    exact ⟨hkept, trivial, fun q hq => hhands q (hasks q hq)⟩

end Runner

end ValueShell.Task
