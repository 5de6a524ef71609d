import ValueShell.Proofs.Task.Lineage

/-!
# Passes of disposals

A pass goes through everything from a controller downwards, once, and what is below before what is above.
It calls the disposal of each task, marks its controller and leaves everything else as it is. If a
disposal fails itself, the pass stops there.

`disposeEach_cases` says what disposing a list of controllers does, and `Lineal.pass` that disposing the
subtree of a controller is a `Pass` wherever the controllers are a forest.
-/

set_option autoImplicit false

namespace ValueShell.Task

variable {τ σ ρ ω : Type}

/-- What disposing tasks one after the other makes of the world. -/
def Behavior.disposeAll (b : Behavior τ σ ρ ω) (tasks : List τ) (w : ω) : ω :=
  tasks.foldl (fun w task => (b.dispose task w).world) w

namespace Runner

variable {b : Behavior τ σ ρ ω} {r r' : Runner τ σ ρ ω} {c : Nat}

/-! ## Disposing some controllers -/

/-- The tasks of some controllers. -/
def tasksOf (r : Runner τ σ ρ ω) (cs : List Nat) : List τ :=
  cs.filterMap fun c => (r.controllers[c]?).map Controller.task

/-- The controllers of the list are disposed, one after the other, and nothing else is changed. -/
structure DisposedInTurn (b : Behavior τ σ ρ ω) (cs : List Nat) (r r' : Runner τ σ ρ ω) : Prop where
  /-- The world goes through the disposal of each of their tasks. -/
  world : r'.world = b.disposeAll (r.tasksOf cs) r.world
  /-- Each of them has what its disposal made of its task, and is marked. -/
  marked : ∀ before c after k, cs = before ++ c :: after → r.controllers[c]? = some k →
    r'.controllers[c]? = some { k with
      task := (b.dispose k.task (b.disposeAll (r.tasksOf before) r.world)).task, disposed := true }
  outside : ∀ c, c ∉ cs → r'.controllers[c]? = r.controllers[c]?
  kin : r'.kin = r.kin
  rest : r' = { r with world := r'.world, controllers := r'.controllers }

theorem DisposedInTurn.nil (b : Behavior τ σ ρ ω) (r : Runner τ σ ρ ω) : DisposedInTurn b [] r r where
  world := rfl
  marked := by
    intro before c after k hsplit
    simp at hsplit
  outside := fun _ _ => rfl
  kin := rfl
  rest := rfl

theorem tasksOf_congr {cs : List Nat} (h : ∀ c ∈ cs, r'.controllers[c]? = r.controllers[c]?) :
    r'.tasksOf cs = r.tasksOf cs := by
  unfold tasksOf
  refine List.filterMap_congr ?_
  intro c hc
  rw [h c hc]

theorem tasksOf_append (r : Runner τ σ ρ ω) (cs ds : List Nat) :
    r.tasksOf (cs ++ ds) = r.tasksOf cs ++ r.tasksOf ds := List.filterMap_append

/-- The runner once the task of a controller was disposed, with or without success. -/
def disposing (b : Behavior τ σ ρ ω) (c : Nat) (k : Controller τ σ) (disposed : Bool) (r : Runner τ σ ρ ω) :
    Runner τ σ ρ ω :=
  { r with
    world := (b.dispose k.task r.world).world
    controllers := r.controllers.set c { k with task := (b.dispose k.task r.world).task, disposed } }

theorem DisposedInTurn.single {k : Controller τ σ} (hk : r.controllers[c]? = some k) :
    DisposedInTurn b [c] r (r.disposing b c k true) where
  world := by simp [tasksOf, hk, Behavior.disposeAll, disposing]
  marked := by
    intro before d after k' hsplit hk'
    obtain ⟨rfl, rfl, rfl⟩ : before = [] ∧ d = c ∧ after = [] := by
      cases before with
      | nil => simpa [eq_comm] using hsplit
      | cons a before => simp at hsplit
    rw [hk, Option.some.injEq] at hk'
    subst hk'
    exact List.getElem?_set_self (List.getElem?_eq_some_iff.mp hk).1
  outside := by
    intro d hd
    have hne : c ≠ d := fun heq => hd (List.mem_singleton.mpr heq.symm)
    exact List.getElem?_set_ne hne
  kin := (disposes_set hk _ _).kin
  rest := rfl

theorem DisposedInTurn.cons {cs : List Nat} {r₁ : Runner τ σ ρ ω} (hc : c ∉ cs)
    (h : DisposedInTurn b [c] r r₁) (h' : DisposedInTurn b cs r₁ r') : DisposedInTurn b (c :: cs) r r' := by
  have hother : ∀ d ∈ cs, r₁.controllers[d]? = r.controllers[d]? := by
    intro d hd
    refine h.outside d fun hmem => ?_
    rw [List.mem_singleton.mp hmem] at hd
    exact hc hd
  -- The world after the first disposal and then those of the next ones.
  have hworld : ∀ ds : List Nat, (∀ d ∈ ds, d ∈ cs) →
      b.disposeAll (r₁.tasksOf ds) r₁.world = b.disposeAll (r.tasksOf (c :: ds)) r.world := by
    intro ds hds
    have htasks : r₁.tasksOf ds = r.tasksOf ds := tasksOf_congr fun d hd => hother d (hds d hd)
    have hcons : r.tasksOf (c :: ds) = r.tasksOf [c] ++ r.tasksOf ds := tasksOf_append r [c] ds
    rw [htasks, h.world, hcons]
    simp only [Behavior.disposeAll, List.foldl_append]
  constructor
  case world => rw [h'.world, hworld cs fun _ hd => hd]
  case marked =>
    intro before d after k hsplit hk
    cases before with
    | nil =>
      obtain ⟨rfl, rfl⟩ : c = d ∧ cs = after := by simpa using hsplit
      rw [h'.outside c hc]
      exact h.marked [] c [] k rfl hk
    | cons a before =>
      obtain ⟨rfl, hcs⟩ : c = a ∧ cs = before ++ d :: after := by simpa using hsplit
      have hd : d ∈ cs := by simp [hcs]
      have hbefore : ∀ e ∈ before, e ∈ cs := by
        intro e he
        simp [hcs, he]
      rw [h'.marked before d after k hcs ((hother d hd).trans hk), hworld before hbefore]
  case outside =>
    intro d hd
    rw [List.mem_cons, not_or] at hd
    rw [h'.outside d hd.2, h.outside d (by simpa using hd.1)]
  case kin => exact h'.kin.trans h.kin
  case rest =>
    have hrest := h'.rest
    rw [h.rest] at hrest
    exact hrest

/-! ## Passes -/

/-- Everything from a controller downwards is disposed, unless the disposal of one task fails. Then those
that come before it are disposed, and the others are left as they are. -/
inductive Pass (b : Behavior τ σ ρ ω) (c : Nat) (r : Runner τ σ ρ ω) : Runner τ σ ρ ω → Option Fault → Prop
  | whole {r' : Runner τ σ ρ ω} {order : List Nat} (downwards : r.Downwards c order)
      (disposed : DisposedInTurn b order r r') : Pass b c r r' none
  | stopped {r' : Runner τ σ ρ ω} {before after : List Nat} {d : Nat} {k : Controller τ σ} {fault : Fault}
      (downwards : r.Downwards c (before ++ d :: after)) (disposed : DisposedInTurn b before r r')
      (next : r'.controllers[d]? = some k) (fails : (b.dispose k.task r'.world).fault = some fault) :
      Pass b c r (r'.disposing b d k k.disposed) (some fault)

/-- Disposing controllers goes on to the end of the list or to the first one that fails. -/
theorem disposeEach_cases (b : Behavior τ σ ρ ω) {cs : List Nat} (hnodup : cs.Nodup) {r : Runner τ σ ρ ω}
    (hknown : ∀ c ∈ cs, c < r.controllers.length) :
    (∃ r', disposeEach b cs r = (r', none) ∧ DisposedInTurn b cs r r') ∨
    ∃ r' before d after k fault, cs = before ++ d :: after ∧ DisposedInTurn b before r r' ∧
      r'.controllers[d]? = some k ∧ (b.dispose k.task r'.world).fault = some fault ∧
      disposeEach b cs r = (r'.disposing b d k k.disposed, some fault) := by
  induction cs generalizing r with
  | nil => exact .inl ⟨r, rfl, .nil b r⟩
  | cons c cs ih =>
    obtain ⟨hc, hnodup⟩ := List.nodup_cons.mp hnodup
    obtain ⟨k, hk⟩ : ∃ k, r.controllers[c]? = some k :=
      ⟨_, List.getElem?_eq_getElem (hknown c List.mem_cons_self)⟩
    cases hfault : (b.dispose k.task r.world).fault with
    | some fault =>
      refine .inr ⟨r, [], c, cs, k, fault, rfl, .nil b r, hk, hfault, ?_⟩
      simp only [disposeEach, hk, hfault, modify, modify_eq_set hk, disposing]
    | none =>
      have hstep : disposeEach b (c :: cs) r = disposeEach b cs (r.disposing b c k true) := by
        simp only [disposeEach, hk, hfault, modify, modify_eq_set hk, disposing]
      have hfirst := DisposedInTurn.single (b := b) hk
      have hlength : ∀ d ∈ cs, d < (r.disposing b c k true).controllers.length := by
        intro d hd
        rw [disposing, List.length_set]
        exact hknown d (List.mem_cons_of_mem c hd)
      rw [hstep]
      rcases ih hnodup hlength with
        ⟨r', hr', hdisposed⟩ | ⟨r', before, d, after, k', fault, rfl, hdisposed, hk', hfails, hr'⟩
      · exact .inl ⟨r', hr', hfirst.cons hc hdisposed⟩
      · have hbefore : c ∉ before := fun hmem => hc (List.mem_append_left _ hmem)
        exact .inr ⟨r', c :: before, d, after, k', fault, rfl, hfirst.cons hbefore hdisposed, hk', hfails, hr'⟩

theorem Lineal.pass (h : r.Lineal) (b : Behavior τ σ ρ ω) (hc : c < r.controllers.length) :
    Pass b c r (disposeEach b (r.subtree c) r).1 (disposeEach b (r.subtree c) r).2 := by
  have hdownwards := h.downwards_subtree c
  have hknown : ∀ d ∈ r.subtree c, d < r.controllers.length := fun d hd =>
    h.known_of_below hc ((hdownwards.complete d).mp hd)
  rcases disposeEach_cases b hdownwards.nodup hknown with
    ⟨r', hr', hdisposed⟩ | ⟨r', before, d, after, k, fault, hsplit, hdisposed, hk, hfails, hr'⟩
  · rw [hr']
    exact .whole hdownwards hdisposed
  · rw [hr']
    rw [hsplit] at hdownwards
    exact .stopped hdownwards hdisposed hk hfails

/-- What a pass leaves as it is. -/
structure Untouched (r r' : Runner τ σ ρ ω) : Prop where
  kin : r'.kin = r.kin
  stack : r'.stack = r.stack
  later : r'.later = r.later
  root : r'.root = r.root
  done : r'.done = r.done

theorem DisposedInTurn.untouched {cs : List Nat} (h : DisposedInTurn b cs r r') : Untouched r r' where
  kin := h.kin
  stack := by rw [h.rest]
  later := by rw [h.rest]
  root := by rw [h.rest]
  done := by rw [h.rest]

theorem Pass.untouched {fault : Option Fault} (h : Pass b c r r' fault) : Untouched r r' := by
  cases h with
  | whole _ disposed => exact disposed.untouched
  | @stopped r₁ _ _ d k _ _ disposed next _ =>
    obtain ⟨hkin, hstack, hlater, hroot, hdone⟩ := disposed.untouched
    refine ⟨?_, hstack, hlater, hroot, hdone⟩
    obtain ⟨hlt, hget⟩ := List.getElem?_eq_some_iff.mp (getElem?_kin next)
    rw [← hkin, kin, disposing, List.map_set]
    change r₁.kin.set d k.kin = r₁.kin
    rw [← hget, List.set_getElem_self]

end Runner

end ValueShell.Task
