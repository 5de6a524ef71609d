import ValueShell.Task.Runner

/-!
# The steps of a runner

What a single step does, for entries whose task does not fail: `exists_step_call` for a task that is
started, and `exists_step_finish` and its companions for a task that is finished, after everything below
it is disposed. `step_call` and `step_finish` are for tasks that do not look at their place but for its
number.
`Steps` chains such steps. Draining a runner goes along them (`drain_eq_of_steps`).
-/

set_option autoImplicit false

namespace ValueShell.Task.Runner

variable {τ σ ρ ω : Type} {b : Behavior τ σ ρ ω} {halted : ω → Bool}

/-- The runner takes some steps, none of which fails and before none of which it is halted. -/
inductive Steps (b : Behavior τ σ ρ ω) (halted : ω → Bool) :
    Runner τ σ ρ ω → Runner τ σ ρ ω → Prop
  | refl (r) : Steps b halted r r
  | cons {r r' r''} : r.stack ≠ [] → halted r.world = false → step b r = (r', none) →
      Steps b halted r' r'' → Steps b halted r r''

theorem Steps.single {r r' : Runner τ σ ρ ω} (hstack : r.stack ≠ []) (hhalted : halted r.world = false)
    (hstep : step b r = (r', none)) : Steps b halted r r' :=
  .cons hstack hhalted hstep (.refl r')

theorem Steps.trans {r r' r'' : Runner τ σ ρ ω} (h : Steps b halted r r')
    (h' : Steps b halted r' r'') : Steps b halted r r'' := by
  induction h with
  | refl => exact h'
  | cons hstack hhalted hstep _ ih => exact .cons hstack hhalted hstep (ih h')

/-- Draining a runner goes along its steps. -/
theorem drain_eq_of_steps {r r' : Runner τ σ ρ ω} (h : Steps b halted r r') :
    drain b halted r = drain b halted r' := by
  induction h with
  | refl => rfl
  | cons hstack hhalted hstep _ ih =>
    rw [drain, hhalted, hstep, ← ih]
    simp [hstack]

/-! ## Lists of controllers -/

theorem modify_eq_set {α : Type} {l : List α} {n : Nat} {a : α} (h : l[n]? = some a) (f : α → α) :
    l.modify n f = l.set n (f a) := by
  have hn : n < l.length := (List.getElem?_eq_some_iff.mp h).1
  refine List.ext_getElem? fun m => ?_
  rw [List.getElem?_modify, List.getElem?_set]
  by_cases heq : n = m
  · subst heq
    rw [h]
    simp [hn]
  · simp [heq]

/-- The controllers once the caller knows of its new task. -/
def link (parent : Option Nat) (n : Nat) (ks : List (Controller τ σ)) : List (Controller τ σ) :=
  match parent with
  | some p => ks.modify p fun k => { k with children := k.children ++ [n] }
  | none => ks

@[simp] theorem length_link (parent : Option Nat) (n : Nat) (ks : List (Controller τ σ)) :
    (link parent n ks).length = ks.length := by
  cases parent with
  | none => rfl
  | some p => exact List.length_modify _ _ _

/-- The first task once another one is started. -/
def rooted (parent : Option Nat) (n : Nat) (root : Option Nat) : Option Nat :=
  match parent with
  | some _ => root
  | none => some n

/-! ## Starting a task -/

variable {r r' : Runner τ σ ρ ω} {task : τ} {state : σ} {parent : Option Nat} {response : ρ} {c p : Nat}
  {rest : List (Entry τ σ ρ)} {k caller : Controller τ σ}

/-- A task is started, at a place that has its number. -/
theorem exists_step_call (hstack : r.stack = .call task state parent :: rest) :
    ∃ place : Place τ, place.self = r.controllers.length ∧ ∀ x, b.start place state task r.world = x →
      x.fault = none → step b r = (x.requests.foldl (take r.controllers.length)
        { r with
          world := x.world
          stack := rest
          root := rooted parent r.controllers.length r.root
          controllers := link parent r.controllers.length r.controllers ++
            [{ task := x.task, state, parent }] }, none) := by
  have hset : ∀ (ks : List (Controller τ σ)) (k : Controller τ σ) (f : Controller τ σ → Controller τ σ),
      ks.length = r.controllers.length → (ks ++ [k]).modify r.controllers.length f = ks ++ [f k] := by
    intro ks k f hlength
    have hlast : (ks ++ [k])[r.controllers.length]? = some k := by
      rw [← hlength]
      exact List.getElem?_concat_length
    rw [modify_eq_set hlast, List.set_append_right _ _ (Nat.le_of_eq hlength), hlength, Nat.sub_self]
    rfl
  cases parent with
  | none =>
    simp only [step, hstack, process, start, absorb, modify, rooted, link]
    generalize hplace : placeOf _ _ _ = place
    refine ⟨place, hplace ▸ rfl, fun x hx hfault => ?_⟩
    rw [hx, hfault, hset _ _ _ rfl]
  | some p =>
    simp only [step, hstack, process, start, absorb, modify, rooted, link]
    generalize hplace : placeOf _ _ _ = place
    refine ⟨place, hplace ▸ rfl, fun x hx hfault => ?_⟩
    rw [hx, hfault, hset _ _ _ (List.length_modify _ _ _)]

section Finish

theorem subtree_with_stack (r : Runner τ σ ρ ω) (rest : List (Entry τ σ ρ)) (c : Nat) :
    ({ r with stack := rest } : Runner τ σ ρ ω).subtree c = r.subtree c :=
  rfl

variable (hstack : r.stack = .finish response c :: rest)
  (hdispose : disposeEach b (r.subtree c) { r with stack := rest } = (r', none))
  (hk : r'.controllers[c]? = some k)
include hstack hdispose hk

/-- The first task is finished. -/
theorem step_finish_root (hparent : k.parent = none) :
    step b r = ({ r' with response := some response, done := true, root := none }, none) := by
  simp only [step, hstack, process, finish, subtree_with_stack, hdispose, hk, hparent]

variable (hparent : k.parent = some p) (hcaller : r'.controllers[p]? = some caller)
include hparent hcaller

/-- A task is finished, and its caller is resumed, at a place that has the caller's number. -/
theorem exists_step_finish (hchild : c ∈ caller.children) (hlive : caller.disposed = false) :
    ∃ place : Place τ, place.self = p ∧ ∀ x, b.resume place caller.task k.state response r'.world = x →
      x.fault = none → step b r = (x.requests.foldl (take p)
        { r' with
          world := x.world
          controllers := r'.controllers.set p
            { caller with task := x.task, children := caller.children.erase c } }, none) := by
  have hcontains : caller.children.contains c = true := List.contains_iff_mem.mpr hchild
  have hlt : p < r'.controllers.length := (List.getElem?_eq_some_iff.mp hcaller).1
  simp only [step, hstack, process, finish, subtree_with_stack, hdispose, hk, hparent, hcaller, hcontains,
    Bool.not_true, Bool.false_eq_true, if_false, hlive, modify, absorb]
  generalize hplace : placeOf _ _ _ = place
  refine ⟨place, hplace ▸ rfl, fun x hx hfault => ?_⟩
  rw [hx, hfault, modify_eq_set hcaller, modify_eq_set (List.getElem?_set_self hlt), List.set_set]

/-- A task is finished whose caller is disposed already. -/
theorem step_finish_disposed (hchild : c ∈ caller.children) (hdead : caller.disposed = true) :
    step b r = ({ r' with
      controllers := r'.controllers.set p
        { caller with children := caller.children.erase c } }, none) := by
  have hcontains : caller.children.contains c = true := List.contains_iff_mem.mpr hchild
  simp only [step, hstack, process, finish, subtree_with_stack, hdispose, hk, hparent, hcaller, hcontains,
    Bool.not_true, Bool.false_eq_true, if_false, hdead, if_true, modify]
  rw [modify_eq_set hcaller]

/-- A task is finished that its caller does not know any more. -/
theorem step_finish_unknown (hchild : c ∉ caller.children) : step b r = (r', some (.missingKey none)) := by
  have hcontains : caller.children.contains c = false := by simpa using hchild
  simp only [step, hstack, process, finish, subtree_with_stack, hdispose, hk, hparent, hcaller, hcontains,
    Bool.not_false, if_true]

end Finish

end ValueShell.Task.Runner
