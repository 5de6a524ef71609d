import ValueShell.Proofs.Task.History
import ValueShell.Proofs.Task.Steps
import ValueShell.Proofs.Task.Tasks

/-!
# What a step does to callers and called tasks

The kin of a controller is who called it, with which state, and whom it has called and not heard of yet.
A step of tasks that never fail has one of five outcomes: a task is started, or a task is finished and
it was the first one, or its caller does not know it any more, or its caller is disposed, or its caller
is resumed. `outcome_step` says for each of them what tasks are told, what is left to do and what becomes
of the kin, and that what is disposed stays disposed.
-/

set_option autoImplicit false

namespace ValueShell.Task

variable {τ σ ρ ω : Type}

/-- Tasks with `P` never fail, and call only tasks with `P`. -/
structure Behavior.Faultless (b : Behavior τ σ ρ ω) (P : τ → Prop) : Prop extends b.Keeps P where
  start_fault : ∀ place state task w, P task → (b.start place state task w).fault = none
  resume_fault : ∀ place task state response w, P task →
    (b.resume place task state response w).fault = none
  dispose_fault : ∀ task w, P task → (b.dispose task w).fault = none

theorem Behavior.Faultless.recorded {b : Behavior τ σ ρ ω} {P : τ → Prop} (hb : b.Faultless P) :
    b.recorded.Faultless P where
  start := fun place state task w => hb.start place state task w.1
  resume := fun place task state response w => hb.resume place task state response w.1
  dispose := fun task w => hb.dispose task w.1
  start_fault := fun place state task w => hb.start_fault place state task w.1
  resume_fault := fun place task state response w => hb.resume_fault place task state response w.1
  dispose_fault := fun task w => hb.dispose_fault task w.1

/-! ## What a reaction leaves to do -/

/-- The entry that a request puts on the stack. -/
def Request.now? (self : Nat) : Request τ σ ρ → Option (Entry τ σ ρ)
  | .call task state => some (.call task state (some self))
  | .callLater _ _ => none
  | .finish response => some (.finish response self)

/-- The entry that a request puts off. -/
def Request.later? (self : Nat) : Request τ σ ρ → Option (Entry τ σ ρ)
  | .callLater task state => some (.call task state (some self))
  | _ => none

namespace Runner

variable {b : Behavior τ σ ρ ω} {r r' : Runner τ σ ρ ω}

theorem foldl_take_eq (self : Nat) (qs : List (Request τ σ ρ)) (r : Runner τ σ ρ ω) :
    qs.foldl (take self) r =
      { r with
        stack := (qs.filterMap (Request.now? self)).reverse ++ r.stack
        later := r.later ++ qs.filterMap (Request.later? self) } := by
  induction qs generalizing r with
  | nil => simp
  | cons q rest ih =>
    rw [List.foldl_cons, ih]
    cases q <;> simp [take, push, Request.now?, Request.later?, List.filterMap_cons]

/-- What is left to do: what a task has asked for, and the rest. -/
structure Leaves (c : Nat) (requests : List (Request τ σ ρ)) (rest : List (Entry τ σ ρ))
    (r r' : Runner τ σ ρ ω) : Prop where
  stack : r'.stack = (requests.filterMap (Request.now? c)).reverse ++ rest
  later : r'.later = r.later ++ requests.filterMap (Request.later? c)

end Runner

/-! ## Kin -/

/-- Who called a task, with which state, and whom it has called in turn. -/
structure Kin (σ : Type) where
  state : σ
  parent : Option Nat
  children : List Nat

/-- The kin of all tasks once a caller knows of a new one. -/
def Kin.adopt (parent : Option Nat) (n : Nat) (ks : List (Kin σ)) : List (Kin σ) :=
  parent.elim ks fun p => ks.modify p fun x => { x with children := x.children ++ [n] }

theorem Kin.getElem?_adopt (parent : Option Nat) (n : Nat) (ks : List (Kin σ)) (i : Nat) :
    (adopt parent n ks)[i]? = (ks[i]?).map fun x =>
      if parent = some i then { x with children := x.children ++ [n] } else x := by
  cases parent with
  | none => simp [adopt]
  | some p =>
    rw [adopt, Option.elim_some, List.getElem?_modify]
    by_cases hp : p = i <;> simp [hp]

theorem Kin.map_adopt (parent : Option Nat) (n : Nat) (ks : List (Kin σ)) :
    (adopt parent n ks).map (fun x => (x.state, x.parent)) = ks.map fun x => (x.state, x.parent) := by
  refine List.ext_getElem? fun i => ?_
  rw [List.getElem?_map, List.getElem?_map, getElem?_adopt]
  cases ks[i]? with
  | none => rfl
  | some x => by_cases hp : parent = some i <;> simp [hp]

/-- The kin of a caller once a called task is finished. -/
def Kin.release (c : Nat) (x : Kin σ) : Kin σ := { x with children := x.children.erase c }

theorem Kin.release_of_not_mem {c : Nat} {x : Kin σ} (h : c ∉ x.children) : x.release c = x := by
  rw [release, List.erase_of_not_mem h]

/-- The kin of a controller. -/
def Controller.kin (k : Controller τ σ) : Kin σ := ⟨k.state, k.parent, k.children⟩

namespace Runner

variable {P : τ → Prop} {b : Behavior τ σ ρ ω} {r r' : Runner τ σ ρ ω} {c : Nat} {x : Kin σ}
  {k : Controller τ σ}

/-- The kin of the controllers, in the order of their creation. -/
def kin (r : Runner τ σ ρ ω) : List (Kin σ) := r.controllers.map Controller.kin

/-- The controller is disposed. -/
def isDisposed (r : Runner τ σ ρ ω) (c : Nat) : Bool := (r.controllers[c]?).any Controller.disposed

theorem length_kin (r : Runner τ σ ρ ω) : r.kin.length = r.controllers.length := List.length_map _

theorem getElem?_kin (h : r.controllers[c]? = some k) : r.kin[c]? = some k.kin := by
  rw [kin, List.getElem?_map, h]
  rfl

theorem exists_controller (h : r.kin[c]? = some x) : ∃ k, r.controllers[c]? = some k ∧ k.kin = x := by
  rw [kin, List.getElem?_map, Option.map_eq_some_iff] at h
  exact h

theorem any_disposed_set {ks : List (Controller τ σ)} (hc : ks[c]? = some k) (task : τ)
    (children : List Nat) (i : Nat) :
    ((ks.set c { k with task, children })[i]?).any Controller.disposed =
      (ks[i]?).any Controller.disposed := by
  have hlt : c < ks.length := (List.getElem?_eq_some_iff.mp hc).1
  by_cases hi : c = i
  · subst hi
    rw [List.getElem?_set_self hlt, hc]
    rfl
  · rw [List.getElem?_set_ne hi]

/-- What disposing some controllers changes: their tasks and their marks. -/
structure Disposes (cs : List Nat) (r r' : Runner τ σ ρ ω) : Prop where
  stack : r'.stack = r.stack
  later : r'.later = r.later
  kin : r'.kin = r.kin
  outside : ∀ i, i ∉ cs → r'.isDisposed i = r.isDisposed i
  kept : ∀ i, r.isDisposed i = true → r'.isDisposed i = true

theorem Disposes.trans {cs : List Nat} {r₁ : Runner τ σ ρ ω} (h : Disposes [c] r r₁)
    (h' : Disposes cs r₁ r') : Disposes (c :: cs) r r' where
  stack := h'.stack.trans h.stack
  later := h'.later.trans h.later
  kin := h'.kin.trans h.kin
  outside := by
    intro i hi
    rw [List.mem_cons, not_or] at hi
    rw [h'.outside i hi.2, h.outside i (by simpa using hi.1)]
  kept := fun i hi => h'.kept i (h.kept i hi)

theorem disposes_set (hc : r.controllers[c]? = some k) (task : τ) (w : ω) :
    Disposes [c] r
      { r with world := w, controllers := r.controllers.set c { k with task, disposed := true } } where
  stack := rfl
  later := rfl
  kin := by
    obtain ⟨hlt, hget⟩ := List.getElem?_eq_some_iff.mp (getElem?_kin hc)
    rw [kin, List.map_set]
    change r.kin.set c k.kin = r.kin
    rw [← hget, List.set_getElem_self]
  outside := by
    intro i hi
    have hne : c ≠ i := fun heq => hi (List.mem_singleton.mpr heq.symm)
    rw [isDisposed, List.getElem?_set_ne hne]
    rfl
  kept := by
    intro i hi
    rw [isDisposed, List.getElem?_set]
    split
    · rw [if_pos (List.getElem?_eq_some_iff.mp hc).1]
      rfl
    · exact hi

theorem disposes_disposeEach (hb : b.Faultless P) (cs : List Nat) {r : Runner τ σ ρ ω} (h : r.Every P) :
    (disposeEach b cs r).2 = none ∧ Disposes cs r (disposeEach b cs r).1 := by
  induction cs generalizing r with
  | nil => exact ⟨rfl, rfl, rfl, rfl, fun _ _ => rfl, fun _ h => h⟩
  | cons c rest ih =>
    rw [disposeEach]
    cases hc : r.controllers[c]? with
    | none =>
      obtain ⟨hfault, hrest⟩ := ih h
      exact ⟨hfault, hrest.stack, hrest.later, hrest.kin,
        fun i hi => hrest.outside i fun hmem => hi (List.mem_cons_of_mem c hmem), hrest.kept⟩
    | some k =>
      have hk : P k.task := h.controllers k (List.mem_of_getElem? hc)
      dsimp only
      rw [hb.dispose_fault k.task r.world hk]
      have hafter := ih ((h.setWorld (w := (b.dispose k.task r.world).world) trivial).modify c
        (f := fun k' => { k' with task := (b.dispose k.task r.world).task, disposed := true })
        fun _ _ => hb.dispose k.task r.world hk)
      dsimp only [modify] at hafter ⊢
      rw [modify_eq_set hc] at hafter ⊢
      exact ⟨hafter.1, (disposes_set hc _ _).trans hafter.2⟩

/-- Disposing tells no task anything that is recorded. -/
theorem record_disposeEach (cs : List Nat) (r : Runner τ σ ρ (ω × List (Told τ σ ρ))) :
    (disposeEach b.recorded cs r).1.world.2 = r.world.2 := by
  induction cs generalizing r with
  | nil => rfl
  | cons c rest ih =>
    rw [disposeEach]
    cases r.controllers[c]? with
    | none => exact ih r
    | some k =>
      dsimp only
      split
      · rfl
      · rw [ih]
        rfl

theorem exists_disposed (hb : b.Faultless P) {r : Runner τ σ ρ (ω × List (Told τ σ ρ))} (h : r.Every P)
    (cs : List Nat) :
    ∃ r', disposeEach b.recorded cs r = (r', none) ∧ r'.world.2 = r.world.2 ∧ Disposes cs r r' ∧
      r'.Every P := by
  obtain ⟨hfault, hdisposes⟩ := disposes_disposeEach hb.recorded cs h
  exact ⟨_, Prod.ext rfl hfault, record_disposeEach cs _, hdisposes,
    h.disposeEach (maintains_of_keeps hb.recorded.toKeeps) cs⟩

/-- Called tasks are newer than their callers. -/
def Ordered (r : Runner τ σ ρ ω) : Prop :=
  ∀ (c : Nat) (x : Kin σ), r.kin[c]? = some x → ∀ d ∈ x.children, c < d

theorem le_of_mem_descend (h : r.Ordered) {depth d : Nat} (hd : d ∈ descend r.controllers depth c) :
    c ≤ d := by
  induction depth generalizing c with
  | zero =>
    rw [descend, List.mem_singleton] at hd
    exact Nat.le_of_eq hd.symm
  | succ depth ih =>
    rw [descend] at hd
    split at hd
    · rename_i k hk
      rw [List.mem_append, List.mem_singleton, List.mem_flatMap] at hd
      rcases hd with ⟨child, hchild, hd⟩ | rfl
      · exact Nat.le_of_lt (Nat.lt_of_lt_of_le (h c k.kin (getElem?_kin hk) child hchild) (ih hd))
      · exact Nat.le_refl d
    · exact Nat.le_of_eq (List.mem_singleton.mp hd).symm

/-- What comes before a controller is not below it. -/
theorem not_mem_subtree (h : r.Ordered) {p : Nat} (hp : p < c) : p ∉ r.subtree c := fun hmem =>
  Nat.not_le_of_lt hp (le_of_mem_descend h hmem)

/-! ## Outcomes -/

/-- What a step makes of a runner when it processes an entry and `rest` is below it on the stack, what
tasks are told, and how the step fails. -/
inductive Outcome (r r' : Runner τ σ ρ ω) (rest : List (Entry τ σ ρ)) :
    Entry τ σ ρ → List (Told τ σ ρ) → Option Fault → Prop
  | started {task : τ} {state : σ} {parent : Option Nat} {requests : List (Request τ σ ρ)}
      (leaves : Leaves r.kin.length requests rest r r')
      (kin : r'.kin = Kin.adopt parent r.kin.length r.kin ++ [⟨state, parent, []⟩]) :
      Outcome r r' rest (.call task state parent) [.start r.kin.length task state requests] none
  | ended {response : ρ} {c : Nat} {x : Kin σ} (called : r.kin[c]? = some x) (first : x.parent = none)
      (leaves : Leaves c [] rest r r') (kin : r'.kin = r.kin) :
      Outcome r r' rest (.finish response c) [] none
  | unknown {response : ρ} {c p : Nat} {x caller : Kin σ} (called : r.kin[c]? = some x)
      (parent : x.parent = some p) (known : r.kin[p]? = some caller) (gone : c ∉ caller.children)
      (leaves : Leaves c [] rest r r') (kin : r'.kin = r.kin) :
      Outcome r r' rest (.finish response c) [] (some (.missingKey none))
  | dropped {response : ρ} {c p : Nat} {x caller : Kin σ} (called : r.kin[c]? = some x)
      (parent : x.parent = some p) (known : r.kin[p]? = some caller) (child : c ∈ caller.children)
      (dead : r.isDisposed p = true)
      (leaves : Leaves c [] rest r r') (kin : r'.kin = r.kin.set p (caller.release c)) :
      Outcome r r' rest (.finish response c) [] none
  | resumed {response : ρ} {c p : Nat} {x caller : Kin σ} {requests : List (Request τ σ ρ)}
      (called : r.kin[c]? = some x) (parent : x.parent = some p) (known : r.kin[p]? = some caller)
      (child : c ∈ caller.children) (live : r.isDisposed p = false)
      (leaves : Leaves p requests rest r r') (kin : r'.kin = r.kin.set p (caller.release c)) :
      Outcome r r' rest (.finish response c) [.resume p x.state response requests] none

theorem Outcome.forget {r r' : Runner τ σ ρ (ω × List (Told τ σ ρ))} {rest : List (Entry τ σ ρ)}
    {e : Entry τ σ ρ} {told : List (Told τ σ ρ)} {fault : Option Fault}
    (h : Outcome r r' rest e told fault) : Outcome r.forget r'.forget rest e told fault := by
  cases h with
  | started leaves kin => exact .started ⟨leaves.stack, leaves.later⟩ kin
  | ended called first leaves kin => exact .ended called first ⟨leaves.stack, leaves.later⟩ kin
  | unknown called parent known gone leaves kin =>
    exact .unknown called parent known gone ⟨leaves.stack, leaves.later⟩ kin
  | dropped called parent known child dead leaves kin =>
    exact .dropped called parent known child dead ⟨leaves.stack, leaves.later⟩ kin
  | resumed called parent known child live leaves kin =>
    exact .resumed called parent known child live ⟨leaves.stack, leaves.later⟩ kin

theorem map_kin_link (parent : Option Nat) (n : Nat) (ks : List (Controller τ σ)) :
    (link parent n ks).map Controller.kin = Kin.adopt parent n (ks.map Controller.kin) := by
  cases parent with
  | none => rfl
  | some p =>
    refine List.ext_getElem? fun i => ?_
    rw [Kin.getElem?_adopt, link, List.getElem?_map, List.getElem?_map, List.getElem?_modify]
    cases ks[i]? with
    | none => rfl
    | some k => by_cases hp : p = i <;> simp [hp, Controller.kin]

theorem isDisposed_of_link {parent : Option Nat} {n : Nat} (hk : k.disposed = false)
    (h : r'.controllers = link parent n r.controllers ++ [k]) (i : Nat) :
    r'.isDisposed i = r.isDisposed i := by
  have hlink : ((link parent n r.controllers)[i]?).any Controller.disposed = r.isDisposed i := by
    cases parent with
    | none => rfl
    | some p =>
      simp only [link, List.getElem?_modify, isDisposed]
      cases r.controllers[i]? with
      | none => simp
      | some k =>
        by_cases hi : p = i
        · simp [hi]
        · simp [hi]
  rw [← hlink, isDisposed, h]
  by_cases hi : i < (link parent n r.controllers).length
  · rw [List.getElem?_append_left hi]
  · have hlast : (link parent n r.controllers)[i]? = none := List.getElem?_eq_none (Nat.le_of_not_lt hi)
    rw [hlast, List.getElem?_append_right (Nat.le_of_not_lt hi)]
    cases i - (link parent n r.controllers).length with
    | zero => simp [hk]
    | succ j => simp

section Recorded

variable {r : Runner τ σ ρ (ω × List (Told τ σ ρ))} {rest : List (Entry τ σ ρ)}

/-- The outcome of a recorded step, with what it records. What is disposed stays disposed. -/
def Results (b : Behavior τ σ ρ ω) (r : Runner τ σ ρ (ω × List (Told τ σ ρ))) (rest : List (Entry τ σ ρ))
    (e : Entry τ σ ρ) : Prop :=
  ∃ told, (step b.recorded r).1.world.2 = r.world.2 ++ told ∧
    Outcome r (step b.recorded r).1 rest e told (step b.recorded r).2 ∧
    ∀ i, r.isDisposed i = true → (step b.recorded r).1.isDisposed i = true

theorem results_call (hb : b.Faultless P) (h : r.Every P) {task : τ} {state : σ} {parent : Option Nat}
    (hstack : r.stack = .call task state parent :: rest) : Results b r rest (.call task state parent) := by
  obtain ⟨place, hself, hstep⟩ := exists_step_call (b := b.recorded) hstack
  have htask : P task := h.stack (.call task state parent) (by simp [hstack])
  have hstep := hstep _ rfl (hb.recorded.start_fault place state task r.world htask)
  rw [foldl_take_eq] at hstep
  refine ⟨[.start place.self task state (b.start place state task r.world.1).requests], ?_, ?_, ?_⟩
  · rw [hstep]
    rfl
  · rw [hstep, hself, ← length_kin]
    refine .started ⟨rfl, rfl⟩ ?_
    rw [kin, List.map_append, map_kin_link, length_kin]
    rfl
  · intro i hi
    rw [hstep]
    exact (isDisposed_of_link rfl rfl i).trans hi

theorem results_finish (hb : b.Faultless P) (h : r.Every P) (hordered : r.Ordered) {response : ρ}
    (hc : r.kin[c]? = some x) (holder : ∀ p, x.parent = some p → p < c)
    (hstack : r.stack = .finish response c :: rest) : Results b r rest (.finish response c) := by
  have hrest : ({ r with stack := rest } : Runner τ σ ρ (ω × List (Told τ σ ρ))).Every P :=
    ⟨h.controllers, fun e he => h.stack e (by simp [hstack, he]), h.later, trivial⟩
  obtain ⟨r₁, hdispose, hrecord, hdisposes, hevery⟩ := exists_disposed hb hrest (r.subtree c)
  have hkin : r₁.kin = r.kin := hdisposes.kin
  have hkept : ∀ i, r.isDisposed i = true → r₁.isDisposed i = true := hdisposes.kept
  have hleaves : Leaves c [] rest r r₁ := ⟨hdisposes.stack, by simpa using hdisposes.later⟩
  obtain ⟨k, hk, rfl⟩ := exists_controller (hkin ▸ hc)
  cases hparent : k.parent with
  | none =>
    have hstep := step_finish_root hstack hdispose hk hparent
    rw [Results, hstep]
    exact ⟨[], by simpa using hrecord, .ended hc hparent ⟨hleaves.stack, hleaves.later⟩ hkin, hkept⟩
  | some p =>
    have hlt : p < c := holder p hparent
    have hlength : p < r₁.controllers.length := Nat.lt_trans hlt (List.getElem?_eq_some_iff.mp hk).1
    have hcaller := List.getElem?_eq_getElem hlength
    generalize r₁.controllers[p] = caller at hcaller
    have hknown : r.kin[p]? = some caller.kin := hkin ▸ getElem?_kin hcaller
    have hmark : r.isDisposed p = caller.disposed := by
      have houtside : r₁.isDisposed p = r.isDisposed p :=
        hdisposes.outside p (not_mem_subtree hordered hlt)
      rw [← houtside, isDisposed, hcaller]
      rfl
    by_cases hchild : c ∈ caller.children
    · cases hdead : caller.disposed with
      | true =>
        have hstep := step_finish_disposed hstack hdispose hk hparent hcaller hchild hdead
        rw [Results, hstep]
        refine ⟨[], by simpa using hrecord, ?_, fun i hi => ?_⟩
        · refine .dropped hc hparent hknown hchild (hmark.trans hdead) ⟨hleaves.stack, hleaves.later⟩ ?_
          rw [← hkin, kin, List.map_set]
          rfl
        · exact (any_disposed_set hcaller _ _ i).trans (hkept i hi)
      | false =>
        obtain ⟨place, hself, hstep⟩ := exists_step_finish hstack hdispose hk hparent hcaller hchild hdead
        have htask : P caller.task := hevery.controllers caller (List.mem_of_getElem? hcaller)
        have hstep := hstep _ rfl
          (hb.recorded.resume_fault place caller.task k.state response r₁.world htask)
        rw [foldl_take_eq] at hstep
        rw [Results, hstep]
        refine ⟨[.resume p k.state response
          (b.resume place caller.task k.state response r₁.world.1).requests], ?_, ?_, fun i hi => ?_⟩
        · rw [← hrecord, ← hself]
          rfl
        · refine .resumed hc hparent hknown hchild (hmark.trans hdead) ⟨?_, ?_⟩ ?_
          · exact congrArg _ hdisposes.stack
          · exact congrArg (· ++ _) hdisposes.later
          · rw [← hkin, kin, List.map_set]
            rfl
        · exact (any_disposed_set hcaller _ _ i).trans (hkept i hi)
    · have hstep := step_finish_unknown hstack hdispose hk hparent hcaller hchild
      rw [Results, hstep]
      exact ⟨[], by simpa using hrecord, .unknown hc hparent hknown hchild hleaves hkin, hkept⟩

end Recorded

/-- What a step does, for an entry that is about a known controller. -/
theorem outcome_step (hb : b.Faultless P) (h : r.Every P) (hordered : r.Ordered) {e : Entry τ σ ρ}
    {rest : List (Entry τ σ ρ)} (hstack : r.stack = e :: rest)
    (hfinish : ∀ response c, e = .finish response c →
      ∃ x, r.kin[c]? = some x ∧ ∀ p, x.parent = some p → p < c) :
    Outcome r (step b r).1 rest e (told b r) (step b r).2 ∧
      ∀ i, r.isDisposed i = true → (step b r).1.isDisposed i = true := by
  have hevery : r.recording.Every P := ⟨h.controllers, h.stack, h.later, trivial⟩
  have hresults : Results b r.recording rest e := by
    cases e with
    | call task state parent => exact results_call hb hevery hstack
    | finish response c =>
      obtain ⟨x, hc, holder⟩ := hfinish response c rfl
      exact results_finish hb hevery hordered hc holder hstack
  obtain ⟨notices, hrecord, houtcome, hkept⟩ := hresults
  have htold : told b r = notices := hrecord
  have hstep : step b r = forgetting (step b.recorded r.recording) := (forget_step r.recording).symm
  rw [hstep, htold]
  exact ⟨houtcome.forget, hkept⟩

end Runner

end ValueShell.Task
