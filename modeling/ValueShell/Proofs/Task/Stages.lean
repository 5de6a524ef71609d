import ValueShell.Proofs.Task.Disposal

/-!
# Stages of a step

`Processes` says in which stages an entry is processed. Tasks are disposed in passes only: when a task is
finished, everything from it downwards, and when a task fails while the first task is there, everything
from the first task downwards. Every entry is processed so where the controllers are a forest
(`Lineal.processes`), and they are a forest again afterwards (`Lineal.of_processes`), so this is so in
every state that a runner can reach. Nothing is assumed about what tasks do.
-/

set_option autoImplicit false

namespace ValueShell.Task

variable {τ σ ρ ω : Type} {self : Nat} {e : Entry τ σ ρ} {rest : List (Entry τ σ ρ)}

namespace Runner

variable {b : Behavior τ σ ρ ω} {r r' : Runner τ σ ρ ω} {c : Nat}

/-! ## Stages -/

/-- The runner once a task has reacted: the task has become what the reaction says, and its requests
are taken. -/
def react (self : Nat) (x : Reaction τ σ ρ ω) (r : Runner τ σ ρ ω) : Runner τ σ ρ ω :=
  x.requests.foldl (take self) { r.modify self fun k => { k with task := x.task } with world := x.world }

/-- The runner once a called task has a controller and its caller knows of it. -/
def enroll (task : τ) (state : σ) (parent : Option Nat) (r : Runner τ σ ρ ω) : Runner τ σ ρ ω :=
  { r with
    root := rooted parent r.controllers.length r.root
    controllers := link parent r.controllers.length r.controllers ++ [{ task, state, parent }] }

/-- The runner once a caller has been told that a called task is finished. -/
def release (p c : Nat) (r : Runner τ σ ρ ω) : Runner τ σ ρ ω :=
  r.modify p fun k => { k with children := k.children.erase c }

/-- A task reacts. If it fails, everything from the first task downwards is disposed and the fault is
passed on, unless a disposal fails or the first task is not there. -/
inductive Reacts (b : Behavior τ σ ρ ω) (self : Nat) (x : Reaction τ σ ρ ω) (r : Runner τ σ ρ ω) :
    Runner τ σ ρ ω × Option Fault → Prop
  | well (fine : x.fault = none) : Reacts b self x r (r.react self x, none)
  | failed {fault : Fault} {root : Nat} {r' : Runner τ σ ρ ω} {other : Option Fault}
      (fails : x.fault = some fault) (first : r.root = some root)
      (pass : Pass b root (r.react self x) r' other) : Reacts b self x r (r', some (other.getD fault))
  | masked {fault : Fault} (fails : x.fault = some fault) (gone : r.root = none) :
      Reacts b self x r (r.react self x, some .noAttribute)

/-- How an entry is processed. A call starts its task. For a task that is finished, everything from it
downwards is disposed first. Then its caller is told, and resumed if it is not disposed. -/
inductive Processes (b : Behavior τ σ ρ ω) (r : Runner τ σ ρ ω) :
    Entry τ σ ρ → Runner τ σ ρ ω × Option Fault → Prop
  | started {task : τ} {state : σ} {parent : Option Nat} {result : Runner τ σ ρ ω × Option Fault}
      (reacts : Reacts b r.controllers.length
        (b.start ((r.enroll task state parent).placeOf r.controllers.length { task, state, parent })
          state task r.world)
        (r.enroll task state parent) result) :
      Processes b r (.call task state parent) result
  | stopped {response : ρ} {c : Nat} {r' : Runner τ σ ρ ω} {fault : Fault}
      (pass : Pass b c r r' (some fault)) : Processes b r (.finish response c) (r', some fault)
  | ended {response : ρ} {c : Nat} {r' : Runner τ σ ρ ω} {k : Controller τ σ}
      (pass : Pass b c r r' none) (called : r'.controllers[c]? = some k) (first : k.parent = none) :
      Processes b r (.finish response c)
        ({ r' with response := some response, done := true, root := none }, none)
  | unknown {response : ρ} {c p : Nat} {r' : Runner τ σ ρ ω} {k caller : Controller τ σ}
      (pass : Pass b c r r' none) (called : r'.controllers[c]? = some k) (parent : k.parent = some p)
      (known : r'.controllers[p]? = some caller) (gone : c ∉ caller.children) :
      Processes b r (.finish response c) (r', some (.missingKey none))
  | dropped {response : ρ} {c p : Nat} {r' : Runner τ σ ρ ω} {k caller : Controller τ σ}
      (pass : Pass b c r r' none) (called : r'.controllers[c]? = some k) (parent : k.parent = some p)
      (known : r'.controllers[p]? = some caller) (child : c ∈ caller.children)
      (dead : caller.disposed = true) :
      Processes b r (.finish response c) (r'.release p c, none)
  | resumed {response : ρ} {c p : Nat} {r' : Runner τ σ ρ ω} {k caller : Controller τ σ}
      {result : Runner τ σ ρ ω × Option Fault}
      (pass : Pass b c r r' none) (called : r'.controllers[c]? = some k) (parent : k.parent = some p)
      (known : r'.controllers[p]? = some caller) (child : c ∈ caller.children)
      (live : caller.disposed = false)
      (reacts : Reacts b p
        (b.resume ((r'.release p c).placeOf p { caller with children := caller.children.erase c })
          caller.task k.state response r'.world)
        (r'.release p c) result) :
      Processes b r (.finish response c) result

/-! ## Every step goes through these stages -/

theorem Lineal.congr (h : r.Lineal) (hkin : r'.kin = r.kin)
    (hknown : ∀ e ∈ r'.stack ++ r'.later, ∀ c ∈ e.owner, c < r.kin.length)
    (hroot : ∀ c ∈ r'.root, c < r.kin.length) : r'.Lineal := by
  refine ⟨?_, ?_, ?_, ?_, ?_⟩
  · rw [hkin]
    exact h.nodup
  · rw [hkin]
    exact h.parent
  · rw [hkin]
    exact h.older
  · rw [hkin]
    exact hknown
  · rw [hkin]
    exact hroot

theorem Lineal.untouched (h : r.Lineal) (hr' : Untouched r r') : r'.Lineal := by
  refine h.congr hr'.kin ?_ ?_
  · rw [hr'.stack, hr'.later]
    exact h.known
  · rw [hr'.root]
    exact h.root

theorem kin_modify_task (c : Nat) (task : τ) (r : Runner τ σ ρ ω) :
    (r.modify c fun k => { k with task }).kin = r.kin := by
  refine List.ext_getElem? fun i => ?_
  simp only [kin, modify, List.getElem?_map, List.getElem?_modify]
  cases r.controllers[i]? with
  | none => rfl
  | some k => by_cases hi : c = i <;> simp [hi, Controller.kin]

theorem react_eq (self : Nat) (x : Reaction τ σ ρ ω) (r : Runner τ σ ρ ω) :
    r.react self x =
      { r.modify self fun k => { k with task := x.task } with
        world := x.world
        stack := (x.requests.filterMap (Request.now? self)).reverse ++ r.stack
        later := r.later ++ x.requests.filterMap (Request.later? self) } := by
  rw [react, foldl_take_eq]
  rfl

theorem kin_react (self : Nat) (x : Reaction τ σ ρ ω) (r : Runner τ σ ρ ω) :
    (r.react self x).kin = r.kin := by
  rw [react_eq]
  exact kin_modify_task self x.task r

theorem leaves_react (self : Nat) (x : Reaction τ σ ρ ω) (r : Runner τ σ ρ ω) :
    Leaves self x.requests r.stack r (r.react self x) := by
  rw [react_eq]
  exact ⟨rfl, rfl⟩

theorem Lineal.react (h : r.Lineal) (hself : self < r.kin.length) (x : Reaction τ σ ρ ω) :
    (r.react self x).Lineal := by
  refine h.congr (kin_react self x r) ?_ ?_
  · refine (leaves_react self x r).owner_of_rest (Q := fun owner => ∀ i ∈ owner, i < r.kin.length) ?_ h.known
    rintro i ⟨⟩
    exact hself
  · rw [react_eq]
    exact h.root

theorem kin_enroll (task : τ) (state : σ) (parent : Option Nat) (r : Runner τ σ ρ ω) :
    (r.enroll task state parent).kin = Kin.adopt parent r.kin.length r.kin ++ [⟨state, parent, []⟩] := by
  rw [enroll, kin, List.map_append, map_kin_link, ← length_kin]
  rfl

theorem length_adopt (parent : Option Nat) (n : Nat) (kin : List (Kin σ)) :
    (Kin.adopt parent n kin).length = kin.length := by
  have hmap := congrArg List.length (Kin.map_adopt parent n kin)
  simpa using hmap

theorem length_kin_enroll (task : τ) (state : σ) (parent : Option Nat) (r : Runner τ σ ρ ω) :
    (r.enroll task state parent).kin.length = r.kin.length + 1 := by
  simp [kin_enroll, length_adopt]

/-- The kin of a controller that was there before. -/
theorem getElem?_kin_enroll {task : τ} {state : σ} {parent : Option Nat} (hc : c < r.kin.length) :
    (r.enroll task state parent).kin[c]? = (r.kin[c]?).map fun x =>
      if parent = some c then { x with children := x.children ++ [r.kin.length] } else x := by
  have hlength := length_adopt parent r.kin.length r.kin
  rw [kin_enroll, List.getElem?_append_left (by omega), Kin.getElem?_adopt]

theorem getElem?_kin_enroll_last (task : τ) (state : σ) (parent : Option Nat) (r : Runner τ σ ρ ω) :
    (r.enroll task state parent).kin[r.kin.length]? = some ⟨state, parent, []⟩ := by
  have hlength := length_adopt parent r.kin.length r.kin
  rw [kin_enroll, List.getElem?_append_right (by omega), hlength, Nat.sub_self]
  rfl

/-- A controller was there before or is the one that is called. -/
theorem kin_enroll_cases {task : τ} {state : σ} {parent : Option Nat} {x : Kin σ}
    (hx : (r.enroll task state parent).kin[c]? = some x) :
    (∃ y, r.kin[c]? = some y ∧
      x = if parent = some c then { y with children := y.children ++ [r.kin.length] } else y) ∨
    c = r.kin.length ∧ x = ⟨state, parent, []⟩ := by
  have hlength := length_kin_enroll task state parent r
  have hlt := (List.getElem?_eq_some_iff.mp hx).1
  by_cases hc : c < r.kin.length
  · rw [getElem?_kin_enroll hc, Option.map_eq_some_iff] at hx
    obtain ⟨y, hy, hxy⟩ := hx
    exact .inl ⟨y, hy, hxy.symm⟩
  · obtain rfl : c = r.kin.length := by omega
    rw [getElem?_kin_enroll_last, Option.some.injEq] at hx
    exact .inr ⟨rfl, hx.symm⟩

theorem exists_kin_enroll {x : Kin σ} (hx : r.kin[c]? = some x) (task : τ) (state : σ) (parent : Option Nat) :
    ∃ y, (r.enroll task state parent).kin[c]? = some y ∧ y.parent = x.parent := by
  rw [getElem?_kin_enroll (List.getElem?_eq_some_iff.mp hx).1, hx, Option.map_some]
  refine ⟨_, rfl, ?_⟩
  split <;> rfl

theorem Lineal.length_not_mem (h : r.Lineal) {x : Kin σ} (hx : r.kin[c]? = some x) :
    r.kin.length ∉ x.children := by
  intro hmem
  obtain ⟨y, hy, -⟩ := h.parent c x hx _ hmem
  exact absurd (List.getElem?_eq_some_iff.mp hy).1 (Nat.lt_irrefl _)

/-- A called task is a child of its caller and has no children yet. -/
theorem Lineal.enroll (h : r.Lineal) (task : τ) (state : σ) {parent : Option Nat}
    (hparent : ∀ p ∈ parent, p < r.kin.length) : (r.enroll task state parent).Lineal := by
  have hlength := length_kin_enroll task state parent r
  constructor
  case nodup =>
    intro c x hx
    rcases kin_enroll_cases hx with ⟨y, hy, rfl⟩ | ⟨-, rfl⟩
    · split
      · refine List.nodup_append.mpr ⟨h.nodup c y hy, List.pairwise_singleton _ _, ?_⟩
        rintro d hd e he rfl
        exact h.length_not_mem hy (List.mem_singleton.mp he ▸ hd)
      · exact h.nodup c y hy
    · exact List.nodup_nil
  case parent =>
    intro c x hx d hd
    have hchild : ∀ {y : Kin σ}, r.kin[c]? = some y → d ∈ y.children →
        ∃ x, (r.enroll task state parent).kin[d]? = some x ∧ x.parent = some c := by
      intro y hy hd
      obtain ⟨z, hz, hparent⟩ := h.parent c y hy d hd
      obtain ⟨x, hx, hxz⟩ := exists_kin_enroll hz task state parent
      exact ⟨x, hx, hxz.trans hparent⟩
    rcases kin_enroll_cases hx with ⟨y, hy, rfl⟩ | ⟨-, rfl⟩
    · split at hd
      · rename_i hp
        rcases List.mem_append.mp hd with hd | hd
        · exact hchild hy hd
        · rw [List.mem_singleton.mp hd]
          exact ⟨_, getElem?_kin_enroll_last task state parent r, hp⟩
      · exact hchild hy hd
    · cases hd
  case older =>
    intro c x hx p hp
    rcases kin_enroll_cases hx with ⟨y, hy, rfl⟩ | ⟨rfl, rfl⟩
    · refine h.older c y hy p ?_
      split at hp <;> exact hp
    · exact hparent p hp
  case known =>
    intro e he c hc
    have hlt := h.known e he c hc
    omega
  case root =>
    intro c hc
    have hroot : c ∈ rooted parent r.controllers.length r.root := hc
    cases parent with
    | none =>
      rw [rooted, Option.mem_some_iff] at hroot
      rw [hlength, length_kin]
      omega
    | some p =>
      have hlt := h.root c hroot
      omega

theorem kin_release (p c : Nat) (r : Runner τ σ ρ ω) :
    (r.release p c).kin = r.kin.modify p (Kin.release c) := by
  refine List.ext_getElem? fun i => ?_
  simp only [release, kin, modify, List.getElem?_map, List.getElem?_modify]
  cases r.controllers[i]? with
  | none => rfl
  | some k => by_cases hi : p = i <;> simp [hi, Controller.kin, Kin.release]

theorem Lineal.release (h : r.Lineal) (p c : Nat) : (r.release p c).Lineal := by
  have hlength : (r.release p c).kin.length = r.kin.length := by
    rw [kin_release, List.length_modify]
  have hget : ∀ i : Nat, (r.release p c).kin[i]? =
      (r.kin[i]?).map fun x => if p = i then x.release c else x := by
    intro i
    rw [kin_release, List.getElem?_modify]
    by_cases hi : p = i <;> simp [hi]
  have hcases : ∀ {i : Nat} {x : Kin σ}, (r.release p c).kin[i]? = some x →
      ∃ y, r.kin[i]? = some y ∧ x.parent = y.parent ∧ x.children.Sublist y.children := by
    intro i x hx
    rw [hget, Option.map_eq_some_iff] at hx
    obtain ⟨y, hy, rfl⟩ := hx
    refine ⟨y, hy, ?_⟩
    split
    · exact ⟨rfl, List.erase_sublist⟩
    · exact ⟨rfl, .refl _⟩
  constructor
  case nodup =>
    intro i x hx
    obtain ⟨y, hy, -, hsub⟩ := hcases hx
    exact hsub.nodup (h.nodup i y hy)
  case parent =>
    intro i x hx d hd
    obtain ⟨y, hy, -, hsub⟩ := hcases hx
    obtain ⟨z, hz, hparent⟩ := h.parent i y hy d (hsub.mem hd)
    rw [hget, hz, Option.map_some]
    refine ⟨_, rfl, ?_⟩
    split <;> exact hparent
  case older =>
    intro i x hx q hq
    obtain ⟨y, hy, hparent, -⟩ := hcases hx
    exact h.older i y hy q (hparent ▸ hq)
  case known =>
    rw [hlength]
    exact h.known
  case root =>
    rw [hlength]
    exact h.root

theorem Lineal.reacts (h : r.Lineal) (b : Behavior τ σ ρ ω) (hself : self < r.kin.length)
    (x : Reaction τ σ ρ ω) : Reacts b self x r (absorb b self x r) := by
  have habsorb : absorb b self x r = x.fault.elim (r.react self x, none) fun fault =>
      handleFault b fault (r.react self x) := by
    unfold absorb
    cases x.fault <;> rfl
  have hroot : (r.react self x).root = r.root := by rw [react_eq]; rfl
  rw [habsorb]
  cases hfault : x.fault with
  | none => exact .well hfault
  | some fault =>
    rw [Option.elim_some, handleFault, hroot]
    cases hfirst : r.root with
    | none => exact .masked hfault hfirst
    | some root =>
      have hlineal := h.react hself x
      have hlt : root < (r.react self x).controllers.length := by
        rw [← length_kin]
        exact hlineal.root root (hroot.trans hfirst)
      have hpass := hlineal.pass b hlt
      dsimp only
      generalize disposeEach b ((r.react self x).subtree root) (r.react self x) = result at hpass ⊢
      obtain ⟨r', other⟩ := result
      cases other with
      | none => exact .failed hfault hfirst hpass
      | some other => exact .failed hfault hfirst hpass

/-- Every entry is processed in these stages. -/
theorem Lineal.processes (h : (r.push e).Lineal) (b : Behavior τ σ ρ ω) :
    Processes b r e (process b r e) := by
  have hr : r.Lineal := h.congr rfl (fun e' he' => h.known e' (List.mem_cons_of_mem e he')) h.root
  have howner : ∀ c ∈ e.owner, c < r.kin.length := fun c hc => h.known e List.mem_cons_self c hc
  cases e with
  | call task state parent =>
    have hself : r.controllers.length < (r.enroll task state parent).kin.length := by
      rw [length_kin_enroll, length_kin]
      omega
    have hreacts := (hr.enroll task state howner).reacts b hself
      (b.start ((r.enroll task state parent).placeOf r.controllers.length { task, state, parent })
        state task r.world)
    have hstart : process b r (.call task state parent) = absorb b r.controllers.length
        (b.start ((r.enroll task state parent).placeOf r.controllers.length { task, state, parent })
          state task r.world) (r.enroll task state parent) := by
      cases parent <;> rfl
    rw [hstart]
    exact .started hreacts
  | finish response c =>
    have hc : c < r.controllers.length := by
      rw [← length_kin]
      exact howner c rfl
    have hpass := hr.pass b hc
    rw [process, finish]
    generalize disposeEach b (r.subtree c) r = result at hpass ⊢
    obtain ⟨r', fault⟩ := result
    have huntouched := hpass.untouched
    have hr' := hr.untouched huntouched
    have hlength : r'.controllers.length = r.controllers.length := by
      rw [← length_kin, huntouched.kin, length_kin]
    cases fault with
    | some fault => exact .stopped hpass
    | none =>
      obtain ⟨k, hk⟩ : ∃ k, r'.controllers[c]? = some k := ⟨_, List.getElem?_eq_getElem (hlength ▸ hc)⟩
      simp only [hk]
      cases hparent : k.parent with
      | none => exact .ended hpass hk hparent
      | some p =>
        have hp : p < r'.controllers.length := by
          have hlt := hr'.older c k.kin (getElem?_kin hk) p hparent
          omega
        obtain ⟨caller, hcaller⟩ : ∃ caller, r'.controllers[p]? = some caller :=
          ⟨_, List.getElem?_eq_getElem hp⟩
        have hrelease : (r'.modify p fun _ => { caller with children := caller.children.erase c }) =
            r'.release p c := by
          simp only [Runner.release, modify, modify_eq_set hcaller]
        simp only [hcaller, hrelease]
        by_cases hchild : c ∈ caller.children
        · simp only [List.contains_iff_mem.mpr hchild, Bool.not_true, Bool.false_eq_true, if_false]
          by_cases hdisposed : caller.disposed = true
          · rw [if_pos hdisposed]
            exact .dropped hpass hk hparent hcaller hchild hdisposed
          · have hself : p < (r'.release p c).kin.length := by
              rw [kin_release, List.length_modify, length_kin]
              exact hp
            rw [if_neg hdisposed]
            rw [Bool.not_eq_true] at hdisposed
            exact .resumed hpass hk hparent hcaller hchild hdisposed ((hr'.release p c).reacts b hself _)
        · have hcontains : caller.children.contains c = false := by simpa using hchild
          simp only [hcontains, Bool.not_false, if_true]
          exact .unknown hpass hk hparent hcaller hchild

theorem Lineal.of_reacts {x : Reaction τ σ ρ ω} {result : Runner τ σ ρ ω × Option Fault} (h : r.Lineal)
    (hself : self < r.kin.length) (hreacts : Reacts b self x r result) : result.1.Lineal := by
  have hreact := h.react hself x
  cases hreacts with
  | well => exact hreact
  | failed _ _ pass => exact hreact.untouched pass.untouched
  | masked => exact hreact

/-- The controllers are a forest again once an entry is processed. -/
theorem Lineal.of_processes {result : Runner τ σ ρ ω × Option Fault} (h : (r.push e).Lineal)
    (hprocesses : Processes b r e result) : result.1.Lineal := by
  have hr : r.Lineal := h.congr rfl (fun e' he' => h.known e' (List.mem_cons_of_mem e he')) h.root
  have howner : ∀ c ∈ e.owner, c < r.kin.length := fun c hc => h.known e List.mem_cons_self c hc
  cases hprocesses with
  | @started task state parent _ reacts =>
    refine (hr.enroll task state howner).of_reacts ?_ reacts
    rw [length_kin_enroll, length_kin]
    omega
  | stopped pass => exact hr.untouched pass.untouched
  | ended pass called first =>
    have hr' := hr.untouched pass.untouched
    refine hr'.congr rfl hr'.known ?_
    intro c hc
    cases hc
  | unknown pass called parent known gone => exact hr.untouched pass.untouched
  | dropped pass called parent known child dead => exact (hr.untouched pass.untouched).release _ _
  | resumed pass called parent known child live reacts =>
    refine ((hr.untouched pass.untouched).release _ _).of_reacts ?_ reacts
    rw [kin_release, List.length_modify, length_kin]
    exact (List.getElem?_eq_some_iff.mp known).1

/-! ## Reachable runners -/

/-- The runner can get from one state to the other, by processing entries, also after a fault, by taking up
what was put off, and by what others do meanwhile: they change the world and put off calls of controllers
that they know. -/
inductive Reaches (b : Behavior τ σ ρ ω) (r : Runner τ σ ρ ω) : Runner τ σ ρ ω → Prop
  | refl : Reaches b r r
  | step {r' : Runner τ σ ρ ω} {e : Entry τ σ ρ} {rest : List (Entry τ σ ρ)} :
      Reaches b r r' → r'.stack = e :: rest → Reaches b r (Runner.step b r').1
  | again {r' : Runner τ σ ρ ω} : Reaches b r r' → Reaches b r r'.resumeLater
  | world {r' : Runner τ σ ρ ω} (w : ω) : Reaches b r r' → Reaches b r { r' with world := w }
  | late {r' : Runner τ σ ρ ω} (task : τ) (state : σ) {caller : Nat} :
      Reaches b r r' → caller < r'.controllers.length →
      Reaches b r { r' with later := r'.later ++ [.call task state (some caller)] }

theorem eq_push (hstack : r.stack = e :: rest) :
    r = ({ r with stack := rest } : Runner τ σ ρ ω).push e := by
  rw [push, ← hstack]

theorem step_eq_process (hstack : r.stack = e :: rest) :
    step b r = process b { r with stack := rest } e := by
  rw [step, hstack]

theorem Lineal.processes_step (h : r.Lineal) (b : Behavior τ σ ρ ω) (hstack : r.stack = e :: rest) :
    Processes b { r with stack := rest } e (step b r) := by
  rw [step_eq_process hstack]
  rw [eq_push hstack] at h
  exact h.processes b

theorem Lineal.step (h : r.Lineal) (hstack : r.stack = e :: rest) : (Runner.step b r).1.Lineal := by
  have hprocesses := h.processes_step b hstack
  rw [eq_push hstack] at h
  exact h.of_processes hprocesses

theorem Lineal.resumeLater (h : r.Lineal) : r.resumeLater.Lineal := by
  unfold Runner.resumeLater
  split
  · refine h.congr rfl (fun e he => h.known e ?_) h.root
    rw [List.append_nil, List.mem_reverse] at he
    exact List.mem_append_right _ he
  · exact h

/-- The controllers of a runner that can be reached are a forest. -/
theorem Lineal.reaches {r₀ : Runner τ σ ρ ω} (h₀ : r₀.Lineal) (h : Reaches b r₀ r) : r.Lineal := by
  induction h with
  | refl => exact h₀
  | step _ hstack ih => exact ih.step hstack
  | again _ ih => exact ih.resumeLater
  | world w _ ih => exact ih.congr rfl ih.known ih.root
  | late task state _ hcaller ih =>
    refine ih.congr rfl (fun e he i hi => ?_) ih.root
    rw [← List.append_assoc, List.mem_append, List.mem_singleton] at he
    rcases he with he | rfl
    · exact ih.known e he i hi
    · obtain rfl : _ = i := Option.some.inj hi
      rwa [length_kin]

theorem Reaches.of_goes {r₀ : Runner τ σ ρ ω} {history : List (Processed τ σ ρ)} (h₀ : Reaches b r₀ r)
    (h : Goes b r history r') : Reaches b r₀ r' := by
  induction h with
  | refl => exact h₀
  | step _ hstack ih => exact ih.step hstack
  | again _ ih => exact ih.again

/-- In every state that a runner can reach, an entry is processed in the stages of `Processes`. So the end
of a task, and the failure of one while the first task is there, disposes of everything from that task or
from the first task downwards in one `Pass`, and of nothing else. Every run leads to such a state again. -/
theorem disposal_in_passes (b : Behavior τ σ ρ ω) {task : τ} {state : σ} {w : ω}
    (h : Reaches b (ofTask task state w) r) :
    (∀ e rest, r.stack = e :: rest → Processes b { r with stack := rest } e (step b r)) ∧
      ∀ x, run b r = some x → Reaches b (ofTask task state w) x.1 := by
  have hlineal : r.Lineal := (lineal_ofTask task state w).reaches h
  refine ⟨fun e rest hstack => hlineal.processes_step b hstack, fun x hx => ?_⟩
  obtain ⟨more, hgoes⟩ := Goes.refl.run hx
  exact h.of_goes hgoes

/-- A task that is finished while two tasks that it has called are running. The first task fails when it
hears of it. -/
def household : List (String × Script Nat) :=
  [("main", { start := [.call "group" 1], resumes := [[.fail "refused"]], logsDisposal := true }),
    ("group", { start := [.finish 7, .call "left" 2, .call "right" 3], logsDisposal := true }),
    ("left", { logsDisposal := true }), ("right", { logsDisposal := true })]

/-- The runner of the first of these tasks, after some steps. -/
def householdAfter : Nat → Runner (ScriptedTask Nat) Nat Nat (List (Event Nat))
  | 0 => ofTask (ScriptedTask.named household "main") 0 []
  | n + 1 => (step (ScriptedTask.behavior household 0) (householdAfter n)).1

theorem disposal_in_passes_household :
    Reaches (ScriptedTask.behavior household 0) (householdAfter 0) (householdAfter 4) ∧
      (householdAfter 4).stack = [.finish 7 1] ∧
      Processes (ScriptedTask.behavior household 0) { householdAfter 4 with stack := [] } (.finish 7 1)
        (step (ScriptedTask.behavior household 0) (householdAfter 4)) ∧
      (householdAfter 5).world = [.disposed "main", .resumed "main" 1 7 0 false, .disposed "group",
        .disposed "left", .disposed "right"] ++ (householdAfter 4).world := by
  have hmain : (householdAfter 0).stack = [.call (ScriptedTask.named household "main") 0 none] := rfl
  have hgroup : (householdAfter 1).stack = [.call (ScriptedTask.named household "group") 1 (some 0)] := rfl
  have hright : (householdAfter 2).stack = [.call (ScriptedTask.named household "right") 3 (some 1),
    .call (ScriptedTask.named household "left") 2 (some 1), .finish 7 1] := rfl
  have hleft : (householdAfter 3).stack = [.call (ScriptedTask.named household "left") 2 (some 1),
    .finish 7 1] := rfl
  have hstack : (householdAfter 4).stack = [.finish 7 1] := rfl
  have hreaches : Reaches (ScriptedTask.behavior household 0) (householdAfter 0) (householdAfter 4) :=
    (((Reaches.refl.step hmain).step hgroup).step hright).step hleft
  exact ⟨hreaches, hstack,
    (disposal_in_passes (ScriptedTask.behavior household 0) hreaches).1 _ _ hstack, rfl⟩

end Runner

end ValueShell.Task
