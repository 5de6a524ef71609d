import ValueShell.Proofs.Task.Stages

/-!
# What becomes of a task's fault

When a task fails, everything is disposed from the first task downwards and the run ends with the fault of
the task. But entries that are left on the stack are processed even after the first task is finished, and
then there is no first task to begin with: the run ends with a fault of the runner's own, and that of the
task is lost. `fault_passed_on_iff` says that this is the only way to lose it, as long as disposals do not
fail.

How tasks fail during a step is seen by recording it (`raised`). `Rooted` is the invariant that relates
the first task to the end of the run.
-/

set_option autoImplicit false

namespace ValueShell.Task

variable {τ σ ρ ω : Type} {c self : Nat} {other : Option Fault} {x : Reaction τ σ ρ ω}
  {result : Runner τ σ ρ ω × Option Fault}

/-- The same tasks, with a record of how they fail when they are started or resumed. -/
def Behavior.confessed (b : Behavior τ σ ρ ω) : Behavior τ σ ρ (ω × List Fault) where
  start := fun place state task w =>
    let x := b.start place state task w.1
    { task := x.task, requests := x.requests, fault := x.fault
      world := (x.world, w.2 ++ x.fault.toList) }
  resume := fun place task state response w =>
    let x := b.resume place task state response w.1
    { task := x.task, requests := x.requests, fault := x.fault
      world := (x.world, w.2 ++ x.fault.toList) }
  dispose := fun task w =>
    let d := b.dispose task w.1
    { task := d.task, fault := d.fault, world := (d.world, w.2) }

theorem shows_confessed (b : Behavior τ σ ρ ω) : b.confessed.Shows Prod.fst b :=
  ⟨fun _ _ _ _ => rfl, fun _ _ _ _ _ => rfl, fun _ _ => rfl⟩

namespace Runner

variable {b : Behavior τ σ ρ ω} {r r' : Runner τ σ ρ ω} {fault : Fault}

/-- The faults of tasks that are started or resumed while the top of the stack is processed. -/
def raised (b : Behavior τ σ ρ ω) (r : Runner τ σ ρ ω) : List Fault :=
  (step b.confessed (r.mapWorld fun w => (w, []))).1.world.2

/-! ## The record -/

/-- Disposals are not recorded. -/
theorem record_disposeAll (tasks : List τ) (w : ω × List Fault) :
    (b.confessed.disposeAll tasks w).2 = w.2 := by
  induction tasks generalizing w with
  | nil => rfl
  | cons task rest ih => exact ih _

section Record

variable {r r' : Runner τ σ ρ (ω × List Fault)}

theorem Pass.record (h : Pass b.confessed c r r' other) : r'.world.2 = r.world.2 := by
  cases h with
  | whole _ disposed =>
    rw [disposed.world]
    exact record_disposeAll _ _
  | @stopped r₁ _ _ _ _ _ _ disposed _ _ =>
    have hbefore : r₁.world.2 = r.world.2 := by
      rw [disposed.world]
      exact record_disposeAll _ _
    exact hbefore

theorem Pass.silent {fault : Fault} (h : Pass b.confessed c r r' other) (hr : r.world.2 = [])
    (hmem : fault ∈ r'.world.2) : False := by
  rw [h.record, hr] at hmem
  cases hmem

theorem Reacts.record {x : Reaction τ σ ρ (ω × List Fault)}
    {result : Runner τ σ ρ (ω × List Fault) × Option Fault} (h : Reacts b.confessed self x r result) :
    result.1.world.2 = x.world.2 := by
  have hreact : (r.react self x).world = x.world := by rw [react_eq]
  cases h with
  | well => rw [hreact]
  | failed _ _ pass => rw [pass.record, hreact]
  | masked => rw [hreact]

end Record

/-! ## Disposals that do not fail -/

theorem Pass.not_stopped (hb : ∀ task w, (b.dispose task w).fault = none) (h : Pass b c r r' other) :
    other = none := by
  cases h with
  | whole => rfl
  | stopped _ _ _ fails =>
    rw [hb] at fails
    cases fails

/-- The fault of a task is passed on if there is a first task. -/
theorem Reacts.passes_on (hb : ∀ task w, (b.dispose task w).fault = none) (h : Reacts b self x r result)
    (hx : x.fault = some fault) : result.2 = some (if r.root.isNone then .noAttribute else fault) := by
  cases h with
  | well fine =>
    rw [hx] at fine
    cases fine
  | failed fails first pass =>
    rw [hx, Option.some.injEq] at fails
    subst fails
    rw [pass.not_stopped hb]
    simp [first]
  | masked fails gone => simp [gone]

/-! ## The first task and the end -/

/-- The first task has been started, everything that waits is about a known task, and the runner is done
once it has no first task any more. -/
structure Begun (r : Runner τ σ ρ ω) : Prop where
  started : 0 < r.kin.length
  owned : ∀ e ∈ r.stack ++ r.later, e.owner ≠ none
  root : r.root.isNone = r.done

/-- The first task has been started, or its call is all that there is. -/
inductive Rooted (r : Runner τ σ ρ ω) : Prop
  | fresh {task : τ} {state : σ} (controllers : r.controllers = []) (stack : r.stack = [.call task state none])
      (later : r.later = []) (done : r.done = false)
  | begun (begun : r.Begun)

theorem Begun.untouched (h : r.Begun) (hr' : Untouched r r') : r'.Begun := by
  obtain ⟨hkin, hstack, hlater, hroot, hdone⟩ := hr'
  refine ⟨?_, ?_, ?_⟩
  · rw [hkin]
    exact h.started
  · rw [hstack, hlater]
    exact h.owned
  · rw [hroot, hdone]
    exact h.root

theorem Begun.of_reacts (h : r.Begun) (hreacts : Reacts b self x r result) : result.1.Begun := by
  have hreact : (r.react self x).Begun := by
    refine ⟨?_, ?_, ?_⟩
    · rw [kin_react]
      exact h.started
    · exact (leaves_react self x r).owner_of_rest (Q := (· ≠ none)) (by simp) h.owned
    · rw [react_eq]
      exact h.root
  cases hreacts with
  | well => exact hreact
  | failed _ _ pass => exact hreact.untouched pass.untouched
  | masked => exact hreact

theorem Begun.release (h : r.Begun) (p c : Nat) : (r.release p c).Begun := by
  refine ⟨?_, h.owned, h.root⟩
  rw [kin_release, List.length_modify]
  exact h.started

/-- Once an entry is processed, the first task has been started. -/
theorem Rooted.of_processes {e : Entry τ σ ρ} (h : (r.push e).Rooted) (hprocesses : Processes b r e result) :
    result.1.Begun := by
  cases h with
  | fresh controllers stack later done =>
    obtain ⟨rfl, hstack⟩ : e = .call _ _ none ∧ r.stack = [] := List.cons.inj stack
    cases hprocesses with
    | started reacts =>
      refine Begun.of_reacts ⟨?_, ?_, ?_⟩ reacts
      · rw [length_kin_enroll]
        omega
      · intro e he
        have hlater : r.later = [] := later
        change e ∈ r.stack ++ r.later at he
        rw [hstack, hlater] at he
        cases he
      · exact done.symm
  | begun hbegun =>
    have hr : r.Begun := ⟨hbegun.started, fun e' he' => hbegun.owned e' (List.mem_cons_of_mem e he'), hbegun.root⟩
    cases hprocesses with
    | @started task state parent _ reacts =>
      obtain ⟨p, rfl⟩ : ∃ p, parent = some p :=
        Option.ne_none_iff_exists'.mp (hbegun.owned (.call task state parent) List.mem_cons_self)
      have henroll : (r.enroll task state (some p)).Begun := by
        refine ⟨?_, hr.owned, hr.root⟩
        rw [length_kin_enroll]
        omega
      exact henroll.of_reacts reacts
    | stopped pass => exact hr.untouched pass.untouched
    | ended pass =>
      have hr' := hr.untouched pass.untouched
      exact ⟨hr'.started, hr'.owned, rfl⟩
    | unknown pass => exact hr.untouched pass.untouched
    | dropped pass => exact (hr.untouched pass.untouched).release _ _
    | resumed pass called parent known child live reacts =>
      exact ((hr.untouched pass.untouched).release _ _).of_reacts reacts

theorem Begun.resumeLater (h : r.Begun) : r.resumeLater.Begun := by
  unfold Runner.resumeLater
  split
  · refine ⟨h.started, fun e he => h.owned e ?_, h.root⟩
    rw [List.append_nil, List.mem_reverse] at he
    exact List.mem_append_right _ he
  · exact h

theorem rooted_of_reaches {task : τ} {state : σ} {w : ω} (h : Reaches b (ofTask task state w) r) :
    r.Rooted := by
  induction h with
  | refl => exact .fresh rfl rfl rfl rfl
  | @step r' e rest hreaches hstack ih =>
    have hlineal : r'.Lineal := (lineal_ofTask task state w).reaches hreaches
    have hprocesses := hlineal.processes_step b hstack
    rw [eq_push hstack] at ih
    exact .begun (ih.of_processes hprocesses)
  | again _ ih =>
    cases ih with
    | fresh controllers stack later done =>
      unfold Runner.resumeLater
      rw [if_neg (by simp [stack])]
      exact .fresh controllers stack later done
    | begun begun => exact .begun begun.resumeLater
  | world w _ ih =>
    cases ih with
    | fresh controllers stack later done => exact .fresh controllers stack later done
    | begun begun => exact .begun ⟨begun.started, begun.owned, begun.root⟩
  | late task state _ hcaller ih =>
    cases ih with
    | fresh controllers => simp [controllers] at hcaller
    | begun begun =>
      refine .begun ⟨begun.started, fun e he => ?_, begun.root⟩
      rw [← List.append_assoc, List.mem_append, List.mem_singleton] at he
      rcases he with he | rfl
      · exact begun.owned e he
      · simp [Entry.owner]

/-! ## Faults of a step and of a run -/

/-- A fault in the record of a reaction is the fault of that reaction. -/
theorem fault_of_record (h : fault ∈ [] ++ x.fault.toList) : x.fault = some fault := by
  simpa [eq_comm] using h

theorem ne_nil_of_raised (h : fault ∈ raised b r) : r.stack ≠ [] := by
  intro hstack
  have hnone : raised b r = [] := by
    have hshown : (r.mapWorld fun w => (w, ([] : List Fault))).stack = [] := hstack
    rw [raised, step, hshown]
    rfl
  rw [hnone] at h
  cases h

/-- A step in which a task fails ends with the fault of the task, unless the runner is done. -/
theorem fault_step (hb : ∀ task w, (b.dispose task w).fault = none) (hlineal : r.Lineal) (hrooted : r.Rooted)
    (h : fault ∈ raised b r) : (step b r).2 = some (if r.done then .noAttribute else fault) := by
  obtain ⟨e, rest, hstack⟩ := List.exists_cons_of_ne_nil (ne_nil_of_raised h)
  have hshown : (step b.confessed (r.mapWorld fun w => (w, []))).2 = (step b r).2 :=
    congrArg Prod.snd ((shows_confessed b).step (r.mapWorld fun w => (w, [])))
  have hlineal' : (r.mapWorld fun w => (w, ([] : List Fault))).Lineal :=
    ⟨hlineal.nodup, hlineal.parent, hlineal.older, hlineal.known, hlineal.root⟩
  have hdispose : ∀ task w, (b.confessed.dispose task w).fault = none := fun task w => hb task w.1
  have hprocesses := hlineal'.processes_step b.confessed hstack
  rw [raised] at h
  rw [← hshown]
  generalize step b.confessed (r.mapWorld fun w => (w, [])) = result at hprocesses h ⊢
  cases hprocesses with
  | @started task state parent _ reacts =>
    rw [reacts.record] at h
    rw [reacts.passes_on hdispose (fault_of_record h)]
    cases hrooted with
    | fresh controllers stack later done =>
      obtain ⟨heq, -⟩ := List.cons.inj (hstack.symm.trans stack)
      cases heq
      simp [enroll, rooted, done]
    | begun begun =>
      obtain ⟨p, rfl⟩ : ∃ p, parent = some p :=
        Option.ne_none_iff_exists'.mp (begun.owned (.call task state parent) (by simp [hstack]))
      rw [← begun.root]
      rfl
  | stopped pass => exact (pass.silent rfl h).elim
  | ended pass => exact (pass.silent rfl h).elim
  | unknown pass => exact (pass.silent rfl h).elim
  | dropped pass => exact (pass.silent rfl h).elim
  | @resumed response c p r' k caller _ pass called parent known child live reacts =>
    have hrecord : r'.world.2 = [] := pass.record
    rw [reacts.record] at h
    change fault ∈ r'.world.2 ++ _ at h
    rw [hrecord] at h
    rw [reacts.passes_on hdispose (fault_of_record h)]
    have hroot : (r'.release p c).root = r.root := pass.untouched.root
    cases hrooted with
    | fresh controllers stack =>
      obtain ⟨heq, -⟩ := List.cons.inj (hstack.symm.trans stack)
      cases heq
    | begun begun => rw [hroot, begun.root]

theorem Reaches.steps {r₀ : Runner τ σ ρ ω} {halted : ω → Bool} (h : Reaches b r₀ r)
    (hsteps : Steps b halted r r') : Reaches b r₀ r' := by
  induction hsteps with
  | refl => exact h
  | cons hstack _ hstep _ ih =>
    obtain ⟨e, rest, hstack⟩ := List.exists_cons_of_ne_nil hstack
    have hreached := h.step hstack
    rw [hstep] at hreached
    exact ih hreached

/-- A run ends with the first step that fails. -/
theorem run_eq_of_steps (hsteps : Steps b (fun _ => false) r.resumeLater r') (hstack : r'.stack ≠ [])
    (hfault : (step b r').2 = some fault) : run b r = some ((step b r').1, some fault) := by
  have hstep : step b r' = ((step b r').1, some fault) := by rw [← hfault]
  rw [run, drain_eq_of_steps hsteps, drain, hstep]
  simp [hstack]

/-- Whatever tasks do, as long as their disposals do not fail: if a task fails when it is started or
resumed in the course of a run, then the run ends with its fault if and only if the first task is not
finished yet, or the fault is the one that the runner then has itself. -/
theorem fault_passed_on_iff (hb : ∀ task w, (b.dispose task w).fault = none) {task : τ} {state : σ} {w : ω}
    (h : Reaches b (ofTask task state w) r) (hsteps : Steps b (fun _ => false) r.resumeLater r')
    (hraised : fault ∈ raised b r') :
    run b r = some ((step b r').1, some (if r'.done then .noAttribute else fault)) ∧
      ((∃ r'', run b r = some (r'', some fault)) ↔ (r'.done = true → fault = .noAttribute)) := by
  have hreaches : Reaches b (ofTask task state w) r' := h.again.steps hsteps
  have hlineal : r'.Lineal := (lineal_ofTask task state w).reaches hreaches
  have hrun := run_eq_of_steps hsteps (ne_nil_of_raised hraised)
    (fault_step hb hlineal (rooted_of_reaches hreaches) hraised)
  refine ⟨hrun, ?_⟩
  rw [hrun]
  cases r'.done with
  | true => simp [eq_comm]
  | false => simp

/-- The first task is there until the end of this run: it fails itself, once a called task is finished. -/
theorem fault_passed_on_household :
    .complaint (.stated "refused") ∈ raised (ScriptedTask.behavior household 0) (householdAfter 4) ∧
      run (ScriptedTask.behavior household 0) (householdAfter 0) =
        some (householdAfter 5, some (.complaint (.stated "refused"))) := by
  have hb : ∀ task w, ((ScriptedTask.behavior household 0).dispose task w).fault = none := by
    intro task w
    cases task <;> rfl
  have hne : ∀ {e : Entry (ScriptedTask Nat) Nat Nat} {rest}, e :: rest ≠ [] := List.cons_ne_nil _ _
  have hsteps : Steps (ScriptedTask.behavior household 0) (fun _ => false) (householdAfter 0).resumeLater
      (householdAfter 4) :=
    .cons hne rfl rfl (.cons hne rfl rfl (.cons hne rfl rfl (.single hne rfl rfl)))
  have hraised : .complaint (.stated "refused") ∈
      raised (ScriptedTask.behavior household 0) (householdAfter 4) := List.mem_singleton.mpr rfl
  exact ⟨hraised, (fault_passed_on_iff hb .refl hsteps hraised).1⟩

/-- A task that is finished before the task that it has called is started. That one fails. -/
def farewell : List (String × Script Nat) :=
  [("main", { start := [.call "late" 1, .finish 2] }), ("late", { start := [.fail "lost"] })]

/-- The runner of the first of these tasks, after some steps. -/
def farewellAfter : Nat → Runner (ScriptedTask Nat) Nat Nat (List (Event Nat))
  | 0 => ofTask (ScriptedTask.named farewell "main") 0 []
  | n + 1 => (step (ScriptedTask.behavior farewell 0) (farewellAfter n)).1

/-- The fault of a task is lost if the first task is finished. -/
theorem fault_lost_after_end :
    Steps (ScriptedTask.behavior farewell 0) (fun _ => false) (farewellAfter 0).resumeLater
        (farewellAfter 2) ∧
      raised (ScriptedTask.behavior farewell 0) (farewellAfter 2) = [.complaint (.stated "lost")] ∧
      run (ScriptedTask.behavior farewell 0) (farewellAfter 0) =
        some (farewellAfter 3, some .noAttribute) := by
  have hne : ∀ {e : Entry (ScriptedTask Nat) Nat Nat} {rest}, e :: rest ≠ [] := List.cons_ne_nil _ _
  have hsteps : Steps (ScriptedTask.behavior farewell 0) (fun _ => false) (farewellAfter 0).resumeLater
      (farewellAfter 2) := .cons hne rfl rfl (.single hne rfl rfl)
  exact ⟨hsteps, rfl, run_eq_of_steps hsteps hne rfl⟩

end Runner

end ValueShell.Task
