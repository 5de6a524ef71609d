import ValueShell.Proofs.Evaluation.Run
import ValueShell.Proofs.Evaluation.Standing

/-!
# What tasks hand on

A task carries parts of a plan and hands them on to the tasks that it calls, and a process keeps the targets
that it is told. `Inherited P Q I` has one clause for each way in which something is handed on or kept. From
these clauses alone all tasks keep `P`, respond with `Q` and keep `I` of the world (`Inherited.maintains`), so
that a property of all tasks of a run is proved without looking at what the tasks do.
-/

set_option autoImplicit false

namespace ValueShell.Evaluation

open ValueShell.Task

/-- Tasks with `P` hand on only what has `P`, responses with `Q` among them, and store results only where `I`
is kept. Nothing but storing a result matters to `I`. -/
structure Inherited (P : Job LeafTask → Prop) (Q : Response → Prop) (I : World → Prop) : Prop where
  ofPlan : ∀ {t q job}, P (.evaluate t q) → Job.ofPlan LeafTask.leaf t q = .ok job → P job
  series : ∀ {t op left right}, P (.series t op left right) → P (.evaluate t left) ∧ P (.evaluate t right)
  store : ∀ {t command name}, P (.store t command name) →
    P (.evaluate t command) ∧ ∀ w s, I w → I (w.store name s)
  render : ∀ {t command opened}, P (.render t command opened) → ∀ pipe worker,
    P (.render t command (some (pipe, worker))) ∧
      P (.evaluate (.within (some t) none (some (.values pipe))) command)
  joinValues : ∀ {t left right opened}, P (.joinValues t left right opened) → ∀ pipe,
    P (.joinValues t left right (some pipe)) ∧
      P (.evaluate (.within (some t) none (some (.values pipe))) left) ∧
      P (.evaluate (.within (some t) (some (.values pipe)) none) right)
  joinText : ∀ {t left right read write}, P (.joinText t left right read write) →
    (∀ read' write', P (.joinText t left right read' write')) ∧ ∀ n,
      P (.evaluate (.within (some t) none (some (.descriptor (.writeEnd n)))) left) ∧
      P (.evaluate (.within (some t) (some (.descriptor (.readEnd n))) none) right)
  respond : ∀ {response}, P (.respond response) ↔ Q response
  values : ∀ vs, Q (.values vs)
  token : ∀ t, Q (.token t)
  file : ∀ append source path, Q (.target (.file append source path))
  words : ∀ {p : ProcessTask} {word}, P (.leaf (.process p)) → word ∈ p.words →
    P (.leaf (.word (.ofPieces p.streams word)))
  redirects : ∀ {p : ProcessTask} {r}, P (.leaf (.process p)) → r ∈ p.redirects →
    ∀ i, (ProcessTask.targetRequest p.streams i r).Hands P Q
  /-- A process keeps what it has, and targets that it is told. -/
  process : ∀ {p p' : ProcessTask}, P (.leaf (.process p)) → p'.streams = p.streams → p'.words = p.words →
    p'.redirects = p.redirects → (∀ t, some t ∈ p'.targets → some t ∈ p.targets ∨ Q (.target t)) →
    P (.leaf (.process p'))
  captured : ∀ {p : ProcessTask} {name}, P (.leaf (.process p)) → some (.capture name) ∈ p.targets →
    ∀ w s, I w → I (w.store name s)
  backquotes : ∀ {t : WordTask} {command}, P (.leaf (.word t)) → .backquote command ∈ t.pieces →
    ∀ n, P (.evaluate (.within (some t.streams) none (some (.descriptor (.writeEnd n)))) command)
  word : ∀ {t t' : WordTask}, P (.leaf (.word t)) → t'.streams = t.streams → t'.pieces = t.pieces →
    P (.leaf (.word t'))
  standing : ∀ {w w' : World}, I w → w'.standing = w.standing → I w'

namespace Inherited

variable {P : Job LeafTask → Prop} {Q : Response → Prop} {I : World → Prop} {p : ProcessTask} {t : WordTask}
  {w : World}

/-! ## Processes -/

theorem process_same (h : Inherited P Q I) {p' : ProcessTask} (hp : P (.leaf (.process p)))
    (hstreams : p'.streams = p.streams) (hwords : p'.words = p.words) (hredirects : p'.redirects = p.redirects)
    (htargets : p'.targets = p.targets) : P (.leaf (.process p')) :=
  h.process hp hstreams hwords hredirects fun _ ht => .inl (htargets ▸ ht)

theorem process_set (h : Inherited P Q I) {target : Target} (hp : P (.leaf (.process p)))
    (htarget : Q (.target target)) (i : Nat) :
    P (.leaf (.process { p with targets := p.targets.set i (some target) })) := by
  refine h.process hp rfl rfl rfl fun t ht => ?_
  rcases List.mem_or_eq_of_mem_set ht with ht | heq
  · exact .inl ht
  · cases heq
    exact .inr htarget

theorem keeps_callCommand (h : Inherited P Q I) (self : Nat) (c : Command) (args : List Value)
    {targets : List Target} (htargets : ∀ t ∈ targets, some t ∈ p.targets) (hp : P (.leaf (.process p)))
    (hw : I w) : (p.callCommand self c args targets w).Keeps P Q I := by
  unfold ProcessTask.callCommand
  dsimp only
  split
  · split
    · exact .idle hp (h.standing hw rfl) rfl
    · exact .idle hp hw rfl
  · split
    · exact .idle hp hw rfl
    · rename_i hopen
      have hstanding := World.standing_openFile hopen
      refine .idle (h.process_same hp rfl rfl rfl rfl) (h.standing hw ?_) rfl
      exact hstanding
  · rename_i name
    have hstored := h.captured hp (htargets (.capture name) List.mem_cons_self) w.newCapture.2
      (.captured w.newCapture.1) (h.standing hw rfl)
    exact .idle (h.process_same hp rfl rfl rfl rfl) (h.standing hstored rfl) rfl
  · exact .idle hp hw rfl

theorem keeps_openCaptures (h : Inherited P Q I) (targets : List Target) {p : ProcessTask} {w : World}
    (htargets : ∀ t ∈ targets, some t ∈ p.targets) (hp : P (.leaf (.process p))) (hw : I w) :
    P (.leaf (.process (p.openCaptures w targets).1)) ∧ I (p.openCaptures w targets).2.1 := by
  induction targets generalizing p w with
  | nil => exact ⟨hp, hw⟩
  | cons target rest ih =>
    have hrest : ∀ t ∈ rest, some t ∈ p.targets := fun t ht => htargets t (List.mem_cons_of_mem _ ht)
    cases target with
    | descriptor source target => exact ih hrest hp hw
    | file append source path => exact ih hrest hp hw
    | capture name =>
      have hstored := h.captured hp (htargets (.capture name) List.mem_cons_self) w.newCapture.2
        (.captured w.newCapture.1) (h.standing hw rfl)
      refine ih (p := { p with captures := p.captures ++ [_] }) hrest ?_ (h.standing hstored ?_)
      · exact h.process_same hp rfl rfl rfl rfl
      · rfl

theorem keeps_createChild (h : Inherited P Q I) (self : Nat) (args : List Value) {targets : List Target}
    (htargets : ∀ t ∈ targets, some t ∈ p.targets) (hp : P (.leaf (.process p))) (hw : I w) :
    (p.createChild self args targets w).Keeps P Q I := by
  obtain ⟨hopened, hcaptures⟩ := h.keeps_openCaptures targets htargets hp hw
  unfold ProcessTask.createChild
  dsimp only
  split
  · exact .idle hopened (h.standing hcaptures rfl) rfl
  · split
    · refine .idle hopened (h.standing hcaptures ?_) rfl
      split
      · exact World.standing_emit _ _ _
      · rfl
    · rename_i w₁ hclose
      have hstanding : w₁.standing = (p.openCaptures w targets).2.1.standing := by
        refine (ProcessTask.standing_closeAll hclose).trans ?_
        split
        · exact World.standing_emit _ _ _
        · rfl
      have hclosed := h.standing hcaptures hstanding
      split
      · exact .idle hopened hclosed rfl
      · exact .idle hopened (h.standing hclosed rfl) rfl
      · exact .idle hopened (h.standing hclosed rfl) rfl

theorem keeps_invoke (h : Inherited P Q I) (self : Nat) (hp : P (.leaf (.process p))) (hw : I w) :
    (p.invoke self w).Keeps P Q I := by
  have htargets : ∀ t ∈ p.targets.filterMap id, some t ∈ p.targets := by
    intro t ht
    obtain ⟨t', ht', heq⟩ := List.mem_filterMap.mp ht
    rw [id] at heq
    exact heq ▸ ht'
  unfold ProcessTask.invoke
  dsimp only
  split
  · exact .idle hp hw rfl
  · split
    · exact .idle hp hw rfl
    · split
      · exact h.keeps_callCommand self _ _ htargets hp hw
      · exact h.keeps_createChild self _ htargets hp hw

theorem keeps_conclude (h : Inherited P Q I) {response : Response} (hresponse : Q response)
    (hp : P (.leaf (.process p))) (hw : I w) : (p.conclude response w).Keeps P Q I := by
  unfold ProcessTask.conclude
  dsimp only
  split
  · rename_i w' hfinished
    obtain ⟨w₁, hworker, hfinished⟩ := Plan.ok_of_bind hfinished
    obtain ⟨w₂, hcaptures, hclose⟩ := Plan.ok_of_bind hfinished
    have hstanding : w'.standing = w.standing := by
      rw [ProcessTask.standing_closeAll hclose, ProcessTask.standing_joinAll hcaptures,
        ← ProcessTask.standing_joinAll hworker]
      split
      · exact World.standing_closeFile _ _
      · rfl
    exact .single (h.process_same hp rfl rfl rfl rfl) (h.standing hw hstanding) rfl hresponse
  · exact .idle hp hw rfl

theorem keeps_resumeProcess (h : Inherited P Q I) (self : Nat) (mark : Mark) {response : Response}
    (hresponse : Q response) (hp : P (.leaf (.process p))) (hw : I w) :
    (p.resume self mark response w).Keeps P Q I := by
  unfold ProcessTask.resume
  split
  · exact h.keeps_invoke self (h.process_same hp rfl rfl rfl rfl) hw
  · exact h.keeps_invoke self (h.process_set hp hresponse _) hw
  · split
    · rename_i vs _ target htarget
      refine h.keeps_invoke self (h.process_set hp ?_ _) hw
      unfold ProcessTask.targetOf at htarget
      split at htarget
      · cases htarget
        exact h.file _ _ _
      · cases htarget
    · exact .idle hp hw rfl
  · exact h.keeps_conclude hresponse hp hw
  · exact .idle hp hw rfl

theorem keeps_startProcess (h : Inherited P Q I) (hp : P (.leaf (.process p))) (hw : I w) :
    (p.start w).Keeps P Q I := by
  refine ⟨hp, hw, fun request hrequest => ?_⟩
  rcases List.mem_append.mp hrequest with hword | htarget
  · obtain ⟨⟨word, i⟩, hmem, rfl⟩ := List.mem_map.mp hword
    exact h.words hp (List.fst_mem_of_mem_zipIdx hmem)
  · obtain ⟨⟨redirect, i⟩, hmem, rfl⟩ := List.mem_map.mp htarget
    exact h.redirects hp (List.fst_mem_of_mem_zipIdx hmem) i

/-! ## Words -/

theorem keeps_startPieces (h : Inherited P Q I) {pieces : List PlanPiece} {t : WordTask} {w : World}
    (hpieces : ∀ piece ∈ pieces, piece ∈ t.pieces) (i : Nat) (ht : P (.leaf (.word t))) (hw : I w) :
    P (.leaf (.word (t.startPieces w i pieces).1)) ∧ I (t.startPieces w i pieces).2.1 ∧
      ∀ q ∈ (t.startPieces w i pieces).2.2, q.Hands P Q := by
  induction pieces generalizing t w i with
  | nil => exact ⟨ht, hw, fun q hq => absurd hq List.not_mem_nil⟩
  | cons piece rest ih =>
    have hrest : ∀ piece ∈ rest, piece ∈ t.pieces := fun q hq => hpieces q (List.mem_cons_of_mem _ hq)
    cases piece with
    | token token =>
      obtain ⟨hkept, hworld, hasks⟩ := ih hrest (i + 1) ht hw
      refine ⟨hkept, hworld, fun q hq => ?_⟩
      rcases List.mem_cons.mp hq with rfl | hq
      · exact h.respond.mpr (h.token token)
      · exact hasks q hq
    | backquote command =>
      have hothers := fun (b : Backquote) (w' : World) (hw' : w'.standing = w.standing) =>
        ih (t := { t with running := t.running.set i (some b) }) (w := w') hrest (i + 1)
          (h.word ht rfl rfl) (h.standing hw hw')
      refine ⟨(hothers _ _ ?_).1, (hothers _ _ ?_).2.1, fun q hq => ?_⟩
      · rfl
      · rfl
      · rcases List.mem_cons.mp hq with rfl | hq
        · exact h.backquotes ht (hpieces _ List.mem_cons_self) _
        · refine (hothers _ _ ?_).2.2 q hq
          rfl

theorem keeps_concludeWord (h : Inherited P Q I) (ht : P (.leaf (.word t))) (hw : I w) :
    (t.conclude w).Keeps P Q I := by
  unfold WordTask.conclude
  dsimp only
  split
  · exact .idle ht hw rfl
  · split
    · exact .single ht hw rfl (h.values _)
    · exact .idle ht hw rfl

theorem keeps_resumeWord (h : Inherited P Q I) (mark : Mark) (response : Response)
    (ht : P (.leaf (.word t))) (hw : I w) : (t.resume mark response w).Keeps P Q I := by
  unfold WordTask.resume
  split
  · exact h.keeps_concludeWord (h.word ht rfl rfl) hw
  · split
    · exact .idle ht hw rfl
    · dsimp only
      split
      · exact .idle (h.word ht rfl rfl) hw rfl
      · rename_i hclose
        exact h.keeps_concludeWord (h.word ht rfl rfl) (h.standing hw (WordTask.standing_closeBackquote hclose))
  · exact .idle ht hw rfl

theorem keeps_disposeWord (h : Inherited P Q I) (places : List Nat) {t : WordTask} {w : World}
    (ht : P (.leaf (.word t))) (hw : I w) :
    P (WordTask.dispose.go t w places).task ∧ I (WordTask.dispose.go t w places).world := by
  induction places generalizing t w with
  | nil => exact ⟨ht, hw⟩
  | cons i rest ih =>
    rw [WordTask.dispose.go]
    split
    · exact ih ht hw
    · dsimp only
      split
      · rename_i hclose
        exact ih (h.word ht rfl rfl) (h.standing hw (WordTask.standing_closeBackquote hclose))
      · exact ⟨h.word ht rfl rfl, hw⟩

/-! ## Every task -/

theorem keeps_start (h : Inherited P Q I) (self : Nat) {job : Job LeafTask} (hjob : P job) (hw : I w) :
    (job.start LeafTask.leaf self w).Keeps P Q I := by
  cases job with
  | evaluate t q =>
    unfold Job.start
    dsimp only
    split
    · rename_i next hnext
      exact .single hjob hw rfl (h.ofPlan hjob hnext)
    · exact .idle hjob hw rfl
  | series t op left right => exact .single hjob hw rfl (h.series hjob).1
  | store t command name => exact .single hjob hw rfl (h.store hjob).1
  | render t command opened =>
    unfold Job.start
    dsimp only
    split
    · exact .idle hjob hw rfl
    · exact .single (h.render hjob _ _).1 (h.standing hw rfl) rfl (h.render hjob _ 0).2
  | joinValues t left right opened =>
    obtain ⟨hopened, hleft, hright⟩ := h.joinValues hjob (w.newValuePipe .values).1
    exact .pair hopened (h.standing hw rfl) rfl hleft hright
  | joinText t left right read write =>
    obtain ⟨hleft, hright⟩ := (h.joinText hjob).2 w.newTextPipe.1
    exact .pair ((h.joinText hjob).1 _ _) (h.standing hw rfl) rfl hleft hright
  | respond response => exact .single hjob hw rfl (h.respond.mp hjob)
  | leaf task =>
    cases task with
    | process p => exact h.keeps_startProcess hjob hw
    | word t =>
      obtain ⟨hkept, hworld, hasks⟩ := h.keeps_startPieces (fun _ hpiece => hpiece) 0 hjob hw
      exact ⟨hkept, hworld, hasks⟩

theorem keeps_resume (h : Inherited P Q I) (self : Nat) {job : Job LeafTask} (mark : Mark)
    {response : Response} (hjob : P job) (hresponse : Q response) (hw : I w) :
    (job.resume LeafTask.leaf self mark response w).Keeps P Q I := by
  cases job with
  | evaluate t q => exact .single hjob hw rfl hresponse
  | series t op left right =>
    unfold Job.resume
    dsimp only
    split
    · exact .single hjob hw rfl (h.series hjob).2
    · exact .single hjob hw rfl hresponse
  | store t command name => exact .single hjob ((h.store hjob).2 _ _ hw) rfl hresponse
  | render t command opened => exact .single hjob hw rfl hresponse
  | joinValues t left right opened =>
    unfold Job.resume
    dsimp only
    split
    · split
      · exact .idle hjob (h.standing hw rfl) rfl
      · exact .idle hjob hw rfl
    · exact .single hjob hw rfl hresponse
  | joinText t left right read write =>
    unfold Job.resume
    dsimp only
    split
    · split
      · exact .idle hjob hw rfl
      · split
        · rename_i hclose
          exact .idle ((h.joinText hjob).1 _ _) (h.standing hw (World.standing_close hclose)) rfl
        · exact .idle hjob hw rfl
    · split
      · exact .single hjob hw rfl hresponse
      · split
        · rename_i hclose
          exact .single ((h.joinText hjob).1 _ _) (h.standing hw (World.standing_close hclose)) rfl hresponse
        · exact .idle hjob hw rfl
  | respond response => exact .idle hjob hw rfl
  | leaf task =>
    cases task with
    | process p => exact h.keeps_resumeProcess self mark hresponse hjob hw
    | word t => exact h.keeps_resumeWord mark response hjob hw

theorem keeps_dispose (h : Inherited P Q I) {job : Job LeafTask} (hjob : P job) (hw : I w) :
    P (job.dispose LeafTask.leaf w).task ∧ I (job.dispose LeafTask.leaf w).world := by
  unfold Job.dispose
  split
  · dsimp only
    split
    · rename_i hjoin
      exact ⟨hjob, h.standing hw ((World.standing_join hjoin).trans rfl)⟩
    · exact ⟨hjob, h.standing hw rfl⟩
  · exact ⟨hjob, h.standing hw rfl⟩
  · split
    · exact ⟨hjob, hw⟩
    · rename_i hwrite
      have hclosed := h.standing hw (Job.standing_closeEnd hwrite)
      split
      · exact ⟨(h.joinText hjob).1 _ _, hclosed⟩
      · rename_i hread
        exact ⟨(h.joinText hjob).1 _ _, h.standing hclosed (Job.standing_closeEnd hread)⟩
  · rename_i task
    cases task with
    | process p => exact ⟨hjob, hw⟩
    | word t => exact h.keeps_disposeWord _ hjob hw
  · exact ⟨hjob, hw⟩

/-- What is inherited is kept by every task. -/
theorem maintains (h : Inherited P Q I) : (Job.behavior LeafTask.leaf).Maintains P Q I where
  start := fun place _ _ _ hjob hw => h.keeps_start place.self hjob hw
  resume := fun place _ mark _ _ hjob hresponse hw => h.keeps_resume place.self mark hjob hresponse hw
  dispose := fun _ _ hjob hw => h.keeps_dispose hjob hw

end Inherited

end ValueShell.Evaluation
