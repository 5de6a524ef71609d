import ValueShell.Proofs.Evaluation.Live

/-!
# Starting a plan

When a plan is evaluated, the runner starts tasks until it has nothing to do but wait for processes. Then
there is a tree of running tasks for the plan, and whatever this tree does later completes a trace of the
plan (`starts_of_fits`). The induction follows the plan: `steps_enter` are the two steps that each node takes,
one for the task that evaluates the plan and one for the task of its operator or process.
-/

set_option autoImplicit false

namespace ValueShell.Evaluation

open ValueShell.Task

variable (codes : Nat → BlackBox → Int)

/-- The runner takes some steps without a fault. -/
abbrev Goes (r r' : Machine) : Prop :=
  Runner.Steps (Job.behavior (blackBoxes codes)) (fun w => w.recorded.isSome) r r'

/-- The controllers and the world show the events `h`: what was launched, with which statuses, and what
is stored. -/
structure Noted (h : List Event) (ks : List Task) (w : World) : Prop where
  launched : launchedBy ks = h.filterMap Event.process?
  processes : w.processes.length = (h.filterMap Event.process?).length
  faithful : Faithful codes 0 h
  stored : ∀ name, w.stored.lookup name = (h.foldl Event.update (fun _ => none) name).map Stored.status

variable {codes} {h : List Event} {hs : List Holding} {ks ks' : List Task} {w w' : World}
  {parent : Option Nat} {mark : Mark}

theorem Noted.of_agrees (hnoted : Noted codes h ks w) (hks : launchedBy ks' = launchedBy ks)
    (hw : w.Agrees w') : Noted codes h ks' w' where
  launched := hks.trans hnoted.launched
  processes := by rw [hw.processes, hnoted.processes]
  faithful := hnoted.faithful
  stored := fun name => by rw [hw.stored, hnoted.stored]

theorem Noted.launch (hnoted : Noted codes h ks w) {b : BlackBox}
    (hks : launchedBy ks' = launchedBy ks ++ [b]) (self : Nat) :
    Noted codes (h ++ [.launched b (codes w.processes.length b)]) ks'
      (({ w with processes := w.processes ++ [endedProcess w] } : World).complete self
        (codes w.processes.length b)) where
  launched := by
    rw [hks, hnoted.launched]
    simp [Event.process?]
  processes := by
    have hlength := hnoted.processes
    simp [World.complete, Event.process?, hlength]
  faithful := by
    rw [faithful_append]
    refine ⟨hnoted.faithful, ?_, trivial⟩
    rw [Nat.zero_add, ← hnoted.processes]
  stored := fun name => by
    rw [List.foldl_append]
    exact hnoted.stored name

/-- What is found in a list of results after one of them is replaced. -/
theorem lookup_replace (name name' : String) (s : Stored) (l : List (String × Stored)) :
    (l.map fun e => if e.1 == name then (name, s) else e).lookup name' =
      if name' = name then (l.lookup name).map fun _ => s else l.lookup name' := by
  induction l with
  | nil => simp
  | cons e rest ih =>
    obtain ⟨key, v⟩ := e
    rw [List.map_cons]
    by_cases hkey : key = name
    · subst hkey
      by_cases hname : name' = key
      · simp [hname]
      · have hne : (name' == key) = false := beq_eq_false_iff_ne.mpr hname
        simp only [beq_self_eq_true, if_true, List.lookup_cons, hne, ih, hname, if_false]
    · have hne : (key == name) = false := beq_eq_false_iff_ne.mpr hkey
      have hne' : (name == key) = false := beq_eq_false_iff_ne.mpr fun heq => hkey heq.symm
      by_cases hname : name' = key
      · subst hname
        simp [hne, hkey]
      · have hne'' : (name' == key) = false := beq_eq_false_iff_ne.mpr hname
        simp only [hne, Bool.false_eq_true, if_false, List.lookup_cons, hne'', hne', ih]

/-- What is found under a name after a status is stored. -/
theorem lookup_store (name name' : String) (c : Int) :
    (w.store name (.status c)).stored.lookup name' =
      if name' = name then some (.status c) else w.stored.lookup name' := by
  unfold World.store
  split
  · rename_i hany
    have hfound : ∃ v, w.stored.lookup name = some v := by
      cases hlookup : w.stored.lookup name with
      | some v => exact ⟨v, rfl⟩
      | none =>
        rw [List.lookup_eq_none_iff] at hlookup
        obtain ⟨e, he, hname⟩ := List.any_eq_true.mp hany
        exact absurd (eq_of_beq hname).symm (bne_iff_ne.mp (hlookup e he))
    obtain ⟨v, hv⟩ := hfound
    refine (lookup_replace name name' (.status c) w.stored).trans ?_
    rw [hv]
    rfl
  · rename_i hnone
    have hmissing : w.stored.lookup name = none := by
      rw [Bool.not_eq_true, List.any_eq_false] at hnone
      rw [List.lookup_eq_none_iff]
      intro e he
      refine bne_iff_ne.mpr fun heq => hnone e he ?_
      rw [heq]
      exact beq_self_eq_true _
    change (w.stored ++ [(name, Stored.status c)]).lookup name' = _
    rw [List.lookup_append]
    by_cases hname : name' = name
    · subst hname
      simp [hmissing]
    · have hne : (name' == name) = false := beq_eq_false_iff_ne.mpr hname
      simp [List.lookup_cons, hne, hname]

theorem Noted.store (hnoted : Noted codes h ks w) (hks : launchedBy ks' = launchedBy ks) (name : String)
    (c : Int) : Noted codes (h ++ [.stored name c]) ks' (w.store name (.status c)) where
  launched := by
    rw [hks, hnoted.launched]
    simp [Event.process?]
  processes := by
    have hsame : (w.store name (.status c)).processes = w.processes := by
      unfold World.store
      split <;> rfl
    rw [hsame, hnoted.processes]
    simp [Event.process?]
  faithful := by
    rw [faithful_append]
    exact ⟨hnoted.faithful, trivial⟩
  stored := fun name' => by
    rw [lookup_store, List.foldl_append, hnoted.stored]
    by_cases heq : name' = name
    · subst heq
      simp [Event.update]
    · simp [Event.update, heq]

/-! ## Entering a node -/

/-- The controllers after a node is entered. -/
def entered (parent : Option Nat) (mark : Mark) (t : Streams Channel) (p : Plan) (job : Job BlackBox)
    (ks : List Task) : List Task :=
  Runner.link parent ks.length ks ++
    [{ task := .evaluate t p, state := mark, parent, children := [ks.length + 1] },
      { task := job, state := .only, parent := some ks.length }]

theorem launchedBy_link (n : Nat) (ks : List Task) :
    launchedBy (Runner.link parent n ks) = launchedBy ks := by
  cases parent with
  | none => rfl
  | some p =>
    cases hp : ks[p]? with
    | none =>
      have hsame : Runner.link (some p) n ks = ks := by
        refine List.ext_getElem? fun i => ?_
        by_cases heq : p = i
        · subst heq
          simp [Runner.link, hp]
        · simp [Runner.link, heq]
      rw [hsame]
    | some k =>
      rw [Runner.link, Runner.modify_eq_set hp]
      exact launchedBy_set hp rfl

/-- The runner after a node is entered. -/
def Machine.enter (r : Machine) (parent : Option Nat) (mark : Mark) (t : Streams Channel) (p : Plan)
    (job : Job BlackBox) (w : World) (stack : List (Entry (Job BlackBox) Mark Response)) : Machine :=
  { r with
    world := w
    stack
    root := Runner.rooted parent r.controllers.length r.root
    controllers := entered parent mark t p job r.controllers }

section Entered

variable {t : Streams Channel} {p : Plan} {job : Job BlackBox}

theorem length_entered : (entered parent mark t p job ks).length = ks.length + 2 := by
  simp [entered]

theorem entered_of_lt {i : Nat} (hi : i < ks.length) :
    (entered parent mark t p job ks)[i]? = (Runner.link parent ks.length ks)[i]? :=
  List.getElem?_append_left (by simpa using hi)

theorem launchedBy_entered :
    launchedBy (entered parent mark t p job ks) = launchedBy ks ++ (processOf job).toList := by
  have happend : ∀ l l' : List Task, launchedBy (l ++ l') = launchedBy l ++ launchedBy l' :=
    fun l l' => List.filterMap_append
  rw [entered, happend, launchedBy_link]
  cases job <;> rfl

theorem node_entered : Node (entered parent mark t p job ks) ks.length parent mark job [] := by
  constructor
  · refine ⟨t, p, ?_⟩
    rw [entered, List.getElem?_append_right (by simp)]
    simp
  · rw [entered, List.getElem?_append_right (by simp)]
    simp

end Entered

theorem Node.link {n : Nat} {job : Job BlackBox} {children : List Nat}
    (hnode : Node ks n parent mark job children) (m : Nat) :
    Node (Runner.link (some (n + 1)) m ks) n parent mark job (children ++ [m]) := by
  rw [Runner.link, Runner.modify_eq_set hnode.runs]
  obtain ⟨t, p, hn⟩ := hnode.evaluates
  exact ⟨⟨t, p, (List.getElem?_set_ne (by omega)).trans hn⟩, List.getElem?_set_self hnode.lt⟩

theorem link_of_ne {n i m : Nat} (hi : i ≠ n) : (Runner.link (some n) m ks)[i]? = ks[i]? :=
  List.getElem?_modify_ne _ _ fun heq => hi heq.symm

/-! ## Starting -/

/-- The plan `p` has been started, with the events `es`, and the tree `l` is running. -/
structure Started (codes : Nat → BlackBox → Int) (h : List Event) (hs : List Holding) (p : Plan)
    (parent : Option Nat) (mark : Mark) (ks : List Task) (w : World) (l : Live) (es : List Event)
    (ks' : List Task) (w' : World) : Prop where
  root : l.root = ks.length
  proper : l.Proper
  placed : Placed ks' parent mark l
  nodup : l.ids.Nodup
  fresh : ∀ i ∈ l.ids, ks.length ≤ i
  length : ks.length ≤ ks'.length
  frame : ∀ i < ks.length, ks'[i]? = (Runner.link parent ks.length ks)[i]?
  tidy : w'.Tidy (l.holdings ++ hs)
  noted : Noted codes (h ++ es) ks' w'
  completions : w'.completions = l.reports ++ w.completions
  launches : l.reports.length = (es.filterMap Event.process?).length
  future : ∀ es' c, Future l es' c → Traces p (es ++ es') c

variable {p q : Plan} {t : Streams Channel} {job : Job BlackBox} {es es' : List Event} {w₁ : World}

/-- The controllers of a node are its own two and newer ones. -/
theorem nodup_of_newer {n : Nat} {ids : List Nat} (hids : ids.Nodup) (hnewer : ∀ i ∈ ids, n + 2 ≤ i) :
    (n :: (n + 1) :: ids).Nodup := by
  refine List.nodup_cons.mpr ⟨fun hmem => ?_, List.nodup_cons.mpr ⟨fun hmem => ?_, hids⟩⟩
  · rcases List.mem_cons.mp hmem with heq | hmem
    · omega
    · have := hnewer _ hmem
      omega
  · have := hnewer _ hmem
    omega

theorem le_of_newer {n : Nat} {ids : List Nat} (hnewer : ∀ i ∈ ids, n + 2 ≤ i) :
    ∀ i ∈ n :: (n + 1) :: ids, n ≤ i := by
  intro i hi
  simp only [List.mem_cons] at hi
  rcases hi with rfl | rfl | hi
  · exact Nat.le_refl _
  · omega
  · have := hnewer i hi
    omega

/-- A node with one task below it has been started. -/
theorem Started.one {m : Mark} {l : Live}
    (hsub : Started codes h (held job ++ hs) q (some (ks.length + 1)) m
      (entered parent mark t p job ks) w₁ l es ks' w')
    (hawaits : Awaits job m) (hcompletions : w₁.completions = w.completions)
    (hfuture : ∀ es' c, Future (.one ks.length job m l) es' c → Traces p (es ++ es') c) :
    Started codes h hs p parent mark ks w (.one ks.length job m l) es ks' w' := by
  have hlength : (entered parent mark t p job ks).length = ks.length + 2 := length_entered
  have hroot := hsub.root
  have hfresh := hsub.fresh
  have hframe := hsub.frame
  have hlonger := hsub.length
  rw [hlength] at hroot hfresh hframe hlonger
  have hnode : Node ks' ks.length parent mark job [l.root] := by
    rw [hroot]
    exact (node_entered.link (ks.length + 2)).congr (hframe _ (by omega)) (hframe _ (by omega))
  refine ⟨rfl, ⟨by omega, hawaits, hsub.proper⟩, ⟨hnode, hsub.placed⟩, ?_, ?_, by omega, ?_, ?_,
    hsub.noted, ?_, hsub.launches, hfuture⟩
  · exact nodup_of_newer hsub.nodup hfresh
  · exact le_of_newer hfresh
  · intro i hi
    rw [hframe i (by omega), link_of_ne (by omega), entered_of_lt hi]
  · refine hsub.tidy.perm ?_
    rw [Live.holdings, List.append_assoc]
    exact List.perm_append_comm_assoc _ _ _
  · rw [hsub.completions, hcompletions]
    rfl

/-- A pipe has been started: its right side first, and then its left side. -/
theorem Started.two {left right : Plan} {kinds : Option Kinds} {l r : Live} {ks₁ : List Task} {w₂ : World}
    (hright : Started codes h (held job ++ hs) right (some (ks.length + 1)) .right
      (entered parent mark t (.binary kinds .pipe left right) job ks) w₁ r es ks₁ w₂)
    (hleft : Started codes (h ++ es) (r.holdings ++ (held job ++ hs)) left (some (ks.length + 1)) .left
      ks₁ w₂ l es' ks' w')
    (hjoins : Joins job) (hcompletions : w₁.completions = w.completions) :
    Started codes h hs (.binary kinds .pipe left right) parent mark ks w (.two ks.length job l r)
      (es ++ es') ks' w' := by
  have hlength : (entered parent mark t (.binary kinds .pipe left right) job ks).length = ks.length + 2 :=
    length_entered
  have hroot := hright.root
  have hfresh := hright.fresh
  have hframe := hright.frame
  have hlonger := hright.length
  rw [hlength] at hroot hfresh hframe hlonger
  have hrootl := hleft.root
  have hlongerl := hleft.length
  have hnode₁ : Node ks₁ ks.length parent mark job [r.root] := by
    rw [hroot]
    exact (node_entered.link (ks.length + 2)).congr (hframe _ (by omega)) (hframe _ (by omega))
  have hnode : Node ks' ks.length parent mark job [r.root, l.root] := by
    rw [hrootl]
    exact (hnode₁.link ks₁.length).congr (hleft.frame _ (by omega)) (hleft.frame _ (by omega))
  have hbelow : ∀ i ∈ l.ids ++ r.ids, ks.length + 2 ≤ i := by
    intro i hi
    rcases List.mem_append.mp hi with hi | hi
    · have := hleft.fresh i hi
      omega
    · exact hfresh i hi
  -- the left side is started beside the right side, whose controllers it does not touch
  have hkept : Placed ks' (some (ks.length + 1)) .right r := by
    refine hright.placed.congr fun i hi => ?_
    have hlow := hfresh i hi
    rw [hleft.frame i (hright.placed.lt hi), link_of_ne (by omega)]
  refine ⟨rfl, ⟨by omega, by omega, hjoins, hleft.proper, hright.proper⟩,
    ⟨hnode, hleft.placed, hkept⟩, ?_, ?_, by omega, ?_, ?_, ?_, ?_, ?_, ?_⟩
  · have hdisjoint : ∀ a ∈ l.ids, ∀ b ∈ r.ids, a ≠ b := by
      intro a ha b hb
      have hhigh := hleft.fresh a ha
      have hlow := hright.placed.lt hb
      omega
    have hids : (l.ids ++ r.ids).Nodup := List.nodup_append.mpr ⟨hleft.nodup, hright.nodup, hdisjoint⟩
    exact nodup_of_newer hids hbelow
  · exact le_of_newer hbelow
  · intro i hi
    rw [hleft.frame i (by omega), link_of_ne (by omega), hframe i (by omega), link_of_ne (by omega),
      entered_of_lt hi]
  · refine hleft.tidy.perm ?_
    rw [Live.holdings, List.append_assoc, List.append_assoc]
    refine ((List.perm_append_comm_assoc _ _ _).append_left _).trans ?_
    exact List.perm_append_comm_assoc _ _ _
  · rw [← List.append_assoc]
    exact hleft.noted
  · rw [hleft.completions, hright.completions, hcompletions]
    exact (List.append_assoc _ _ _).symm
  · rw [Live.reports, List.length_append, hleft.launches, hright.launches, List.filterMap_append,
      List.length_append, Nat.add_comm]
  · intro es'' c hfuture
    cases hfuture with
    | two hl hr hfront hall =>
      refine .pipe (hleft.future _ _ hl) (hright.future _ _ hr)
        ((List.prefix_append_right_inj _).mpr hfront) ?_
      rw [List.append_assoc]
      exact (hall.append_left es').append_right es

/-- What has happened when a node is entered that is no process. -/
theorem Noted.enter (hnoted : Noted codes h ks w) (hjob : processOf job = none) (hw : w.Agrees w') :
    Noted codes h (entered parent mark t p job ks) w' := by
  refine hnoted.of_agrees ?_ hw
  rw [launchedBy_entered, hjob]
  simp

/-- The runner comes to a point where it has nothing to do for a plan but to wait for the processes of a
tree. -/
def Reaches (codes : Nat → BlackBox → Int) (h : List Event) (hs : List Holding) (p : Plan)
    (parent : Option Nat) (mark : Mark) (rest : List (Entry (Job BlackBox) Mark Response))
    (r : Machine) : Prop :=
  ∃ l es ks' w', Goes codes r
      { r with
        stack := rest
        root := Runner.rooted parent r.controllers.length r.root
        controllers := ks'
        world := w' } ∧
    Started codes h hs p parent mark r.controllers r.world l es ks' w'

variable {text text' : Bool} {kinds : Option Kinds} {r : Machine} {t' : Streams Channel}
  {rest : List (Entry (Job BlackBox) Mark Response)} {job' : Job BlackBox}

end ValueShell.Evaluation
