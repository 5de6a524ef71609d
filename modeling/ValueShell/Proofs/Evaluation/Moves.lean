import ValueShell.Proofs.Evaluation.Answer

/-!
# What a report does to a tree

`Moves` says what has become of a tree of running tasks after one of its processes has reported: either the
tree waits again, or its root has a status. Whatever the new tree does later completes what the old one
could do. `Moves.below` lifts this from a task to the tree around it, and `moves_of_answer` passes on the status of
a task to the node above it.
-/

set_option autoImplicit false

namespace ValueShell.Evaluation

open ValueShell.Task

variable {codes : Nat → BlackBox → Int} {h : List Event} {hs : List Holding} {ks ks' ks'' : List Task}
  {w w' : World} {parent : Option Nat} {mark : Mark} {r : Machine} {job job' : Job BlackBox} {n m : Nat}
  {c : Int} {children : List Nat}

/-- The tree `l` has become `l'` after the process of the controller `owner` has reported, with the events
`es` and the new processes `new` to wait for. Either the tree waits again, or its root has a status. -/
structure Moves (codes : Nat → BlackBox → Int) (h : List Event) (hs : List Holding) (parent : Option Nat)
    (mark : Mark) (ks : List Task) (w : World) (owner : Nat) (l : Live) (es : List Event)
    (new : List Completion) (stack : List (Entry (Job BlackBox) Mark Response)) (ks' : List Task)
    (w' : World) (l' : Live) : Prop where
  root : l'.root = l.root
  state : (l'.Proper ∧ stack = []) ∨ ∃ c, l' = .asks l.root c ∧ stack = [.finish (.status c) l.root]
  placed : Placed ks' parent mark l'
  nodup : l'.ids.Nodup
  fresh : ∀ i ∈ l'.ids, i ∈ l.ids ∨ ks.length ≤ i
  within : Within l.ids ks ks'
  dead : ∀ i ∈ l.ids, i ∈ l'.ids ∨ Dead ks' i
  tidy : w'.Tidy (l'.holdings ++ hs)
  noted : Noted codes (h ++ es) ks' w'
  reported : Dead ks' owner
  completions : w'.completions = new ++ w.completions
  launches : new.length = (es.filterMap Event.process?).length
  started : ∀ c ∈ new, c ∈ l'.reports
  waits : ∀ c ∈ l'.reports, c ∈ new ∨ c ∈ l.reports
  gone : ∀ c ∈ l.reports, c ∈ l'.reports ∨ Dead ks' c.owner
  future : ∀ es' c, Future l' es' c → Future l (es ++ es') c

variable {l l' sub sub' left right : Live} {es : List Event} {new : List Completion} {owner : Nat}
  {stack : List (Entry (Job BlackBox) Mark Response)}

/-- A tree that is only part of the way done can do what a tree further on can do. -/
theorem future_one {es : List Event} (hsub : ∀ es' c, Future sub' es' c → Future sub (es ++ es') c)
    {es' : List Event} (hfuture : Future (.one n job mark sub') es' c) :
    Future (.one n job mark sub) (es ++ es') c := by
  cases hfuture with
  | stops hfuture hstops => exact .stops (hsub _ _ hfuture) hstops
  | goesOn hfuture hgoes htraces =>
    rw [← List.append_assoc]
    exact .goesOn (hsub _ _ hfuture) hgoes htraces
  | stored hfuture =>
    rw [← List.append_assoc]
    exact .stored (hsub _ _ hfuture)
  | passes hpasses hfuture => exact .passes hpasses (hsub _ _ hfuture)

/-- A task below others does not touch those beside it. -/
theorem Moves.unchanged {beside : List Nat} {mark' : Mark} {parent' : Option Nat} {hs' : List Holding}
    (hsub : Moves codes h hs' parent' mark' ks w owner sub es new stack ks' w' sub')
    (hplaced : Placed ks parent mark l) (hnodup : l.ids.Nodup) (hids : l.ids.Perm (beside ++ sub.ids))
    {i : Nat} (hi : i ∈ beside) : ks'[i]? = ks[i]? := by
  have hdisjoint := (List.nodup_append.mp (hids.nodup_iff.mp hnodup)).2.2
  have hlt := hplaced.lt (hids.mem_iff.mpr (List.mem_append_left _ hi))
  exact hsub.within.frame i hlt fun hmem => hdisjoint i hi i hmem rfl

/-- A task below others waits again, so that the whole tree does. -/
theorem Moves.below {beside : List Nat} (others : List Completion) {mine : List Holding} {mark' : Mark}
    {parent' : Option Nat}
    (hsub : Moves codes h (mine ++ hs) parent' mark' ks w owner sub es new [] ks' w' sub')
    (hplaced : Placed ks parent mark l) (hnodup : l.ids.Nodup) (hroot : l'.root = l.root)
    (hproper : l'.Proper) (hplaced' : Placed ks' parent mark l')
    (hids : l.ids.Perm (beside ++ sub.ids)) (hids' : l'.ids.Perm (beside ++ sub'.ids))
    (hreports : l.reports.Perm (others ++ sub.reports))
    (hreports' : l'.reports.Perm (others ++ sub'.reports))
    (hholdings : l'.holdings.Perm (sub'.holdings ++ mine))
    (hfuture : ∀ es' c, Future l' es' c → Future l (es ++ es') c) :
    Moves codes h hs parent mark ks w owner l es new [] ks' w' l' := by
  have hold : ∀ i ∈ beside, i < ks.length := fun i hi =>
    hplaced.lt (hids.mem_iff.mpr (List.mem_append_left _ hi))
  obtain ⟨hbeside, _, hdisjoint⟩ := List.nodup_append.mp (hids.nodup_iff.mp hnodup)
  -- whatever is said of the tree is said of its part below, or of what is beside it and stays as it was
  refine ⟨hroot, Or.inl ⟨hproper, rfl⟩, hplaced', ?_, ?_, ?_, ?_, ?_, hsub.noted, hsub.reported,
    hsub.completions, hsub.launches, ?_, ?_, ?_, hfuture⟩
  · refine hids'.nodup_iff.mpr (List.nodup_append.mpr ⟨hbeside, hsub.nodup, fun a ha b hb => ?_⟩)
    rcases hsub.fresh b hb with hmem | hle
    · exact hdisjoint a ha b hmem
    · have := hold a ha
      omega
  · intro i hi
    rcases List.mem_append.mp (hids'.mem_iff.mp hi) with hi | hi
    · exact Or.inl (hids.mem_iff.mpr (List.mem_append_left _ hi))
    · exact (hsub.fresh i hi).imp_left fun hmem => hids.mem_iff.mpr (List.mem_append_right _ hmem)
  · exact hsub.within.mono fun i hi => hids.mem_iff.mpr (List.mem_append_right _ hi)
  · intro i hi
    rcases List.mem_append.mp (hids.mem_iff.mp hi) with hi | hi
    · exact Or.inl (hids'.mem_iff.mpr (List.mem_append_left _ hi))
    · exact (hsub.dead i hi).imp_left fun hmem => hids'.mem_iff.mpr (List.mem_append_right _ hmem)
  · refine hsub.tidy.perm ?_
    rw [← List.append_assoc]
    exact hholdings.symm.append_right hs
  · intro report hreport
    exact hreports'.mem_iff.mpr (List.mem_append_right _ (hsub.started report hreport))
  · intro report hreport
    rcases List.mem_append.mp (hreports'.mem_iff.mp hreport) with hreport | hreport
    · exact Or.inr (hreports.mem_iff.mpr (List.mem_append_left _ hreport))
    · exact (hsub.waits report hreport).imp_right fun hmem =>
        hreports.mem_iff.mpr (List.mem_append_right _ hmem)
  · intro report hreport
    rcases List.mem_append.mp (hreports.mem_iff.mp hreport) with hreport | hreport
    · exact Or.inl (hreports'.mem_iff.mpr (List.mem_append_left _ hreport))
    · exact (hsub.gone report hreport).imp_left fun hmem =>
        hreports'.mem_iff.mpr (List.mem_append_right _ hmem)

/-- The task below a node waits again. -/
theorem Moves.one {m : Mark} (hone : (Live.one n job m sub).Proper)
    (hplaced : Placed ks parent mark (.one n job m sub)) (hnodup : (Live.one n job m sub).ids.Nodup)
    (hsub : Moves codes h (held job ++ hs) (some (n + 1)) m ks w owner sub es new [] ks' w' sub')
    (hproper : sub'.Proper) :
    Moves codes h hs parent mark ks w owner (.one n job m sub) es new [] ks' w' (.one n job m sub') := by
  have hids : ∀ s : Live, (Live.one n job m s).ids.Perm ([n, n + 1] ++ s.ids) := fun s => .refl _
  have hsame := fun i hi => hsub.unchanged hplaced hnodup (hids sub) (i := i) hi
  have hnode : Node ks' n parent mark job [sub'.root] := by
    rw [hsub.root]
    exact hplaced.1.congr (hsame n (by simp)) (hsame (n + 1) (by simp))
  refine hsub.below [] hplaced hnodup rfl ⟨?_, hone.2.1, hproper⟩ ⟨hnode, hsub.placed⟩
    (hids sub) (hids sub') (.refl _) (.refl _) List.perm_append_comm fun es' c hfuture => ?_
  · rw [hsub.root]
    exact hone.1
  · exact future_one hsub.future hfuture

variable {hs' : List Holding} {m : Mark} {ks₁ : List Task} {w₁ w₂ : World}

/-- The runner has come to the point where the tree `sub`, below the controller `n + 1`, has a status. -/
structure Asks (codes : Nat → BlackBox → Int) (h : List Event) (hs : List Holding) (n : Nat) (m : Mark)
    (r : Machine) (owner : Nat) (sub : Live) (es : List Event) (new : List Completion) (c : Int)
    (ks₁ : List Task) (w₁ : World) : Prop where
  goes : Goes codes r { r with stack := [.finish (.status c) sub.root], controllers := ks₁, world := w₁ }
  moves : Moves codes h hs (some (n + 1)) m r.controllers r.world owner sub es new
    [.finish (.status c) sub.root] ks₁ w₁ (.asks sub.root c)

end ValueShell.Evaluation
