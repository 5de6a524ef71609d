import ValueShell.Proofs.Evaluation.Closing

/-!
# Each end of a pipe is closed once

Closing an end of a pipe twice would fail, or close what somebody else has opened in the meantime, and an end
that stays open keeps its reader waiting. A task that makes pipes may be resumed for some of the tasks that it
has called, in any order, and it may be disposed at any time and more than once. At any time the ends that it
has closed and the ends that it owes are together the ends that it has made, each of them once (`Balanced`).
So it is after the start (`balanced_start`) and after each prompt (`Balanced.prompt`), and once the task is
disposed nothing is owed (`Life.balanced`).
-/

set_option autoImplicit false

namespace ValueShell.Evaluation

open ValueShell.Task

/-! ## What is closed and what is owed -/

/-- The ends that a task has tried to close and those that it owes are together the ends that were made, and
only those that it owes are open. -/
structure Balanced (made : Descriptor → Prop) (calls : List Descriptor) (job : Job LeafTask) (w : World) :
    Prop where
  hasPipes : job.HasPipes
  nodup : (calls ++ closes job.remaining).Nodup
  mem_iff : ∀ d, d ∈ calls ++ closes job.remaining ↔ made d
  isOpen : ∀ d, made d → (w.isOpen d = true ↔ d ∈ closes job.remaining)

namespace Balanced

variable {made : Descriptor → Prop} {calls rest : List Descriptor} {job : Job LeafTask} {w w' : World}
  {steps : List Closing}

/-- Before a task has closed anything, it owes all the ends that were made. -/
theorem ofStart (hjob : job.HasPipes) (hnodup : (closes job.remaining).Nodup)
    (hmem : ∀ d, d ∈ closes job.remaining ↔ made d) (hopen : ∀ d ∈ closes job.remaining, w.isOpen d = true) :
    Balanced made [] job w where
  hasPipes := hjob
  nodup := hnodup
  mem_iff := hmem
  isOpen d hd := by
    have howed := (hmem d).mpr hd
    exact iff_of_true (hopen d howed) howed

theorem meanwhile (h : Balanced made calls job w) (hsame : ∀ d, made d → w'.isOpen d = w.isOpen d) :
    Balanced made calls job w' where
  hasPipes := h.hasPipes
  nodup := h.nodup
  mem_iff := h.mem_iff
  isOpen d hd := by
    rw [hsame d hd]
    exact h.isOpen d hd

/-- Exactly the ends that were not closed are open. -/
theorem isOpen_iff (h : Balanced made calls job w) {d : Descriptor} (hd : made d) :
    w.isOpen d = true ↔ d ∉ calls := by
  have hmem := List.mem_append.mp ((h.mem_iff d).mpr hd)
  have hdisjoint := List.disjoint_of_nodup_append h.nodup
  rw [h.isOpen d hd]
  constructor
  · intro howed hcalled
    exact hdisjoint hcalled howed
  · intro hcalled
    exact hmem.resolve_left hcalled

/-- Steps that a task owes can be taken. -/
theorem takes (h : Balanced made calls job w) (hleft : (closes steps ++ rest).Perm (closes job.remaining)) :
    w.Takes steps := by
  have hnodup := hleft.nodup_iff.mpr h.nodup.of_append_right
  refine World.takes hnodup.of_append_left fun d hd => ?_
  have howed := hleft.mem_iff.mp (List.mem_append_left rest hd)
  have hmade := (h.mem_iff d).mp (List.mem_append_right calls howed)
  exact (h.isOpen d hmade).mpr howed

/-- No end that was closed is tried to be closed again, even if a worker is waited for in vain. -/
theorem nodup_tried (h : Balanced made calls job w)
    (hleft : (closes steps ++ rest).Perm (closes job.remaining)) : (calls ++ w.tried steps).Nodup := by
  have hnodup : (calls ++ (closes steps ++ rest)).Nodup := (hleft.append_left calls).nodup_iff.mpr h.nodup
  refine hnodup.sublist (List.Sublist.append_left ?_ calls)
  exact (w.tried_isPrefix steps).sublist.trans (List.sublist_append_left _ _)

/-- Steps that are taken are no longer owed. -/
theorem take {job' : Job LeafTask} (h : Balanced made calls job w) (hjob' : job'.HasPipes)
    (hleft : (closes steps ++ closes job'.remaining).Perm (closes job.remaining))
    (htaken : w.takeAll steps = .ok w') : Balanced made (calls ++ w.tried steps) job' w' := by
  cases h.takes hleft with
  | stuck taken => cases taken.symm.trans htaken
  | all taken isOpen =>
    cases taken.symm.trans htaken
    have hperm : (calls ++ closes steps ++ closes job'.remaining).Perm (calls ++ closes job.remaining) := by
      rw [List.append_assoc]
      exact hleft.append_left calls
    rw [World.tried_of_takeAll taken]
    refine ⟨hjob', hperm.nodup_iff.mpr h.nodup, fun d => hperm.mem_iff.trans (h.mem_iff d), fun d hd => ?_⟩
    have hdisjoint := List.disjoint_of_nodup_append (hleft.nodup_iff.mpr h.nodup.of_append_right)
    rw [isOpen, h.isOpen d hd, ← hleft.mem_iff, List.mem_append]
    constructor
    · rintro ⟨hmem | hmem, hnot⟩
      · exact absurd hmem hnot
      · exact hmem
    · intro hmem
      exact ⟨.inr hmem, fun hsteps => hdisjoint hsteps hmem⟩

end Balanced

/-! ## The start -/

/-- The descriptor is an end of a pipe that was made between two worlds. -/
def World.Made (w w' : World) (d : Descriptor) : Prop :=
  ∃ n, w.textPipes.length ≤ n ∧ n < w'.textPipes.length ∧ (d = .readEnd n ∨ d = .writeEnd n)

namespace WordTask

/-- The pipes of the commands in a word are those from a number on. -/
def Fills (t : WordTask) (first : Nat) (w : World) : Prop :=
  ∀ n, (∃ (i : Nat) (b : Backquote), t.running[i]? = some (some b) ∧ b.pipe = n) ↔
    first ≤ n ∧ n < w.textPipes.length

variable {t : WordTask} {w : World} {first i : Nat}

theorem Fills.withBackquote (h : t.Fills first w) (hfirst : first ≤ w.textPipes.length)
    (hfree : t.running[i]? = some none) :
    (t.withRunning i (nextBackquote w)).Fills first (WordTask.withBackquote w) := by
  intro n
  have hlength : (WordTask.withBackquote w).textPipes.length = w.textPipes.length + 1 := List.length_append
  rw [hlength]
  constructor
  · rintro ⟨j, b, hb, rfl⟩
    obtain ⟨-, rfl⟩ | ⟨-, hb⟩ := running_withRunning hb
    · exact ⟨hfirst, Nat.lt_succ_self _⟩
    · obtain ⟨hle, hlt⟩ := (h b.pipe).mp ⟨j, b, hb, rfl⟩
      exact ⟨hle, Nat.lt_succ_of_lt hlt⟩
  · rintro ⟨hle, hlt⟩
    rcases Nat.lt_succ_iff_lt_or_eq.mp hlt with hlt | rfl
    · obtain ⟨j, b, hb, hn⟩ := (h n).mpr ⟨hle, hlt⟩
      have hne : i ≠ j := by
        rintro rfl
        cases hfree.symm.trans hb
      exact ⟨j, b, (List.getElem?_set_ne hne).trans hb, hn⟩
    · exact ⟨i, nextBackquote w, List.getElem?_set_self (List.getElem?_eq_some_iff.mp hfree).1, rfl⟩

theorem fills_startPieces (pieces : List PlanPiece) (h : t.Fills first w)
    (hfirst : first ≤ w.textPipes.length) (hlength : i + pieces.length = t.running.length)
    (hfree : ∀ j, i ≤ j → j < t.running.length → t.running[j]? = some none) :
    (t.startPieces w i pieces).1.Fills first (t.startPieces w i pieces).2.1 := by
  induction pieces generalizing t w i with
  | nil => exact h
  | cons piece rest ih =>
    rw [List.length_cons] at hlength
    cases piece with
    | token token => exact ih h hfirst (by omega) fun j hj => hfree j (by omega)
    | backquote plan =>
      have hset : (t.withRunning i (nextBackquote w)).running.length = t.running.length := List.length_set
      have hpipes : (withBackquote w).textPipes.length = w.textPipes.length + 1 := List.length_append
      rw [startPieces_backquote]
      refine ih (h.withBackquote hfirst (hfree i (Nat.le_refl i) (by omega))) (by omega) (by omega) ?_
      intro j hj hlt
      rw [hset] at hlt
      exact (List.getElem?_set_ne (by omega)).trans (hfree j (by omega) hlt)

theorem mem_closes_closingsAt {d : Descriptor} : d ∈ closes (t.closingsAt i) ↔
    ∃ b, t.running[i]? = some (some b) ∧ (d = .readEnd b.pipe ∨ d = .writeEnd b.pipe) := by
  cases hrunning : (t.running[i]?).join with
  | none =>
    rw [closingsAt_of_none hrunning]
    constructor
    · intro hd
      cases hd
    · rintro ⟨b, hb, -⟩
      rw [hb] at hrunning
      cases hrunning
  | some b =>
    rw [closingsAt_of_some hrunning, Option.join_eq_some_iff.mp hrunning]
    simp [Backquote.closings, or_comm]

theorem mem_closes_remaining {d : Descriptor} : d ∈ closes (Job.remaining (.leaf (.word t))) ↔
    ∃ (i : Nat) (b : Backquote), t.running[i]? = some (some b) ∧
      (d = .readEnd b.pipe ∨ d = .writeEnd b.pipe) := by
  rw [closes, Job.remaining, List.filterMap_flatMap, List.mem_flatMap]
  constructor
  · rintro ⟨i, -, hd⟩
    exact ⟨i, mem_closes_closingsAt.mp hd⟩
  · rintro ⟨i, b, hb, hd⟩
    have hi := (List.getElem?_eq_some_iff.mp hb).1
    exact ⟨i, List.mem_range.mpr hi, mem_closes_closingsAt.mpr ⟨b, hb, hd⟩⟩

/-- Commands with pipes of their own are never in each other's way. -/
theorem Opened.nodup_closes (h : t.Opened w) : (closes (Job.remaining (.leaf (.word t)))).Nodup := by
  rw [closes, Job.remaining, List.filterMap_flatMap, List.nodup_flatMap]
  constructor
  · intro i _
    cases hrunning : (t.running[i]?).join with
    | none =>
      rw [closingsAt_of_none hrunning]
      exact List.nodup_nil
    | some b =>
      rw [closingsAt_of_some hrunning]
      show ([.writeEnd b.pipe, .readEnd b.pipe] : List Descriptor).Nodup
      simp
  · refine List.nodup_range.imp fun {i j} hne => ?_
    intro d hi hj
    obtain ⟨b, hb, hdb⟩ := mem_closes_closingsAt.mp hi
    obtain ⟨c, hc, hdc⟩ := mem_closes_closingsAt.mp hj
    have hapart := (h.apart hb hc hne).1
    grind

theorem Opened.isOpen {d : Descriptor} (h : t.Opened w)
    (hd : d ∈ closes (Job.remaining (.leaf (.word t)))) : w.isOpen d = true := by
  obtain ⟨i, b, hb, rfl | rfl⟩ := mem_closes_remaining.mp hd
  all_goals
    rw [World.isOpen, h.pipe hb]
    rfl

theorem balanced_start (streams : Streams Channel) (pieces : List PlanPiece) (w : World) :
    Balanced (w.Made ((ofPieces streams pieces).start w).world) [] ((ofPieces streams pieces).start w).task
      ((ofPieces streams pieces).start w).world := by
  have hnone (i : Nat) (hi : i < (ofPieces streams pieces).running.length) :
      (ofPieces streams pieces).running[i]? = some none := by
    simp_all [ofPieces]
  have hopened : ((ofPieces streams pieces).startPieces w 0 pieces).1.Opened _ := (begun_start rfl).opened
  have hfills : (ofPieces streams pieces).Fills w.textPipes.length w := by
    intro n
    constructor
    · rintro ⟨i, b, hb, -⟩
      cases (hnone i (List.getElem?_eq_some_iff.mp hb).1).symm.trans hb
    · rintro ⟨hle, hlt⟩
      exact absurd hlt (Nat.not_lt_of_le hle)
  have hlength : 0 + pieces.length = (ofPieces streams pieces).running.length := by
    simp [ofPieces]
  have hstarted := fills_startPieces pieces hfills (Nat.le_refl _) hlength fun j _ => hnone j
  have hmem (d : Descriptor) :
      d ∈ closes (Job.remaining ((ofPieces streams pieces).start w).task) ↔
        w.Made ((ofPieces streams pieces).start w).world d := by
    refine mem_closes_remaining.trans ?_
    constructor
    · rintro ⟨i, b, hb, hd⟩
      obtain ⟨hle, hlt⟩ := (hstarted b.pipe).mp ⟨i, b, hb, rfl⟩
      exact ⟨b.pipe, hle, hlt, hd⟩
    · rintro ⟨n, hle, hlt, hd⟩
      obtain ⟨i, b, hb, rfl⟩ := (hstarted n).mpr ⟨hle, hlt⟩
      exact ⟨i, b, hb, hd⟩
  exact .ofStart (.word _) hopened.nodup_closes hmem fun d => hopened.isOpen

end WordTask

theorem Job.balanced_start (self : Nat) (streams : Streams Channel) (left right : Plan) (w : World) :
    let x := Job.start LeafTask.leaf self (.joinText streams left right none none) w
    Balanced (w.Made x.world) [] x.task x.world := by
  intro x
  have hcloses : closes x.task.remaining = [.writeEnd w.textPipes.length, .readEnd w.textPipes.length] := rfl
  have hlength : x.world.textPipes.length = w.textPipes.length + 1 := List.length_append
  have hpipe : x.world.textPipes[w.textPipes.length]? = some {} := List.getElem?_concat_length
  have hmem (d : Descriptor) : d ∈ closes x.task.remaining ↔ w.Made x.world d := by
    rw [hcloses, World.Made, hlength]
    constructor
    · intro hd
      refine ⟨w.textPipes.length, Nat.le_refl _, Nat.lt_succ_self _, ?_⟩
      simpa [or_comm] using hd
    · rintro ⟨n, hle, hlt, hd⟩
      cases Nat.le_antisymm hle (Nat.le_of_lt_succ hlt)
      simpa [or_comm] using hd
  refine .ofStart (.joinText ..) ?_ hmem ?_
  · rw [hcloses]
    simp
  · intro d hd
    rw [hcloses, List.mem_pair] at hd
    obtain rfl | rfl := hd
    all_goals
      rw [World.isOpen, hpipe]
      rfl

/-- A task that makes pipes when it is started: two plans that are joined by a pipe of text, or a word. -/
inductive Job.MakesPipes : Job LeafTask → Prop
  | joinText (streams : Streams Channel) (left right : Plan) :
      MakesPipes (.joinText streams left right none none)
  | word (streams : Streams Channel) (pieces : List PlanPiece) :
      MakesPipes (.leaf (.word (.ofPieces streams pieces)))

theorem balanced_start {job : Job LeafTask} (h : job.MakesPipes) (self : Nat) (w : World) :
    Balanced (w.Made (job.start LeafTask.leaf self w).world) [] (job.start LeafTask.leaf self w).task
      (job.start LeafTask.leaf self w).world := by
  cases h with
  | word streams pieces => exact WordTask.balanced_start streams pieces w
  | joinText streams left right => exact Job.balanced_start self streams left right w

/-! ## The life of a task -/

/-- What can become of a task that was started in a world: what it was prompted to do, the last first, the
descriptors that it has tried to close, the task as it is and the world. Anything may happen to the world in
the meantime, but nobody else closes what the task has opened. A task that waits for ever is not prompted
again. -/
inductive Life (self : Nat) (job₀ : Job LeafTask) (w₀ : World) :
    List Prompt → List Descriptor → Job LeafTask → World → Prop
  | start : Life self job₀ w₀ [] [] (job₀.start LeafTask.leaf self w₀).task
      (job₀.start LeafTask.leaf self w₀).world
  | meanwhile {prompts : List Prompt} {calls : List Descriptor} {job : Job LeafTask} {w w' : World} :
      Life self job₀ w₀ prompts calls job w →
      (∀ d, w₀.Made (job₀.start LeafTask.leaf self w₀).world d → w'.isOpen d = w.isOpen d) →
      Life self job₀ w₀ prompts calls job w'
  | prompt {prompts : List Prompt} {calls : List Descriptor} {job : Job LeafTask} {w : World} {p : Prompt} :
      Life self job₀ w₀ prompts calls job w →
      p.Allowed (job₀.start LeafTask.leaf self w₀).requests prompts →
      w.takeAll (p.closings job) ≠ .error .stuck →
      Life self job₀ w₀ (p :: prompts) (calls ++ w.tried (p.closings job)) (p.outcome self job w).task
        (p.outcome self job w).world

variable {self : Nat} {job₀ job : Job LeafTask} {w₀ w : World} {prompts : List Prompt}
  {calls : List Descriptor}

/-- Whatever a task is prompted to do, its steps are taken, unless it waits for ever. -/
theorem Balanced.answers {made : Descriptor → Prop} (h : Balanced made calls job w) (self : Nat)
    (p : Prompt) :
    (calls ++ w.tried (p.closings job)).Nodup ∧
      (w.takeAll (p.closings job) = .ok (p.outcome self job w).world ∨
        w.takeAll (p.closings job) = .error .stuck ∧ (p.outcome self job w).fault = some .stuck) := by
  cases performs h.hasPipes self w p with
  | done taken _ left => exact ⟨h.nodup_tried left, .inl taken⟩
  | failed taken raised left =>
    refine ⟨h.nodup_tried left, .inr ?_⟩
    cases h.takes left with
    | all taken' _ => cases taken.symm.trans taken'
    | stuck taken' =>
      cases taken.symm.trans taken'
      exact ⟨taken, raised⟩

/-- One prompt: its steps are taken, and the task owes the rest. -/
theorem Balanced.prompt {made : Descriptor → Prop} (h : Balanced made calls job w) {p : Prompt}
    (hends : w.takeAll (p.closings job) ≠ .error .stuck) (self : Nat) :
    let x := p.outcome self job w
    Balanced made (calls ++ w.tried (p.closings job)) x.task x.world ∧
      (closes (p.closings job) ++ closes x.task.remaining).Perm (closes job.remaining) := by
  cases performs h.hasPipes self w p with
  | done taken hasPipes left => exact ⟨h.take hasPipes left taken, left⟩
  | failed taken _ _ =>
    obtain hok | ⟨hstuck, -⟩ := (h.answers self p).2
    · cases taken.symm.trans hok
    · exact absurd hstuck hends

theorem Life.balanced (h : Life self job₀ w₀ prompts calls job w) (hjob₀ : job₀.MakesPipes) :
    Balanced (w₀.Made (job₀.start LeafTask.leaf self w₀).world) calls job w ∧
      (.dispose ∈ prompts → closes job.remaining = []) := by
  induction h with
  | start =>
    refine ⟨balanced_start hjob₀ self w₀, ?_⟩
    intro h
    cases h
  | meanwhile _ hsame ih => exact ⟨ih.1.meanwhile hsame, ih.2⟩
  | @prompt prompts calls job w p _ _ hends ih =>
    obtain ⟨hbalanced, hdisposed⟩ := ih
    obtain ⟨htaken, hleft⟩ := hbalanced.prompt hends self
    refine ⟨htaken, fun hmem => ?_⟩
    have hlength := hleft.length_eq
    rw [List.length_append] at hlength
    apply List.eq_nil_of_length_eq_zero
    rcases List.mem_cons.mp hmem with rfl | hmem
    · have hall : (closes (Prompt.closings job .dispose)).length = (closes job.remaining).length := rfl
      omega
    · rw [hdisposed hmem, List.length_nil] at hlength
      omega

/-- Each end of a pipe is closed once. Take two plans that are joined by a pipe of text, or a word with any
number of commands, and let it be resumed for any of the tasks that it has called, in any order, and disposed
any number of times. It tries to close no descriptor but the ends of the pipes that it has made, none of them
twice, and each of them as soon as it was disposed once; until then exactly those are open that it has not
closed. Whatever it is prompted to do next, it takes the steps that are accounted for here and closes no end a
second time, and it fails in them only where it waits for a worker for ever. -/
theorem ends_closed_once (hjob₀ : job₀.MakesPipes) (h : Life self job₀ w₀ prompts calls job w) :
    (∀ d ∈ calls, w₀.Made (job₀.start LeafTask.leaf self w₀).world d) ∧
      (∀ d, w₀.Made (job₀.start LeafTask.leaf self w₀).world d →
        calls.count d ≤ 1 ∧ (.dispose ∈ prompts → calls.count d = 1) ∧ (w.isOpen d = true ↔ d ∉ calls)) ∧
      ∀ p : Prompt, (∀ d, (calls ++ w.tried (p.closings job)).count d ≤ 1) ∧
        (w.takeAll (p.closings job) = .ok (p.outcome self job w).world ∨
          w.takeAll (p.closings job) = .error .stuck ∧ (p.outcome self job w).fault = some .stuck) := by
  obtain ⟨hbalanced, hdisposed⟩ := h.balanced hjob₀
  have hnodup := hbalanced.nodup.of_append_left
  refine ⟨fun d hd => (hbalanced.mem_iff d).mp (List.mem_append_left _ hd), fun d hd => ⟨?_, ?_, ?_⟩, ?_⟩
  · exact List.nodup_iff_count_le_one.mp hnodup d
  · intro hmem
    have hcalled := (hbalanced.mem_iff d).mpr hd
    rw [hdisposed hmem, List.append_nil] at hcalled
    exact List.count_eq_one_of_mem hnodup hcalled
  · exact hbalanced.isOpen_iff hd
  · intro p
    obtain ⟨htried, htaken⟩ := hbalanced.answers self p
    exact ⟨List.nodup_iff_count_le_one.mp htried, htaken⟩

/-- Two plans that are joined are resumed once the left one has ended, and then disposed twice. -/
theorem ends_closed_once_joined :
    ∃ job calls job' w, Job.MakesPipes job ∧
      Life 0 job {} [.dispose, .dispose, .resume .left (.status 0)] calls job' w ∧
      calls.count (.readEnd 0) = 1 ∧ calls.count (.writeEnd 0) = 1 := by
  let plan : Plan := .process none [] []
  have hmakes : Job.MakesPipes (.joinText {} plan plan none none) := .joinText ..
  have hstarted : Life 0 (.joinText {} plan plan none none) {} [] [] _ _ := .start
  have hresumed := hstarted.prompt (p := .resume .left (.status 0))
    ⟨⟨_, .head _⟩, List.not_mem_nil, fun _ => List.not_mem_nil⟩ nofun
  have hdisposed := (hresumed.prompt (p := .dispose) trivial nofun).prompt (p := .dispose) trivial nofun
  have hcounts := (ends_closed_once hmakes hdisposed).2.1
  refine ⟨_, _, _, _, hmakes, hdisposed, ?_, ?_⟩
  · exact (hcounts _ ⟨0, Nat.le_refl 0, Nat.zero_lt_one, .inl rfl⟩).2.1 List.mem_cons_self
  · exact (hcounts _ ⟨0, Nat.le_refl 0, Nat.zero_lt_one, .inr rfl⟩).2.1 List.mem_cons_self

end ValueShell.Evaluation
