import Mathlib.Data.Nat.Find
import Mathlib.Logic.Relation
import ValueShell.Proofs.Task.Kinship

/-!
# Depth first

A step takes the top of the stack, and puts on the rest what tasks ask for meanwhile (`stack_step`). So what
is below an entry stays as it is until everything above it is processed (`exists_exposed`).

`stamped` is the stack together with the steps in which its entries were put there, which tells entries
apart that look the same. A step follows from another if its entry was put on the stack in that step, or in
one that follows from it (`Follows`). The steps that follow from a step are the ones up to the moment at
which the stack is again what was below its entry (`follows_iff`). Hence calls that are made together are
started in the reverse order, each after all that follows from the one before it (`depth_first`). Nothing is
assumed about what tasks do.
-/

set_option autoImplicit false

namespace ValueShell.Task

variable {τ σ ρ ω : Type}

namespace Told

/-- The controller that is told something. -/
def self : Told τ σ ρ → Nat
  | .start self _ _ _ => self
  | .resume self _ _ _ => self

/-- What it asks for in return. -/
def requests : Told τ σ ρ → List (Request τ σ ρ)
  | .start _ _ _ requests => requests
  | .resume _ _ _ requests => requests

/-- What it puts on the stack by this, the top first. -/
def entries (t : Told τ σ ρ) : List (Entry τ σ ρ) := (t.requests.filterMap (Request.now? t.self)).reverse

end Told

namespace Runner

variable {b : Behavior τ σ ρ ω}

/-! ## One step -/

theorem stack_disposeEach (cs : List Nat) (r : Runner τ σ ρ ω) : (disposeEach b cs r).1.stack = r.stack := by
  induction cs generalizing r with
  | nil => rfl
  | cons c rest ih =>
    rw [disposeEach]
    cases r.controllers[c]? with
    | none => exact ih r
    | some k =>
      dsimp only
      split
      · rfl
      · rw [ih]
        rfl

section Recorded

variable {r r' : Runner τ σ ρ (ω × List (Told τ σ ρ))}

/-- On the way from one runner to the other, tasks were told something, and what they have asked for in
return came on the stack. -/
structure Tells (told : List (Told τ σ ρ)) (r r' : Runner τ σ ρ (ω × List (Told τ σ ρ))) : Prop where
  record : r'.world.2 = r.world.2 ++ told
  stack : r'.stack = told.flatMap Told.entries ++ r.stack

theorem Tells.nothing (hrecord : r'.world.2 = r.world.2) (hstack : r'.stack = r.stack) : Tells [] r r' where
  record := by rw [hrecord, List.append_nil]
  stack := by rw [hstack, List.flatMap_nil, List.nil_append]

theorem Tells.quiet {told : List (Told τ σ ρ)} {r'' : Runner τ σ ρ (ω × List (Told τ σ ρ))}
    (h : Tells told r r') (h' : Tells [] r' r'') : Tells told r r'' where
  record := by rw [h'.record, List.append_nil, h.record]
  stack := by rw [h'.stack, List.flatMap_nil, List.nil_append, h.stack]

theorem tells_disposeEach (b : Behavior τ σ ρ ω) (cs : List Nat) (r : Runner τ σ ρ (ω × List (Told τ σ ρ))) :
    Tells [] r (disposeEach b.recorded cs r).1 :=
  .nothing (record_disposeEach cs r) (stack_disposeEach cs r)

theorem tells_handleFault (b : Behavior τ σ ρ ω) (fault : Fault)
    (r : Runner τ σ ρ (ω × List (Told τ σ ρ))) : Tells [] r (handleFault b.recorded fault r).1 := by
  unfold handleFault
  split
  · exact .nothing rfl rfl
  · rename_i root _
    have htells := tells_disposeEach b (r.subtree root) r
    split <;> rename_i heq <;> rw [heq] at htells <;> exact htells

/-- A task reacts: it is told one thing, and what it asks for comes on the stack. -/
theorem tells_absorb {self : Nat} {x : Reaction τ σ ρ (ω × List (Told τ σ ρ))} {t : Told τ σ ρ}
    (hself : t.self = self) (hrequests : t.requests = x.requests) (hrecord : x.world.2 = r.world.2 ++ [t])
    (hstack : r'.stack = r.stack) : Tells [t] r (absorb b.recorded self x r').1 := by
  have hentries : (x.requests.filterMap (Request.now? self)).reverse = [t].flatMap Told.entries := by
    rw [List.flatMap_singleton, Told.entries, hself, hrequests]
  unfold absorb
  dsimp only
  rw [foldl_take_eq, hentries]
  split
  · exact Tells.quiet ⟨hrecord, congrArg _ hstack⟩ (tells_handleFault b _ _)
  · exact ⟨hrecord, congrArg _ hstack⟩

/-- A call starts its task. -/
theorem exists_tells_start (b : Behavior τ σ ρ ω) (task : τ) (state : σ) (parent : Option Nat)
    (r : Runner τ σ ρ (ω × List (Told τ σ ρ))) :
    ∃ requests, Tells [.start r.controllers.length task state requests] r
      (start b.recorded task state parent r).1 := by
  cases parent with
  | none => exact ⟨_, tells_absorb (t := .start _ task state _) rfl rfl rfl rfl⟩
  | some p => exact ⟨_, tells_absorb (t := .start _ task state _) rfl rfl rfl rfl⟩

/-- Finishing a task resumes its caller or tells nobody anything. -/
theorem exists_tells_finish (b : Behavior τ σ ρ ω) (response : ρ) (c : Nat)
    (r : Runner τ σ ρ (ω × List (Told τ σ ρ))) : ∃ told, Tells told r (finish b.recorded response c r).1 := by
  have hdispose := tells_disposeEach b (r.subtree c) r
  unfold finish
  generalize disposeEach b.recorded (r.subtree c) r = disposed at hdispose ⊢
  obtain ⟨r', fault⟩ := disposed
  cases fault with
  | some fault => exact ⟨[], hdispose⟩
  | none =>
    dsimp only
    split
    · exact ⟨[], hdispose⟩
    · split
      · exact ⟨[], hdispose.record, hdispose.stack⟩
      · split
        · exact ⟨[], hdispose⟩
        · split
          · exact ⟨[], hdispose⟩
          · split
            · exact ⟨[], hdispose.record, hdispose.stack⟩
            · have hrecord : r'.world.2 = r.world.2 := hdispose.record.trans (List.append_nil _)
              exact ⟨_, tells_absorb (t := .resume _ _ response _) rfl rfl (congrArg (· ++ _) hrecord)
                hdispose.stack⟩

theorem exists_tells (b : Behavior τ σ ρ ω) (e : Entry τ σ ρ) (r : Runner τ σ ρ (ω × List (Told τ σ ρ))) :
    ∃ told, Tells told r (process b.recorded r e).1 := by
  cases e with
  | call task state parent =>
    obtain ⟨requests, htells⟩ := exists_tells_start b task state parent r
    exact ⟨_, htells⟩
  | finish response c => exact exists_tells_finish b response c r

end Recorded

variable {r : Runner τ σ ρ ω} {rest : List (Entry τ σ ρ)}

/-- What a step makes of the record and of the stack, when the step tells this to tasks. -/
theorem told_eq_of_tells {e : Entry τ σ ρ} {notices : List (Told τ σ ρ)} (hstack : r.stack = e :: rest)
    (htells : Tells notices { r.recording with stack := rest }
      (process b.recorded { r.recording with stack := rest } e).1) :
    told b r = notices ∧ (step b r).1.stack = notices.flatMap Told.entries ++ rest := by
  have hrecorded : step b.recorded r.recording = process b.recorded { r.recording with stack := rest } e := by
    rw [step, show r.recording.stack = e :: rest from hstack]
  have hstep : step b r = forgetting (step b.recorded r.recording) := (forget_step r.recording).symm
  rw [told, hstep, hrecorded]
  exact ⟨htells.record, htells.stack⟩

/-- A step takes the top off the stack, and puts on the rest what tasks ask for meanwhile. -/
theorem stack_step {e : Entry τ σ ρ} (hstack : r.stack = e :: rest) :
    (step b r).1.stack = (told b r).flatMap Told.entries ++ rest := by
  obtain ⟨notices, htells⟩ := exists_tells b e { r.recording with stack := rest }
  obtain ⟨htold, hafter⟩ := told_eq_of_tells hstack htells
  rw [htold]
  exact hafter

theorem told_of_call {task : τ} {state : σ} {parent : Option Nat}
    (hstack : r.stack = .call task state parent :: rest) :
    ∃ requests, told b r = [.start r.controllers.length task state requests] := by
  obtain ⟨requests, htells⟩ := exists_tells_start b task state parent { r.recording with stack := rest }
  exact ⟨requests, (told_eq_of_tells hstack htells).1⟩

theorem told_of_nil (hstack : r.stack = []) : told b r = [] := by
  have hrecording : r.recording.stack = [] := hstack
  rw [told, step, hrecording]
  rfl

/-! ## Many steps -/

/-- The runner after some steps. -/
def after (b : Behavior τ σ ρ ω) (r : Runner τ σ ρ ω) : Nat → Runner τ σ ρ ω
  | 0 => r
  | n + 1 => (step b (r.after b n)).1

theorem exists_after_of_drain {halted : ω → Bool} {r' : Runner τ σ ρ ω} {x : Runner τ σ ρ ω × Option Fault}
    (hx : drain b halted r' = some x) {n : Nat} (hr' : r' = r.after b n) : ∃ n, x.1 = r.after b n := by
  revert hr' n
  refine Runner.drain.partial_correctness b halted
    (fun r' x => ∀ {n}, r' = r.after b n → ∃ n, x.1 = r.after b n) ?_ r' x hx
  intro drain ih r' x hx n hr'
  split at hx
  · cases hx
    exact ⟨n, hr'⟩
  · have hstep : (step b r').1 = r.after b (n + 1) := by rw [after, hr']
    split at hx
    · rename_i heq
      cases hx
      rw [heq] at hstep
      exact ⟨n + 1, hstep⟩
    · rename_i heq
      rw [heq] at hstep
      exact ih _ _ hx hstep

/-- What the next step puts on the stack, the top first. -/
def pushes (b : Behavior τ σ ρ ω) (r : Runner τ σ ρ ω) : List (Entry τ σ ρ) := (told b r).flatMap Told.entries

/-- The stack after some steps. Each entry comes with the step in which it was put there, or with none if it
was there from the beginning. -/
def stamped (b : Behavior τ σ ρ ω) (r : Runner τ σ ρ ω) : Nat → List (Option Nat × Entry τ σ ρ)
  | 0 => r.stack.map fun e => (none, e)
  | n + 1 => ((r.after b n).pushes b).map (fun e => (some n, e)) ++ (r.stamped b n).tail

/-- The entries of the stamped stack are the stack. -/
theorem map_stamped (n : Nat) : (r.stamped b n).map Prod.snd = (r.after b n).stack := by
  induction n with
  | zero =>
    rw [stamped, List.map_map]
    exact List.map_id _
  | succ n ih =>
    have hpushes : ((r.after b n).pushes b).map (Prod.snd ∘ fun e : Entry τ σ ρ => (some n, e)) =
        (r.after b n).pushes b := List.map_id _
    rw [stamped, List.map_append, List.map_map, List.map_tail, ih, hpushes, after]
    cases hstack : (r.after b n).stack with
    | nil =>
      rw [pushes, told_of_nil hstack, step, hstack]
      exact hstack.symm
    | cons e rest => exact (stack_step hstack).symm

/-- What is on the stack was put there earlier. -/
theorem lt_of_mem_stamped {m n : Nat} {e : Entry τ σ ρ} (h : (some m, e) ∈ r.stamped b n) : m < n := by
  induction n with
  | zero =>
    obtain ⟨_, -, heq⟩ := List.mem_map.mp h
    cases heq
  | succ n ih =>
    rcases List.mem_append.mp h with h | h
    · obtain ⟨_, -, heq⟩ := List.mem_map.mp h
      cases heq
      exact Nat.lt_succ_self _
    · exact Nat.lt_succ_of_lt (ih (List.mem_of_mem_tail h))

/-! ## What is below -/

variable {above base : List (Option Nat × Entry τ σ ρ)} {a n : Nat}

/-- As long as something is above it, what is below stays as it is. -/
theorem exists_above (ha : r.stamped b a = above ++ base) (han : a ≤ n)
    (hcovered : ∀ i, a ≤ i → i < n → base.length < (r.stamped b i).length) :
    ∃ above', r.stamped b n = above' ++ base ∧
      ∀ x ∈ above', x ∈ above ∨ ∃ m, a ≤ m ∧ x.1 = some m := by
  induction n, han using Nat.le_induction with
  | base => exact ⟨above, ha, fun x hx => .inl hx⟩
  | succ n han ih =>
    obtain ⟨above', hn, hstamps⟩ := ih fun i hai hin => hcovered i hai (by omega)
    have hlength := hcovered n han (by omega)
    cases above' with
    | nil =>
      rw [hn] at hlength
      exact absurd hlength (Nat.lt_irrefl _)
    | cons x others =>
      refine ⟨((r.after b n).pushes b).map (fun e => (some n, e)) ++ others, ?_, ?_⟩
      · rw [stamped, hn, List.append_assoc]
        rfl
      · intro y hy
        rcases List.mem_append.mp hy with hy | hy
        · obtain ⟨e, -, rfl⟩ := List.mem_map.mp hy
          exact .inr ⟨n, han, rfl⟩
        · exact hstamps y (List.mem_cons_of_mem x hy)

/-- Before the stack gets as low as what is below, it is exactly that. -/
theorem exists_exposed (ha : r.stamped b a = above ++ base) (han : a ≤ n)
    (hlow : (r.stamped b n).length ≤ base.length) :
    ∃ s, a ≤ s ∧ s ≤ n ∧ r.stamped b s = base ∧
      ∀ i, a ≤ i → i < s → base.length < (r.stamped b i).length := by
  have hexists : ∃ s, a ≤ s ∧ (r.stamped b s).length ≤ base.length := ⟨n, han, hlow⟩
  obtain ⟨has, hs⟩ := Nat.find_spec hexists
  have hcovered : ∀ i, a ≤ i → i < Nat.find hexists → base.length < (r.stamped b i).length := by
    intro i hai hi
    have hnot := Nat.find_min hexists hi
    omega
  obtain ⟨above', hexposed, -⟩ := exists_above ha has hcovered
  have hnil : above' = [] := by
    rw [hexposed, List.length_append] at hs
    apply List.eq_nil_of_length_eq_zero
    omega
  refine ⟨Nat.find hexists, has, Nat.find_min' hexists ⟨han, hlow⟩, ?_, hcovered⟩
  rw [hexposed, hnil, List.nil_append]

/-! ## What follows from a step -/

/-- The entry of a step was put on the stack in an earlier step. -/
def Triggers (b : Behavior τ σ ρ ω) (r : Runner τ σ ρ ω) (m n : Nat) : Prop :=
  ∃ e, (r.stamped b n).head? = some (some m, e)

/-- A step is another step or was brought about by it, be it by way of further steps. -/
def Follows (b : Behavior τ σ ρ ω) (r : Runner τ σ ρ ω) : Nat → Nat → Prop :=
  Relation.ReflTransGen (Triggers b r)

/-- An entry that is on the stack has been there since the step in which it was put there. -/
theorem mem_stamped_of_le {m : Nat} {e : Entry τ σ ρ} (h : (some m, e) ∈ r.stamped b n) {i : Nat}
    (hmi : m < i) (hin : i ≤ n) : (some m, e) ∈ r.stamped b i := by
  induction n, hin using Nat.le_induction with
  | base => exact h
  | succ n hin ih =>
    apply ih
    rcases List.mem_append.mp h with h | h
    · obtain ⟨_, -, heq⟩ := List.mem_map.mp h
      cases heq
      omega
    · exact List.mem_of_mem_tail h

/-- As long as an entry is on the stack, so is what was below when it was put there. -/
theorem length_lt_of_mem {m : Nat} {e : Entry τ σ ρ} (h : (some m, e) ∈ r.stamped b n) {i : Nat} (hmi : m < i)
    (hin : i ≤ n) : (r.stamped b m).tail.length < (r.stamped b i).length := by
  refine Nat.lt_of_not_le fun hlow => ?_
  obtain ⟨s, hms, hsi, hexposed, -⟩ := exists_exposed (a := m + 1) rfl hmi hlow
  have hmem := mem_stamped_of_le h hms (by omega)
  rw [hexposed] at hmem
  have hlt := lt_of_mem_stamped (List.mem_of_mem_tail hmem)
  exact Nat.lt_irrefl m hlt

theorem Triggers.lt {m : Nat} (h : Triggers b r m n) : m < n := by
  obtain ⟨e, he⟩ := h
  exact lt_of_mem_stamped (List.mem_of_head? he)

variable {t : Nat} {x : Option Nat × Entry τ σ ρ}

/-- The steps that follow from a step are those until the stack is as low as what was below its entry. -/
theorem follows_iff (ht : r.stamped b t = x :: base) :
    Follows b r t n ↔ t ≤ n ∧ ∀ i, t < i → i ≤ n → base.length < (r.stamped b i).length := by
  constructor
  · intro h
    induction h with
    | refl => exact ⟨Nat.le_refl t, fun i hti hin => by omega⟩
    | @tail m n _ htriggers ih =>
      obtain ⟨htm, hcovered⟩ := ih
      have hmn := htriggers.lt
      obtain ⟨e, he⟩ := htriggers
      refine ⟨by omega, fun i hti hin => ?_⟩
      by_cases him : i ≤ m
      · exact hcovered i hti him
      · -- What was below the entry of step `m` is at least what was below the entry of step `t`.
        have hbelow : base.length ≤ (r.stamped b m).tail.length := by
          rw [List.length_tail]
          rcases Nat.eq_or_lt_of_le htm with rfl | htm
          · rw [ht, List.length_cons]
            omega
          · have hlength := hcovered m htm (Nat.le_refl m)
            omega
        have hlength := length_lt_of_mem (List.mem_of_head? he) (by omega : m < i) hin
        omega
  · rintro ⟨htn, hcovered⟩
    induction n using Nat.strong_induction_on with
    | _ n ih =>
      rcases Nat.eq_or_lt_of_le htn with rfl | htn
      · exact .refl
      · have hnext : r.stamped b (t + 1) = ((r.after b t).pushes b).map (fun e => (some t, e)) ++ base := by
          rw [stamped, ht]
          rfl
        obtain ⟨above, hn, hstamps⟩ := exists_above hnext htn fun i hti hin => hcovered i hti (by omega)
        have hlength := hcovered n htn (Nat.le_refl n)
        cases above with
        | nil =>
          rw [hn] at hlength
          exact absurd hlength (Nat.lt_irrefl _)
        | cons y above =>
          -- The entry of step `n` was put there in step `t` or later, so that step follows from `t`.
          have hm : ∃ m, t ≤ m ∧ y.1 = some m := by
            rcases hstamps y List.mem_cons_self with hy | ⟨m, htm, hy⟩
            · obtain ⟨e, -, rfl⟩ := List.mem_map.mp hy
              exact ⟨t, Nat.le_refl t, rfl⟩
            · exact ⟨m, by omega, hy⟩
          obtain ⟨m, htm, hy⟩ := hm
          have htriggers : Triggers b r m n := by
            refine ⟨y.2, ?_⟩
            rw [hn, ← hy]
            rfl
          have hmn := htriggers.lt
          exact .tail (ih m hmn htm fun i hti him => hcovered i hti (by omega)) htriggers

/-! ## Calls that are made together -/

/-- The stack when only the first few of the calls are left that a controller made in a step. -/
def pending (b : Behavior τ σ ρ ω) (r : Runner τ σ ρ ω) (m self : Nat) (calls : List (τ × σ)) (i : Nat) :
    List (Option Nat × Entry τ σ ρ) :=
  ((calls.take i).map fun c => (some m, Entry.call c.1 c.2 (some self))).reverse ++ (r.stamped b m).tail

/-- The stack is this for the first time after a step. -/
structure FirstAfter (b : Behavior τ σ ρ ω) (r : Runner τ σ ρ ω) (m : Nat)
    (stack : List (Option Nat × Entry τ σ ρ)) (n : Nat) : Prop where
  later : m < n
  now : r.stamped b n = stack
  first : ∀ j, m < j → j < n → r.stamped b j ≠ stack

variable {m self : Nat} {calls : List (τ × σ)} {i : Nat}

theorem pending_succ (b : Behavior τ σ ρ ω) (r : Runner τ σ ρ ω) (m self : Nat) (hi : i < calls.length) :
    r.pending b m self calls (i + 1) =
      (some m, .call calls[i].1 calls[i].2 (some self)) :: r.pending b m self calls i := by
  rw [pending, List.take_succ_eq_append_getElem hi, List.map_append, List.reverse_append]
  rfl

theorem exists_pending_eq (b : Behavior τ σ ρ ω) (r : Runner τ σ ρ ω) (m self : Nat) (calls : List (τ × σ))
    (i : Nat) : ∃ above, r.pending b m self calls calls.length = above ++ r.pending b m self calls i := by
  refine ⟨((calls.drop i).map fun c => (some m, Entry.call c.1 c.2 (some self))).reverse, ?_⟩
  rw [pending, pending, ← List.append_assoc, ← List.reverse_append, ← List.map_append, List.take_append_drop,
    List.take_length]

/-- After a step that makes calls and nothing else, these calls are on the stack, the last on top. -/
theorem stamped_of_calls {t : Told τ σ ρ} (htold : told b (r.after b m) = [t])
    (hcalls : t.requests = calls.map fun c => .call c.1 c.2) :
    r.stamped b (m + 1) = r.pending b m t.self calls calls.length := by
  have hentries : t.entries = (calls.map fun c => Entry.call c.1 c.2 (some t.self)).reverse := by
    rw [Told.entries, hcalls, List.filterMap_map]
    congr 1
    exact congrFun List.filterMap_eq_map calls
  rw [stamped, pushes, htold, List.flatMap_singleton, hentries, pending, List.take_length, List.map_reverse,
    List.map_map]
  rfl

/-- One of the calls: it was started before only the earlier ones were left, and what follows from its start
is everything up to then. -/
theorem exists_started {n : Nat} (hcalled : r.stamped b (m + 1) = r.pending b m self calls calls.length)
    (hi : i < calls.length) (hn : FirstAfter b r m (r.pending b m self calls i) n) :
    ∃ s, s < n ∧ FirstAfter b r m (r.pending b m self calls (i + 1)) s ∧
      (∃ requests, told b (r.after b s) =
        [.start (r.after b s).controllers.length calls[i].1 calls[i].2 requests]) ∧
      ∀ j, Follows b r s j ↔ s ≤ j ∧ j < n := by
  have hsucc := pending_succ b r m self hi
  obtain ⟨above, hsplit⟩ := exists_pending_eq b r m self calls (i + 1)
  have hlow : (r.stamped b n).length ≤ (r.pending b m self calls (i + 1)).length := by
    rw [hn.now, hsucc, List.length_cons]
    omega
  obtain ⟨s, hms, hsn, hs, hcovered⟩ := exists_exposed (hcalled.trans hsplit) hn.later hlow
  have hne : s ≠ n := by
    rintro rfl
    have hlength := congrArg List.length (hs.symm.trans hn.now)
    rw [hsucc, List.length_cons] at hlength
    omega
  have hfirst : FirstAfter b r m (r.pending b m self calls (i + 1)) s := by
    refine ⟨hms, hs, fun j hmj hjs heq => ?_⟩
    have hlength := hcovered j hmj hjs
    rw [heq] at hlength
    omega
  have hstack : (r.after b s).stack =
      .call calls[i].1 calls[i].2 (some self) :: (r.pending b m self calls i).map Prod.snd := by
    rw [← map_stamped, hs, hsucc, List.map_cons]
  refine ⟨s, by omega, hfirst, told_of_call hstack, fun j => ?_⟩
  rw [follows_iff (hs.trans hsucc)]
  constructor
  · rintro ⟨hsj, hcovered⟩
    refine ⟨hsj, Nat.lt_of_not_le fun hnj => ?_⟩
    have hlength := hcovered n (by omega) hnj
    rw [hn.now] at hlength
    omega
  · rintro ⟨hsj, hjn⟩
    refine ⟨hsj, fun k hsk hkj => Nat.lt_of_not_le fun hlow => ?_⟩
    have hnext : r.stamped b (s + 1) = ((r.after b s).pushes b).map (fun e => (some s, e)) ++
        r.pending b m self calls i := by
      rw [stamped, hs, hsucc]
      rfl
    obtain ⟨l, hsl, hlk, hl, -⟩ := exists_exposed hnext hsk hlow
    exact hn.first l (by omega) (by omega) hl

/-- The runner works depth first. From the step that takes an entry off the stack until the stack is exactly
what was below it, nothing of that is taken off, changed or reordered. If a start or a resumption makes calls
and nothing else, these are started in the reverse order, and what follows from the start of one is
everything that is done until only the calls made before it are left, so until the one before it is started.
Runs go along these steps. -/
theorem depth_first (b : Behavior τ σ ρ ω) (r : Runner τ σ ρ ω) {e : Entry τ σ ρ}
    (hstack : (r.after b m).stack = e :: rest) :
    (∀ n, (r.stamped b n).map Prod.snd = (r.after b n).stack) ∧
    (∀ n, m < n → (∀ i, m < i → i < n → (r.after b i).stack ≠ rest) →
      ∃ above, r.stamped b n = above ++ (r.stamped b m).tail ∧
        (above = [] ↔ (r.after b n).stack = rest)) ∧
    (∀ (t : Told τ σ ρ) (calls : List (τ × σ)), told b (r.after b m) = [t] →
      t.requests = calls.map (fun c => .call c.1 c.2) →
      FirstAfter b r m (r.pending b m t.self calls calls.length) (m + 1) ∧
      ∀ (i : Nat) (hi : i < calls.length) (n : Nat), FirstAfter b r m (r.pending b m t.self calls i) n →
        ∃ s, s < n ∧ FirstAfter b r m (r.pending b m t.self calls (i + 1)) s ∧
          (∃ requests, told b (r.after b s) =
            [.start (r.after b s).controllers.length calls[i].1 calls[i].2 requests]) ∧
          ∀ j, Follows b r s j ↔ s ≤ j ∧ j < n) ∧
    ∀ x, run b r = some x → ∃ n, x.1 = r.resumeLater.after b n := by
  have hbelow : ((r.stamped b m).tail).map Prod.snd = rest := by
    rw [List.map_tail, map_stamped, hstack, List.tail_cons]
  refine ⟨map_stamped, fun n hmn hbefore => ?_, fun t calls htold hcalls => ?_, fun x hx => ?_⟩
  · have hcovered : ∀ i, m + 1 ≤ i → i < n → (r.stamped b m).tail.length < (r.stamped b i).length := by
      intro i hmi hin
      refine Nat.lt_of_not_le fun hlow => ?_
      obtain ⟨s, hms, hsi, hs, -⟩ := exists_exposed (a := m + 1) rfl hmi hlow
      apply hbefore s (by omega) (by omega)
      rw [← map_stamped, hs, hbelow]
    obtain ⟨above, hn, -⟩ := exists_above (a := m + 1) rfl hmn hcovered
    refine ⟨above, hn, ?_⟩
    rw [← map_stamped, hn, List.map_append, hbelow]
    simp
  · have hcalled := stamped_of_calls htold hcalls
    exact ⟨⟨Nat.lt_succ_self m, hcalled, fun j hmj hjm => by omega⟩,
      fun i hi n hn => exists_started hcalled hi hn⟩
  · exact exists_after_of_drain hx (n := 0) rfl

deriving instance DecidableEq for Entry

/-- Task `0` calls tasks `1` and `2`, and when it hears of `2`, it calls task `3`. All others finish at
once. -/
def errands : Behavior Nat Nat Nat Unit where
  start := fun _ _ task w =>
    { task, world := w, requests := if task = 0 then [.call 1 1, .call 2 2] else [.finish task] }
  resume := fun _ task state _ w => { task, world := w, requests := if state = 2 then [.call 3 3] else [] }
  dispose := fun task w => { task, world := w }

/-- What follows from the start of task `2` includes the whole of task `3`, and then task `1` is started. -/
theorem depth_first_errands :
    let r : Runner Nat Nat Nat Unit := ofTask 0 0 ()
    let calls := [(1, 1), (2, 2)]
    FirstAfter errands r 0 (r.pending errands 0 0 calls 1) 5 ∧
      ∃ s, s < 5 ∧ FirstAfter errands r 0 (r.pending errands 0 0 calls 2) s ∧
        (∃ requests, told errands (r.after errands s) =
          [.start (r.after errands s).controllers.length 2 2 requests]) ∧
        ∀ j, Follows errands r s j ↔ s ≤ j ∧ j < 5 := by
  intro r calls
  have hfirst : FirstAfter errands r 0 (r.pending errands 0 0 calls 1) 5 := by
    refine ⟨by omega, by decide +kernel, fun j hj hj5 => ?_⟩
    rcases (by omega : j = 1 ∨ j = 2 ∨ j = 3 ∨ j = 4) with rfl | rfl | rfl | rfl <;> decide +kernel
  have hstack : (r.after errands 0).stack = [.call 0 0 none] := rfl
  obtain ⟨-, -, hcalls, -⟩ := depth_first errands r hstack
  obtain ⟨-, hstarted⟩ := hcalls (.start 0 0 0 [.call 1 1, .call 2 2]) calls rfl rfl
  exact ⟨hfirst, hstarted 1 (by decide) 5 hfirst⟩

end Runner

end ValueShell.Task
