import Mathlib.Data.List.Perm.Basic
import ValueShell.Proofs.Task.Kinship
import ValueShell.Task.Scripted

/-!
# Where results go

For tasks that never fail, a history accounts for everything that a runner does with calls and with
responses. The calls that tasks have asked for are those that were started and those that still wait,
each as often as it was asked for. The children of a controller are the tasks that it called and that
are not finished. A task that is finished for the first time resumes its caller, once, with the state of
the call and with the response, unless the caller is disposed, which it is then for good. A task that is
finished again resumes nobody: the runner fails.

`Accounted` is the invariant that relates a runner to its history. Every outcome of a step keeps it
(`Accounted.of_outcome`), so it holds after any number of runs.
-/

set_option autoImplicit false

namespace ValueShell.Task

variable {τ σ ρ ω : Type} {x : Kin σ} {response : ρ} {p : Nat} {task : τ} {state : σ} {parent : Option Nat}

/-- A call: the task, the state that comes back with its response, and who called. -/
structure Call (τ σ : Type) where
  task : τ
  state : σ
  caller : Option Nat

/-- The call of an entry that waits for its start. -/
def Entry.call? : Entry τ σ ρ → Option (Call τ σ)
  | .call task state caller => some ⟨task, state, caller⟩
  | .finish _ _ => none

/-- The controller that an entry is about. -/
def Entry.owner : Entry τ σ ρ → Option Nat
  | .call _ _ caller => caller
  | .finish _ c => some c

/-- The call that a request asks for, now or later. -/
def Request.call? (self : Nat) : Request τ σ ρ → Option (Call τ σ)
  | .call task state => some ⟨task, state, some self⟩
  | .callLater task state => some ⟨task, state, some self⟩
  | .finish _ => none

/-- The calls that a task asks for when it is told something. -/
def Told.calls : Told τ σ ρ → List (Call τ σ)
  | .start self _ _ requests => requests.filterMap (Request.call? self)
  | .resume self _ _ requests => requests.filterMap (Request.call? self)

/-! ## What a history says -/

/-- All calls that were asked for: the first one, and those of the tasks. -/
def asked (first : Call τ σ) (history : List (Processed τ σ ρ)) : List (Call τ σ) :=
  first :: history.flatMap fun x => x.told.flatMap Told.calls

/-- The calls that were started, in the order of their start. A controller has the number of its call. -/
def started (history : List (Processed τ σ ρ)) : List (Call τ σ) := history.filterMap fun x => x.entry.call?

/-- The controller was created by a call of another one. -/
def CalledBy (history : List (Processed τ σ ρ)) (p c : Nat) : Prop :=
  ∃ call, (started history)[c]? = some call ∧ call.caller = some p

/-- The controller was finished. -/
def Finished (history : List (Processed τ σ ρ)) (c : Nat) : Prop :=
  ∃ x ∈ history, ∃ response, x.entry = .finish response c

/-- The calls that wait for their start. -/
def Runner.waiting (r : Runner τ σ ρ ω) : List (Call τ σ) := (r.stack ++ r.later).filterMap Entry.call?

section History

variable {history : List (Processed τ σ ρ)} {e : Entry τ σ ρ} {told : List (Told τ σ ρ)}
  {fault : Option Fault}

theorem asked_concat (first : Call τ σ) : asked first (history ++ [⟨e, told, fault⟩]) =
    asked first history ++ told.flatMap Told.calls := by
  simp [asked]

theorem started_concat : started (history ++ [⟨e, told, fault⟩]) = started history ++ e.call?.toList := by
  cases h : e.call? <;> simp [started, h]

theorem finished_concat (c : Nat) : Finished (history ++ [⟨e, told, fault⟩]) c ↔
    Finished history c ∨ ∃ response, e = .finish response c := by
  simp only [Finished, List.mem_append, List.mem_singleton, or_and_right, exists_or, exists_eq_left]

end History

namespace Runner

variable {P : τ → Prop} {b : Behavior τ σ ρ ω} {r r' : Runner τ σ ρ ω} {c : Nat}
  {requests : List (Request τ σ ρ)} {rest : List (Entry τ σ ρ)} {first : Call τ σ} {history : List (Processed τ σ ρ)}

/-! ## Calls that wait -/

theorem perm_filterMap_call? (c : Nat) (requests : List (Request τ σ ρ)) :
    ((requests.filterMap (Request.now? c)).filterMap Entry.call? ++
      (requests.filterMap (Request.later? c)).filterMap Entry.call?).Perm
      (requests.filterMap (Request.call? c)) := by
  induction requests with
  | nil => exact .nil
  | cons q rest ih =>
    cases q with
    | call task state => exact ih.cons _
    | callLater task state => exact List.perm_middle.trans (ih.cons _)
    | finish response => exact ih

theorem Leaves.perm_waiting (h : Leaves c requests rest r r') :
    r'.waiting.Perm ((rest ++ r.later).filterMap Entry.call? ++ requests.filterMap (Request.call? c)) := by
  rw [waiting, h.stack, h.later]
  simp only [List.filterMap_append, List.filterMap_reverse, List.append_assoc]
  refine ((List.reverse_perm _).append_right _).trans ?_
  refine (List.perm_append_comm_assoc _ _ _).trans (List.Perm.append_left _ ?_)
  refine (List.perm_append_comm_assoc _ _ _).trans (List.Perm.append_left _ ?_)
  exact perm_filterMap_call? c requests

/-- Calls are neither lost nor made up. -/
theorem Leaves.perm_asked (h : Leaves c requests rest r r') {e : Entry τ σ ρ} {told : List (Told τ σ ρ)}
    (hstack : r.stack = e :: rest) (htold : told.flatMap Told.calls = requests.filterMap (Request.call? c))
    (hperm : (asked first history).Perm (started history ++ r.waiting)) (fault : Option Fault) :
    (asked first (history ++ [⟨e, told, fault⟩])).Perm
      (started (history ++ [⟨e, told, fault⟩]) ++ r'.waiting) := by
  have hwaiting : r.waiting = e.call?.toList ++ (rest ++ r.later).filterMap Entry.call? := by
    rw [waiting, hstack]
    cases hcall : e.call? <;> simp [hcall]
  rw [asked_concat, started_concat, htold]
  refine (hperm.append_right _).trans ?_
  rw [hwaiting]
  simp only [List.append_assoc]
  refine List.Perm.append_left _ (List.Perm.append_left _ ?_)
  exact h.perm_waiting.symm

/-- What a reaction leaves to do is about the task itself. -/
theorem Leaves.owner_of_rest (h : Leaves c requests rest r r') {Q : Option Nat → Prop} (hc : Q (some c))
    (hrest : ∀ e ∈ rest ++ r.later, Q e.owner) : ∀ e ∈ r'.stack ++ r'.later, Q e.owner := by
  intro e he
  have hold : e ∈ rest ++ r.later → Q e.owner := hrest e
  rw [h.stack, h.later] at he
  simp only [List.mem_append, List.mem_reverse, List.mem_filterMap] at he hold
  rcases he with (⟨q, -, hq⟩ | hrest) | hlater | ⟨q, -, hq⟩
  · cases q with
    | call task state =>
      cases hq
      exact hc
    | callLater task state => cases hq
    | finish response =>
      cases hq
      exact hc
  · exact hold (.inl hrest)
  · exact hold (.inr hlater)
  · cases q with
    | callLater task state =>
      cases hq
      exact hc
    | call task state => cases hq
    | finish response => cases hq

theorem Leaves.owner_lt (h : Leaves c requests rest r r') {e : Entry τ σ ρ} {n n' : Nat}
    (hstack : r.stack = e :: rest) (hc : c < n') (hn : n ≤ n')
    (hknown : ∀ e ∈ r.stack ++ r.later, ∀ i ∈ e.owner, i < n) :
    ∀ e ∈ r'.stack ++ r'.later, ∀ i ∈ e.owner, i < n' := by
  refine h.owner_of_rest (Q := fun owner => ∀ i ∈ owner, i < n') ?_ fun e' he' i hi => ?_
  · rintro i ⟨⟩
    exact hc
  · exact Nat.lt_of_lt_of_le (hknown e' (by rw [hstack]; exact List.mem_cons_of_mem e he') i hi) hn

/-! ## The invariant -/

/-- The history accounts for the controllers and for what waits. -/
structure Accounted (first : Call τ σ) (history : List (Processed τ σ ρ)) (r : Runner τ σ ρ ω) : Prop where
  /-- Controllers are numbered by the calls that created them. -/
  numbered : r.kin.map (fun x => (x.state, x.parent)) =
    (started history).map fun call => (call.state, call.caller)
  older : ∀ p c, CalledBy history p c → p < c
  known : ∀ e ∈ r.stack ++ r.later, ∀ c ∈ e.owner, c < r.kin.length
  finished : ∀ c, Finished history c → c < r.kin.length
  children : ∀ (p : Nat) (x : Kin σ), r.kin[p]? = some x → x.children.Nodup ∧
    ∀ c, c ∈ x.children ↔ CalledBy history p c ∧ ¬ Finished history c
  conserved : (asked first history).Perm (started history ++ r.waiting)

theorem accounted_ofTask (task : τ) (state : σ) (w : ω) :
    Accounted ⟨task, state, none⟩ [] (ofTask task state w : Runner τ σ ρ ω) where
  numbered := rfl
  older := by
    rintro p c ⟨call, hcall, -⟩
    cases hcall
  known := by
    intro e he c hc
    obtain rfl := List.mem_singleton.mp he
    cases hc
  finished := by
    rintro c ⟨x, hx, -⟩
    cases hx
  children := by
    intro p x hx
    cases hx
  conserved := .refl _

namespace Accounted

theorem length_kin (h : Accounted first history r) : r.kin.length = (started history).length := by
  simpa using congrArg List.length h.numbered

theorem exists_call (h : Accounted first history r) (hx : r.kin[c]? = some x) :
    ∃ call, (started history)[c]? = some call ∧ call.state = x.state ∧ call.caller = x.parent := by
  have hc := congrArg (·[c]?) h.numbered
  simp only [List.getElem?_map, hx, Option.map_some] at hc
  obtain ⟨call, hcall, heq⟩ := Option.map_eq_some_iff.mp hc.symm
  rw [Prod.mk.injEq] at heq
  exact ⟨call, hcall, heq.1, heq.2⟩

theorem calledBy_iff (h : Accounted first history r) (hx : r.kin[c]? = some x) (p : Nat) :
    CalledBy history p c ↔ x.parent = some p := by
  obtain ⟨call, hcall, -, hcaller⟩ := h.exists_call hx
  constructor
  · rintro ⟨call', hcall', hp⟩
    rw [hcall] at hcall'
    cases hcall'
    rw [← hcaller, hp]
  · intro hp
    exact ⟨call, hcall, hcaller.trans hp⟩

theorem ordered (h : Accounted first history r) : r.Ordered := by
  intro p x hx c hc
  exact h.older p c (((h.children p x hx).2 c).mp hc).1

theorem exists_kin (h : Accounted first history r) (hstack : r.stack = .finish response c :: rest) :
    ∃ x, r.kin[c]? = some x ∧ ∀ p, x.parent = some p → p < c := by
  have hlt : c < r.kin.length := h.known (.finish response c) (by simp [hstack]) c rfl
  have hx := List.getElem?_eq_getElem hlt
  exact ⟨_, hx, fun p hp => h.older p c ((h.calledBy_iff hx p).mpr hp)⟩

/-- A task is a child of nobody but its caller. -/
theorem not_child (h : Accounted first history r) {y : Kin σ} (hx : r.kin[c]? = some x) {i : Nat}
    (hy : r.kin[i]? = some y) (hne : x.parent ≠ some i) : c ∉ y.children := fun hmem =>
  hne ((h.calledBy_iff hx i).mp (((h.children i y hy).2 c).mp hmem).1)

theorem calledBy_lt (h : Accounted first history r) (hc : CalledBy history p c) : c < r.kin.length := by
  obtain ⟨call, hcall, -⟩ := hc
  rw [h.length_kin]
  exact (List.getElem?_eq_some_iff.mp hcall).1

theorem calledBy_started {told : List (Told τ σ ρ)} {fault : Option Fault} (p c : Nat) :
    CalledBy (history ++ [⟨.call task state parent, told, fault⟩]) p c ↔
      CalledBy history p c ∨ c = (started history).length ∧ parent = some p := by
  rw [CalledBy, CalledBy, started_concat, Entry.call?, Option.toList_some]
  constructor
  · rintro ⟨call, hcall, hp⟩
    rcases Nat.lt_trichotomy c (started history).length with hlt | rfl | hgt
    · rw [List.getElem?_append_left hlt] at hcall
      exact .inl ⟨call, hcall, hp⟩
    · rw [List.getElem?_concat_length, Option.some.injEq] at hcall
      exact .inr ⟨rfl, by rw [← hp, ← hcall]⟩
    · rw [List.getElem?_eq_none (by simpa using Nat.succ_le_of_lt hgt)] at hcall
      cases hcall
  · rintro (⟨call, hcall, hp⟩ | ⟨rfl, rfl⟩)
    · refine ⟨call, ?_, hp⟩
      rw [List.getElem?_append_left (List.getElem?_eq_some_iff.mp hcall).1, hcall]
    · exact ⟨_, List.getElem?_concat_length, rfl⟩

/-- A call that is started adds a child to its caller, and a controller without children. -/
theorem children_start (h : Accounted first history r) {x' : Kin σ}
    (hparent : ∀ p, parent = some p → p < r.kin.length)
    (hx' : (Kin.adopt parent r.kin.length r.kin ++ [⟨state, parent, []⟩])[p]? = some x') :
    x'.children.Nodup ∧ ∀ c, c ∈ x'.children ↔
      (CalledBy history p c ∨ c = r.kin.length ∧ parent = some p) ∧ ¬ Finished history c := by
  have hlength : (Kin.adopt parent r.kin.length r.kin).length = r.kin.length := by
    simpa using congrArg List.length (Kin.map_adopt parent r.kin.length r.kin)
  rcases Nat.lt_trichotomy p r.kin.length with hlt | rfl | hgt
  · obtain ⟨hnodup, hiff⟩ := h.children p _ (List.getElem?_eq_getElem hlt)
    rw [List.getElem?_append_left (by rwa [hlength]), Kin.getElem?_adopt,
      List.getElem?_eq_getElem hlt, Option.map_some, Option.some.injEq] at hx'
    subst hx'
    by_cases hp : parent = some p
    · rw [if_pos hp]
      refine ⟨List.nodup_append.mpr ⟨hnodup, List.pairwise_singleton _ _, ?_⟩, fun c => ?_⟩
      · rintro c hc d hd rfl
        exact Nat.lt_irrefl _ (List.mem_singleton.mp hd ▸ h.calledBy_lt ((hiff c).mp hc).1)
      · rw [List.mem_append, List.mem_singleton, hiff, or_and_right]
        refine or_congr_right ⟨?_, fun hc => hc.1.1⟩
        rintro rfl
        exact ⟨⟨rfl, hp⟩, fun hfinished => Nat.lt_irrefl _ (h.finished _ hfinished)⟩
    · rw [if_neg hp]
      refine ⟨hnodup, fun c => ?_⟩
      rw [hiff]
      simp [hp]
  · rw [List.getElem?_append_right (Nat.le_of_eq hlength), hlength, Nat.sub_self] at hx'
    cases hx'
    refine ⟨List.nodup_nil, fun c => ⟨fun hc => absurd hc List.not_mem_nil, ?_⟩⟩
    rintro ⟨hc | ⟨-, hself⟩, -⟩
    · exact absurd (h.older _ c hc) (Nat.not_lt_of_lt (h.calledBy_lt hc))
    · exact absurd (hparent _ hself) (Nat.lt_irrefl _)
  · rw [List.getElem?_eq_none (by simpa [hlength] using Nat.succ_le_of_lt hgt)] at hx'
    cases hx'

theorem start (h : Accounted first history r) (hstack : r.stack = .call task state parent :: rest)
    (hleaves : Leaves r.kin.length requests rest r r')
    (hkin : r'.kin = Kin.adopt parent r.kin.length r.kin ++ [⟨state, parent, []⟩]) (fault : Option Fault) :
    Accounted first (history ++
      [⟨.call task state parent, [.start r.kin.length task state requests], fault⟩]) r' := by
  have hmap := Kin.map_adopt parent r.kin.length r.kin
  have hlength : r'.kin.length = r.kin.length + 1 := by
    rw [hkin, List.length_append]
    simpa using congrArg List.length hmap
  have hparent : ∀ p, parent = some p → p < r.kin.length := fun p hp =>
    h.known (.call task state parent) (by simp [hstack]) p hp
  have hfinished : ∀ c, Finished (history ++
      [⟨.call task state parent, [.start r.kin.length task state requests], fault⟩]) c ↔
      Finished history c := fun c => by simp [finished_concat]
  refine ⟨?_, ?_, ?_, ?_, ?_, ?_⟩
  · rw [hkin, started_concat, List.map_append, List.map_append, hmap, h.numbered]
    rfl
  · intro p c hc
    rcases (calledBy_started p c).mp hc with hc | ⟨rfl, hp⟩
    · exact h.older p c hc
    · rw [← h.length_kin]
      exact hparent p hp
  · rw [hlength]
    exact hleaves.owner_lt hstack (Nat.lt_succ_self _) (Nat.le_succ _) h.known
  · intro c hc
    rw [hlength]
    exact Nat.lt_succ_of_lt (h.finished c ((hfinished c).mp hc))
  · intro p x' hx'
    simp only [calledBy_started, hfinished, ← h.length_kin]
    exact h.children_start hparent (hkin ▸ hx')
  · exact hleaves.perm_asked hstack (by simp [Told.calls]) h.conserved fault

theorem finish (h : Accounted first history r) {owner : Nat} {told : List (Told τ σ ρ)}
    (hstack : r.stack = .finish response c :: rest) (hleaves : Leaves owner requests rest r r')
    (howner : owner < r.kin.length)
    (htold : told.flatMap Told.calls = requests.filterMap (Request.call? owner))
    (hkin : r'.kin = r.kin.map (Kin.release c)) (fault : Option Fault) :
    Accounted first (history ++ [⟨.finish response c, told, fault⟩]) r' := by
  have hlength : r'.kin.length = r.kin.length := by rw [hkin, List.length_map]
  have hstarted : started (history ++ [⟨.finish response c, told, fault⟩]) = started history := by
    rw [started_concat]
    exact List.append_nil _
  have hcalled : ∀ p d, CalledBy (history ++ [⟨.finish response c, told, fault⟩]) p d ↔
      CalledBy history p d := fun p d => by rw [CalledBy, CalledBy, hstarted]
  have hfinished : ∀ d, Finished (history ++ [⟨.finish response c, told, fault⟩]) d ↔
      Finished history d ∨ c = d := fun d => by simp [finished_concat]
  refine ⟨?_, ?_, ?_, ?_, ?_, ?_⟩
  · rw [hkin, hstarted, ← h.numbered, List.map_map]
    rfl
  · intro p d hd
    exact h.older p d ((hcalled p d).mp hd)
  · rw [hlength]
    exact hleaves.owner_lt hstack howner (Nat.le_refl _) h.known
  · intro d hd
    rw [hlength]
    rcases (hfinished d).mp hd with hd | rfl
    · exact h.finished d hd
    · exact h.known (.finish response c) (by simp [hstack]) c rfl
  · intro p x' hx'
    rw [hkin, List.getElem?_map, Option.map_eq_some_iff] at hx'
    obtain ⟨x, hx, rfl⟩ := hx'
    obtain ⟨hnodup, hiff⟩ := h.children p x hx
    refine ⟨hnodup.erase c, fun d => ?_⟩
    rw [Kin.release, hnodup.mem_erase_iff, hiff, hcalled, hfinished, not_or]
    tauto
  · exact hleaves.perm_asked hstack htold h.conserved fault

/-- A task that is no child of anybody is not released by anybody. -/
theorem map_release_of_no_child (h : ∀ (i : Nat) (y : Kin σ), r.kin[i]? = some y → c ∉ y.children) :
    r.kin = r.kin.map (Kin.release c) := by
  refine List.ext_getElem? fun i => ?_
  rw [List.getElem?_map]
  cases hy : r.kin[i]? with
  | none => rfl
  | some y => rw [Option.map_some, Kin.release_of_not_mem (h i y hy)]

/-- Nobody but the caller has a child to release. -/
theorem set_release (h : Accounted first history r) {caller : Kin σ} (hx : r.kin[c]? = some x)
    (hparent : x.parent = some p) (hcaller : r.kin[p]? = some caller) :
    r.kin.set p (caller.release c) = r.kin.map (Kin.release c) := by
  refine List.ext_getElem? fun i => ?_
  rw [List.getElem?_map]
  by_cases hi : p = i
  · subst hi
    rw [List.getElem?_set_self (List.getElem?_eq_some_iff.mp hcaller).1, hcaller, Option.map_some]
  · rw [List.getElem?_set_ne hi]
    cases hy : r.kin[i]? with
    | none => rfl
    | some y =>
      have hne : x.parent ≠ some i := fun heq => hi (Option.some.inj (hparent.symm.trans heq))
      rw [Option.map_some, Kin.release_of_not_mem (h.not_child hx hy hne)]

theorem of_outcome (h : Accounted first history r) {e : Entry τ σ ρ} {told : List (Told τ σ ρ)}
    {fault : Option Fault} (hstack : r.stack = e :: rest) (houtcome : Outcome r r' rest e told fault) :
    Accounted first (history ++ [⟨e, told, fault⟩]) r' := by
  have hlt : ∀ {i : Nat} {y : Kin σ}, r.kin[i]? = some y → i < r.kin.length := fun hy =>
    (List.getElem?_eq_some_iff.mp hy).1
  cases houtcome with
  | started leaves kin => exact h.start hstack leaves kin none
  | ended called parent leaves kin =>
    refine h.finish hstack leaves (hlt called) rfl (kin.trans (map_release_of_no_child ?_)) _
    intro i y hy
    exact h.not_child called hy (by simp [parent])
  | @unknown _ _ p x caller called parent known gone leaves kin =>
    refine h.finish hstack leaves (hlt called) rfl (kin.trans (map_release_of_no_child ?_)) _
    intro i y hy
    by_cases hi : x.parent = some i
    · obtain rfl := Option.some.inj (parent.symm.trans hi)
      cases known.symm.trans hy
      exact gone
    · exact h.not_child called hy hi
  | dropped called parent known child dead leaves kin =>
    exact h.finish hstack leaves (hlt called) rfl (kin.trans (h.set_release called parent known)) _
  | resumed called parent known child live leaves kin =>
    exact h.finish hstack leaves (hlt known) (List.flatMap_singleton ..)
      (kin.trans (h.set_release called parent known)) _

theorem outcome (hb : b.Faultless P) (hr : r.Every P) (h : Accounted first history r) {e : Entry τ σ ρ}
    (hstack : r.stack = e :: rest) :
    Outcome r (step b r).1 rest e (told b r) (step b r).2 ∧
      ∀ i, r.isDisposed i = true → (step b r).1.isDisposed i = true := by
  refine outcome_step hb hr h.ordered hstack ?_
  rintro response c rfl
  exact h.exists_kin hstack

theorem resumeLater (h : Accounted first history r) : Accounted first history r.resumeLater := by
  unfold Runner.resumeLater
  split
  · rename_i hempty
    have hstack : r.stack = [] := List.isEmpty_iff.mp hempty
    refine ⟨h.numbered, h.older, ?_, h.finished, h.children, ?_⟩
    · intro e he
      exact h.known e (by simpa [hstack] using he)
    · refine h.conserved.trans (List.Perm.append_left _ ?_)
      rw [waiting, waiting, hstack, List.append_nil, List.nil_append, List.filterMap_reverse]
      exact (List.reverse_perm _).symm
  · exact h

end Accounted

/-- The history accounts for the runner, and every task of the runner has `P`. -/
structure Sound (P : τ → Prop) (first : Call τ σ) (history : List (Processed τ σ ρ))
    (r : Runner τ σ ρ ω) : Prop where
  every : r.Every P
  accounted : Accounted first history r

theorem sound_ofTask (htask : P task) (state : σ) (w : ω) :
    Sound P ⟨task, state, none⟩ [] (ofTask task state w : Runner τ σ ρ ω) :=
  ⟨holds_ofTask state htask trivial, accounted_ofTask task state w⟩

theorem Sound.goes (hb : b.Faultless P) {r₀ : Runner τ σ ρ ω} {before : List (Processed τ σ ρ)}
    (h₀ : Sound P first before r₀) (h : Goes b r₀ history r) : Sound P first (before ++ history) r := by
  induction h with
  | refl => rwa [List.append_nil]
  | step _ hstack ih =>
    rw [← List.append_assoc]
    have houtcome := (ih.accounted.outcome hb ih.every hstack).1
    exact ⟨ih.every.step (maintains_of_keeps hb.toKeeps), ih.accounted.of_outcome hstack houtcome⟩
  | again _ ih => exact ⟨ih.every.resumeLater, ih.accounted.resumeLater⟩

/-! ## Disposed tasks -/

theorem Outcome.live_of_resume {e : Entry τ σ ρ} {told : List (Told τ σ ρ)} {fault : Option Fault}
    (h : Outcome r r' rest e told fault) (hmem : Told.resume p state response requests ∈ told) :
    r.isDisposed p = false := by
  cases h with
  | started => cases List.mem_singleton.mp hmem
  | ended => cases hmem
  | unknown => cases hmem
  | dropped => cases hmem
  | resumed called parent known child live =>
    cases List.mem_singleton.mp hmem
    exact live

theorem isDisposed_resumeLater (r : Runner τ σ ρ ω) (p : Nat) :
    r.resumeLater.isDisposed p = r.isDisposed p := by
  unfold Runner.resumeLater
  split <;> rfl

/-- A task that is disposed stays so and is not resumed again. -/
theorem not_resumed_of_disposed (hb : b.Faultless P) {r₀ : Runner τ σ ρ ω} {before : List (Processed τ σ ρ)}
    (h₀ : Sound P first before r₀) (hp : r₀.isDisposed p = true) (h : Goes b r₀ history r) :
    r.isDisposed p = true ∧ ∀ x ∈ history, ∀ state response requests,
      Told.resume p state response requests ∉ x.told := by
  induction h with
  | refl => exact ⟨hp, fun x hx => absurd hx List.not_mem_nil⟩
  | step hgoes hstack ih =>
    obtain ⟨hdisposed, hpast⟩ := ih
    have hsound := h₀.goes hb hgoes
    obtain ⟨houtcome, hkept⟩ := hsound.accounted.outcome hb hsound.every hstack
    refine ⟨hkept p hdisposed, fun x hx => ?_⟩
    rcases List.mem_append.mp hx with hx | hx
    · exact hpast x hx
    · rw [List.mem_singleton.mp hx]
      intro state response requests hmem
      rw [houtcome.live_of_resume hmem] at hdisposed
      cases hdisposed
  | again _ ih =>
    rw [isDisposed_resumeLater]
    exact ih

end Runner

/-! ## Scripted tasks -/

/-- The action cannot fail. -/
def Action.isFaultless {α : Type} : Action α → Bool
  | .finishLater _ => false
  | .fail _ => false
  | _ => true

/-- No action of the script can fail. -/
def Script.isFaultless {α : Type} (s : Script α) : Bool :=
  s.start.all Action.isFaultless && s.resumes.all fun actions => actions.all Action.isFaultless

namespace ScriptedTask

variable {α : Type} {scripts : List (String × Script α)}

/-- The task cannot fail. -/
def IsFaultless : ScriptedTask α → Prop
  | .scripted _ script _ => script.isFaultless = true
  | .value _ => True

theorem isFaultless_named (h : ∀ x ∈ scripts, x.2.isFaultless = true) (name : String) :
    (named scripts name).IsFaultless := by
  change ((scripts.lookup name).getD {}).isFaultless = true
  cases hfound : scripts.lookup name with
  | none => rfl
  | some script =>
    obtain ⟨front, back, hscripts, -⟩ := List.lookup_eq_some_iff.mp hfound
    exact h (name, script) (by simp [hscripts])

theorem requests_of_isFaultless (h : ∀ x ∈ scripts, x.2.isFaultless = true) (response : α)
    {actions : List (Action α)} (hactions : actions.all Action.isFaultless = true) :
    (requests scripts response actions).2 = none ∧
      ∀ q ∈ (requests scripts response actions).1, q.Asks IsFaultless := by
  induction actions with
  | nil => exact ⟨rfl, fun q hq => absurd hq List.not_mem_nil⟩
  | cons action rest ih =>
    rw [List.all_cons, Bool.and_eq_true] at hactions
    obtain ⟨hfault, hrest⟩ := ih hactions.2
    have hmore : ∀ q : Request (ScriptedTask α) α α, q.Asks IsFaultless →
        ∀ q' ∈ q :: (requests scripts response rest).1, q'.Asks IsFaultless := by
      intro q hq q' hq'
      rcases List.mem_cons.mp hq' with rfl | hq'
      · exact hq
      · exact hrest q' hq'
    cases action with
    | call task state => exact ⟨hfault, hmore _ (isFaultless_named h task)⟩
    | callLater task state => exact ⟨hfault, hmore _ (isFaultless_named h task)⟩
    | callValue value state => exact ⟨hfault, hmore _ trivial⟩
    | finish response => exact ⟨hfault, hmore _ trivial⟩
    | finishWithResponse => exact ⟨hfault, hmore _ trivial⟩
    | finishLater response => cases hactions.1
    | fail message => cases hactions.1

theorem all_resumes {script : Script α} (h : script.isFaultless = true) (n : Nat) :
    ((script.resumes[n]?).getD []).all Action.isFaultless = true := by
  cases hn : script.resumes[n]? with
  | none => rfl
  | some actions =>
    exact List.all_eq_true.mp (Bool.and_eq_true_iff.mp h).2 actions (List.mem_of_getElem? hn)

/-- Tasks whose scripts cannot fail never do. -/
theorem faultless_behavior (h : ∀ x ∈ scripts, x.2.isFaultless = true) (blank : α) :
    (behavior scripts blank).Faultless IsFaultless where
  start := by
    intro place state task w htask
    cases task with
    | value response =>
      refine ⟨trivial, fun q hq => ?_⟩
      cases List.mem_singleton.mp hq
      trivial
    | scripted name script n =>
      exact ⟨htask, (requests_of_isFaultless h blank (Bool.and_eq_true_iff.mp htask).1).2⟩
  resume := by
    intro place task state response w htask
    cases task with
    | value response => exact ⟨trivial, fun q hq => absurd hq List.not_mem_nil⟩
    | scripted name script n =>
      exact ⟨htask, (requests_of_isFaultless h response (all_resumes htask n)).2⟩
  dispose := by
    intro task w htask
    cases task <;> exact htask
  start_fault := by
    intro place state task w htask
    cases task with
    | value response => rfl
    | scripted name script n =>
      exact (requests_of_isFaultless h blank (Bool.and_eq_true_iff.mp htask).1).1
  resume_fault := by
    intro place task state response w htask
    cases task with
    | value response => rfl
    | scripted name script n =>
      exact (requests_of_isFaultless h response (all_resumes htask n)).1
  dispose_fault := by
    intro task w htask
    cases task <;> rfl

end ScriptedTask

namespace Runner

variable {P : τ → Prop} {b : Behavior τ σ ρ ω} {r : Runner τ σ ρ ω} {c : Nat}
  {rest : List (Entry τ σ ρ)} {first : Call τ σ} {history : List (Processed τ σ ρ)}

/-! ## Routing -/

/-- What the next step does with a task that is finished. The first task resumes nobody. Another one
resumes its caller if it is finished for the first time and the caller is not disposed. If it is finished
again, the runner fails. -/
def Answers (b : Behavior τ σ ρ ω) (history : List (Processed τ σ ρ)) (r : Runner τ σ ρ ω) (response : ρ)
    (c : Nat) : Prop :=
  ∃ call, (started history)[c]? = some call ∧
    (call.caller = none → (step b r).2 = none ∧ told b r = []) ∧
    ∀ p, call.caller = some p →
      (Finished history c → (step b r).2 = some (.missingKey none) ∧ told b r = []) ∧
      (¬ Finished history c → (step b r).2 = none ∧
        (r.isDisposed p = true → told b r = []) ∧
        (r.isDisposed p = false → ∃ requests, told b r = [.resume p call.state response requests]))

/-- Calls and responses go where they should, in a runner with a history and in its next step. -/
structure RoutedOnce (b : Behavior τ σ ρ ω) (first : Call τ σ) (history : List (Processed τ σ ρ))
    (r : Runner τ σ ρ ω) : Prop where
  /-- There is one controller for each started call, in the order of the starts. -/
  controllers : r.controllers.map (fun k => (k.state, k.parent)) =
    (started history).map fun call => (call.state, call.caller)
  /-- The children of a controller are the tasks that it called and that are not finished. -/
  children : ∀ (p : Nat) (k : Controller τ σ), r.controllers[p]? = some k → k.children.Nodup ∧
    ∀ c, c ∈ k.children ↔ CalledBy history p c ∧ ¬ Finished history c
  /-- Of the calls that were asked for, each was started or waits. -/
  calls : (asked first history).Perm (started history ++ r.waiting)
  /-- Once nothing is left to do, each of them was started. -/
  drained : r.stack = [] → r.later = [] → (asked first history).Perm (started history)
  /-- A call starts its task, and nothing else happens. -/
  start : ∀ task state caller rest, r.stack = .call task state caller :: rest →
    (step b r).2 = none ∧ ∃ requests, told b r = [.start r.controllers.length task state requests]
  finish : ∀ response c rest, r.stack = .finish response c :: rest → Answers b history r response c
  /-- A disposed task is never resumed again. -/
  disposed : ∀ p, r.isDisposed p = true → ∀ more r', Goes b r more r' → ∀ x ∈ more,
    ∀ state response requests, Told.resume p state response requests ∉ x.told

theorem Sound.answers (hb : b.Faultless P) (h : Sound P first history r)
    (hstack : r.stack = .finish response c :: rest) : Answers b history r response c := by
  have houtcome := (h.accounted.outcome hb h.every hstack).1
  obtain ⟨x, hx, -⟩ := h.accounted.exists_kin hstack
  obtain ⟨call, hcall, hstate, hcaller⟩ := h.accounted.exists_call hx
  have hchild : ∀ p y, x.parent = some p → r.kin[p]? = some y → (c ∈ y.children ↔ ¬ Finished history c) := by
    intro p y hp hy
    rw [(h.accounted.children p y hy).2 c, h.accounted.calledBy_iff hx]
    simp [hp]
  refine ⟨call, hcall, ?_⟩
  rw [hcaller, hstate]
  generalize told b r = notices at houtcome ⊢
  generalize (step b r).2 = fault at houtcome ⊢
  cases houtcome with
  | ended called parent =>
    cases called.symm.trans hx
    exact ⟨fun _ => ⟨rfl, rfl⟩, fun p hp => by cases parent.symm.trans hp⟩
  | unknown called parent known gone =>
    cases called.symm.trans hx
    refine ⟨fun hp => (by cases parent.symm.trans hp), fun p hp => ?_⟩
    cases parent.symm.trans hp
    exact ⟨fun _ => ⟨rfl, rfl⟩, fun hnot => absurd ((hchild _ _ hp known).mpr hnot) gone⟩
  | dropped called parent known child dead =>
    cases called.symm.trans hx
    refine ⟨fun hp => (by cases parent.symm.trans hp), fun p hp => ?_⟩
    cases parent.symm.trans hp
    refine ⟨fun hfinished => absurd hfinished ((hchild _ _ hp known).mp child), fun _ => ⟨rfl, ?_, ?_⟩⟩
    · exact fun _ => rfl
    · intro hlive
      rw [dead] at hlive
      cases hlive
  | resumed called parent known child live =>
    cases called.symm.trans hx
    refine ⟨fun hp => (by cases parent.symm.trans hp), fun p hp => ?_⟩
    cases parent.symm.trans hp
    refine ⟨fun hfinished => absurd hfinished ((hchild _ _ hp known).mp child), fun _ => ⟨rfl, ?_, ?_⟩⟩
    · intro hdead
      rw [live] at hdead
      cases hdead
    · exact fun _ => ⟨_, rfl⟩

theorem Sound.starts (hb : b.Faultless P) (h : Sound P first history r) {caller : Option Nat}
    (hstack : r.stack = .call task state caller :: rest) :
    (step b r).2 = none ∧ ∃ requests, told b r = [.start r.controllers.length task state requests] := by
  have houtcome := (h.accounted.outcome hb h.every hstack).1
  rw [← length_kin]
  generalize told b r = notices at houtcome ⊢
  generalize (step b r).2 = fault at houtcome ⊢
  cases houtcome with
  | started => exact ⟨rfl, _, rfl⟩

/-- For tasks that never fail, however the runner goes on and whenever it is run again: calls and
responses go where they should. -/
theorem results_routed_once (hb : b.Faultless P) {task : τ} (htask : P task) (state : σ) (w : ω)
    (h : Goes b (ofTask task state w) history r) :
    RoutedOnce b ⟨task, state, none⟩ history r ∧
      ∀ x, run b r = some x → ∃ more, Goes b (ofTask task state w) (history ++ more) x.1 := by
  have hsound : Sound P ⟨task, state, none⟩ history r := (sound_ofTask htask state w).goes hb h
  refine ⟨?_, fun x hx => h.run hx⟩
  constructor
  case controllers =>
    rw [← hsound.accounted.numbered, kin, List.map_map]
    rfl
  case children =>
    intro p k hk
    exact hsound.accounted.children p k.kin (getElem?_kin hk)
  case calls => exact hsound.accounted.conserved
  case drained =>
    intro hstack hlater
    have hcalls := hsound.accounted.conserved
    rwa [waiting, hstack, hlater, List.append_nil, List.filterMap_nil, List.append_nil] at hcalls
  case start =>
    intro task state caller rest hstack
    exact hsound.starts hb hstack
  case finish =>
    intro response c rest hstack
    exact hsound.answers hb hstack
  case disposed =>
    intro p hp more r' hgoes
    exact (not_resumed_of_disposed hb hsound hp hgoes).2

/-- A task that responds twice to the first task. -/
def twice : List (String × Script Nat) :=
  [("main", { start := [.call "echo" 1], resumes := [[.callLater "idle" 2]] }),
    ("echo", { start := [.finish 7, .finish 8] })]

/-- The runner of the first of these tasks, after some steps. -/
def twiceAfter : Nat → Runner (ScriptedTask Nat) Nat Nat (List (Event Nat))
  | 0 => ofTask (ScriptedTask.named twice "main") 0 []
  | n + 1 => (step (ScriptedTask.behavior twice 0) (twiceAfter n)).1

theorem results_routed_once_twice :
    ∃ history, Goes (ScriptedTask.behavior twice 0) (twiceAfter 0) history (twiceAfter 3) ∧
      (twiceAfter 3).stack = [.finish 7 1] ∧ Finished history 1 ∧
      RoutedOnce (ScriptedTask.behavior twice 0) ⟨ScriptedTask.named twice "main", 0, none⟩ history
        (twiceAfter 3) ∧
      (step (ScriptedTask.behavior twice 0) (twiceAfter 3)).2 = some (.missingKey none) := by
  have htwice : ∀ x ∈ twice, x.2.isFaultless = true := by decide
  have hmain : (twiceAfter 0).stack = [.call (ScriptedTask.named twice "main") 0 none] := rfl
  have hecho : (twiceAfter 1).stack = [.call (ScriptedTask.named twice "echo") 1 (some 0)] := rfl
  have height : (twiceAfter 2).stack = [.finish 8 1, .finish 7 1] := rfl
  have hseven : (twiceAfter 3).stack = [.finish 7 1] := rfl
  obtain ⟨history, hgoes, hfinished, hstarted⟩ : ∃ history,
      Goes (ScriptedTask.behavior twice 0) (twiceAfter 0) history (twiceAfter 3) ∧ Finished history 1 ∧
        (started history)[1]? = some ⟨ScriptedTask.named twice "echo", 1, some 0⟩ :=
    ⟨_, ((Goes.refl.step hmain).step hecho).step height, (finished_concat 1).mpr (.inr ⟨8, rfl⟩), rfl⟩
  obtain ⟨hrouted, -⟩ := results_routed_once (ScriptedTask.faultless_behavior htwice 0)
    (ScriptedTask.isFaultless_named htwice "main") 0 [] hgoes
  obtain ⟨call, hcall, -, hcaller⟩ := hrouted.finish 7 1 [] hseven
  cases hstarted.symm.trans hcall
  exact ⟨history, hgoes, hseven, hfinished, hrouted, ((hcaller 0 rfl).1 hfinished).1⟩

end Runner

end ValueShell.Task
