import ValueShell.Spawn.Reaper

/-!
# Ends of processes are told once

A thread reaps the ends of processes, while others register for them and may let it stop. The thread looks
whether someone waits, then it waits for the system to report the end of any process, and so on
(`Watch.next`). In between, anything else may happen. `Follows` relates a history of such events to what
has come of it.

For every history in which no process is registered for twice or ends twice, the maps of the reaper and the
calls that were made are a function of the events alone (`Accounts`): who has registered for a process that
has ended has been told, once and with its status, and nobody else has been told anything. `Reaper.run` is
the part of the thread in such a history when nothing comes in between (`exists_run`).
-/

set_option autoImplicit false

namespace ValueShell.Reaper

variable {κ : Type} {who : κ} {status : Int} {α : Type} {r : Reaper κ}

/-- What can happen around a reaper. -/
inductive Event (κ : Type) where
  /-- Someone registers for the end of a process. -/
  | register (process : Nat) (who : κ)
  /-- Reaping may end. -/
  | stop
  /-- The thread looks whether someone waits. -/
  | look
  /-- The system reports the end of a process to the thread. -/
  | exit (process : Nat) (status : Int)
  /-- The system refuses, as there is no process left. -/
  | refuse

/-- Where the thread stands. -/
inductive Phase where
  | looking
  /-- It waits for the system to report an end. -/
  | waiting
  | ended
  | failed
  deriving DecidableEq

/-- A reaper with its thread, and who was told of the end of which process, in order. -/
structure Watch (κ : Type) where
  reaper : Reaper κ := {}
  phase : Phase := .looking
  told : List (Nat × κ × Int) := []

namespace Watch

/-- Someone may be told of the end of a process. -/
def tell (s : Watch κ) (p : Nat) (call : Option (κ × Int)) : Watch κ :=
  { s with told := s.told ++ (call.map fun call => (p, call)).toList }

/-- What comes of an event, if it can happen. Whoever brings the second of registration and end makes the
call at once. -/
def next (s : Watch κ) : Event κ → Option (Watch κ)
  | .register process who =>
    match s.reaper.register process who with
    | .ok (status, reaper) => some ({ s with reaper }.tell process (status.map fun status => (who, status)))
    | .error _ => none
  | .stop => some { s with reaper := s.reaper.stop }
  | .look =>
    if s.phase ≠ .looking then none
    else if !s.reaper.waiting.isEmpty then some { s with phase := .waiting }
    else if s.reaper.stopping then some { s with phase := .ended }
    else none
  | .exit process status =>
    if s.phase ≠ .waiting then none
    else
      let (who, reaper) := s.reaper.reap process status
      some ({ s with reaper, phase := .looking }.tell process (who.map fun who => (who, status)))
  | .refuse => if s.phase ≠ .waiting then none else some { s with phase := .failed }

/-- The calls that were made for a process. -/
def calls (s : Watch κ) (p : Nat) : List (κ × Int) := (s.told.filter fun x => x.1 == p).map Prod.snd

end Watch

/-- The events of the history can happen in this order, and this is what comes of them. -/
inductive Follows : List (Event κ) → Watch κ → Prop
  | start : Follows [] {}
  | event {es : List (Event κ)} {e : Event κ} {s s' : Watch κ} :
      Follows es s → s.next e = some s' → Follows (es ++ [e]) s'

/-! ## What a history says of a process -/

namespace Event

/-- Who registers for a process. -/
def registration? (p : Nat) : Event κ → Option κ
  | .register process who => if process = p then some who else none
  | _ => none

/-- The status with which a process ends. -/
def status? (p : Nat) : Event κ → Option Int
  | .exit process status => if process = p then some status else none
  | _ => none

/-- The process that someone registers for. -/
def registers : Event κ → Option Nat
  | .register process _ => some process
  | _ => none

/-- The process that ends. -/
def exits : Event κ → Option Nat
  | .exit process _ => some process
  | _ => none

end Event

/-- Who has registered for a process. -/
def registered (es : List (Event κ)) (p : Nat) : Option κ := es.findSome? (Event.registration? p)

/-- The status of a process that has ended. -/
def ended (es : List (Event κ)) (p : Nat) : Option Int := es.findSome? (Event.status? p)

/-- Who has to be told of a process, and its status, once both are known. -/
def due (es : List (Event κ)) (p : Nat) : Option (κ × Int) :=
  (registered es p).bind fun who => (ended es p).map fun status => (who, status)

/-- Nobody registers for a process twice, and no process ends twice. -/
structure Once (es : List (Event κ)) : Prop where
  registers : (es.filterMap Event.registers).Nodup
  exits : (es.filterMap Event.exits).Nodup

section History

variable {es : List (Event κ)} {e : Event κ} {p : Nat}

theorem registered_concat : registered (es ++ [e]) p = (registered es p).or (e.registration? p) := by
  simp [registered, List.findSome?_append]

theorem ended_concat : ended (es ++ [e]) p = (ended es p).or (e.status? p) := by
  simp [ended, List.findSome?_append]

theorem Once.of_concat (h : Once (es ++ [e])) : Once es := by
  obtain ⟨hregisters, hexits⟩ := h
  rw [List.filterMap_append, List.nodup_append] at hregisters hexits
  exact ⟨hregisters.1, hexits.1⟩

/-- What comes once for each process has not come before. -/
theorem findSome?_eq_none {about : Event κ → Option Nat} {result? : Event κ → Option α}
    (h : ((es ++ [e]).filterMap about).Nodup) (hp : about e = some p)
    (hother : ∀ e, about e ≠ some p → result? e = none) : es.findSome? result? = none := by
  rw [List.filterMap_append, List.nodup_append] at h
  refine List.findSome?_eq_none_iff.mpr fun e' he' => hother e' fun heq => ?_
  exact h.2.2 p (List.mem_filterMap.mpr ⟨e', he', heq⟩) p (by simp [hp]) rfl

theorem Once.registered_eq_none (h : Once (es ++ [.register p who])) : registered es p = none :=
  findSome?_eq_none h.registers rfl fun e he => by cases e <;> simp_all [Event.registers, Event.registration?]

theorem Once.ended_eq_none (h : Once (es ++ [.exit p status])) : ended es p = none :=
  findSome?_eq_none h.exits rfl fun e he => by cases e <;> simp_all [Event.exits, Event.status?]

/-- Who has registered for which process, once someone registers for a new one. -/
theorem registered_register (hnew : registered es p = none) (q : Nat) :
    registered (es ++ [.register p who]) q = if q = p then some who else registered es q := by
  rw [registered_concat]
  by_cases hq : q = p
  · simp [hq, hnew, Event.registration?]
  · simp [hq, Ne.symm hq, Event.registration?]

theorem ended_register (q : Nat) : ended (es ++ [.register p who]) q = ended es q := by
  simp [ended_concat, Event.status?]

/-- Which processes have ended, once another one ends. -/
theorem ended_exit (hnew : ended es p = none) (q : Nat) :
    ended (es ++ [.exit p status]) q = if q = p then some status else ended es q := by
  rw [ended_concat]
  by_cases hq : q = p
  · simp [hq, hnew, Event.status?]
  · simp [hq, Ne.symm hq, Event.status?]

theorem registered_exit (q : Nat) : registered (es ++ [.exit p status]) q = registered es q := by
  simp [registered_concat, Event.registration?]

/-- A registration is due at once if the process has ended. -/
theorem due_register (hnew : registered es p = none) (q : Nat) :
    (due (es ++ [.register p who]) q).toList =
      (due es q).toList ++ if q = p then ((ended es p).map fun status => (who, status)).toList else [] := by
  rw [due, due, registered_register hnew, ended_register]
  by_cases hq : q = p
  · simp [hq, hnew]
  · simp [hq]

/-- An end is due at once if someone has registered for the process. -/
theorem due_exit (hnew : ended es p = none) (q : Nat) :
    (due (es ++ [.exit p status]) q).toList =
      (due es q).toList ++ if q = p then ((registered es p).map fun who => (who, status)).toList else [] := by
  rw [due, due, registered_exit, ended_exit hnew]
  by_cases hq : q = p
  · cases hregistered : registered es p <;> simp [hq, hnew, hregistered]
  · simp [hq]

end History

/-! ## The reaper's maps -/

theorem lookup_filter_ne (l : List (Nat × α)) (p q : Nat) :
    (l.filter fun e => e.1 != p).lookup q = if q = p then none else l.lookup q := by
  induction l with
  | nil => simp
  | cons x rest ih =>
    obtain ⟨k, a⟩ := x
    by_cases hk : k = p
    · subst hk
      by_cases hq : q = k
      · simpa [hq] using ih
      · have hne : (q == k) = false := by simpa using hq
        simpa [hq, List.lookup_cons, hne] using ih
    · by_cases hq : q = k
      · subst hq
        simp [hk]
      · have hne : (q == k) = false := by simpa using hq
        simpa [hk, List.lookup_cons, hne] using ih

theorem lookup_concat {l : List (Nat × α)} {p : Nat} (h : l.lookup p = none) (a : α) (q : Nat) :
    (l ++ [(p, a)]).lookup q = if q = p then some a else l.lookup q := by
  rw [List.lookup_append]
  by_cases hq : q = p
  · simp [hq, h]
  · have hne : (q == p) = false := by simpa using hq
    simp [hq, List.lookup_cons, hne]

theorem any_eq_false_of_lookup {l : List (Nat × α)} {p : Nat} (h : l.lookup p = none) :
    (l.any fun e => e.1 == p) = false := by
  rw [List.lookup_eq_none_iff] at h
  rw [List.any_eq_false]
  intro e he heq
  have hne := h e he
  simp_all

theorem register_ended {p : Nat} (h : r.unclaimed.lookup p = some status) (who : κ) : r.register p who =
      .ok (some status, { r with unclaimed := r.unclaimed.filter fun e => e.1 != p }) := by
  rw [register, h]

theorem register_running {p : Nat} (h : r.unclaimed.lookup p = none) (hwaiting : r.waiting.lookup p = none)
    (who : κ) : r.register p who = .ok (none, { r with waiting := r.waiting ++ [(p, who)] }) := by
  rw [register, h]
  simp [any_eq_false_of_lookup hwaiting]

/-! ## The invariant -/

/-- The calls and the maps are what the history says. -/
structure Accounts (es : List (Event κ)) (s : Watch κ) : Prop where
  calls : ∀ p, s.calls p = (due es p).toList
  waiting : ∀ p, s.reaper.waiting.lookup p = if ended es p = none then registered es p else none
  unclaimed : ∀ p, s.reaper.unclaimed.lookup p = if registered es p = none then ended es p else none
  stopping : s.reaper.stopping = true ↔ .stop ∈ es

theorem accounts_start : Accounts [] ({} : Watch κ) :=
  ⟨fun _ => rfl, fun _ => rfl, fun _ => rfl, by simp⟩

theorem Watch.calls_tell (s : Watch κ) (p : Nat) (call : Option (κ × Int)) (q : Nat) :
    (s.tell p call).calls q = s.calls q ++ if q = p then call.toList else [] := by
  cases call with
  | none => simp [Watch.calls, Watch.tell]
  | some call =>
    by_cases hq : q = p
    · simp [Watch.calls, Watch.tell, hq]
    · simp [Watch.calls, Watch.tell, hq, Ne.symm hq]

theorem reap_registered {p : Nat} (h : r.waiting.lookup p = some who) (status : Int) :
    r.reap p status = (some who, { r with waiting := r.waiting.filter fun e => e.1 != p }) := by
  rw [reap, h]

theorem reap_unknown {p : Nat} (h : r.waiting.lookup p = none) (status : Int) :
    r.reap p status = (none, { r with
      unclaimed := (r.unclaimed.filter fun e => e.1 != p) ++ [(p, status)] }) := by
  rw [reap, h]

namespace Accounts

variable {es : List (Event κ)} {e : Event κ} {s s' : Watch κ} {p : Nat}

theorem calls_tell (h : Accounts es s) {t : Watch κ} (ht : t.told = s.told) (call : Option (κ × Int)) (q : Nat) :
    (t.tell p call).calls q = (due es q).toList ++ if q = p then call.toList else [] := by
  rw [Watch.calls_tell, Watch.calls, ht, ← h.calls q]
  rfl

/-- What the registration for a process does is decided by whether it has ended. -/
theorem exists_register (h : Accounts es s) (hnew : registered es p = none) (who : κ) :
    ∃ s', s.next (.register p who) = some s' ∧ Accounts (es ++ [.register p who]) s' := by
  have hstatus : s.reaper.unclaimed.lookup p = ended es p := by rw [h.unclaimed, if_pos hnew]
  have hwaiting : s.reaper.waiting.lookup p = none := by rw [h.waiting, hnew, ite_self]
  have hstop : (.stop : Event κ) ∈ es ++ [.register p who] ↔ .stop ∈ es := by simp
  cases hended : ended es p with
  | some status =>
    rw [hended] at hstatus
    refine ⟨_, by rw [Watch.next, register_ended hstatus who], ?_⟩
    refine ⟨fun q => ?_, fun q => ?_, fun q => ?_, h.stopping.trans hstop.symm⟩
    · rw [due_register hnew, hended]
      exact h.calls_tell rfl _ q
    · change s.reaper.waiting.lookup q = _
      rw [registered_register hnew, ended_register, h.waiting]
      by_cases hq : q = p <;> simp [hq, hended]
    · change (s.reaper.unclaimed.filter fun e => e.1 != p).lookup q = _
      rw [lookup_filter_ne, registered_register hnew, ended_register, h.unclaimed]
      by_cases hq : q = p <;> simp [hq]
  | none =>
    rw [hended] at hstatus
    refine ⟨_, by rw [Watch.next, register_running hstatus hwaiting who], ?_⟩
    refine ⟨fun q => ?_, fun q => ?_, fun q => ?_, h.stopping.trans hstop.symm⟩
    · rw [due_register hnew, hended]
      exact h.calls_tell rfl _ q
    · change (s.reaper.waiting ++ [(p, who)]).lookup q = _
      rw [lookup_concat hwaiting, registered_register hnew, ended_register, h.waiting]
      by_cases hq : q = p <;> simp [hq, hended]
    · change s.reaper.unclaimed.lookup q = _
      rw [registered_register hnew, ended_register, h.unclaimed]
      by_cases hq : q = p <;> simp [hq, hended]

/-- What the end of a process does is decided by whether someone has registered for it. -/
theorem exit (h : Accounts es s) (hnew : ended es p = none) (hnext : s.next (.exit p status) = some s') :
    Accounts (es ++ [.exit p status]) s' := by
  have hwho : s.reaper.waiting.lookup p = registered es p := by rw [h.waiting, if_pos hnew]
  have hunclaimed : s.reaper.unclaimed.lookup p = none := by rw [h.unclaimed, hnew, ite_self]
  have hstop : (.stop : Event κ) ∈ es ++ [.exit p status] ↔ .stop ∈ es := by simp
  have hphase : ¬ s.phase ≠ .waiting := by
    intro hphase
    simp [Watch.next, hphase] at hnext
  cases hregistered : registered es p with
  | some who =>
    rw [hregistered] at hwho
    rw [Watch.next, if_neg hphase, reap_registered hwho] at hnext
    obtain rfl := Option.some.inj hnext
    refine ⟨fun q => ?_, fun q => ?_, fun q => ?_, h.stopping.trans hstop.symm⟩
    · rw [due_exit hnew, hregistered]
      exact h.calls_tell rfl _ q
    · change (s.reaper.waiting.filter fun e => e.1 != p).lookup q = _
      rw [lookup_filter_ne, registered_exit, ended_exit hnew, h.waiting]
      by_cases hq : q = p <;> simp [hq]
    · change s.reaper.unclaimed.lookup q = _
      rw [registered_exit, ended_exit hnew, h.unclaimed]
      by_cases hq : q = p <;> simp [hq, hregistered]
  | none =>
    rw [hregistered] at hwho
    rw [Watch.next, if_neg hphase, reap_unknown hwho] at hnext
    obtain rfl := Option.some.inj hnext
    refine ⟨fun q => ?_, fun q => ?_, fun q => ?_, h.stopping.trans hstop.symm⟩
    · rw [due_exit hnew, hregistered]
      exact h.calls_tell rfl _ q
    · change s.reaper.waiting.lookup q = _
      rw [registered_exit, ended_exit hnew, h.waiting]
      by_cases hq : q = p <;> simp [hq, hregistered]
    · have hfiltered : (s.reaper.unclaimed.filter fun e => e.1 != p).lookup p = none := by
        rw [lookup_filter_ne, if_pos rfl]
      change ((s.reaper.unclaimed.filter fun e => e.1 != p) ++ [(p, status)]).lookup q = _
      rw [lookup_concat hfiltered, lookup_filter_ne, registered_exit, ended_exit hnew, h.unclaimed]
      by_cases hq : q = p <;> simp [hq, hregistered]

/-- An event that is about no process. -/
theorem other (h : Accounts es s) (hregistration : ∀ p, e.registration? p = none)
    (hstatus : ∀ p, e.status? p = none) (htold : s'.told = s.told)
    (hwaiting : s'.reaper.waiting = s.reaper.waiting) (hunclaimed : s'.reaper.unclaimed = s.reaper.unclaimed)
    (hstopping : s'.reaper.stopping = true ↔ .stop ∈ es ++ [e]) : Accounts (es ++ [e]) s' := by
  have hregistered : ∀ p, registered (es ++ [e]) p = registered es p := fun p => by
    simp [registered_concat, hregistration]
  have hended : ∀ p, ended (es ++ [e]) p = ended es p := fun p => by simp [ended_concat, hstatus]
  refine ⟨fun p => ?_, fun p => ?_, fun p => ?_, hstopping⟩
  · rw [Watch.calls, htold, due, hregistered, hended]
    exact h.calls p
  · rw [hwaiting, hregistered, hended, h.waiting]
  · rw [hunclaimed, hregistered, hended, h.unclaimed]

end Accounts

/-! ## The thread -/

section Thread

variable {es : List (Event κ)} {e : Event κ} {s s' : Watch κ}

theorem look_waiting (hphase : s.phase = .looking) (h : s.reaper.waiting ≠ []) :
    s.next .look = some { s with phase := .waiting } := by
  simp [Watch.next, hphase, h]

theorem look_stopping (hphase : s.phase = .looking) (h : s.reaper.waiting = [])
    (hstopping : s.reaper.stopping = true) : s.next .look = some { s with phase := .ended } := by
  simp [Watch.next, hphase, h, hstopping]

/-- The thread goes on if someone waits. It ends if nobody waits and it may stop. -/
theorem look_cases (h : s.next .look = some s') :
    s.reaper.waiting ≠ [] ∧ s' = { s with phase := .waiting } ∨
      s.reaper.waiting = [] ∧ s.reaper.stopping = true ∧ s' = { s with phase := .ended } := by
  by_cases hphase : s.phase = .looking
  · by_cases hwaiting : s.reaper.waiting = []
    · by_cases hstopping : s.reaper.stopping = true
      · rw [look_stopping hphase hwaiting hstopping, Option.some.injEq] at h
        exact .inr ⟨hwaiting, hstopping, h.symm⟩
      · simp [Watch.next, hwaiting, hstopping] at h
    · rw [look_waiting hphase hwaiting, Option.some.injEq] at h
      exact .inl ⟨hwaiting, h.symm⟩
  · simp [Watch.next, hphase] at h

theorem refuse_eq (h : s.next .refuse = some s') : s' = { s with phase := .failed } := by
  by_cases hphase : s.phase = .waiting
  · simpa [Watch.next, hphase, eq_comm] using h
  · simp [Watch.next, hphase] at h

/-- The maps and the calls are a function of the events. -/
theorem accounts_of_follows (h : Follows es s) (honce : Once es) : Accounts es s := by
  induction h with
  | start => exact accounts_start
  | @event es e s s' _ hnext ih =>
    have hs := ih honce.of_concat
    cases e with
    | register p who =>
      obtain ⟨s'', hs'', haccounts⟩ := hs.exists_register honce.registered_eq_none who
      rw [hs'', Option.some.injEq] at hnext
      exact hnext ▸ haccounts
    | stop =>
      obtain rfl := Option.some.inj hnext
      exact hs.other (fun _ => rfl) (fun _ => rfl) rfl rfl rfl (by simp [Reaper.stop])
    | look =>
      have hstopping : s.reaper.stopping = true ↔ (.stop : Event κ) ∈ es ++ [.look] := by
        simpa using hs.stopping
      rcases look_cases hnext with ⟨-, rfl⟩ | ⟨-, -, rfl⟩
      · exact hs.other (fun _ => rfl) (fun _ => rfl) rfl rfl rfl hstopping
      · exact hs.other (fun _ => rfl) (fun _ => rfl) rfl rfl rfl hstopping
    | exit p status => exact hs.exit honce.ended_eq_none hnext
    | refuse =>
      obtain rfl := refuse_eq hnext
      exact hs.other (fun _ => rfl) (fun _ => rfl) rfl rfl rfl (by simpa using hs.stopping)

/-- Only by looking does the thread end. -/
theorem ends_by_look (hnext : s.next e = some s') (hended : s'.phase = .ended) (hs : s.phase ≠ .ended) :
    s.reaper.waiting = [] ∧ s.reaper.stopping = true := by
  cases e with
  | register p who =>
    rw [Watch.next] at hnext
    split at hnext
    · obtain rfl := Option.some.inj hnext
      exact absurd hended hs
    · cases hnext
  | stop =>
    obtain rfl := Option.some.inj hnext
    exact absurd hended hs
  | look =>
    rcases look_cases hnext with ⟨-, rfl⟩ | ⟨hwaiting, hstopping, -⟩
    · cases hended
    · exact ⟨hwaiting, hstopping⟩
  | exit p status =>
    rw [Watch.next] at hnext
    split at hnext
    · cases hnext
    · obtain rfl := Option.some.inj hnext
      cases hended
  | refuse =>
    obtain rfl := refuse_eq hnext
    cases hended

end Thread

/-! ## Reaping a list of ends -/

/-- The end of a process that the system reports. -/
def Event.report? : Event κ → Option (Nat × Int)
  | .exit process status => some (process, status)
  | _ => none

/-- Where the thread stands after reaping. -/
def Reaped.phase (x : Reaped κ) : Phase :=
  if x.fault.isSome then .failed else if x.blocked then .looking else .ended

/-- Reaping a list of ends is a part of a history in which the thread alone does something: it takes the
ends up to the rest, makes the calls, and leaves the reaper so. -/
structure RunsAs (es : List (Event κ)) (s : Watch κ) (ends : List (Nat × Int)) (more : List (Event κ))
    (s' : Watch κ) : Prop where
  follows : Follows (es ++ more) s'
  alone : ∀ e ∈ more, e.registers = none ∧ e ≠ .stop
  taken : more.filterMap Event.report? ++ (s.reaper.run ends).rest = ends
  told : s'.told.map Prod.snd = s.told.map Prod.snd ++ (s.reaper.run ends).told
  reaper : s'.reaper = (s.reaper.run ends).reaper
  phase : s'.phase = (s.reaper.run ends).phase

/-- Nobody waits: the thread ends, or it is blocked until something happens. -/
theorem run_idle (h : r.waiting = []) (ends : List (Nat × Int)) :
    r.run ends = { rest := ends, blocked := !r.stopping, reaper := r } := by
  cases ends with
  | nil => simp [run, h]
  | cons x rest =>
    obtain ⟨process, status⟩ := x
    simp [run, h]

theorem run_refused (h : r.waiting ≠ []) : r.run [] = { fault := some .noChildren, reaper := r } := by
  simp [run, h]

theorem run_reaping (h : r.waiting ≠ []) (p : Nat) (status : Int) (rest : List (Nat × Int)) :
    r.run ((p, status) :: rest) =
      { (r.reap p status).2.run rest with
        told := ((r.reap p status).1.map fun who => (who, status)).toList ++
          ((r.reap p status).2.run rest).told } := by
  rw [run, if_neg (by simpa using h)]
  cases r.reap p status with
  | mk who r' => cases who <;> rfl

theorem exists_run_idle {es : List (Event κ)} {s : Watch κ} (h : Follows es s) (hphase : s.phase = .looking)
    (hwaiting : s.reaper.waiting = []) (ends : List (Nat × Int)) : ∃ more s', RunsAs es s ends more s' := by
  have hrun := run_idle hwaiting ends
  by_cases hstopping : s.reaper.stopping = true
  · refine ⟨[.look], { s with phase := .ended }, ?_⟩
    constructor
    case follows => exact h.event (look_stopping hphase hwaiting hstopping)
    case alone => simp [Event.registers]
    case taken => simp [hrun, Event.report?]
    case told => simp [hrun]
    case reaper => simp [hrun]
    case phase => simp [hrun, Reaped.phase, hstopping]
  · refine ⟨[], s, ?_⟩
    constructor
    case follows => simpa using h
    case alone => simp
    case taken => simp [hrun]
    case told => simp [hrun]
    case reaper => simp [hrun]
    case phase => simp [hrun, Reaped.phase, hstopping, hphase]

theorem exists_run {es : List (Event κ)} {s : Watch κ} (h : Follows es s) (hphase : s.phase = .looking)
    (ends : List (Nat × Int)) : ∃ more s', RunsAs es s ends more s' := by
  induction ends generalizing es s with
  | nil =>
    by_cases hwaiting : s.reaper.waiting = []
    · exact exists_run_idle h hphase hwaiting []
    · have hrun := run_refused hwaiting
      have hrefuse : ({ s with phase := .waiting } : Watch κ).next .refuse =
          some { s with phase := .failed } := rfl
      refine ⟨[.look, .refuse], { s with phase := .failed }, ?_⟩
      constructor
      case follows => simpa using (h.event (look_waiting hphase hwaiting)).event hrefuse
      case alone => simp [Event.registers]
      case taken => simp [hrun, Event.report?]
      case told => simp [hrun]
      case reaper => simp [hrun]
      case phase => simp [hrun, Reaped.phase]
  | cons x rest ih =>
    obtain ⟨p, status⟩ := x
    by_cases hwaiting : s.reaper.waiting = []
    · exact exists_run_idle h hphase hwaiting _
    · -- The thread looks, takes the first end, and goes on with the rest.
      have hrun := run_reaping hwaiting p status rest
      have hexit : ({ s with phase := .waiting } : Watch κ).next (.exit p status) =
          some (({ s with reaper := (s.reaper.reap p status).2 } : Watch κ).tell p
            ((s.reaper.reap p status).1.map fun who => (who, status))) := by
        simp [Watch.next, Watch.tell, hphase]
      obtain ⟨more, s', hmore⟩ := ih ((h.event (look_waiting hphase hwaiting)).event hexit) hphase
      refine ⟨.look :: .exit p status :: more, s', ?_⟩
      constructor
      case follows => simpa using hmore.follows
      case alone =>
        intro e he
        rw [List.mem_cons, List.mem_cons] at he
        rcases he with rfl | rfl | he
        · simp [Event.registers]
        · simp [Event.registers]
        · exact hmore.alone e he
      case taken =>
        rw [hrun]
        exact congrArg ((p, status) :: ·) hmore.taken
      case told =>
        have htold := hmore.told
        rw [hrun]
        simp only [Watch.tell] at htold
        rw [htold]
        cases (s.reaper.reap p status).1 <;> simp
      case reaper =>
        rw [hrun]
        exact hmore.reaper
      case phase =>
        rw [hrun]
        exact hmore.phase

/-! ## Exactly once -/

/-- After a history, everyone has been told what they had to be told, and the thread ends rightly. -/
structure ReportedOnce (es : List (Event κ)) (s : Watch κ) : Prop extends Accounts es s where
  /-- No process is in both maps. -/
  apart : ∀ p, s.reaper.waiting.lookup p = none ∨ s.reaper.unclaimed.lookup p = none
  /-- Everyone can register for a process for which nobody has registered. -/
  accepted : ∀ p who, registered es p = none → ∃ s', s.next (.register p who) = some s'
  /-- The thread ends only if it may stop and when everyone who has registered has been told. -/
  last : ∀ e s', s.next e = some s' → s'.phase = .ended → s.phase ≠ .ended →
    .stop ∈ es ∧ s.reaper.waiting = [] ∧
      ∀ p who, registered es p = some who → ∃ status, s.calls p = [(who, status)]

theorem Accounts.reportedOnce {es : List (Event κ)} {s : Watch κ} (h : Accounts es s) : ReportedOnce es s := by
  refine ⟨h, fun p => ?_, fun p who hnew => ?_, fun e s' hnext hended hs => ?_⟩
  · rw [h.waiting, h.unclaimed]
    cases registered es p <;> cases ended es p <;> simp
  · obtain ⟨s', hs', -⟩ := h.exists_register hnew who
    exact ⟨s', hs'⟩
  · obtain ⟨hwaiting, hstopping⟩ := ends_by_look hnext hended hs
    refine ⟨h.stopping.mp hstopping, hwaiting, fun p who hwho => ?_⟩
    have hlookup := h.waiting p
    rw [hwaiting, hwho] at hlookup
    rw [h.calls, due, hwho]
    cases hended : ended es p with
    | none => simp [hended] at hlookup
    | some status => exact ⟨status, rfl⟩

/-- For every history of registrations, ends of processes, and a thread that reaps them, in which nobody
registers twice for a process and no process ends twice: at every moment those who have registered for a
process that has ended have been told so, once and with its status, and nobody else. -/
theorem ends_reported_once {es : List (Event κ)} {s : Watch κ} (h : Follows es s) (honce : Once es) :
    ReportedOnce es s ∧ (s.phase = .looking → ∀ ends, ∃ more s', RunsAs es s ends more s') :=
  ⟨(accounts_of_follows h honce).reportedOnce, fun hphase ends => exists_run h hphase ends⟩

/-- One process ends before someone registers for it, with status zero, while someone waits for another one.
The thread may stop only after that. -/
def crossing : List (Event String) :=
  [.register 1 "first", .look, .exit 2 0, .stop, .register 2 "second", .look, .exit 1 256, .look]

theorem ends_reported_once_crossing : ∃ s, Follows crossing s ∧ Once crossing ∧ s.phase = .ended ∧
    ReportedOnce crossing s ∧ s.calls 1 = [("first", 256)] ∧ s.calls 2 = [("second", 0)] := by
  have honce : Once crossing := ⟨by decide, by decide⟩
  obtain ⟨s, hfollows, hphase⟩ : ∃ s, Follows crossing s ∧ s.phase = .ended :=
    ⟨_, (((((((Follows.start.event (e := .register 1 "first") rfl).event (e := .look) rfl).event
      (e := .exit 2 0) rfl).event (e := .stop) rfl).event (e := .register 2 "second") rfl).event
      (e := .look) rfl).event (e := .exit 1 256) rfl).event (e := .look) rfl, rfl⟩
  obtain ⟨hreported, -⟩ := ends_reported_once hfollows honce
  exact ⟨s, hfollows, honce, hphase, hreported, hreported.calls 1, hreported.calls 2⟩

end ValueShell.Reaper
