import ValueShell.Pipeline.ValuePipe
import Mathlib.Data.List.Induction
import Mathlib.Logic.Relation

/-!
# A pipe delivers what was added to it

A pipe, its reader and the values that the reader has handed on form a `Conduit`. Writers add sources to
the pipe and close it, and the reader reads, in any order (`Conduit.Event`). A reader that asks for a value
may take several empty sources before it finds one, and others may write in between, so taking a single
source is an event of its own (`Conduit.look`).

Whatever the reader is asked for, it makes elementary moves only: it hands on a value of its source, takes
the source that waits in front, or finds the end (`Conduit.Moves`). Each of them keeps every added source
either taken or waiting, and keeps the values of the taken sources in the place and the order in which they
were taken (`Conduit.Shares`). The reader ends only on a closed pipe of which it has taken and read all.
-/

set_option autoImplicit false

namespace ValueShell

/-- The values of a source. -/
def Batch.contents : Batch → List Value
  | .values vs => vs
  | .missing | .unusable => []

namespace PipeReader

/-- The value that was found. -/
def Next.value? : Next → Option Value
  | .value v => some v
  | .ended | .blocked | .failed _ => none

/-- A reader that has just taken a source. -/
def ofBatch : Batch → PipeReader
  | .values vs => { current := vs }
  | .missing | .unusable => { ended := true }

/-- What a reader that has not ended gets, by the values that are left for it. -/
def due (closed : Bool) : List Value → Next
  | v :: _ => .value v
  | [] => if closed then .ended else .blocked

end PipeReader

/-- A pipe with its reader, and the values that the reader has handed on. -/
structure Conduit where
  pipe : ValuePipe Batch := {}
  reader : PipeReader := {}
  yielded : List Value := []

namespace Conduit

/-- What can happen at a pipe. -/
inductive Event where
  /-- A writer adds a source of these values. -/
  | add (vs : List Value)
  | close
  /-- The reader takes a source if it has none. -/
  | look
  /-- The reader is asked for a value. -/
  | next
  /-- The reader is asked for all values that are left. -/
  | rest

/-- The source that is added. -/
def Event.source? : Event → Option (List Value)
  | .add vs => some vs
  | .close | .look | .next | .rest => none

/-- The sources that are added, in this order. -/
def added (es : List Event) : List (List Value) := es.filterMap Event.source?

theorem added_concat (es : List Event) (e : Event) : added (es ++ [e]) = added es ++ e.source?.toList := by
  cases e <;> simp [added, Event.source?]

/-- A reader without a source takes the next one. -/
def look (s : Conduit) : Conduit :=
  if s.reader.ended || !s.reader.current.isEmpty then s
  else
    match s.pipe.take with
    | .source b pipe => { s with pipe, reader := .ofBatch b }
    | .ended => { s with reader := { ended := true } }
    | .blocked => s

/-- The reader hands on the next value. -/
def next (s : Conduit) : Conduit :=
  let (found, pipe, reader) := s.reader.next s.pipe
  { pipe, reader, yielded := s.yielded ++ found.value?.toList }

/-- The reader hands on what it finds in this many steps. -/
def drained (n : Nat) (s : Conduit) : Conduit :=
  let (vs, _, pipe, reader) := PipeReader.drain n s.reader s.pipe
  { pipe, reader, yielded := s.yielded ++ vs }

/-- The reader hands on all values that are left. -/
def rest (s : Conduit) : Conduit :=
  let (vs, _, pipe, reader) := s.reader.rest s.pipe
  { pipe, reader, yielded := s.yielded ++ vs }

/-- What comes of an event. -/
def step (s : Conduit) : Event → Conduit
  | .add vs => { s with pipe := s.pipe.add (.values vs) }
  | .close => { s with pipe := s.pipe.close }
  | .look => s.look
  | .next => s.next
  | .rest => s.rest

/-- A new pipe for this kind of reader, after a history of events. -/
def after (kind : StreamKind) (es : List Event) : Conduit := es.foldl step { pipe := { reader := kind } }

theorem after_concat (kind : StreamKind) (es : List Event) (e : Event) :
    after kind (es ++ [e]) = (after kind es).step e :=
  List.foldl_append

/-- The values that the reader has not handed on, the source that it is reading first. -/
def left (s : Conduit) : List Value := s.reader.current ++ s.pipe.waiting.flatMap Batch.contents

/-! ## The moves of a reader -/

/-- An elementary move of the reader. -/
inductive Move (s : Conduit) : Conduit → Prop
  | yields {v : Value} {vs : List Value} (hreader : s.reader = { current := v :: vs }) :
      Move s { s with reader := { current := vs }, yielded := s.yielded ++ [v] }
  | takes {b : Batch} {rest : List Batch} (hreader : s.reader = {}) (hwaiting : s.pipe.waiting = b :: rest) :
      Move s { s with pipe := { s.pipe with waiting := rest }, reader := .ofBatch b }
  | ends (hreader : s.reader = {}) (hwaiting : s.pipe.waiting = []) (hclosed : s.pipe.closed = true) :
      Move s { s with reader := { ended := true } }

/-- Some moves of the reader, one after the other. -/
def Moves : Conduit → Conduit → Prop := Relation.ReflTransGen Move

theorem moves_look (s : Conduit) : Moves s s.look := by
  obtain ⟨⟨kind, waiting, closed⟩, ⟨current, ended⟩, yielded⟩ := s
  cases ended with
  | true => exact .refl
  | false =>
    cases current with
    | cons v vs => exact .refl
    | nil =>
      cases waiting with
      | cons b rest => exact .single (.takes rfl rfl)
      | nil =>
        cases closed with
        | true => exact .single (.ends rfl rfl rfl)
        | false => exact .refl

/-- A reader that has taken a source beforehand hands on the same. -/
theorem next_look (s : Conduit) : s.look.next = s.next := by
  obtain ⟨⟨kind, waiting, closed⟩, ⟨current, ended⟩, yielded⟩ := s
  cases ended with
  | true => rfl
  | false =>
    cases current with
    | cons v vs => rfl
    | nil =>
      cases waiting with
      | nil => cases closed <;> rfl
      | cons b rest =>
        cases b with
        | values vs => cases vs <;> rfl
        | missing => cases closed <;> rfl
        | unusable => rfl

theorem next_of_ended {s : Conduit} (h : s.reader.ended = true) : s.next = s := by
  simp [next, PipeReader.next, PipeReader.Next.value?, h]

theorem next_of_current {s : Conduit} {v : Value} {vs : List Value} (h : s.reader = { current := v :: vs }) :
    s.next = { s with reader := { current := vs }, yielded := s.yielded ++ [v] } := by
  simp [next, PipeReader.next, PipeReader.Next.value?, h]

theorem next_of_empty {s : Conduit} (h : s.reader = {}) (hwaiting : s.pipe.waiting = []) :
    s.next = s.look := by
  obtain ⟨⟨kind, waiting, closed⟩, reader, yielded⟩ := s
  obtain rfl : waiting = [] := hwaiting
  obtain rfl : reader = {} := h
  cases closed <;>
    simp [next, look, PipeReader.next, PipeReader.advance, PipeReader.Next.value?, ValuePipe.take]

theorem reader_cases (r : PipeReader) :
    r.ended = true ∨ (∃ v vs, r = { current := v :: vs }) ∨ r = {} := by
  obtain ⟨current, ended⟩ := r
  cases ended with
  | true => exact .inl rfl
  | false =>
    cases current with
    | cons v vs => exact .inr (.inl ⟨v, vs, rfl⟩)
    | nil => exact .inr (.inr rfl)

theorem moves_next (s : Conduit) : Moves s s.next := by
  rcases reader_cases s.reader with h | ⟨v, vs, h⟩ | h
  · rw [next_of_ended h]
    exact .refl
  · rw [next_of_current h]
    exact .single (.yields h)
  · cases hwaiting : s.pipe.waiting with
    | nil =>
      rw [next_of_empty h hwaiting]
      exact moves_look s
    | cons b rest =>
      have hlook : s.look.pipe.waiting = rest := by simp [look, ValuePipe.take, h, hwaiting]
      rw [← next_look s]
      exact (moves_look s).trans (moves_next s.look)
termination_by s.pipe.waiting.length
decreasing_by simp [hlook, hwaiting]

/-- A move changes the place of values, and their order nowhere. -/
theorem Move.whole {s t : Conduit} (h : Move s t) : t.yielded ++ t.left = s.yielded ++ s.left := by
  cases h with
  | yields hreader => simp [left, hreader]
  | @takes b rest hreader hwaiting =>
    cases b <;> simp [left, hreader, hwaiting, PipeReader.ofBatch, Batch.contents]
  | ends hreader hwaiting _ => simp [left, hreader, hwaiting]

theorem Moves.whole {s t : Conduit} (h : Moves s t) : t.yielded ++ t.left = s.yielded ++ s.left := by
  induction h with
  | refl => rfl
  | tail _ hmove ih => exact hmove.whole.trans ih

/-- The bound of a reader is exact. -/
theorem bound_eq (s : Conduit) : s.reader.bound s.pipe = s.left.length := by
  simp only [left, List.length_append, List.length_flatMap, List.sum_eq_foldl_nat, PipeReader.bound]
  congr 3
  funext b
  cases b <;> rfl

theorem left_of_found {s : Conduit} {v : Value} (h : (s.reader.next s.pipe).1.value? = some v) :
    s.left = v :: s.next.left := by
  have hyielded : s.next.yielded = s.yielded ++ [v] := by simp [next, h]
  have hwhole := (moves_next s).whole
  rw [hyielded, List.append_assoc] at hwhole
  exact (List.append_cancel_left hwhole).symm

theorem drained_of_found {s : Conduit} {v : Value} (n : Nat)
    (h : (s.reader.next s.pipe).1.value? = some v) : drained (n + 1) s = drained n s.next := by
  rcases hnext : s.reader.next s.pipe with ⟨found, pipe, reader⟩
  rw [hnext] at h
  cases found with
  | value u =>
    obtain rfl : u = v := Option.some.inj h
    simp [drained, PipeReader.drain, next, hnext, PipeReader.Next.value?]
  | ended | blocked | failed _ => cases h

theorem drained_of_none {s : Conduit} (n : Nat) (h : (s.reader.next s.pipe).1.value? = none) :
    drained n s = s.next := by
  rcases hnext : s.reader.next s.pipe with ⟨found, pipe, reader⟩
  rw [hnext] at h
  cases found with
  | value u => cases h
  | ended | blocked | failed _ =>
    cases n <;> simp [drained, PipeReader.drain, next, hnext, PipeReader.Next.value?]

/-- Enough steps drop no value. -/
theorem moves_drained (n : Nat) (s : Conduit) (h : s.left.length ≤ n) : Moves s (drained n s) := by
  induction n generalizing s with
  | zero =>
    cases hfound : (s.reader.next s.pipe).1.value? with
    | none =>
      rw [drained_of_none 0 hfound]
      exact moves_next s
    | some v =>
      rw [left_of_found hfound, List.length_cons] at h
      omega
  | succ n ih =>
    cases hfound : (s.reader.next s.pipe).1.value? with
    | none =>
      rw [drained_of_none (n + 1) hfound]
      exact moves_next s
    | some v =>
      rw [left_of_found hfound, List.length_cons] at h
      rw [drained_of_found n hfound]
      exact (moves_next s).trans (ih s.next (by omega))

theorem moves_rest (s : Conduit) : Moves s s.rest :=
  moves_drained (s.reader.bound s.pipe) s (Nat.le_of_eq (bound_eq s).symm)

/-! ## Where the values are -/

/-- Each added source is either taken or waits. The taken ones are handed on one after the other, each as a
whole, up to what is left of the last of them. -/
structure Shares (es : List Event) (taken queued : List (List Value)) (s : Conduit) : Prop where
  once : (taken ++ queued).Perm (added es)
  read : s.yielded ++ s.reader.current = taken.flatten
  current : s.reader.current <:+ taken.getLast?.getD []
  waiting : s.pipe.waiting = queued.map .values
  closed : s.pipe.closed = true ↔ Event.close ∈ es

/-- Every added value has its place. -/
def Sound (es : List Event) (s : Conduit) : Prop := ∃ taken queued, Shares es taken queued s

variable {es : List Event} {s t : Conduit}

theorem Sound.start (kind : StreamKind) : Sound [] (after kind []) := by
  refine ⟨[], [], ?_, rfl, List.suffix_refl _, rfl, ?_⟩
  · exact .refl _
  · simp [after]

theorem Sound.add (h : Sound es s) (vs : List Value) : Sound (es ++ [.add vs]) (s.step (.add vs)) := by
  obtain ⟨taken, queued, h⟩ := h
  refine ⟨taken, vs :: queued, ?_, h.read, h.current, ?_, ?_⟩
  · rw [added_concat]
    exact List.perm_middle.trans ((h.once.cons vs).trans (List.perm_append_singleton vs _).symm)
  · simp [step, ValuePipe.add, h.waiting]
  · simp [step, ValuePipe.add, h.closed]

theorem Sound.close (h : Sound es s) : Sound (es ++ [.close]) (s.step .close) := by
  obtain ⟨taken, queued, h⟩ := h
  refine ⟨taken, queued, ?_, h.read, h.current, h.waiting, ?_⟩
  · simpa [added_concat, Event.source?] using h.once
  · simp [step, ValuePipe.close]

/-- An event of the reader tells nothing of what is written. -/
theorem Sound.concat (h : Sound es s) {e : Event} (hsource : e.source? = none) (hclose : Event.close ≠ e) :
    Sound (es ++ [e]) s := by
  obtain ⟨taken, queued, h⟩ := h
  refine ⟨taken, queued, ?_, h.read, h.current, h.waiting, ?_⟩
  · simpa [added_concat, hsource] using h.once
  · simpa [hclose] using h.closed

theorem Sound.move (h : Sound es s) (hmove : Move s t) : Sound es t := by
  obtain ⟨taken, queued, h⟩ := h
  cases hmove with
  | @yields v vs hreader =>
    have hread := h.read
    have hcurrent := h.current
    rw [hreader] at hread hcurrent
    refine ⟨taken, queued, h.once, ?_, ?_, h.waiting, h.closed⟩
    · simpa using hread
    · exact (List.suffix_cons v vs).trans hcurrent
  | @takes b rest hreader hwaiting =>
    have hread := h.read
    have hqueue := h.waiting
    rw [hreader, List.append_nil] at hread
    rw [hwaiting] at hqueue
    cases queued with
    | nil => cases hqueue
    | cons vs queued =>
      obtain ⟨rfl, rfl⟩ := List.cons.inj hqueue
      refine ⟨taken ++ [vs], queued, ?_, ?_, ?_, rfl, h.closed⟩
      · simpa using h.once
      · simp [PipeReader.ofBatch, hread]
      · simp [PipeReader.ofBatch]
  | ends hreader hwaiting hclosed =>
    have hread := h.read
    rw [hreader] at hread
    exact ⟨taken, queued, h.once, hread, List.nil_suffix, h.waiting, h.closed⟩

theorem Sound.moves (h : Sound es s) (hmoves : Moves s t) : Sound es t := by
  induction hmoves with
  | refl => exact h
  | tail _ hmove ih => exact ih.move hmove

theorem Sound.step (h : Sound es s) (e : Event) : Sound (es ++ [e]) (s.step e) := by
  cases e with
  | add vs => exact h.add vs
  | close => exact h.close
  | look => exact (h.moves (moves_look s)).concat rfl nofun
  | next => exact (h.moves (moves_next s)).concat rfl nofun
  | rest => exact (h.moves (moves_rest s)).concat rfl nofun

theorem sound_after (kind : StreamKind) (es : List Event) : Sound es (after kind es) := by
  induction es using List.reverseRecOn with
  | nil => exact .start kind
  | append_singleton es e ih =>
    rw [after_concat]
    exact ih.step e

/-! ## What a reader finds -/

theorem advance_found (closed : Bool) (queued : List (List Value)) :
    (PipeReader.advance closed (queued.map .values)).1 = PipeReader.due closed queued.flatten := by
  induction queued with
  | nil => cases closed <;> rfl
  | cons vs queued ih =>
    cases vs with
    | nil => exact ih
    | cons v vs => rfl

/-- A reader that has not ended gets the first of the values that are left, and waits when none is. -/
theorem Sound.found (h : Sound es s) :
    (s.reader.next s.pipe).1 =
      if s.reader.ended then .ended else PipeReader.due s.pipe.closed s.left := by
  obtain ⟨taken, queued, h⟩ := h
  rcases reader_cases s.reader with hreader | ⟨v, vs, hreader⟩ | hreader
  · simp [PipeReader.next, hreader]
  · simp [PipeReader.next, hreader, left, PipeReader.due]
  · have hleft : s.left = queued.flatten := by
      simp only [left, hreader, h.waiting, List.nil_append, List.flatMap_map]
      exact List.flatMap_id
    have hfound := advance_found s.pipe.closed queued
    rw [← h.waiting] at hfound
    simp [PipeReader.next, hreader, hleft, hfound]

/-! ## The end of reading -/

theorem Move.not_ended (h : Move s t) : s.reader.ended = false := by
  cases h with
  | yields hreader | takes hreader _ | ends hreader _ _ => rw [hreader]

theorem Moves.eq_of_ended (h : Moves s t) (hended : s.reader.ended = true) : t = s := by
  rcases h.cases_head with rfl | ⟨u, hmove, _⟩
  · rfl
  · rw [hmove.not_ended] at hended
    cases hended

theorem step_of_ended (h : s.reader.ended = true) (e : Event) :
    (s.step e).reader = s.reader ∧ (s.step e).yielded = s.yielded := by
  cases e with
  | add vs => exact ⟨rfl, rfl⟩
  | close => exact ⟨rfl, rfl⟩
  | look => simp [step, (moves_look s).eq_of_ended h]
  | next => simp [step, (moves_next s).eq_of_ended h]
  | rest => simp [step, (moves_rest s).eq_of_ended h]

/-- Nothing is read after the end. -/
theorem after_of_ended {kind : StreamKind} (h : (after kind es).reader.ended = true) (later : List Event) :
    (after kind (es ++ later)).reader.ended = true ∧
      (after kind (es ++ later)).yielded = (after kind es).yielded := by
  induction later using List.reverseRecOn with
  | nil => simpa using h
  | append_singleton later e ih =>
    obtain ⟨hended, hyielded⟩ := ih
    obtain ⟨hreader, hkept⟩ := step_of_ended hended e
    rw [← List.append_assoc, after_concat, hreader, hkept]
    exact ⟨hended, hyielded⟩

/-- The reader finds the end only on a closed pipe, when all is handed on. -/
theorem Sound.ending (h : Sound es s) (hopen : s.reader.ended = false) (hmoves : Moves s t)
    (hended : t.reader.ended = true) :
    Event.close ∈ es ∧ ∃ taken : List (List Value), taken.Perm (added es) ∧ t.yielded = taken.flatten := by
  rcases hmoves.cases_tail with rfl | ⟨u, hprior, hmove⟩
  · rw [hopen] at hended
    cases hended
  obtain ⟨taken, queued, hu⟩ := h.moves hprior
  have hqueue := hu.waiting
  cases hmove with
  | yields => cases hended
  | takes hreader hwaiting =>
    rw [hwaiting] at hqueue
    cases queued with
    | nil => cases hqueue
    | cons vs queued =>
      obtain ⟨rfl, _⟩ := List.cons.inj hqueue
      cases hended
  | ends hreader hwaiting hclosed =>
    have hread := hu.read
    have honce := hu.once
    rw [hreader, List.append_nil] at hread
    rw [hwaiting] at hqueue
    obtain rfl : queued = [] := List.map_eq_nil_iff.mp hqueue.symm
    rw [List.append_nil] at honce
    exact ⟨hu.closed.mp hclosed, taken, honce, hread⟩

/-- With this event the reader finds the end. Until then the pipe was closed, and all values of all sources
were handed on. -/
structure EndsWith (kind : StreamKind) (before : List Event) (e : Event) : Prop where
  reading : (after kind before).reader.ended = false
  ended : (after kind (before ++ [e])).reader.ended = true
  closed : Event.close ∈ before
  exhausted : ∃ taken : List (List Value),
    taken.Perm (added before) ∧ (after kind (before ++ [e])).yielded = taken.flatten

theorem endsWith_of_ended {kind : StreamKind} {before : List Event} {e : Event}
    (hreading : (after kind before).reader.ended = false)
    (hended : (after kind (before ++ [e])).reader.ended = true) : EndsWith kind before e := by
  have hsound := sound_after kind before
  have hmoves : Moves (after kind before) (after kind (before ++ [e])) := by
    rw [after_concat] at hended ⊢
    cases e with
    | add vs | close =>
      have hsame : (after kind before).reader.ended = true := hended
      rw [hreading] at hsame
      cases hsame
    | look => exact moves_look _
    | next => exact moves_next _
    | rest => exact moves_rest _
  obtain ⟨hclosed, hexhausted⟩ := hsound.ending hreading hmoves hended
  exact ⟨hreading, hended, hclosed, hexhausted⟩

theorem exists_endsWith {kind : StreamKind} (h : (after kind es).reader.ended = true) :
    ∃ before e later, es = before ++ e :: later ∧ EndsWith kind before e := by
  induction es using List.reverseRecOn with
  | nil => cases h
  | append_singleton es e ih =>
    cases hended : (after kind es).reader.ended with
    | true =>
      obtain ⟨before, last, later, rfl, hends⟩ := ih hended
      exact ⟨before, last, later ++ [e], by simp, hends⟩
    | false => exact ⟨es, e, [], rfl, endsWith_of_ended hended h⟩

/-- Whatever is written and read in whatever order, every source that was added is either taken or waits,
and the taken ones are handed on one after the other, each once, as a whole and in its own order, up to what
is left of the last of them. The reader gets a value as long as one is left. It ends exactly when, at some
moment, the pipe was closed and every source added until then was handed on as a whole, and after that
moment it hands on nothing more. -/
theorem delivered_once (kind : StreamKind) (es : List Event) :
    (∃ taken queued, Shares es taken queued (after kind es)) ∧
      ((after kind es).reader.next (after kind es).pipe).1 =
        (if (after kind es).reader.ended then .ended
          else PipeReader.due (after kind es).pipe.closed (after kind es).left) ∧
      ((after kind es).reader.ended = true ↔
        ∃ before e later, es = before ++ e :: later ∧ EndsWith kind before e ∧
          (after kind es).yielded = (after kind (before ++ [e])).yielded) := by
  have hsound := sound_after kind es
  refine ⟨hsound, hsound.found, ?_, ?_⟩
  · intro hended
    obtain ⟨before, e, later, rfl, hends⟩ := exists_endsWith hended
    have hlater := after_of_ended hends.ended later
    rw [List.append_assoc, List.singleton_append] at hlater
    exact ⟨before, e, later, rfl, hends, hlater.2⟩
  · rintro ⟨before, e, later, rfl, hends, -⟩
    have hlater := after_of_ended hends.ended later
    rw [List.append_assoc, List.singleton_append] at hlater
    exact hlater.1

example :
    (after .values [.add [.int 1, .int 2], .next, .add [.int 3], .close, .add [.int 4, .int 5], .rest]).yielded =
      [.int 1, .int 2, .int 4, .int 5, .int 3] :=
  rfl

end Conduit

end ValueShell
