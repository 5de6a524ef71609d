import ValueShell.Proofs.Pipeline.Delivery
import Mathlib.Data.List.Basic

/-!
# The order in which sources are handed on

A value does not tell which source it comes from. A pipe does not look at the values either
(`Conduit.after_map`), so the run in which every value carries the number of its source (`numbered`) is the
same run, and it tells the origin of everything that is handed on (`handed`).

The reader takes the newest of the sources that wait. Of two sources, the later one is handed on first if
the earlier one waits when the later one is added, and the earlier one otherwise. So the order of adding is
kept as long as nothing is handed on of a source that was added while values were waiting.
-/

set_option autoImplicit false

namespace ValueShell

/-- A source with other values in the place of its own. -/
def Batch.map (f : Value → Value) : Batch → Batch
  | .values vs => .values (vs.map f)
  | .missing => .missing
  | .unusable => .unusable

namespace Conduit

/-! ## A pipe does not look at values -/

/-- A pipe and its reader with other values in the place of their own. -/
def map (f : Value → Value) (s : Conduit) : Conduit where
  pipe := { s.pipe with waiting := s.pipe.waiting.map (Batch.map f) }
  reader := { s.reader with current := s.reader.current.map f }
  yielded := s.yielded.map f

/-- An event with other values in the place of its own. -/
def Event.map (f : Value → Value) : Event → Event
  | .add vs => .add (vs.map f)
  | .close => .close
  | .look => .look
  | .next => .next
  | .rest => .rest

theorem look_map (f : Value → Value) (s : Conduit) : (s.map f).look = s.look.map f := by
  obtain ⟨⟨kind, waiting, closed⟩, ⟨current, ended⟩, yielded⟩ := s
  cases ended with
  | true => rfl
  | false =>
    cases current with
    | cons v vs => rfl
    | nil =>
      cases waiting with
      | nil => cases closed <;> rfl
      | cons b rest => cases b <;> rfl

theorem next_map (f : Value → Value) (s : Conduit) : (s.map f).next = s.next.map f := by
  rcases reader_cases s.reader with h | ⟨v, vs, h⟩ | h
  · rw [next_of_ended h, next_of_ended (s := s.map f) h]
  · have hmapped : (s.map f).reader = { current := f v :: vs.map f } := by simp [map, h]
    rw [next_of_current h, next_of_current hmapped]
    simp [map]
  · have hmapped : (s.map f).reader = {} := by simp [map, h]
    cases hwaiting : s.pipe.waiting with
    | nil =>
      rw [next_of_empty h hwaiting, next_of_empty hmapped (by simp [map, hwaiting])]
      exact look_map f s
    | cons b rest =>
      have hlook : s.look.pipe.waiting = rest := by simp [look, ValuePipe.take, h, hwaiting]
      rw [← next_look s, ← next_look (s.map f), look_map f s]
      exact next_map f s.look
termination_by s.pipe.waiting.length
decreasing_by simp [hlook, hwaiting]

theorem found_map (f : Value → Value) (s : Conduit) :
    ((s.map f).reader.next (s.map f).pipe).1.value? = (s.reader.next s.pipe).1.value?.map f := by
  have hyielded : (s.map f).next.yielded = (s.next.map f).yielded := by rw [next_map]
  simp only [next, map, List.map_append, List.append_cancel_left_eq] at hyielded
  cases hfound : (s.reader.next s.pipe).1.value? with
  | none =>
    rw [hfound] at hyielded
    exact Option.toList_eq_nil_iff.mp hyielded
  | some v =>
    rw [hfound] at hyielded
    exact Option.toList_eq_singleton_iff.mp hyielded

theorem left_map (f : Value → Value) (s : Conduit) : (s.map f).left = s.left.map f := by
  simp only [left, map, List.map_append, List.map_flatMap, List.flatMap_map]
  congr 2
  funext b
  cases b <;> rfl

theorem drained_map (f : Value → Value) (n : Nat) (s : Conduit) (h : s.left.length ≤ n) :
    drained n (s.map f) = (drained n s).map f := by
  induction n generalizing s with
  | zero =>
    cases hfound : (s.reader.next s.pipe).1.value? with
    | none =>
      rw [drained_of_none 0 hfound, drained_of_none 0 (by rw [found_map, hfound]; rfl)]
      exact next_map f s
    | some v =>
      rw [left_of_found hfound, List.length_cons] at h
      omega
  | succ n ih =>
    cases hfound : (s.reader.next s.pipe).1.value? with
    | none =>
      rw [drained_of_none (n + 1) hfound, drained_of_none (n + 1) (by rw [found_map, hfound]; rfl)]
      exact next_map f s
    | some v =>
      rw [left_of_found hfound, List.length_cons] at h
      rw [drained_of_found n hfound, drained_of_found (v := f v) n (by rw [found_map, hfound]; rfl),
        next_map f s]
      exact ih s.next (by omega)

theorem rest_map (f : Value → Value) (s : Conduit) : (s.map f).rest = s.rest.map f := by
  have hbound : (s.map f).reader.bound (s.map f).pipe = s.reader.bound s.pipe := by
    rw [bound_eq, bound_eq, left_map, List.length_map]
  have hdrained := drained_map f (s.reader.bound s.pipe) s (Nat.le_of_eq (bound_eq s).symm)
  show drained ((s.map f).reader.bound (s.map f).pipe) (s.map f) = _
  rw [hbound]
  exact hdrained

theorem step_map (f : Value → Value) (s : Conduit) (e : Event) :
    (s.map f).step (e.map f) = (s.step e).map f := by
  cases e with
  | add vs => rfl
  | close => rfl
  | look => exact look_map f s
  | next => exact next_map f s
  | rest => exact rest_map f s

/-- A run with other values goes as the run does. -/
theorem after_map (f : Value → Value) (kind : StreamKind) (es : List Event) :
    after kind (es.map (Event.map f)) = (after kind es).map f := by
  induction es using List.reverseRecOn with
  | nil => rfl
  | append_singleton es e ih =>
    rw [List.map_append, List.map_singleton, after_concat, after_concat, ih]
    exact step_map f (after kind es) e

/-! ## Numbered sources -/

/-- The source of this number, in the order of adding. -/
def source (es : List Event) (i : Nat) : List Value := (added es)[i]?.getD []

/-- A value that carries the number of its source. -/
def stamp (n : Nat) (v : Value) : Value := .tuple [.int n, v]

/-- The number of its source that a value carries, and the value itself. -/
def unstamp : Value → Nat × Value
  | .tuple [.int n, v] => (n.toNat, v)
  | v => (0, v)

@[simp]
theorem unstamp_stamp (n : Nat) (v : Value) : unstamp (stamp n v) = (n, v) := rfl

/-- A history whose values carry the numbers of their sources; the first source has the number `n`. -/
def numberedFrom (n : Nat) : List Event → List Event
  | [] => []
  | e :: es => e.map (stamp n) :: numberedFrom (n + e.source?.toList.length) es

/-- A history whose values carry the numbers of their sources. -/
def numbered (es : List Event) : List Event := numberedFrom 0 es

/-- The values that are handed on, each with the number of its source. -/
def handed (kind : StreamKind) (es : List Event) : List (Nat × Value) :=
  (after kind (numbered es)).yielded.map unstamp

/-- The numbers of the sources that wait and have values. -/
def queue (kind : StreamKind) (es : List Event) : List Nat :=
  ((after kind (numbered es)).pipe.waiting.flatMap Batch.contents).map fun v => (unstamp v).1

/-- The values of one source among values with the numbers of their sources. -/
def valuesFrom (i : Nat) (ys : List (Nat × Value)) : List Value :=
  (ys.filter fun y => y.1 = i).map Prod.snd

/-- Whenever a value of the source `j` is handed on, all values of the source `i` have been before. -/
def Precedes (kind : StreamKind) (es : List Event) (i j : Nat) : Prop :=
  ∀ ys v zs, handed kind es = ys ++ (j, v) :: zs → valuesFrom i ys = source es i

theorem numberedFrom_concat (n : Nat) (es : List Event) (e : Event) :
    numberedFrom n (es ++ [e]) = numberedFrom n es ++ [e.map (stamp (n + (added es).length))] := by
  induction es generalizing n with
  | nil => simp [numberedFrom, added]
  | cons d es ih =>
    have hlength : (added (d :: es)).length = d.source?.toList.length + (added es).length := by
      cases d <;> simp [added, List.filterMap_cons, Event.source?, Nat.add_comm]
    simp only [List.cons_append, numberedFrom, ih, hlength, Nat.add_assoc]

theorem numbered_concat (es : List Event) (e : Event) :
    numbered (es ++ [e]) = numbered es ++ [e.map (stamp (added es).length)] := by
  simpa [numbered] using numberedFrom_concat 0 es e

/-- The numbers taken off, the history is the one that was numbered. -/
theorem map_unstamp_numbered (es : List Event) :
    (numbered es).map (Event.map fun v => (unstamp v).2) = es := by
  induction es using List.reverseRecOn with
  | nil => rfl
  | append_singleton es e ih =>
    rw [numbered_concat, List.map_append, ih, List.map_singleton]
    cases e <;> simp [Event.map, Function.comp_def]

theorem handed_values (kind : StreamKind) (es : List Event) :
    (handed kind es).map Prod.snd = (after kind es).yielded := by
  have hrun := after_map (fun v => (unstamp v).2) kind (numbered es)
  rw [map_unstamp_numbered] at hrun
  rw [hrun, handed, List.map_map]
  rfl

theorem queue_eq_nil_iff (kind : StreamKind) (es : List Event) :
    queue kind es = [] ↔ (after kind es).pipe.waiting.flatMap Batch.contents = [] := by
  have hrun := after_map (fun v => (unstamp v).2) kind (numbered es)
  rw [map_unstamp_numbered] at hrun
  have hcontents (b : Batch) : (b.map fun v => (unstamp v).2).contents = [] ↔ b.contents = [] := by
    cases b <;> simp [Batch.map, Batch.contents]
  rw [hrun, queue]
  simp only [map, List.map_eq_nil_iff, List.flatMap_eq_nil_iff, List.mem_map, forall_exists_index, and_imp,
    forall_apply_eq_imp_iff₂, hcontents]

/-! ## The books of a numbered run -/

/-- Each source is taken or waits under its number, the newest in front, and the taken ones are handed on
one after the other. -/
structure Books (es : List Event) (taken queued : List Nat) (s : Conduit) : Prop where
  once : (taken ++ queued).Perm (List.range (added es).length)
  newest : queued.Pairwise (· > ·)
  read : s.yielded ++ s.reader.current = taken.flatMap fun i => (source es i).map (stamp i)
  waiting : s.pipe.waiting = queued.map fun i => .values ((source es i).map (stamp i))

variable {kind : StreamKind} {es : List Event} {taken queued : List Nat} {s t : Conduit} {i j : Nat}

theorem Books.mem_iff (h : Books es taken queued s) (i : Nat) :
    i ∈ taken ∨ i ∈ queued ↔ i < (added es).length := by
  rw [← List.mem_append, h.once.mem_iff, List.mem_range]

theorem Books.nodup (h : Books es taken queued s) : (taken ++ queued).Nodup :=
  h.once.nodup_iff.mpr List.nodup_range

/-- A move of the reader takes a source or none. -/
theorem Books.move (h : Books es taken queued s) (hmove : Move s t) :
    ∃ more queued', queued = more ++ queued' ∧ Books es (taken ++ more) queued' t := by
  cases hmove with
  | @yields v vs hreader =>
    have hread := h.read
    rw [hreader] at hread
    refine ⟨[], queued, rfl, ?_, h.newest, ?_, h.waiting⟩
    · simpa using h.once
    · simpa using hread
  | @takes b rest hreader hwaiting =>
    have hread := h.read
    have hqueue := h.waiting
    rw [hreader, List.append_nil] at hread
    rw [hwaiting] at hqueue
    cases queued with
    | nil => cases hqueue
    | cons i queued =>
      obtain ⟨rfl, rfl⟩ := List.cons.inj hqueue
      refine ⟨[i], queued, rfl, ?_, (List.pairwise_cons.mp h.newest).2, ?_, rfl⟩
      · simpa using h.once
      · simp [PipeReader.ofBatch, hread]
  | ends hreader hwaiting hclosed =>
    have hread := h.read
    rw [hreader] at hread
    refine ⟨[], queued, rfl, ?_, h.newest, ?_, h.waiting⟩
    · simpa using h.once
    · simpa using hread

theorem Books.moves (h : Books es taken queued s) (hmoves : Moves s t) :
    ∃ more queued', queued = more ++ queued' ∧ Books es (taken ++ more) queued' t := by
  induction hmoves with
  | refl => exact ⟨[], queued, rfl, by simpa using h⟩
  | tail _ hmove ih =>
    obtain ⟨more, rest, rfl, hbooks⟩ := ih
    obtain ⟨more', rest', rfl, hbooks'⟩ := hbooks.move hmove
    exact ⟨more ++ more', rest', by simp, by simpa using hbooks'⟩

/-- What was added stays what it was. -/
theorem source_append (es later : List Event) (h : i < (added es).length) :
    source (es ++ later) i = source es i := by
  have happend : added (es ++ later) = added es ++ added later := List.filterMap_append
  rw [source, source, happend, List.getElem?_append_left h]

/-- An event of the reader changes nothing of what was added. -/
theorem Books.concat (h : Books es taken queued s) {e : Event} (hsource : e.source? = none) :
    Books (es ++ [e]) taken queued s := by
  have hadded : added (es ++ [e]) = added es := by simp [added_concat, hsource]
  refine ⟨by simpa [hadded] using h.once, h.newest, ?_, ?_⟩
  · simpa only [source, hadded] using h.read
  · simpa only [source, hadded] using h.waiting

theorem Books.add (h : Books es taken queued s) (vs : List Value) :
    Books (es ++ [.add vs]) taken ((added es).length :: queued)
      (s.step (.add (vs.map (stamp (added es).length)))) := by
  have hold (i : Nat) (hi : i ∈ taken ∨ i ∈ queued) : source (es ++ [.add vs]) i = source es i :=
    source_append es [.add vs] ((h.mem_iff i).mp hi)
  have hnew : source (es ++ [.add vs]) (added es).length = vs := by
    simp [source, added_concat, Event.source?]
  refine ⟨?_, ?_, ?_, ?_⟩
  · have hlength : (added (es ++ [.add vs])).length = (added es).length + 1 := by
      simp [added_concat, Event.source?]
    rw [hlength, List.range_succ]
    apply List.perm_middle.trans
    exact (h.once.cons _).trans (List.perm_append_singleton _ _).symm
  · rw [List.pairwise_cons]
    exact ⟨fun i hi => (h.mem_iff i).mp (.inr hi), h.newest⟩
  · simp only [step]
    rw [h.read]
    apply List.flatMap_congr
    intro i hi
    rw [hold i (.inl hi)]
  · simp only [step, ValuePipe.add, h.waiting, List.map_cons, hnew, List.cons.injEq, true_and]
    apply List.map_congr_left
    intro i hi
    rw [hold i (.inr hi)]

/-- After one more event, the sources taken before are taken first. -/
theorem Books.step (h : Books es taken queued s) (e : Event) :
    ∃ more queued', Books (es ++ [e]) (taken ++ more) queued' (s.step (e.map (stamp (added es).length))) ∧
      more <+: queued := by
  have htakes (e : Event) (t : Conduit) (hsource : e.source? = none) (hmoves : Moves s t) :
      ∃ more queued', Books (es ++ [e]) (taken ++ more) queued' t ∧ more <+: queued := by
    obtain ⟨more, rest, rfl, hbooks⟩ := h.moves hmoves
    exact ⟨more, rest, hbooks.concat hsource, List.prefix_append more rest⟩
  cases e with
  | add vs =>
    refine ⟨[], (added es).length :: queued, ?_, List.nil_prefix⟩
    rw [List.append_nil]
    exact h.add vs
  | close =>
    have hclosed : Books es taken queued (s.step .close) := ⟨h.once, h.newest, h.read, h.waiting⟩
    refine ⟨[], queued, ?_, List.nil_prefix⟩
    rw [List.append_nil]
    exact hclosed.concat rfl
  | look => exact htakes .look s.look rfl (moves_look s)
  | next => exact htakes .next s.next rfl (moves_next s)
  | rest => exact htakes .rest s.rest rfl (moves_rest s)

theorem after_numbered_concat (kind : StreamKind) (es : List Event) (e : Event) :
    after kind (numbered (es ++ [e])) =
      (after kind (numbered es)).step (e.map (stamp (added es).length)) := by
  rw [numbered_concat, after_concat]

theorem books_after (kind : StreamKind) (es : List Event) :
    ∃ taken queued, Books es taken queued (after kind (numbered es)) := by
  induction es using List.reverseRecOn with
  | nil => exact ⟨[], [], .refl _, .nil, rfl, rfl⟩
  | append_singleton es e ih =>
    obtain ⟨taken, queued, h⟩ := ih
    obtain ⟨more, queued', hbooks, -⟩ := h.step e
    rw [after_numbered_concat]
    exact ⟨taken ++ more, queued', hbooks⟩

/-! ## Of two sources, which one is taken first -/

/-- An element of two lists in a row stands in the second one or in the first one. -/
theorem append_eq_append_cons {α : Type} {xs ys front back : List α} {x : α}
    (h : xs ++ ys = front ++ x :: back) :
    (∃ mid, front = xs ++ mid ∧ ys = mid ++ x :: back) ∨ ∃ mid, xs = front ++ x :: mid := by
  rcases List.append_eq_append_iff.mp h with ⟨mid, hfront, hys⟩ | ⟨mid, hxs, hback⟩
  · exact .inl ⟨mid, hfront, hys⟩
  · cases mid with
    | nil => exact .inl ⟨[], by simpa using hxs.symm, hback.symm⟩
    | cons y mid =>
      obtain ⟨rfl, -⟩ := List.cons.inj hback
      exact .inr ⟨mid, hxs⟩

/-- What stands in front of a descending queue is larger than what stands behind. -/
theorem mem_front_of_lt {front back : List Nat} (h : (front ++ i :: back).Pairwise (· > ·)) (hij : i < j)
    (hj : j ∈ front ++ i :: back) : j ∈ front := by
  rcases List.mem_append.mp hj with hfront | hback
  · exact hfront
  · have hbelow := (List.pairwise_cons.mp (List.pairwise_append.mp h).2.1).1
    rcases List.mem_cons.mp hback with rfl | hback
    · omega
    · have := hbelow j hback
      omega

/-- The sources that are taken next from a queue with the newest in front: `j` is not left behind by `i`. -/
theorem Books.newer_first (h : Books es taken queued s) (hij : i < j) (hj : j < (added es).length)
    {more : List Nat} (hmore : more <+: queued) (htaken : ∀ t₁ t₂, taken = t₁ ++ i :: t₂ → j ∈ t₁) :
    ∀ t₁ t₂, taken ++ more = t₁ ++ i :: t₂ → j ∈ t₁ := by
  intro t₁ t₂ hsplit
  obtain ⟨rest, rfl⟩ := hmore
  have hnext (front : List Nat) (hfront : more = front ++ i :: t₂) : j ∈ taken ++ front := by
    have hnewest := h.newest
    have hplace := (h.mem_iff j).mpr hj
    rw [hfront, List.append_assoc, List.cons_append] at hnewest hplace
    rw [List.mem_append]
    exact hplace.imp_right (mem_front_of_lt hnewest hij)
  rcases append_eq_append_cons hsplit with ⟨front, rfl, hfront⟩ | ⟨back, hback⟩
  · exact hnext front hfront
  · exact htaken t₁ back hback

/-- What comes of the sources after one more is added: those taken before it stay in front, and those that
wait when it is added are taken after it. -/
theorem Books.later (h : Books es taken queued (after kind (numbered es))) (vs : List Value)
    (later : List Event) :
    ∃ more queued', Books (es ++ .add vs :: later) (taken ++ more) queued'
        (after kind (numbered (es ++ .add vs :: later))) ∧
      ∀ i ∈ queued, ∀ t₁ t₂, taken ++ more = t₁ ++ i :: t₂ → (added es).length ∈ t₁ := by
  induction later using List.reverseRecOn with
  | nil =>
    refine ⟨[], (added es).length :: queued, ?_, ?_⟩
    · rw [after_numbered_concat, List.append_nil]
      exact h.add vs
    · intro i hi t₁ t₂ htaken
      have hmem : i ∈ taken := by
        rw [List.append_nil] at htaken
        simp [htaken]
      exact absurd rfl ((List.nodup_append.mp h.nodup).2.2 i hmem i hi)
  | append_singleton later e ih =>
    obtain ⟨more, waiting, hbooks, hfirst⟩ := ih
    obtain ⟨more', waiting', hbooks', hmore⟩ := hbooks.step e
    have hassoc : es ++ .add vs :: (later ++ [e]) = es ++ .add vs :: later ++ [e] := by simp
    refine ⟨more ++ more', waiting', ?_, ?_⟩
    · rw [hassoc, after_numbered_concat, ← List.append_assoc]
      exact hbooks'
    · intro i hi
      have hlt : i < (added es).length := (h.mem_iff i).mp (.inr hi)
      have hadded : (added es).length < (added (es ++ .add vs :: later)).length := by
        simp [added, Event.source?]
      rw [← List.append_assoc]
      exact hbooks.newer_first hlt hadded hmore (hfirst i hi)

/-! ## From sources to values -/

/-- The values of a source with its number. -/
def marked (es : List Event) (i : Nat) : List (Nat × Value) := (source es i).map (Prod.mk i)

theorem Books.handed (h : Books es taken queued (after kind (numbered es))) :
    handed kind es <+: taken.flatMap (marked es) := by
  refine ⟨(after kind (numbered es)).reader.current.map unstamp, ?_⟩
  rw [Conduit.handed, ← List.map_append, h.read, List.map_flatMap]
  apply List.flatMap_congr
  intro i _
  simp [marked, Function.comp_def]

theorem Books.mem_queue_iff (h : Books es taken queued (after kind (numbered es))) (i : Nat) :
    i ∈ queue kind es ↔ i ∈ queued ∧ source es i ≠ [] := by
  have hqueue : queue kind es = queued.flatMap fun k => (source es k).map fun _ => k := by
    rw [queue, h.waiting, List.flatMap_map, List.map_flatMap]
    apply List.flatMap_congr
    intro k _
    simp [Batch.contents, Function.comp_def]
  rw [hqueue]
  simp only [List.mem_flatMap, List.mem_map]
  constructor
  · rintro ⟨k, hk, v, hv, rfl⟩
    exact ⟨hk, List.ne_nil_of_mem hv⟩
  · rintro ⟨hi, hne⟩
    obtain ⟨v, hv⟩ := List.exists_mem_of_ne_nil _ hne
    exact ⟨i, hi, v, hv, rfl⟩

theorem valuesFrom_append (i : Nat) (ys zs : List (Nat × Value)) :
    valuesFrom i (ys ++ zs) = valuesFrom i ys ++ valuesFrom i zs := by
  simp [valuesFrom]

theorem valuesFrom_marked (es : List Event) (i k : Nat) :
    valuesFrom i (marked es k) = if k = i then source es i else [] := by
  by_cases h : k = i
  · subst h
    simp [valuesFrom, marked, List.filter_map, Function.comp_def]
  · simp [valuesFrom, marked, List.filter_map, Function.comp_def, h]

/-- The sources are whole among the values of sources without repetition. -/
theorem valuesFrom_flatMap (es : List Event) (i : Nat) {ks : List Nat} (h : ks.Nodup) :
    valuesFrom i (ks.flatMap (marked es)) = if i ∈ ks then source es i else [] := by
  induction ks with
  | nil => rfl
  | cons k ks ih =>
    obtain ⟨hk, hks⟩ := List.nodup_cons.mp h
    rw [List.flatMap_cons, valuesFrom_append, valuesFrom_marked, ih hks]
    by_cases hki : k = i
    · subst hki
      simp [hk]
    · simp [hki, Ne.symm hki]

/-- A value of `j` stands in the part that `j` gives. -/
theorem exists_split (es : List Event) {ks : List Nat} {ys zs : List (Nat × Value)} {v : Value}
    (h : ks.flatMap (marked es) = ys ++ (j, v) :: zs) :
    ∃ k₁ k₂ ws, ks = k₁ ++ j :: k₂ ∧ ys = k₁.flatMap (marked es) ++ ws ∧ ws <+: marked es j := by
  induction ks generalizing ys with
  | nil => simp at h
  | cons k ks ih =>
    rw [List.flatMap_cons] at h
    rcases append_eq_append_cons h with ⟨ys', rfl, hrest⟩ | ⟨back, hback⟩
    · obtain ⟨k₁, k₂, ws, rfl, rfl, hws⟩ := ih hrest
      exact ⟨k :: k₁, k₂, ws, rfl, by simp, hws⟩
    · have hmem : (j, v) ∈ marked es k := by simp [hback]
      obtain ⟨u, -, hu⟩ := List.mem_map.mp hmem
      obtain rfl : k = j := congrArg Prod.fst hu
      exact ⟨[], ks, ys, rfl, rfl, hback ▸ List.prefix_append ys _⟩

/-- If `i` is taken before `j` whenever `j` is taken, its values are handed on before those of `j`. -/
theorem Books.precedes (h : Books es taken queued (after kind (numbered es))) (hij : i ≠ j)
    (hfirst : ∀ t₁ t₂, taken = t₁ ++ j :: t₂ → i ∈ t₁ ∨ source es i = []) : Precedes kind es i j := by
  intro ys v zs hsplit
  obtain ⟨later, hlater⟩ := h.handed
  rw [hsplit, List.append_assoc, List.cons_append] at hlater
  obtain ⟨t₁, t₂, ws, rfl, rfl, hws⟩ := exists_split es hlater.symm
  have htaken : t₁.Nodup := (List.nodup_append.mp (List.nodup_append.mp h.nodup).1).1
  have hpart : valuesFrom i ws = [] := by
    obtain ⟨back, hback⟩ := hws
    have hwhole := valuesFrom_marked es i j
    rw [← hback, valuesFrom_append, if_neg (Ne.symm hij)] at hwhole
    exact (List.append_eq_nil_iff.mp hwhole).1
  rw [valuesFrom_append, valuesFrom_flatMap es i htaken, hpart, List.append_nil]
  rcases hfirst t₁ t₂ rfl with hmem | hempty
  · rw [if_pos hmem]
  · simp [hempty]

/-- Of two sources that wait together the newer one is handed on first, and otherwise the older one. -/
theorem precedes_of_add (kind : StreamKind) (es : List Event) (vs : List Value) (later : List Event)
    (hi : i < (added es).length) :
    (i ∈ queue kind es → Precedes kind (es ++ .add vs :: later) (added es).length i) ∧
      (i ∉ queue kind es → Precedes kind (es ++ .add vs :: later) i (added es).length) := by
  obtain ⟨taken, queued, h⟩ := books_after kind es
  obtain ⟨more, queued', hbooks, hfirst⟩ := h.later vs later
  constructor
  · intro hqueue
    obtain ⟨hqueued, -⟩ := (h.mem_queue_iff i).mp hqueue
    apply hbooks.precedes (Nat.ne_of_gt hi)
    intro t₁ t₂ htaken
    exact .inl (hfirst i hqueued t₁ t₂ htaken)
  · intro hqueue
    apply hbooks.precedes (Nat.ne_of_lt hi)
    intro t₁ t₂ htaken
    rcases (h.mem_iff i).mpr hi with hmem | hqueued
    · left
      have hnew : (added es).length ∉ taken := fun hmem =>
        absurd ((h.mem_iff _).mp (.inl hmem)) (Nat.lt_irrefl _)
      rcases append_eq_append_cons htaken with ⟨front, rfl, -⟩ | ⟨back, rfl⟩
      · exact List.mem_append_left front hmem
      · simp at hnew
    · right
      rw [source_append es _ hi]
      by_contra hne
      exact hqueue ((h.mem_queue_iff i).mpr ⟨hqueued, hne⟩)

theorem mem_source_of_handed {v : Value} (h : (j, v) ∈ handed kind es) : v ∈ source es j := by
  obtain ⟨taken, queued, hbooks⟩ := books_after kind es
  obtain ⟨i, -, hi⟩ := List.mem_flatMap.mp (hbooks.handed.subset h)
  obtain ⟨u, hu, hpair⟩ := List.mem_map.mp hi
  obtain ⟨rfl, rfl⟩ := Prod.mk.inj hpair
  exact hu

theorem mem_valuesFrom {v : Value} {ys : List (Nat × Value)} : v ∈ valuesFrom i ys ↔ (i, v) ∈ ys := by
  simp [valuesFrom]

/-- Of two sources with values that are handed on only one precedes the other. -/
theorem not_precedes_both {v : Value} (hj : (j, v) ∈ handed kind es) (hi : source es i ≠ [])
    (hij : Precedes kind es i j) (hji : Precedes kind es j i) : False := by
  obtain ⟨ys, zs, hsplit⟩ := List.append_of_mem hj
  -- Before each value of `j` there is one of `i`, and before that one there is the same value of `j`.
  induction hlength : ys.length using Nat.strongRecOn generalizing ys zs with
  | _ n ih =>
    obtain ⟨u, hu⟩ := List.exists_mem_of_ne_nil _ hi
    rw [← hij ys v zs hsplit, mem_valuesFrom] at hu
    obtain ⟨ys₁, ys₂, rfl⟩ := List.append_of_mem hu
    have hv : v ∈ source es j := mem_source_of_handed hj
    rw [List.append_assoc, List.cons_append] at hsplit
    rw [← hji ys₁ u _ hsplit, mem_valuesFrom] at hv
    obtain ⟨front, back, rfl⟩ := List.append_of_mem hv
    rw [List.append_assoc, List.cons_append] at hsplit
    have hshorter : front.length < n := by
      simp only [List.length_append, List.length_cons] at hlength
      omega
    exact ih front.length hshorter front _ hsplit rfl

theorem exists_add (h : j < (added es).length) :
    ∃ before vs later, es = before ++ .add vs :: later ∧ (added before).length = j := by
  induction es using List.reverseRecOn with
  | nil => simp [added] at h
  | append_singleton es e ih =>
    by_cases hj : j < (added es).length
    · obtain ⟨before, vs, later, rfl, hbefore⟩ := ih hj
      exact ⟨before, vs, later ++ [e], by simp, hbefore⟩
    · rw [added_concat, List.length_append] at h
      cases e with
      | add vs =>
        refine ⟨es, vs, [], rfl, ?_⟩
        simp [Event.source?] at h
        omega
      | close | look | next | rest =>
        simp [Event.source?] at h
        omega

theorem of_mem_queue (h : i ∈ queue kind es) : i < (added es).length ∧ source es i ≠ [] := by
  obtain ⟨taken, queued, hbooks⟩ := books_after kind es
  obtain ⟨hqueued, hne⟩ := (hbooks.mem_queue_iff i).mp h
  exact ⟨(hbooks.mem_iff i).mp (.inr hqueued), hne⟩

/-- If the order of adding is kept, nothing is handed on of a source that was added while others waited. -/
theorem unhanded_of_precedes {before later : List Event} {vs : List Value}
    (hkept : ∀ i j, i < j → Precedes kind (before ++ .add vs :: later) i j) (hqueue : queue kind before ≠ []) :
    valuesFrom (added before).length (handed kind (before ++ .add vs :: later)) = [] := by
  obtain ⟨i, hi⟩ := List.exists_mem_of_ne_nil _ hqueue
  obtain ⟨hlt, hne⟩ := of_mem_queue hi
  rw [List.eq_nil_iff_forall_not_mem]
  intro v hv
  apply not_precedes_both (mem_valuesFrom.mp hv)
  · rwa [source_append before _ hlt]
  · exact hkept i _ hlt
  · exact (precedes_of_add kind before vs later hlt).1 hi

/-- If nothing is handed on of a source that was added while others waited, the order of adding is kept. -/
theorem precedes_of_unhanded
    (hsafe : ∀ before vs later, es = before ++ .add vs :: later →
      queue kind before = [] ∨ valuesFrom (added before).length (handed kind es) = [])
    (hij : i < j) : Precedes kind es i j := by
  intro ys v zs hsplit
  have hmem : (j, v) ∈ handed kind es := by simp [hsplit]
  have hlt : j < (added es).length := by
    by_contra hge
    have hnone : source es j = [] := by
      rw [source, List.getElem?_eq_none (Nat.le_of_not_lt hge), Option.getD_none]
    have hv := mem_source_of_handed hmem
    simp [hnone] at hv
  obtain ⟨before, vs, later, rfl, rfl⟩ := exists_add hlt
  rcases hsafe before vs later rfl with hqueue | hnone
  · exact (precedes_of_add kind before vs later hij).2 (by simp [hqueue]) ys v zs hsplit
  · rw [← mem_valuesFrom, hnone] at hmem
    cases hmem

/-- The origin of all that is handed on is known, and of two sources the one that is handed on first is the
newer one if the older one waits when the newer one is added, and otherwise the older one. So sources are
handed on in the order of adding exactly as long as nothing is handed on of a source that was added while
values were waiting. -/
theorem order_kept_iff (kind : StreamKind) (es : List Event) :
    (handed kind es).map Prod.snd = (after kind es).yielded ∧
      (∀ before vs later, es = before ++ .add vs :: later → ∀ i < (added before).length,
        (i ∈ queue kind before → Precedes kind es (added before).length i) ∧
          (i ∉ queue kind before → Precedes kind es i (added before).length)) ∧
      ((∀ i j, i < j → Precedes kind es i j) ↔
        ∀ before vs later, es = before ++ .add vs :: later →
          (after kind before).pipe.waiting.flatMap Batch.contents = [] ∨
            valuesFrom (added before).length (handed kind es) = []) := by
  refine ⟨handed_values kind es, ?_, ?_, ?_⟩
  · rintro before vs later rfl i hi
    exact precedes_of_add kind before vs later hi
  · rintro hkept before vs later rfl
    rw [← queue_eq_nil_iff]
    by_cases hqueue : queue kind before = []
    · exact .inl hqueue
    · exact .inr (unhanded_of_precedes hkept hqueue)
  · intro hsafe i j hij
    simp only [← queue_eq_nil_iff] at hsafe
    exact precedes_of_unhanded hsafe hij

/-- Two sources that wait together are handed on the wrong way round. -/
theorem newer_overtakes : ¬ ∀ kind es i j, i < j → Precedes kind es i j := by
  intro h
  have hfirst := h .values [.add [.int 1], .add [.int 2], .close, .rest] 0 1 (by decide) [] (.int 2)
    [(0, .int 1)] rfl
  cases hfirst

end Conduit

end ValueShell
