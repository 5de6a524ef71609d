import Mathlib.Data.List.Forall2
import Mathlib.Data.List.Perm.Basic
import ValueShell.Proofs.Evaluation.Classification
import ValueShell.Proofs.Text.Words

/-!
# The pieces of a word, in whatever order they are ready

A word calls a task for each of its pieces, and these finish in any order. Each result is kept at the
place of its piece, and nothing is reported before the last of them is there (`Waits`). What is reported
then is made from the pieces and the outputs of the commands alone (`groupsOf`), so it does not tell
which piece came first. What a command has written by its end is captured as a whole (`Ended.exists_closed`).
-/

set_option autoImplicit false

namespace ValueShell.Evaluation.WordTask

open Text

variable {w : World} {b : Backquote} {out : TextPipe} {n : Nat} {pieces : List PlanPiece}

/-! ## Groups of tokens -/

/-- Adds a token to the last group. -/
def joinLast (groups : List (List Token)) (t : Token) : List (List Token) :=
  groups.dropLast ++ [groups.getLastD [] ++ [t]]

/-- The token for a word of an output. -/
def wordToken (word : String) : Token := { kind := .singleQuoted, text := Text.quote word }

/-- Adds the words of an output: the first to the last group, and each other one as a group. -/
def addWords (groups : List (List Token)) : List String → List (List Token)
  | [] => groups
  | first :: others => joinLast groups (wordToken first) ++ others.map fun word => [wordToken word]

/-- Adds a piece with its place, where the commands in the word have written `outputs`. -/
def addPiece (outputs : Nat → String) (groups : List (List Token)) : PlanPiece × Nat → List (List Token)
  | (.token t, _) => joinLast groups t
  | (.backquote _, i) => addWords groups (wordsOf (outputs i))

/-- The groups of a word, beginning with an empty one. -/
def groupsOf (pieces : List PlanPiece) (outputs : Nat → String) : List (List Token) :=
  pieces.zipIdx.foldl (addPiece outputs) [[]]

/-- What a piece gives. -/
def resultOf (outputs : Nat → String) : PlanPiece × Nat → PieceResult
  | (.token t, _) => .token t
  | (.backquote _, i) => .words ((wordsOf (outputs i)).map wordToken)

theorem joinLast_append (groups : List (List Token)) (current : List Token) (t : Token) :
    joinLast (groups ++ [current]) t = groups ++ [current ++ [t]] := by
  rw [joinLast, List.dropLast_concat, List.getLastD_concat]

theorem joinWords_map (groups : List (List Token)) (current : List Token) (ws : List String) :
    (joinWords groups current (ws.map wordToken)).1 ++ [(joinWords groups current (ws.map wordToken)).2] =
      addWords (groups ++ [current]) ws := by
  cases ws with
  | nil => rfl
  | cons first others =>
    rw [List.map_cons, joinWords, addWords, joinLast_append]
    generalize current ++ [wordToken first] = begun
    induction others generalizing groups begun with
    | nil => exact (List.append_nil _).symm
    | cons word others ih =>
      rw [List.map_cons, List.foldl_cons, ih, List.map_cons, List.append_assoc, List.singleton_append]

theorem groupPieces_map (outputs : Nat → String) (groups : List (List Token)) (current : List Token)
    (ps : List (PlanPiece × Nat)) :
    groupPieces groups current (ps.map (resultOf outputs)) =
      ps.foldl (addPiece outputs) (groups ++ [current]) := by
  induction ps generalizing groups current with
  | nil => rfl
  | cons p ps ih =>
    obtain ⟨piece, i⟩ := p
    cases piece with
    | token t =>
      rw [List.map_cons, resultOf, groupPieces, ih, List.foldl_cons, addPiece, joinLast_append]
    | backquote plan =>
      rw [List.map_cons, resultOf, groupPieces, List.foldl_cons, addPiece, ← joinWords_map]
      exact ih _ _

/-! ## The start -/

/-- What a word asks for: a token as it is, and the command of a backquote with its output sent to the
pipe of its place. -/
inductive Asks (t : WordTask) : PlanPiece × Nat → LeafRequest → Prop
  | token (token : Token) (i : Nat) : Asks t (.token token, i) (.call (.respond (.token token)) (.piece i))
  | backquote {plan : Plan} {i : Nat} {b : Backquote} (running : t.running[i]? = some (some b)) :
      Asks t (.backquote plan, i)
        (.call (.evaluate (.within (some t.streams) none (some (.descriptor (.writeEnd b.pipe)))) plan)
          (.backquote i))

/-- Each command of the word has an empty pipe, an empty capture and a worker that collects the lines of
the one in the other, and shares none of them. -/
structure Opened (t : WordTask) (w : World) : Prop where
  pipe {i : Nat} {b : Backquote} : t.running[i]? = some (some b) → w.textPipes[b.pipe]? = some {}
  capture {i : Nat} {b : Backquote} : t.running[i]? = some (some b) → w.captures[b.capture]? = some []
  worker {i : Nat} {b : Backquote} : t.running[i]? = some (some b) →
    w.workers[b.worker]? = some { work := .collectLines b.pipe b.capture }
  apart {i j : Nat} {b c : Backquote} : t.running[i]? = some (some b) → t.running[j]? = some (some c) →
    i ≠ j → b.pipe ≠ c.pipe ∧ b.capture ≠ c.capture ∧ b.worker ≠ c.worker

/-- The pipe, worker and capture that a command gets next. -/
def nextBackquote (w : World) : Backquote :=
  { pipe := w.textPipes.length, worker := w.workers.length, capture := w.captures.length }

/-- The world in which a command has got them. -/
def withBackquote (w : World) : World :=
  { w with
    textPipes := w.textPipes ++ [{}]
    captures := w.captures ++ [[]]
    workers := w.workers ++ [{ work := .collectLines w.textPipes.length w.captures.length }] }

/-- The task in which a command at a place is running. -/
def withRunning (t : WordTask) (i : Nat) (b : Backquote) : WordTask :=
  { t with running := t.running.set i (some b) }

theorem ne_length_of_getElem? {α : Type} {l : List α} {i : Nat} {a : α} (h : l[i]? = some a) :
    i ≠ l.length :=
  Nat.ne_of_lt (List.getElem?_eq_some_iff.mp h).1

theorem getElem?_concat_of_some {α : Type} {l : List α} {i : Nat} {a : α} (h : l[i]? = some a) (b : α) :
    (l ++ [b])[i]? = some a :=
  (List.getElem?_append_left (List.getElem?_eq_some_iff.mp h).1).trans h

theorem running_withRunning {t : WordTask} {i j : Nat}
    (h : (t.withRunning i (nextBackquote w)).running[j]? = some (some b)) :
    j = i ∧ b = nextBackquote w ∨ j ≠ i ∧ t.running[j]? = some (some b) := by
  rw [withRunning, List.getElem?_set] at h
  split at h
  next hij =>
    split at h
    · cases h
      exact .inl ⟨hij.symm, rfl⟩
    · cases h
  next hij => exact .inr ⟨fun hji => hij hji.symm, h⟩

/-- Starting one more command keeps the others apart. -/
theorem Opened.withBackquote {t : WordTask} (h : Opened t w) (i : Nat) :
    Opened (t.withRunning i (nextBackquote w)) (WordTask.withBackquote w) where
  pipe hb := by
    obtain ⟨-, rfl⟩ | ⟨-, hb⟩ := running_withRunning hb
    · exact List.getElem?_concat_length
    · exact getElem?_concat_of_some (h.pipe hb) _
  capture hb := by
    obtain ⟨-, rfl⟩ | ⟨-, hb⟩ := running_withRunning hb
    · exact List.getElem?_concat_length
    · exact getElem?_concat_of_some (h.capture hb) _
  worker hb := by
    obtain ⟨-, rfl⟩ | ⟨-, hb⟩ := running_withRunning hb
    · exact List.getElem?_concat_length
    · exact getElem?_concat_of_some (h.worker hb) _
  apart hb hc hne := by
    -- What is new is numbered after everything that is there.
    obtain ⟨rfl, rfl⟩ | ⟨-, hb⟩ := running_withRunning hb
    · obtain ⟨rfl, -⟩ | ⟨-, hc⟩ := running_withRunning hc
      · exact absurd rfl hne
      · exact ⟨(ne_length_of_getElem? (h.pipe hc)).symm, (ne_length_of_getElem? (h.capture hc)).symm,
          (ne_length_of_getElem? (h.worker hc)).symm⟩
    · obtain ⟨-, rfl⟩ | ⟨-, hc⟩ := running_withRunning hc
      · exact ⟨ne_length_of_getElem? (h.pipe hb), ne_length_of_getElem? (h.capture hb),
          ne_length_of_getElem? (h.worker hb)⟩
      · exact h.apart hb hc hne

theorem startPieces_backquote (t : WordTask) (w : World) (i : Nat) (plan : Plan) (rest : List PlanPiece) :
    t.startPieces w i (.backquote plan :: rest) =
      let begun := (t.withRunning i (nextBackquote w)).startPieces (withBackquote w) (i + 1) rest
      let streams := Streams.within (some t.streams) none (some (.descriptor (.writeEnd w.textPipes.length)))
      (begun.1, begun.2.1, .call (.evaluate streams plan) (.backquote i) :: begun.2.2) := rfl

/-- What starting pieces from a place on has done. -/
structure Begun (t : WordTask) (i : Nat) (ps : List PlanPiece) (begun : WordTask) (w : World)
    (requests : List LeafRequest) : Prop where
  streams : begun.streams = t.streams
  pieces : begun.pieces = t.pieces
  results : begun.results = t.results
  running : ∀ j < i, begun.running[j]? = t.running[j]?
  opened : begun.Opened w
  asks : List.Forall₂ begun.Asks (ps.zipIdx i) requests

theorem begun_startPieces (pieces : List PlanPiece) {t : WordTask} {i : Nat} (h : t.Opened w)
    (hlength : i + pieces.length = t.running.length) :
    Begun t i pieces (t.startPieces w i pieces).1 (t.startPieces w i pieces).2.1
      (t.startPieces w i pieces).2.2 := by
  induction pieces generalizing t w i with
  | nil => exact ⟨rfl, rfl, rfl, fun _ _ => rfl, h, .nil⟩
  | cons piece rest ih =>
    rw [List.length_cons] at hlength
    cases piece with
    | token token =>
      have hrest := ih h (by omega : i + 1 + rest.length = t.running.length)
      exact ⟨hrest.streams, hrest.pieces, hrest.results, fun j hj => hrest.running j (by omega), hrest.opened,
        .cons (.token token i) hrest.asks⟩
    | backquote plan =>
      have hset : (t.withRunning i (nextBackquote w)).running.length = t.running.length := List.length_set
      have hrest := ih (h.withBackquote i) (by omega : i + 1 + rest.length = _)
      have hhere := (hrest.running i (by omega)).trans (List.getElem?_set_self (by omega))
      have hstreams : _ = t.streams := hrest.streams
      rw [startPieces_backquote]
      refine ⟨hstreams, hrest.pieces, hrest.results, ?_, hrest.opened, .cons ?_ hrest.asks⟩
      · intro j hj
        exact (hrest.running j (by omega)).trans (List.getElem?_set_ne (by omega))
      · rw [← hstreams]
        exact .backquote hhere

/-! ## The pieces arrive -/

/-- What is captured of an output: its lines, as a worker collects them. -/
def captured (output : String) : List Value :=
  (bareLines (String.ofList (normalizeNewlines output.toList))).map .text

theorem outputTokens_captured (output : String) :
    outputTokens (captured output) = (wordsOf output).map wordToken := by
  have hlines (lines : List String) : (lines.map Value.text).map Value.display = lines := by
    rw [List.map_map]
    exact List.map_id lines
  rw [outputTokens, captured, hlines, wordsOf_intercalate, wordsOf_bareLines]
  rfl

/-- What a word is told: which piece is ready, its response, and the world by then. -/
structure Arrival where
  mark : Mark
  response : Response
  world : World

/-- The piece at a place of the word is ready: a token as it is, or a command whose output is captured by
the time that its pipe is closed. Anything may have happened to the world before. -/
inductive Arrives (t : WordTask) (outputs : Nat → String) : Nat → Arrival → Prop
  | token {i : Nat} {token : Token} (piece : t.pieces[i]? = some (.token token)) (w : World) :
      Arrives t outputs i ⟨.piece i, .token token, w⟩
  | backquote {i : Nat} {plan : Plan} {b : Backquote} {w closed : World}
      (piece : t.pieces[i]? = some (.backquote plan)) (running : t.running[i]? = some (some b))
      (closes : closeBackquote b w = .ok closed)
      (captures : closed.captures[b.capture]? = some (captured (outputs i))) (response : Response) :
      Arrives t outputs i ⟨.backquote i, response, w⟩

/-! ### Commands that have ended -/

/-- The worker does nothing while a pipe is closed: it has finished, or it waits for the end of another. -/
def Idle (w : World) (pipe : Nat) (worker : Worker) : Prop :=
  worker.finished = true ∨ ∃ p c, worker.work = .collectLines p c ∧ p ≠ pipe ∧ w.isAtEnd p = false

/-- A command in a word has ended and left a pipe: nothing else holds it, and the worker that collects its
lines is the first that can go on. -/
structure Ended (b : Backquote) (out : TextPipe) (w : World) : Prop where
  pipe : w.textPipes[b.pipe]? = some out
  readOpen : out.readOpen = true
  writeOpen : out.writeOpen = true
  fresh : out.source.held = []
  released : w.isHeld b.pipe = false
  worker : w.workers[b.worker]? = some { work := .collectLines b.pipe b.capture }
  capture : w.captures[b.capture]? = some []
  first : ∀ n < b.worker, ∀ worker ∈ w.workers[n]?, Idle w b.pipe worker

/-- The world with another pipe at a place. -/
def withPipe (w : World) (n : Nat) (out : TextPipe) : World := { w with textPipes := w.textPipes.set n out }

/-- A pipe that is read to its end. -/
def emptied (out : TextPipe) : TextPipe := { out with source := { out.source with unread := "", held := [] } }

/-- The world in which a worker has collected the lines of a pipe. -/
def collected (w : World) (b : Backquote) (out : TextPipe) : World :=
  ((withPipe w b.pipe (emptied out)).capture b.capture (captured out.source.unread)).setWork b.worker
    { work := .collectLines b.pipe b.capture, finished := true }

/-- A worker that finds a pipe at its end captures the output that is in it. -/
theorem workerTurn_collectLines
    (hworker : w.workers[b.worker]? = some { work := .collectLines b.pipe b.capture })
    (hend : w.isAtEnd b.pipe = true) (hout : w.textPipes[b.pipe]? = some out) (hheld : out.source.held = []) :
    w.workerTurn b.worker = (true, collected w b out) := by
  simp only [World.workerTurn, hworker, hend, hout, hheld, TextSource.readAll, Bool.false_eq_true,
    Bool.not_true, if_false, List.nil_append, collected, withPipe, emptied, captured, bareLines,
    List.map_map, Function.comp_def]

theorem workerTurn_idle {p : Nat} (h : ∀ worker ∈ w.workers[n]?, Idle w p worker) :
    w.workerTurn n = (false, w) := by
  cases hworker : w.workers[n]? with
  | none => simp only [World.workerTurn, hworker]
  | some worker =>
    rcases h worker hworker with hfinished | ⟨p, c, hwork, -, hopen⟩
    · simp only [World.workerTurn, hworker, hfinished, if_true]
    · simp [World.workerTurn, hworker, hwork, hopen]

theorem workersTurn_append {others : List Nat} (h : ∀ n ∈ others, w.workerTurn n = (false, w))
    (rest : List Nat) : w.workersTurn (others ++ rest) = w.workersTurn rest := by
  induction others with
  | nil => rfl
  | cons n others ih =>
    rw [List.cons_append, World.workersTurn, h n List.mem_cons_self]
    simp only [Nat.lt_irrefl, decide_false, Bool.or_false, Bool.false_eq_true, if_false]
    exact ih fun m hm => h m (List.mem_cons_of_mem n hm)

/-- The first worker that can go on has the turn. -/
theorem turn_of_workerTurn {w' : World} (hn : n < w.workers.length)
    (hbefore : ∀ m < n, w.workerTurn m = (false, w)) (hturn : w.workerTurn n = (true, w')) :
    w.turn = some w' := by
  have hrange : List.range w.workers.length =
      List.range n ++ n :: (List.range (w.workers.length - n - 1)).map (n + 1 + ·) := by
    have hlength : w.workers.length = n + 1 + (w.workers.length - n - 1) := by omega
    conv => lhs; rw [hlength, List.range_add, List.range_succ]
    rw [List.append_assoc, List.singleton_append]
  have hworkers : w.workersTurn (List.range w.workers.length) = (true, w') := by
    rw [hrange, workersTurn_append fun m hm => hbefore m (List.mem_range.mp hm), World.workersTurn, hturn]
    simp only [Bool.true_or, if_true]
  rw [World.turn, hworkers]

/-- A worker that finishes in the next turn is waited for no longer. -/
theorem join_of_turn {w' : World} (hbefore : (w.workers[n]?).all Worker.finished = false)
    (hturn : w.turn = some w') (hafter : (w'.workers[n]?).all Worker.finished = true) :
    w.join n = .ok w' := by
  have hsteps : World.maxSteps = 999999998 + 1 + 1 := rfl
  rw [World.join, hsteps, World.runUntil, if_neg (Bool.eq_false_iff.mp hbefore), hturn]
  dsimp only
  rw [World.runUntil, if_pos hafter]

/-- Waiting for the worker of a command whose pipe is at its end takes one turn. -/
theorem join_collected (hworker : w.workers[b.worker]? = some { work := .collectLines b.pipe b.capture })
    (hfirst : ∀ n < b.worker, ∀ worker ∈ w.workers[n]?, Idle w b.pipe worker)
    (hend : w.isAtEnd b.pipe = true) (hout : w.textPipes[b.pipe]? = some out) (hheld : out.source.held = []) :
    w.join b.worker = .ok (collected w b out) := by
  have hlt := (List.getElem?_eq_some_iff.mp hworker).1
  have hturn : w.turn = some (collected w b out) :=
    turn_of_workerTurn hlt (fun n hn => workerTurn_idle (hfirst n hn))
      (workerTurn_collectLines hworker hend hout hheld)
  have hfinished : (collected w b out).workers[b.worker]? =
      some { work := .collectLines b.pipe b.capture, finished := true } := List.getElem?_set_self hlt
  refine join_of_turn ?_ hturn ?_
  · rw [hworker]
    rfl
  · rw [hfinished]
    rfl

/-- A pipe whose writing end is closed. -/
def shut (out : TextPipe) : TextPipe :=
  { out with
    source := { out.source with unread := out.source.unread ++ out.buffered }
    writeOpen := false
    buffered := "" }

theorem Idle.withPipe {worker : Worker} (h : Idle w n worker) (out : TextPipe) :
    Idle (WordTask.withPipe w n out) n worker := by
  rcases h with hfinished | ⟨p, c, hwork, hne, hopen⟩
  · exact .inl hfinished
  · have hsame : (WordTask.withPipe w n out).textPipes[p]? = w.textPipes[p]? :=
      List.getElem?_set_ne hne.symm
    refine .inr ⟨p, c, hwork, hne, ?_⟩
    rw [World.isAtEnd, hsame]
    exact hopen

/-- The pipe of a command that has ended can be closed, and its whole output is captured then. -/
theorem Ended.exists_closed (h : Ended b out w) :
    ∃ closed, closeBackquote b w = .ok closed ∧
      closed.captures[b.capture]? = some (captured (out.source.unread ++ out.buffered)) := by
  have hlt := (List.getElem?_eq_some_iff.mp h.pipe).1
  have hshut : w.close (.writeEnd b.pipe) = .ok (withPipe w b.pipe (shut out)) := by
    simp only [World.close, h.pipe, h.writeOpen, if_true]
    rfl
  have hpipe : (withPipe w b.pipe (shut out)).textPipes[b.pipe]? = some (shut out) :=
    List.getElem?_set_self hlt
  have hend : (withPipe w b.pipe (shut out)).isAtEnd b.pipe = true := by
    have hreleased : (withPipe w b.pipe (shut out)).isHeld b.pipe = false := h.released
    rw [World.isAtEnd, hpipe, hreleased]
    rfl
  have hjoin : (withPipe w b.pipe (shut out)).join b.worker =
      .ok (collected (withPipe w b.pipe (shut out)) b (shut out)) := by
    refine join_collected h.worker (fun n hn worker hworker => ?_) hend hpipe h.fresh
    exact (h.first n hn worker hworker).withPipe (shut out)
  have hemptied : (collected (withPipe w b.pipe (shut out)) b (shut out)).textPipes[b.pipe]? =
      some (emptied (shut out)) := List.getElem?_set_self (List.getElem?_eq_some_iff.mp hpipe).1
  have hreadOpen : (emptied (shut out)).readOpen = true := h.readOpen
  refine ⟨withPipe (collected (withPipe w b.pipe (shut out)) b (shut out)) b.pipe
    { emptied (shut out) with readOpen := false }, ?_, ?_⟩
  · rw [closeBackquote, hshut]
    simp only [bind, Except.bind, hjoin, World.close, hemptied, hreadOpen, if_true]
    rfl
  · have hcollected : (collected (withPipe w b.pipe (shut out)) b (shut out)).captures =
        w.captures.modify b.capture (· ++ captured (out.source.unread ++ out.buffered)) := rfl
    rw [withPipe, hcollected, List.getElem?_modify_eq, h.capture]
    exact congrArg some (List.nil_append _)

/-- A command that has ended can arrive with what it has written. -/
theorem Ended.arrives {t : WordTask} {outputs : Nat → String} {i : Nat} {plan : Plan} (h : Ended b out w)
    (piece : t.pieces[i]? = some (.backquote plan)) (running : t.running[i]? = some (some b))
    (houtput : outputs i = out.source.unread ++ out.buffered) (response : Response) :
    t.Arrives outputs i ⟨.backquote i, response, w⟩ := by
  obtain ⟨closed, hclosed, hcaptures⟩ := h.exists_closed
  rw [← houtput] at hcaptures
  exact .backquote piece running hclosed hcaptures response

/-! ### One arrival after the other -/

/-- The reactions of a word to the pieces as they arrive. -/
def reactions (t : WordTask) : List Arrival → List LeafReaction
  | [] => []
  | a :: rest =>
    let x := t.resume a.mark a.response a.world
    match x.task with
    | .leaf (.word t) => x :: t.reactions rest
    | _ => [x]

theorem reactions_cons {t t' : WordTask} {a : Arrival} {x : LeafReaction}
    (hx : t.resume a.mark a.response a.world = x) (htask : x.task = .leaf (.word t')) (rest : List Arrival) :
    t.reactions (a :: rest) = x :: t'.reactions rest := by
  rw [reactions, hx]
  simp only [htask]

/-- Some pieces of a word that was started are still to come. Each of the others has left its result at
its place. -/
structure Waits (started : WordTask) (results : List PieceResult) (left : List Nat) (t : WordTask) : Prop where
  missing : ∀ i ∈ left, t.results[i]? = some none
  running : ∀ i ∈ left, t.running[i]? = started.running[i]?
  present : ∀ i, i ∉ left → t.results[i]? = results[i]?.map some

variable {started t : WordTask} {results : List PieceResult} {outputs : Nat → String} {i : Nat}
  {left : List Nat}

/-- A result at a place leaves the other places as they are. -/
theorem Waits.set (h : Waits started results (i :: left) t) (hi : i ∉ left) {r : PieceResult}
    (hr : results[i]? = some r) {running : List (Option Backquote)}
    (hrunning : ∀ j, i ≠ j → running[j]? = t.running[j]?) :
    Waits started results left { t with results := t.results.set i (some r), running } where
  missing j hj := by
    have hne : i ≠ j := fun heq => hi (heq ▸ hj)
    exact (List.getElem?_set_ne hne).trans (h.missing j (List.mem_cons_of_mem i hj))
  running j hj := by
    have hne : i ≠ j := fun heq => hi (heq ▸ hj)
    exact (hrunning j hne).trans (h.running j (List.mem_cons_of_mem i hj))
  present j hj := by
    by_cases heq : i = j
    · subst heq
      have hlt := (List.getElem?_eq_some_iff.mp (h.missing i List.mem_cons_self)).1
      rw [hr]
      exact List.getElem?_set_self hlt
    · refine (List.getElem?_set_ne heq).trans (h.present j ?_)
      exact fun hmem => (List.mem_cons.mp hmem).elim (fun hji => heq hji.symm) hj

/-- The results of the pieces, in the order of their places. -/
def resultsOf (pieces : List PlanPiece) (outputs : Nat → String) : List PieceResult :=
  pieces.zipIdx.map (resultOf outputs)

theorem getElem?_resultsOf {piece : PlanPiece} (h : pieces[i]? = some piece) :
    (resultsOf pieces outputs)[i]? = some (resultOf outputs (piece, i)) := by
  rw [resultsOf, List.getElem?_map, List.getElem?_zipIdx, h, Option.map_some, Option.map_some, Nat.zero_add]

/-- One arrival: the result is kept, and the word looks whether it was the last one. -/
theorem exists_conclude_of_arrives {a : Arrival} (ha : started.Arrives outputs i a)
    (h : Waits started (resultsOf started.pieces outputs) (i :: left) t) (hi : i ∉ left) :
    ∃ t' w, t.resume a.mark a.response a.world = t'.conclude w ∧
      Waits started (resultsOf started.pieces outputs) left t' := by
  cases ha with
  | token piece w =>
    exact ⟨_, w, rfl, h.set hi (getElem?_resultsOf piece) fun _ _ => rfl⟩
  | backquote piece running closes captures response =>
    rename_i plan b w closed
    have hrunning : (t.running[i]?).join = some b := by
      rw [h.running i List.mem_cons_self, running]
      rfl
    have htokens : outputTokens ((closed.captures[b.capture]?).getD []) =
        (wordsOf (outputs i)).map wordToken := by
      rw [captures, Option.getD_some, outputTokens_captured]
    have hkeep (j : Nat) (hij : i ≠ j) : (t.running.set i none)[j]? = t.running[j]? :=
      List.getElem?_set_ne hij
    refine ⟨_, closed, ?_, h.set hi (getElem?_resultsOf piece) hkeep⟩
    simp only [resume, hrunning, closes, htokens]
    rfl

/-- Nothing is reported while a piece is missing. -/
theorem Waits.conclude_of_mem (h : Waits started results left t) (hi : i ∈ left) (w : World) :
    t.conclude w = leafAsk (.word t) w [] := by
  have hmissing : t.results.any Option.isNone = true :=
    List.any_eq_true.mpr ⟨none, List.mem_of_getElem? (h.missing i hi), rfl⟩
  rw [conclude, if_pos hmissing]

/-- Once no piece is missing, the groups of all pieces are reported. -/
theorem Waits.conclude_of_nil (h : Waits started (resultsOf pieces outputs) [] t) (w : World) :
    t.conclude w = t.report w (groupsOf pieces outputs) := by
  have hresults : t.results = (resultsOf pieces outputs).map some := by
    refine List.ext_getElem? fun i => ?_
    rw [List.getElem?_map]
    exact h.present i List.not_mem_nil
  rw [conclude_of_results hresults, resultsOf, groupPieces_map]
  rfl

theorem task_report (t : WordTask) (w : World) (groups : List (List Token)) :
    (t.report w groups).task = .leaf (.word t) := by
  rw [report]
  split <;> rfl

theorem world_report (t : WordTask) (w : World) (groups : List (List Token)) :
    (t.report w groups).world = w := by
  rw [report]
  split <;> rfl

/-- The pieces that are left arrive: only the last arrival is answered. -/
theorem reactions_of_waits {order : List Nat} {arrivals : List Arrival}
    (harrivals : List.Forall₂ (started.Arrives outputs) order arrivals) (hnodup : order.Nodup)
    (hne : order ≠ []) (h : Waits started (resultsOf started.pieces outputs) order t) :
    ∃ (earlier : List LeafReaction) (last : LeafReaction) (ended : WordTask),
      t.reactions arrivals = earlier ++ [last] ∧ earlier.length + 1 = order.length ∧
      (∀ x ∈ earlier, x.requests = [] ∧ x.fault = none) ∧
      last = ended.report last.world (groupsOf started.pieces outputs) := by
  induction harrivals generalizing t with
  | nil => exact absurd rfl hne
  | @cons i a order arrivals ha harrivals ih =>
    obtain ⟨hi, hnodup⟩ := List.nodup_cons.mp hnodup
    obtain ⟨t', w, hresume, hwaits⟩ := exists_conclude_of_arrives ha h hi
    cases order with
    | nil =>
      cases harrivals
      rw [hwaits.conclude_of_nil w] at hresume
      refine ⟨[], _, t', reactions_cons hresume (task_report ..) [], rfl, List.forall_mem_nil _, ?_⟩
      rw [world_report]
    | cons j order =>
      rw [hwaits.conclude_of_mem List.mem_cons_self w] at hresume
      obtain ⟨earlier, last, ended, hreactions, hlength, hquiet, hlast⟩ :=
        ih hnodup (List.cons_ne_nil j order) hwaits
      refine ⟨leafAsk (.word t') w [] :: earlier, last, ended, ?_, ?_, ?_, hlast⟩
      · rw [reactions_cons hresume rfl, hreactions]
        rfl
      · rw [List.length_cons, hlength]
        rfl
      · exact List.forall_mem_cons.mpr ⟨⟨rfl, rfl⟩, hquiet⟩

theorem waits_of_start {order : List Nat} (horder : order.Perm (List.range pieces.length))
    (hresults : started.results = pieces.map fun _ => none) :
    Waits started (resultsOf pieces outputs) order started where
  missing i hi := by
    have hlt := List.mem_range.mp (horder.mem_iff.mp hi)
    rw [hresults, List.getElem?_map, List.getElem?_eq_getElem hlt]
    rfl
  running _ _ := rfl
  present i hi := by
    have hle : pieces.length ≤ i := by
      refine Nat.le_of_not_lt fun hlt => hi ?_
      exact horder.mem_iff.mpr (List.mem_range.mpr hlt)
    rw [hresults, List.getElem?_map, resultsOf, List.getElem?_map, List.getElem?_zipIdx,
      List.getElem?_eq_none hle]
    rfl

theorem begun_start {streams : Streams Channel} {world : World} {requests : List LeafRequest}
    (h : (ofPieces streams pieces).start w = leafAsk (.word t) world requests) :
    Begun (ofPieces streams pieces) 0 pieces t world requests := by
  have hopened : (ofPieces streams pieces).Opened w := by
    have hnone {i : Nat} {b : Backquote} : (ofPieces streams pieces).running[i]? ≠ some (some b) := by
      rw [ofPieces, List.getElem?_map]
      cases pieces[i]? <;> simp
    exact ⟨fun h => absurd h hnone, fun h => absurd h hnone, fun h => absurd h hnone, fun h => absurd h hnone⟩
  have hlength : 0 + pieces.length = (ofPieces streams pieces).running.length := by
    rw [Nat.zero_add]
    exact (List.length_map _).symm
  have hbegun := begun_startPieces pieces hopened hlength
  cases h
  exact hbegun

/-- The order in which the pieces of a word are ready does not matter. A word calls a task for each piece,
and each command among them gets a pipe of its own. Whatever the commands write, and in whatever order the
pieces arrive, all arrivals but the last are kept silently. The last one makes the word report once: the
values of the groups that the pieces form in the order in which they are written, or the fault of the first
group without values. -/
theorem reports_groups {streams : Streams Channel} {pieces : List PlanPiece} (hne : pieces ≠ [])
    {w world : World} {requests : List LeafRequest}
    (hstart : (ofPieces streams pieces).start w = leafAsk (.word t) world requests)
    {order : List Nat} (horder : order.Perm (List.range pieces.length)) {arrivals : List Arrival}
    (harrivals : List.Forall₂ (t.Arrives outputs) order arrivals) :
    List.Forall₂ t.Asks pieces.zipIdx requests ∧ t.Opened world ∧
      ∃ (earlier : List LeafReaction) (last : LeafReaction) (ended : WordTask),
        t.reactions arrivals = earlier ++ [last] ∧ earlier.length + 1 = pieces.length ∧
        (∀ x ∈ earlier, x.requests = [] ∧ x.fault = none) ∧
        last = ended.report last.world (groupsOf pieces outputs) := by
  have hbegun := begun_start hstart
  have hpieces : t.pieces = pieces := hbegun.pieces
  have hlength : order.length = pieces.length := horder.length_eq.trans List.length_range
  have hsome : order ≠ [] := by
    intro hnil
    rw [hnil] at hlength
    exact hne (List.length_eq_zero_iff.mp hlength.symm)
  have hwaits : Waits t (resultsOf t.pieces outputs) order t := by
    rw [hpieces]
    exact waits_of_start horder hbegun.results
  have hnodup : order.Nodup := horder.nodup_iff.mpr List.nodup_range
  have hreactions := reactions_of_waits harrivals hnodup hsome hwaits
  rw [hpieces, hlength] at hreactions
  exact ⟨hbegun.asks, hbegun.opened, hreactions⟩

/-- A word with two commands. -/
def prefixed : List PlanPiece :=
  [.token { kind := .literal, text := "a" }, .backquote default, .token { kind := .literal, text := "b" },
    .backquote default]

/-- What its commands write: the first three words on two lines, and the other nothing. -/
def written : Nat → String
  | 1 => "x y\r\nz"
  | _ => ""

/-- The word as it is once its commands run, and the world by then. -/
def begunPrefixed : WordTask × World × List LeafRequest := (ofPieces {} prefixed).startPieces {} 0 prefixed

/-- The last piece is ready first, and the first command is the last to end. -/
def lateCommand : List Arrival :=
  [⟨.backquote 3, .status 0, begunPrefixed.2.1⟩,
    ⟨.piece 0, .token { kind := .literal, text := "a" }, begunPrefixed.2.1⟩,
    ⟨.piece 2, .token { kind := .literal, text := "b" }, begunPrefixed.2.1⟩,
    ⟨.backquote 1, .status 0, begunPrefixed.2.1.emit (.writeEnd 0) "x y\r\nz"⟩]

theorem reports_groups_prefixed :
    List.Forall₂ (begunPrefixed.1.Arrives written) [3, 0, 2, 1] lateCommand ∧
      groupsOf prefixed written =
        [[{ kind := .literal, text := "a" }, wordToken "x"], [wordToken "y"],
          [wordToken "z", { kind := .literal, text := "b" }]] ∧
      ∃ (earlier : List LeafReaction) (last : LeafReaction) (ended : WordTask),
        begunPrefixed.1.reactions lateCommand = earlier ++ [last] ∧ earlier.length + 1 = 4 ∧
        (∀ x ∈ earlier, x.requests = [] ∧ x.fault = none) ∧
        last = ended.report last.world (groupsOf prefixed written) := by
  have hfirst : Ended ⟨0, 0, 0⟩ { source := { unread := written 1 } }
      (begunPrefixed.2.1.emit (.writeEnd 0) "x y\r\nz") :=
    ⟨rfl, rfl, rfl, rfl, rfl, rfl, rfl, fun n hn => absurd hn (Nat.not_lt_zero n)⟩
  have hsecond : Ended ⟨1, 1, 1⟩ {} begunPrefixed.2.1 := by
    refine ⟨rfl, rfl, rfl, rfl, rfl, rfl, rfl, fun n hn worker hmem => ?_⟩
    -- The worker of the first command waits for the end of its own pipe.
    cases Nat.lt_one_iff.mp hn
    cases hmem
    exact .inr ⟨0, 0, rfl, by decide, rfl⟩
  have harrivals : List.Forall₂ (begunPrefixed.1.Arrives written) [3, 0, 2, 1] lateCommand :=
    .cons (hsecond.arrives rfl rfl rfl _) (.cons (.token rfl _) (.cons (.token rfl _)
      (.cons (hfirst.arrives rfl rfl rfl _) .nil)))
  have horder : [3, 0, 2, 1].Perm (List.range prefixed.length) := by decide
  exact ⟨harrivals, by decide, (reports_groups (List.cons_ne_nil _ _) rfl horder harrivals).2.2⟩

end ValueShell.Evaluation.WordTask
