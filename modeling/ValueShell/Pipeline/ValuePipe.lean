import ValueShell.Pipeline.Kind
import ValueShell.Value.Sequence

/-!
# Pipes of values

Whoever writes to a pipe adds sources of values to it, and whoever reads from it takes one source after
the other and all values of each. The source that was added last is taken first. Reading ends when the
pipe is closed and no source is left.
-/

set_option autoImplicit false

namespace ValueShell

/-- A pipe of sources. -/
structure ValuePipe (σ : Type) where
  /-- What the reader makes of the values. -/
  reader : StreamKind := .values
  /-- The sources that are not taken yet, the newest first. -/
  waiting : List σ := []
  closed : Bool := false
  deriving Repr

namespace ValuePipe

variable {σ : Type}

/-- Adds a source. -/
def add (p : ValuePipe σ) (s : σ) : ValuePipe σ := { p with waiting := s :: p.waiting }

/-- Closes the pipe. -/
def close (p : ValuePipe σ) : ValuePipe σ := { p with closed := true }

/-- What a reader finds in a pipe. -/
inductive Taken (σ : Type) where
  | source (s : σ) (rest : ValuePipe σ)
  /-- There is nothing and there will be nothing. -/
  | ended
  /-- There is nothing yet. -/
  | blocked

/-- Takes the next source. -/
def take (p : ValuePipe σ) : Taken σ :=
  match p.waiting with
  | s :: rest => .source s { p with waiting := rest }
  | [] => if p.closed then .ended else .blocked

end ValuePipe

/-- A source whose values are known. -/
inductive Batch where
  | values (vs : List Value)
  | missing
  /-- Something that has no elements. -/
  | unusable
  deriving Inhabited

/-- A value as a source of its elements. An empty one is no source at all. -/
def Batch.ofValue (v : Value) : Batch :=
  if !v.truthy then .missing
  else
    match v.items with
    | .ok vs => .values vs
    | .error _ => .unusable

/-- A reader of a pipe: the rest of the source that it is reading, and whether it has come to an end. -/
structure PipeReader where
  current : List Value := []
  ended : Bool := false
  deriving Inhabited

/-- What a reader gets next. -/
inductive PipeReader.Next where
  | value (v : Value)
  | ended
  | blocked
  | failed (fault : Fault)

namespace PipeReader

/-- The next value among waiting sources, with the sources and the reader that are left. -/
def advance (closed : Bool) : List Batch → Next × List Batch × PipeReader
  | [] => if closed then (.ended, [], { ended := true }) else (.blocked, [], {})
  | .values [] :: rest => advance closed rest
  | .values (v :: vs) :: rest => (.value v, rest, { current := vs })
  | .missing :: rest =>
    (if closed then .ended else .failed .unmet, rest, { ended := true })
  | .unusable :: rest => (.failed .wrongKind, rest, { ended := true })

/-- The next value. -/
def next (r : PipeReader) (p : ValuePipe Batch) : Next × ValuePipe Batch × PipeReader :=
  if r.ended then (.ended, p, r)
  else
    match r.current with
    | v :: vs => (.value v, p, { r with current := vs })
    | [] =>
      let (found, waiting, r) := advance p.closed p.waiting
      (found, { p with waiting }, r)

/-- How many values there can be at most. -/
def bound (r : PipeReader) (p : ValuePipe Batch) : Nat :=
  r.current.length + (p.waiting.map fun b =>
    match b with
    | .values vs => vs.length
    | _ => 0).foldl (· + ·) 0

/-- All values that are left, and how reading ends. -/
def drain : Nat → PipeReader → ValuePipe Batch → List Value × Next × ValuePipe Batch × PipeReader
  | 0, r, p =>
    let (found, p, r) := r.next p
    ([], found, p, r)
  | n + 1, r, p =>
    match r.next p with
    | (.value v, p, r) =>
      let (vs, found, p, r) := drain n r p
      (v :: vs, found, p, r)
    | (found, p, r) => ([], found, p, r)

/-- All values that are left, and how reading ends. -/
def rest (r : PipeReader) (p : ValuePipe Batch) : List Value × Next × ValuePipe Batch × PipeReader :=
  drain (r.bound p) r p

end PipeReader

end ValueShell
