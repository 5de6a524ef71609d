import ValueShell.Proofs.Command.Soundness

/-!
# How deep the reader descends

The reader of command lines is bounded by a depth. Here a depth is found that is enough for every input,
whether it can be read or not: five steps for each token, and at most five more. So the bound can be
forgotten: the functions `readWord` to `readSequence` have no bound, and each satisfies the equation of
its namesake with no bound in it (`readWord_eq` to `readSequence_eq`).
-/

set_option autoImplicit false

namespace ValueShell.Tree

open ValueShell.Plan (ok_of_bind)

/-- Enough depth for all tokens but the first steps at the current one. -/
def Input.depth (i : Input) : Nat := 5 * i.tokens.length

/-- What is left after some tokens needs no more depth, and five steps less for each of them. -/
theorem Input.Passes.depth {ts : List Token} {i j : Input} (h : i.Passes ts j) :
    j.depth + 5 * ts.length = i.depth := by
  rw [Input.depth, Input.depth, h.tokens, List.length_append]
  omega

theorem Input.depth_advance {i j : Input} (h : i.advance = .ok j) : j.depth + 5 = i.depth :=
  (Input.passes_of_advance h).depth

/-!
## The reader without a bound

Each function is given the depth that is enough for its input.
-/

def readWord (inside : Bool) (pieces : List Piece) (i : Input) : Except Fault (List Piece × Input) :=
  word (i.depth + 2) inside pieces i

def readBackquoted (i : Input) : Except Fault (Tree × Input) := backquoted (i.depth + 1) i

def readProcess (inside : Bool) (words : List (List Piece)) (redirects : List Redirect) (i : Input) :
    Except Fault (Tree × Input) :=
  processRest (i.depth + 1) inside words redirects i

def readCommand (inside : Bool) (i : Input) : Except Fault (Tree × Input) :=
  command (i.depth + 3) inside i

def readPipeline (inside : Bool) (left : Tree) (i : Input) : Except Fault (Tree × Input) :=
  pipeline (i.depth + 1) inside left i

def readCondition (inside : Bool) (before : Option (Tree × Operator)) (i : Input) :
    Except Fault (Tree × Input) :=
  condition (i.depth + 4) inside before i

def readSequence (inside : Bool) (before : Option Tree) (i : Input) : Except Fault (Tree × Input) :=
  sequence (i.depth + 5) inside before i

/-!
## One step of the reader

The bodies of the functions, where the calls have no bound.
-/

def stepWord (inside : Bool) (pieces : List Piece) (i : Input) : Except Fault (List Piece × Input) :=
  if i.current.kind = .doubleQuoted then do
    let expanded ← Token.expandQuoted i.current.text
    let j ← i.advance
    readWord inside (pieces ++ expanded.map .token) j
  else if i.current.kind.isWordPart then do
    let j ← i.advance
    readWord inside (pieces ++ [.token i.current]) j
  else if i.current.kind = .backquote && !inside then do
    let (tree, j) ← readBackquoted i
    readWord inside (pieces ++ [.backquote tree]) j
  else if pieces.isEmpty then
    .error (.complaint (.unexpectedToken i.current.kind.name i.current.text))
  else .ok (pieces, i)

def stepBackquoted (i : Input) : Except Fault (Tree × Input) := do
  let i ← i.advance
  if i.current.kind = .space then readBackquoted i
  else
    let (tree, i) ← readSequence true none i
    if i.current.kind ≠ .backquote then .error (.complaint .backquoteMismatch)
    else
      let i ← i.advance
      .ok (tree, i)

def stepProcess (inside : Bool) (words : List (List Piece)) (redirects : List Redirect) (i : Input) :
    Except Fault (Tree × Input) :=
  match i.current.kind with
  | .space => do
    let i ← i.advance
    if i.current.kind = .backquote && inside then .ok (.process words redirects, i)
    else
      let (next, i) ← readWord inside [] i
      readProcess inside (words ++ [next]) redirects i
  | .redirect => do
    let (append, source, target) ← redirectParts i.current.text
    let i ← i.advance
    match target with
    | some descriptor =>
      readProcess inside words (redirects ++ [.descriptor append source descriptor]) i
    | none => do
      let (target, i) ← readWord inside [] i
      readProcess inside words (redirects ++ [.file append source target]) i
  | .capture => do
    let i ← i.advance
    let (name, i) ← resultName i .captureWithoutName
    readProcess inside words (redirects ++ [.capture name]) i
  | _ => .ok (.process words redirects, i)

def stepCommand (inside : Bool) (i : Input) : Except Fault (Tree × Input) :=
  if i.current.kind = .openParen then do
    let i ← i.advance
    let (tree, i) ← readSequence inside none i
    if i.current.kind ≠ .closeParen then .error (.complaint .parenthesisMismatch)
    else
      let i ← i.advance
      .ok (tree, i)
  else do
    let (first, i) ← readWord inside [] i
    readProcess inside [first] [] i

def stepPipeline (inside : Bool) (left : Tree) (i : Input) : Except Fault (Tree × Input) :=
  match i.current.kind with
  | .pipe => do
    let i ← i.advance
    let (right, i) ← readCommand inside i
    readPipeline inside (.binary .pipe left right) i
  | .arrow => do
    let i ← i.advance
    let (name, i) ← resultName i .arrowWithoutName
    readPipeline inside (.assign left name) i
  | _ => .ok (left, i)

/-- A whole pipeline. -/
def readStages (inside : Bool) (i : Input) : Except Fault (Tree × Input) := do
  let (first, i) ← readCommand inside i
  readPipeline inside first i

def stepCondition (inside : Bool) (before : Option (Tree × Operator)) (i : Input) :
    Except Fault (Tree × Input) := do
  let (next, i) ← readStages inside i
  goOnCondition (readCondition inside) (afterCondition before next) i

def stepSequence (inside : Bool) (before : Option Tree) (i : Input) : Except Fault (Tree × Input) := do
  let (next, i) ← readCondition inside none i
  goOnSequence (readSequence inside) (afterSequence before next) i

/-! ## Enough depth -/

/-- The depth `n` is as good as no bound for each function whose input does not need more. -/
structure Stable (n : Nat) : Prop where
  word : ∀ {inside pieces i}, i.depth + 2 ≤ n → word n inside pieces i = readWord inside pieces i
  backquoted : ∀ {i}, i.depth + 1 ≤ n → backquoted n i = readBackquoted i
  processRest : ∀ {inside words redirects i}, i.depth + 1 ≤ n →
    processRest n inside words redirects i = readProcess inside words redirects i
  command : ∀ {inside i}, i.depth + 3 ≤ n → command n inside i = readCommand inside i
  pipeline : ∀ {inside left i}, i.depth + 1 ≤ n → pipeline n inside left i = readPipeline inside left i
  condition : ∀ {inside before i}, i.depth + 4 ≤ n →
    condition n inside before i = readCondition inside before i
  sequence : ∀ {inside before i}, i.depth + 5 ≤ n →
    sequence n inside before i = readSequence inside before i

theorem ok_bind {α β : Type} (a : α) (f : α → Except Fault β) : Except.ok a >>= f = f a := rfl

/-- Two computations that begin alike are alike if they go on alike. -/
theorem bind_congr_ok {α β : Type} {x : Except Fault α} {f g : α → Except Fault β}
    (h : ∀ a, x = .ok a → f a = g a) : x >>= f = x >>= g := by
  cases x with
  | error fault => rfl
  | ok a => exact h a rfl

theorem depth_resultName {i j : Input} {c : Complaint} {name : String}
    (h : resultName i c = .ok (name, j)) : j.depth + 5 = i.depth :=
  (passes_of_resultName h).2.2.2.depth

theorem depth_readBackquoted {i j : Input} {tree : Tree} (h : readBackquoted i = .ok (tree, j)) :
    j.depth + 5 ≤ i.depth := by
  obtain ⟨_, _, _, _, hpass, _⟩ := (sound _).backquoted h
  have hdepth := hpass.depth
  rw [List.length_cons] at hdepth
  omega

theorem depth_readWord {inside : Bool} {pieces : List Piece} {i j : Input}
    (h : readWord inside [] i = .ok (pieces, j)) : j.depth ≤ i.depth := by
  obtain ⟨_, hpass, _⟩ := (sound _).word h [] .nothing
  exact Nat.le.intro hpass.depth

theorem depth_readCommand {inside : Bool} {i j : Input} {tree : Tree}
    (h : readCommand inside i = .ok (tree, j)) : j.depth ≤ i.depth := by
  obtain ⟨_, _, hpass, _⟩ := (sound _).command h
  exact Nat.le.intro hpass.depth

theorem depth_readStages {inside : Bool} {i j : Input} {tree : Tree}
    (h : readStages inside i = .ok (tree, j)) : j.depth ≤ i.depth := by
  obtain ⟨⟨first, k⟩, hfirst, hrest⟩ := ok_of_bind h
  obtain ⟨_, _, hpass, hcommand, hends⟩ := (sound _).command hfirst
  obtain ⟨_, _, hpass', _⟩ := (sound _).pipeline hrest _ _ (.command hcommand) hends
  exact Nat.le.intro (hpass.trans hpass').depth

theorem depth_readCondition {inside : Bool} {i j : Input} {tree : Tree}
    (h : readCondition inside none i = .ok (tree, j)) : j.depth ≤ i.depth := by
  obtain ⟨_, _, hpass, _⟩ := (sound _).condition h [] rfl
  exact Nat.le.intro hpass.depth

variable {n : Nat} {inside : Bool} {i : Input}

theorem Stable.word_succ (h : Stable n) {pieces : List Piece} (hi : i.depth + 2 ≤ n + 1) :
    Tree.word (n + 1) inside pieces i = stepWord inside pieces i := by
  rw [Tree.word, stepWord]
  dsimp only
  congr 1
  · refine bind_congr_ok fun expanded _ => bind_congr_ok fun j hj => h.word ?_
    have := Input.depth_advance hj
    omega
  congr 1
  · refine bind_congr_ok fun j hj => h.word ?_
    have := Input.depth_advance hj
    omega
  congr 1
  · rw [h.backquoted (by omega)]
    refine bind_congr_ok fun r hr => ?_
    obtain ⟨tree, j⟩ := r
    have := depth_readBackquoted hr
    have hj : j.depth + 2 ≤ n := by omega
    exact h.word hj

theorem Stable.backquoted_succ (h : Stable n) (hi : i.depth + 1 ≤ n + 1) :
    Tree.backquoted (n + 1) i = stepBackquoted i := by
  rw [Tree.backquoted, stepBackquoted]
  refine bind_congr_ok fun j hj => ?_
  have := Input.depth_advance hj
  rw [h.backquoted (by omega), h.sequence (by omega)]

theorem Stable.processRest_succ (h : Stable n) {words : List (List Piece)} {redirects : List Redirect}
    (hi : i.depth + 1 ≤ n + 1) :
    Tree.processRest (n + 1) inside words redirects i = stepProcess inside words redirects i := by
  rw [Tree.processRest, stepProcess]
  congr 1
  · funext _
    refine bind_congr_ok fun j hj => ?_
    have := Input.depth_advance hj
    congr 1
    rw [h.word (by omega)]
    refine bind_congr_ok fun r hr => ?_
    obtain ⟨word, k⟩ := r
    have := depth_readWord hr
    exact h.processRest (by omega)
  · funext _
    refine bind_congr_ok fun parts _ => ?_
    obtain ⟨append, source, target⟩ := parts
    refine bind_congr_ok fun j hj => ?_
    have := Input.depth_advance hj
    cases target with
    | some descriptor => exact h.processRest (by omega)
    | none =>
      dsimp only
      rw [h.word (by omega)]
      refine bind_congr_ok fun r hr => ?_
      obtain ⟨word, k⟩ := r
      have := depth_readWord hr
      have hk : k.depth + 1 ≤ n := by omega
      exact h.processRest hk
  · funext _
    refine bind_congr_ok fun j hj => bind_congr_ok fun r hr => ?_
    obtain ⟨name, k⟩ := r
    have := Input.depth_advance hj
    have := depth_resultName hr
    exact h.processRest (by omega)

theorem Stable.command_succ (h : Stable n) (hi : i.depth + 3 ≤ n + 1) :
    Tree.command (n + 1) inside i = stepCommand inside i := by
  rw [Tree.command, stepCommand]
  congr 1
  · refine bind_congr_ok fun j hj => ?_
    have := Input.depth_advance hj
    rw [h.sequence (by omega)]
  · rw [h.word (by omega)]
    refine bind_congr_ok fun r hr => ?_
    obtain ⟨word, j⟩ := r
    have := depth_readWord hr
    exact h.processRest (by omega)

theorem Stable.pipeline_succ (h : Stable n) {left : Tree} (hi : i.depth + 1 ≤ n + 1) :
    Tree.pipeline (n + 1) inside left i = stepPipeline inside left i := by
  rw [Tree.pipeline, stepPipeline]
  congr 1
  · funext _
    refine bind_congr_ok fun j hj => ?_
    have := Input.depth_advance hj
    rw [h.command (by omega)]
    refine bind_congr_ok fun r hr => ?_
    obtain ⟨right, k⟩ := r
    have := depth_readCommand hr
    exact h.pipeline (by omega)
  · funext _
    refine bind_congr_ok fun j hj => bind_congr_ok fun r hr => ?_
    obtain ⟨name, k⟩ := r
    have := Input.depth_advance hj
    have := depth_resultName hr
    exact h.pipeline (by omega)

/-- Going on with a condition only depends on how what is left after an operator is read. -/
theorem goOnCondition_congr {read read' : Option (Tree × Operator) → Input → Except Fault (Tree × Input)}
    (h : ∀ before j, i.advance = .ok j → read before j = read' before j) (tree : Tree) :
    goOnCondition read tree i = goOnCondition read' tree i := by
  unfold goOnCondition
  congr 1
  · funext _
    exact bind_congr_ok fun j hj => h _ j hj
  · funext _
    exact bind_congr_ok fun j hj => h _ j hj

/-- Going on with a sequence only depends on how what is left after a semicolon is read. -/
theorem goOnSequence_congr {read read' : Option Tree → Input → Except Fault (Tree × Input)}
    (h : ∀ before j, i.advance = .ok j → read before j = read' before j) (tree : Tree) :
    goOnSequence read tree i = goOnSequence read' tree i := by
  unfold goOnSequence
  congr 1
  refine bind_congr_ok fun j hj => ?_
  rw [h _ j hj]

theorem Stable.condition_succ (h : Stable n) {before : Option (Tree × Operator)}
    (hi : i.depth + 4 ≤ n + 1) :
    Tree.condition (n + 1) inside before i = stepCondition inside before i := by
  rw [Tree.condition_succ, stepCondition, readStages, h.command (by omega), bind_assoc]
  refine bind_congr_ok fun r hj => ?_
  obtain ⟨first, j⟩ := r
  have := depth_readCommand hj
  dsimp only
  rw [h.pipeline (by omega)]
  refine bind_congr_ok fun r hk => ?_
  obtain ⟨next, k⟩ := r
  refine goOnCondition_congr (fun before l hl => h.condition ?_) _
  -- what the rest of a pipeline passes is known only together with its first command
  have hstages : readStages inside i = .ok (next, k) := by
    rw [readStages, hj]
    exact hk
  have := depth_readStages hstages
  have : l.depth + 5 = k.depth := Input.depth_advance hl
  omega

theorem Stable.sequence_succ (h : Stable n) {before : Option Tree} (hi : i.depth + 5 ≤ n + 1) :
    Tree.sequence (n + 1) inside before i = stepSequence inside before i := by
  rw [Tree.sequence_succ, stepSequence, h.condition (by omega)]
  refine bind_congr_ok fun r hj => ?_
  obtain ⟨next, j⟩ := r
  refine goOnSequence_congr (fun before k hk => h.sequence ?_) _
  have := depth_readCondition hj
  have : k.depth + 5 = j.depth := Input.depth_advance hk
  omega

/-- Every depth is as good as no bound for the inputs that do not need more. -/
theorem stable (n : Nat) : Stable n := by
  induction n using Nat.strongRecOn with
  | ind n ih =>
    -- the depth `m + 1` that an input needs, and any depth `k + 1` above it, lead to the same step
    have hbelow : ∀ {m k}, m + 1 ≤ n → n = k + 1 → Stable m ∧ Stable k := fun hm hk =>
      ⟨ih _ (by omega), ih _ (by omega)⟩
    cases n with
    | zero => constructor <;> intros <;> omega
    | succ k =>
      constructor
      · intro inside pieces i hi
        obtain ⟨hm, hk⟩ := hbelow hi rfl
        rw [hk.word_succ hi, readWord, hm.word_succ (Nat.le_refl _)]
      · intro i hi
        obtain ⟨hm, hk⟩ := hbelow hi rfl
        rw [hk.backquoted_succ hi, readBackquoted, hm.backquoted_succ (Nat.le_refl _)]
      · intro inside words redirects i hi
        obtain ⟨hm, hk⟩ := hbelow hi rfl
        rw [hk.processRest_succ hi, readProcess, hm.processRest_succ (Nat.le_refl _)]
      · intro inside i hi
        obtain ⟨hm, hk⟩ := hbelow hi rfl
        rw [hk.command_succ hi, readCommand, hm.command_succ (Nat.le_refl _)]
      · intro inside left i hi
        obtain ⟨hm, hk⟩ := hbelow hi rfl
        rw [hk.pipeline_succ hi, readPipeline, hm.pipeline_succ (Nat.le_refl _)]
      · intro inside before i hi
        obtain ⟨hm, hk⟩ := hbelow hi rfl
        rw [hk.condition_succ hi, readCondition, hm.condition_succ (Nat.le_refl _)]
      · intro inside before i hi
        obtain ⟨hm, hk⟩ := hbelow hi rfl
        rw [hk.sequence_succ hi, readSequence, hm.sequence_succ (Nat.le_refl _)]

/-! ## The equations of the reader without a bound -/

theorem readWord_eq (inside : Bool) (pieces : List Piece) (i : Input) :
    readWord inside pieces i = stepWord inside pieces i := (stable _).word_succ (Nat.le_refl _)

theorem readBackquoted_eq (i : Input) : readBackquoted i = stepBackquoted i :=
  (stable _).backquoted_succ (Nat.le_refl _)

theorem readProcess_eq (inside : Bool) (words : List (List Piece)) (redirects : List Redirect)
    (i : Input) : readProcess inside words redirects i = stepProcess inside words redirects i :=
  (stable _).processRest_succ (Nat.le_refl _)

theorem readCommand_eq (inside : Bool) (i : Input) : readCommand inside i = stepCommand inside i :=
  (stable _).command_succ (Nat.le_refl _)

theorem readPipeline_eq (inside : Bool) (left : Tree) (i : Input) :
    readPipeline inside left i = stepPipeline inside left i := (stable _).pipeline_succ (Nat.le_refl _)

theorem readCondition_eq (inside : Bool) (before : Option (Tree × Operator)) (i : Input) :
    readCondition inside before i = stepCondition inside before i :=
  (stable _).condition_succ (Nat.le_refl _)

theorem readSequence_eq (inside : Bool) (before : Option Tree) (i : Input) :
    readSequence inside before i = stepSequence inside before i :=
  (stable _).sequence_succ (Nat.le_refl _)

/-- The depth that the reader of a whole reading is given is enough. -/
theorem ofReading_eq {r : Token.Reading} (h : r.tokens ≠ []) :
    ofReading r = readSequence false none ⟨r.tokens, r.fault.getD .exhausted⟩ := by
  unfold ofReading
  split
  · rename_i hnil
    exact absurd hnil h
  · exact (stable _).sequence (by rw [Input.depth]; dsimp only; omega)

end ValueShell.Tree
