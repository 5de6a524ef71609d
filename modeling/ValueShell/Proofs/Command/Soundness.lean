import ValueShell.Proofs.Command.Grammar
import ValueShell.Proofs.Pipeline.Diagnosis

/-!
# What is read is written

Whatever the reader of command lines returns is written by the tokens that it has passed, and it stops
before a token that does not go on with it: `sound` says this of each of the reader's functions, by
induction on the depth of the descent. The functions that are given what was read before them extend the
tokens that write it.
-/

set_option autoImplicit false

namespace ValueShell

namespace Tree

open ValueShell.Plan (ok_of_bind)

namespace Input

/-- Going on past the tokens `ts` leads from `i` to `j`. Something is always left after tokens that were
passed. -/
structure Passes (ts : List Token) (i j : Input) : Prop where
  tokens : i.tokens = ts ++ j.tokens
  fault : i.fault = j.fault
  more : ts ≠ [] → j.tokens ≠ []

variable {i j k : Input} {ts us : List Token}

theorem Passes.refl (i : Input) : Passes [] i i := ⟨rfl, rfl, fun h => absurd rfl h⟩

theorem Passes.trans (h : Passes ts i j) (h' : Passes us j k) : Passes (ts ++ us) i k where
  tokens := by rw [h.tokens, h'.tokens, List.append_assoc]
  fault := h.fault.trans h'.fault
  more := by
    intro hne
    by_cases hus : us = []
    · subst hus
      rw [← List.nil_append k.tokens, ← h'.tokens]
      exact h.more (by simpa using hne)
    · exact h'.more hus

/-- The first of the tokens that are passed is the current one. -/
theorem Passes.head (h : Passes ts i j) : ∀ t ∈ ts.head?, t = i.current := by
  intro t ht
  cases ts with
  | nil => cases ht
  | cons first others =>
    rw [List.head?_cons, Option.mem_some] at ht
    rw [current, h.tokens, ← ht]
    rfl

theorem passes_of_advance (h : i.advance = .ok j) : Passes [i.current] i j := by
  obtain ⟨tokens, fault⟩ := i
  unfold advance at h
  split at h
  · rename_i t u rest heq
    cases h
    dsimp only at heq
    subst heq
    exact ⟨rfl, rfl, fun _ => List.cons_ne_nil u rest⟩
  · cases h

end Input

theorem passes_of_resultName {i j : Input} {c : Complaint} {name : String}
    (h : resultName i c = .ok (name, j)) :
    i.current.kind = .literal ∧ beginsLikeName i.current.text = true ∧ name = i.current.text ∧
      i.Passes [i.current] j := by
  unfold resultName at h
  split at h
  · rename_i hname
    rw [Bool.and_eq_true, decide_eq_true_eq] at hname
    obtain ⟨j', hadvance, heq⟩ := ok_of_bind h
    cases heq
    exact ⟨hname.1, hname.2, rfl, Input.passes_of_advance hadvance⟩
  · cases h

/-! ## What was read before -/

/-- A condition after what was read of a sequence before it. -/
def afterSequence : Option Tree → Tree → Tree
  | some left, next => .binary .sequence left next
  | none, next => next

/-- A pipeline after what was read of a condition before it. -/
def afterCondition : Option (Tree × Operator) → Tree → Tree
  | some (left, op), next => .binary op left next
  | none, next => next

/-- Goes on with a sequence of which `tree` was read: after a semicolon the line may end. -/
def goOnSequence (read : Option Tree → Input → Except Fault (Tree × Input)) (tree : Tree) (i : Input) :
    Except Fault (Tree × Input) :=
  if i.current.kind ≠ .semicolon then .ok (tree, i)
  else do
    let i ← i.advance
    match i.current.kind with
    | .ending => .ok (tree, i)
    | .closeParen => .ok (tree, i)
    | .backquote => .ok (tree, i)
    | _ => read (some tree) i

/-- Goes on with a condition of which `tree` was read. -/
def goOnCondition (read : Option (Tree × Operator) → Input → Except Fault (Tree × Input)) (tree : Tree)
    (i : Input) : Except Fault (Tree × Input) :=
  match i.current.kind with
  | .andThen => do
    let i ← i.advance
    read (some (tree, .andThen)) i
  | .orElse => do
    let i ← i.advance
    read (some (tree, .orElse)) i
  | _ => .ok (tree, i)

theorem sequence_succ (n : Nat) (inside : Bool) (before : Option Tree) (i : Input) :
    sequence (n + 1) inside before i = (do
      let (next, i) ← condition n inside none i
      goOnSequence (sequence n inside) (afterSequence before next) i) := by
  rw [sequence]
  cases before <;> rfl

theorem condition_succ (n : Nat) (inside : Bool) (before : Option (Tree × Operator)) (i : Input) :
    condition (n + 1) inside before i = (do
      let (first, i) ← command n inside i
      let (next, i) ← pipeline n inside first i
      goOnCondition (condition n inside) (afterCondition before next) i) := by
  rw [condition]
  cases before <;> rfl

/-- The tokens write what was read of a sequence: nothing, or a sequence and a semicolon. -/
def OpensSequence (inside : Bool) : Option Tree → List Token → Prop
  | none, ts => ts = []
  | some left, ts => ∃ tail us, ∃ sign : Token, Written inside (.sequence left) tail us ∧
      tail.endsCondition inside .semicolon = true ∧ sign.kind = .semicolon ∧ ts = us ++ [sign]

/-- The tokens write what was read of a condition: nothing, or a condition and an operator. -/
def OpensCondition (inside : Bool) : Option (Tree × Operator) → List Token → Prop
  | none, ts => ts = []
  | some (left, op), ts => ∃ tail us, ∃ sign : Token, Written inside (.condition left) tail us ∧
      (op = .andThen ∨ op = .orElse) ∧ tail.endsPipeline inside op.kind = true ∧
      sign.kind = op.kind ∧ ts = us ++ [sign]

variable {inside : Bool} {tail : Tail} {ts us : List Token} {next : Tree}

theorem OpensSequence.written {before : Option Tree} (h : OpensSequence inside before ts)
    (hnext : Written inside (.condition next) tail us)
    (hhead : before ≠ none → ∀ t ∈ us.head?, t.kind ≠ .backquote) :
    Written inside (.sequence (afterSequence before next)) tail (ts ++ us) := by
  cases before with
  | none =>
    rw [show ts = [] from h]
    exact .condition hnext
  | some left =>
    obtain ⟨tail', us', sign, hleft, hends, hsign, rfl⟩ := h
    rw [List.append_assoc]
    exact .successive hleft hends hsign hnext (hhead (Option.some_ne_none left))

theorem OpensCondition.written {before : Option (Tree × Operator)}
    (h : OpensCondition inside before ts) (hnext : Written inside (.pipeline next) tail us) :
    Written inside (.condition (afterCondition before next)) tail (ts ++ us) := by
  cases before with
  | none =>
    rw [show ts = [] from h]
    exact .pipeline hnext
  | some left =>
    obtain ⟨tail', us', sign, hleft, hop, hends, hsign, rfl⟩ := h
    rw [List.append_assoc]
    exact .conditional hleft hop hends hsign hnext

/-! ## The functions of the reader -/

/-- Behind the tokens `ts`, the tokens from `i` to `j` complete the phrase, and it ends there. -/
def Completes (ends : Bool → Tail → TokenKind → Bool) (inside : Bool) (ts : List Token) (i j : Input)
    (phrase : Phrase) : Prop :=
  ∃ tail us, i.Passes us j ∧ Written inside phrase tail (ts ++ us) ∧
    ends inside tail j.current.kind = true

theorem Input.Passes.completes {ends : Bool → Tail → TokenKind → Bool} {i j k : Input}
    {phrase : Phrase} (hpass : i.Passes us k) (h : Completes ends inside (ts ++ us) k j phrase) :
    Completes ends inside ts i j phrase := by
  obtain ⟨tail, vs, hvs, hwritten, hends⟩ := h
  refine ⟨tail, us ++ vs, hpass.trans hvs, ?_, hends⟩
  rw [← List.append_assoc]
  exact hwritten

/-- What the functions of the reader return at the depth `n` is written by the tokens that they pass. -/
structure Sound (n : Nat) : Prop where
  word : ∀ {inside before i pieces j}, word n inside before i = .ok (pieces, j) →
    ∀ ts, Written inside (.word before) .word ts →
    ∃ us, i.Passes us j ∧ Written inside (.word pieces) .word (ts ++ us) ∧ pieces ≠ [] ∧
      j.current.kind.extendsWord inside = false
  backquoted : ∀ {i tree j}, backquoted n i = .ok (tree, j) →
    ∃ spaces tail inner closing, i.Passes (i.current :: (spaces ++ (inner ++ [closing]))) j ∧
      (∀ s ∈ spaces, s.kind = .space) ∧ Written true (.line tree) tail inner ∧
      closing.kind = .backquote
  processRest : ∀ {inside words redirects i tree j},
    processRest n inside words redirects i = .ok (tree, j) →
    ∀ tail ts, Written inside (.process words redirects) tail ts →
    (tail = .word → i.current.kind.extendsWord inside = false) →
    Completes Tail.endsCommand inside ts i j (.command tree)
  command : ∀ {inside i tree j}, command n inside i = .ok (tree, j) →
    Completes Tail.endsCommand inside [] i j (.command tree)
  pipeline : ∀ {inside left i tree j}, pipeline n inside left i = .ok (tree, j) →
    ∀ tail ts, Written inside (.pipeline left) tail ts →
    tail.endsCommand inside i.current.kind = true →
    Completes Tail.endsPipeline inside ts i j (.pipeline tree)
  condition : ∀ {inside before i tree j}, condition n inside before i = .ok (tree, j) →
    ∀ ts, OpensCondition inside before ts →
    Completes Tail.endsCondition inside ts i j (.condition tree)
  sequence : ∀ {inside before i tree j}, sequence n inside before i = .ok (tree, j) →
    ∀ ts, OpensSequence inside before ts → (before ≠ none → i.current.kind ≠ .backquote) →
    Completes Tail.endsLine inside ts i j (.line tree)

variable {n : Nat} {i j : Input} {tree : Tree}

theorem Sound.word_succ (h : Sound n) {before pieces : List Piece}
    (hread : Tree.word (n + 1) inside before i = .ok (pieces, j))
    (hbefore : Written inside (.word before) .word ts) :
    ∃ us, i.Passes us j ∧ Written inside (.word pieces) .word (ts ++ us) ∧ pieces ≠ [] ∧
      j.current.kind.extendsWord inside = false := by
  -- a step that passes `vs` and extends the word by `others` leaves the rest to the depth `n`
  have hstep : ∀ {others : List Piece} {vs : List Token} {k : Input}, i.Passes vs k →
      Written inside (.word (before ++ others)) .word (ts ++ vs) →
      Tree.word n inside (before ++ others) k = .ok (pieces, j) →
      ∃ us, i.Passes us j ∧ Written inside (.word pieces) .word (ts ++ us) ∧ pieces ≠ [] ∧
        j.current.kind.extendsWord inside = false := by
    intro others vs k hpass hwritten hrest
    obtain ⟨us, hus, hword, hne, hends⟩ := h.word hrest (ts ++ vs) hwritten
    exact ⟨vs ++ us, hpass.trans hus, by rw [← List.append_assoc]; exact hword, hne, hends⟩
  rw [Tree.word] at hread
  split at hread
  · rename_i hkind
    obtain ⟨expanded, hexpanded, hread⟩ := ok_of_bind hread
    obtain ⟨k, hadvance, hread⟩ := ok_of_bind hread
    exact hstep (Input.passes_of_advance hadvance) (.quoted hbefore hkind hexpanded) hread
  · rename_i hdouble
    split at hread
    · rename_i hpart
      obtain ⟨k, hadvance, hread⟩ := ok_of_bind hread
      exact hstep (Input.passes_of_advance hadvance) (.part hbefore hpart hdouble) hread
    · rename_i hpart
      split at hread
      · rename_i hbackquote
        rw [Bool.and_eq_true, decide_eq_true_eq, Bool.not_eq_true'] at hbackquote
        obtain ⟨hkind, rfl⟩ := hbackquote
        obtain ⟨⟨tree, k⟩, hinner, hread⟩ := ok_of_bind hread
        obtain ⟨spaces, tail, inner, closing, hpass, hspaces, hline, hclosing⟩ := h.backquoted hinner
        exact hstep hpass (.backquoted hbefore hkind hspaces hline hclosing) hread
      · rename_i hbackquote
        split at hread
        · cases hread
        · rename_i hne
          cases hread
          refine ⟨[], .refl i, by rw [List.append_nil]; exact hbefore, by simpa using hne, ?_⟩
          rw [TokenKind.extendsWord, Bool.or_eq_false_iff]
          exact ⟨by simpa using hpart, by simpa using hbackquote⟩

theorem Sound.backquoted_succ (h : Sound n) (hread : Tree.backquoted (n + 1) i = .ok (tree, j)) :
    ∃ spaces tail inner closing, i.Passes (i.current :: (spaces ++ (inner ++ [closing]))) j ∧
      (∀ s ∈ spaces, s.kind = .space) ∧ Written true (.line tree) tail inner ∧
      closing.kind = .backquote := by
  rw [Tree.backquoted] at hread
  obtain ⟨k, hadvance, hread⟩ := ok_of_bind hread
  have hfirst := Input.passes_of_advance hadvance
  split at hread
  · rename_i hspace
    obtain ⟨spaces, tail, inner, closing, hpass, hspaces, hline, hclosing⟩ := h.backquoted hread
    refine ⟨k.current :: spaces, tail, inner, closing, hfirst.trans hpass, ?_, hline, hclosing⟩
    intro s hs
    rcases List.mem_cons.mp hs with rfl | hs
    · exact hspace
    · exact hspaces s hs
  · obtain ⟨⟨tree', l⟩, hinner, hread⟩ := ok_of_bind hread
    obtain ⟨tail, inner, hpass, hline, _⟩ := h.sequence hinner [] rfl fun hnone => absurd rfl hnone
    dsimp only at hread
    split at hread
    · cases hread
    · rename_i hclosing
      rw [ne_eq, not_not] at hclosing
      obtain ⟨m, hadvance', heq⟩ := ok_of_bind hread
      cases heq
      refine ⟨[], tail, inner, l.current, ?_, fun s hs => (List.not_mem_nil hs).elim, hline, hclosing⟩
      exact hfirst.trans (hpass.trans (Input.passes_of_advance hadvance'))

theorem Sound.processRest_succ (h : Sound n) {words : List (List Piece)} {redirects : List Redirect}
    (hread : Tree.processRest (n + 1) inside words redirects i = .ok (tree, j))
    (hbefore : Written inside (.process words redirects) tail ts)
    (hends : tail = .word → i.current.kind.extendsWord inside = false) :
    Completes Tail.endsCommand inside ts i j (.command tree) := by
  rw [Tree.processRest] at hread
  split at hread
  · -- a space, and a word unless the space stands before the closing backquote
    rename_i hspace
    obtain ⟨k, hadvance, hread⟩ := ok_of_bind hread
    have hfirst := Input.passes_of_advance hadvance
    split at hread
    · rename_i hclosing
      rw [Bool.and_eq_true, decide_eq_true_eq] at hclosing
      cases hread
      obtain ⟨hclosing, rfl⟩ := hclosing
      exact ⟨.padding, _, hfirst, .padded hbefore hspace, by rw [hclosing]; rfl⟩
    · obtain ⟨⟨word, l⟩, hword, hread⟩ := ok_of_bind hread
      obtain ⟨us, hus, hwritten, hne, hpause⟩ := h.word hword [] .nothing
      have hlonger := Written.argument hbefore hspace hwritten hne
      exact (hfirst.trans hus).completes (h.processRest hread _ _ hlonger fun _ => hpause)
  · -- a redirection
    rename_i hsign
    obtain ⟨⟨append, source, target⟩, hparts, hread⟩ := ok_of_bind hread
    obtain ⟨k, hadvance, hread⟩ := ok_of_bind hread
    have hfirst := Input.passes_of_advance hadvance
    cases target with
    | some target =>
      have hlonger := Written.descriptor hbefore hsign hparts
      exact hfirst.completes (h.processRest hread _ _ hlonger nofun)
    | none =>
      obtain ⟨⟨word, l⟩, hword, hread⟩ := ok_of_bind hread
      obtain ⟨us, hus, hwritten, hne, hpause⟩ := h.word hword [] .nothing
      have hlonger := Written.file hbefore hsign hparts hwritten hne
      exact (hfirst.trans hus).completes (h.processRest hread _ _ hlonger fun _ => hpause)
  · -- a capture
    rename_i hsign
    obtain ⟨k, hadvance, hread⟩ := ok_of_bind hread
    obtain ⟨⟨name, l⟩, hname, hread⟩ := ok_of_bind hread
    obtain ⟨hliteral, hlike, rfl, hsecond⟩ := passes_of_resultName hname
    have hlonger := Written.capture hbefore hsign hliteral hlike
    exact ((Input.passes_of_advance hadvance).trans hsecond).completes
      (h.processRest hread _ _ hlonger nofun)
  · -- the end
    rename_i hspace hredirect hcapture
    cases hread
    refine ⟨tail, [], .refl i, by rw [List.append_nil]; exact .process hbefore, ?_⟩
    have hprocess : i.current.kind.extendsProcess = false := by
      simp only [TokenKind.extendsProcess, Bool.or_eq_false_iff, decide_eq_false_iff_not]
      exact ⟨⟨hspace, hredirect⟩, hcapture⟩
    rcases hbefore.tail_process with rfl | rfl
    · rw [Tail.endsCommand, hends rfl, hprocess]
      rfl
    · rw [Tail.endsCommand, hprocess]
      rfl

theorem Sound.command_succ (h : Sound n) (hread : Tree.command (n + 1) inside i = .ok (tree, j)) :
    Completes Tail.endsCommand inside [] i j (.command tree) := by
  rw [Tree.command] at hread
  split at hread
  · rename_i hopening
    obtain ⟨k, hadvance, hread⟩ := ok_of_bind hread
    obtain ⟨⟨tree', l⟩, hinner, hread⟩ := ok_of_bind hread
    obtain ⟨tail, inner, hpass, hline, hend⟩ := h.sequence hinner [] rfl fun hnone => absurd rfl hnone
    dsimp only at hread
    split at hread
    · cases hread
    · rename_i hclosing
      rw [ne_eq, not_not] at hclosing
      obtain ⟨m, hadvance', heq⟩ := ok_of_bind hread
      cases heq
      rw [hclosing] at hend
      refine ⟨.closed, _, ?_, .group hopening hline hend hclosing, rfl⟩
      exact (Input.passes_of_advance hadvance).trans (hpass.trans (Input.passes_of_advance hadvance'))
  · obtain ⟨⟨word, k⟩, hword, hread⟩ := ok_of_bind hread
    obtain ⟨us, hus, hwritten, hne, hpause⟩ := h.word hword [] .nothing
    exact hus.completes (h.processRest hread .word us (.first hwritten hne) fun _ => hpause)

theorem Sound.pipeline_succ (h : Sound n) {left : Tree}
    (hread : Tree.pipeline (n + 1) inside left i = .ok (tree, j))
    (hleft : Written inside (.pipeline left) tail ts)
    (hends : tail.endsCommand inside i.current.kind = true) :
    Completes Tail.endsPipeline inside ts i j (.pipeline tree) := by
  rw [Tree.pipeline] at hread
  split at hread
  · rename_i hsign
    rw [hsign] at hends
    obtain ⟨k, hadvance, hread⟩ := ok_of_bind hread
    obtain ⟨⟨right, l⟩, hright, hread⟩ := ok_of_bind hread
    obtain ⟨tail', us, hus, hwritten, hends'⟩ := h.command hright
    have hlonger := Written.pipe hleft hends hsign hwritten
    exact ((Input.passes_of_advance hadvance).trans hus).completes
      (h.pipeline hread _ _ hlonger hends')
  · rename_i hsign
    rw [hsign] at hends
    obtain ⟨k, hadvance, hread⟩ := ok_of_bind hread
    obtain ⟨⟨name, l⟩, hname, hread⟩ := ok_of_bind hread
    obtain ⟨hliteral, hlike, rfl, hsecond⟩ := passes_of_resultName hname
    have hlonger := Written.store hleft hends hsign hliteral hlike
    exact ((Input.passes_of_advance hadvance).trans hsecond).completes
      (h.pipeline hread _ _ hlonger rfl)
  · rename_i hpipe harrow
    cases hread
    refine ⟨tail, [], .refl i, by rw [List.append_nil]; exact hleft, ?_⟩
    rw [Tail.endsPipeline_iff, TokenKind.extendsPipeline, Bool.or_eq_false_iff, decide_eq_false_iff_not,
      decide_eq_false_iff_not]
    exact ⟨hends, hpipe, harrow⟩

theorem Sound.condition_succ (h : Sound n) {before : Option (Tree × Operator)}
    (hread : Tree.condition (n + 1) inside before i = .ok (tree, j))
    (hbefore : OpensCondition inside before ts) :
    Completes Tail.endsCondition inside ts i j (.condition tree) := by
  rw [Tree.condition_succ] at hread
  obtain ⟨⟨first, k⟩, hfirst, hread⟩ := ok_of_bind hread
  obtain ⟨⟨next, l⟩, hnext, hread⟩ := ok_of_bind hread
  obtain ⟨tail₁, us₁, hpass₁, hcommand, hends₁⟩ := h.command hfirst
  obtain ⟨tail₂, us₂, hpass₂, hpipeline, hends₂⟩ := h.pipeline hnext tail₁ us₁ (.command hcommand) hends₁
  have hpass := hpass₁.trans hpass₂
  have hwritten := hbefore.written hpipeline
  -- after an operator the rest is left to the depth `n`
  have hstep : ∀ {op : Operator} {m : Input}, op = .andThen ∨ op = .orElse → l.current.kind = op.kind →
      l.advance = .ok m →
      Tree.condition n inside (some (afterCondition before next, op)) m = .ok (tree, j) →
      Completes Tail.endsCondition inside ts i j (.condition tree) := by
    intro op m hop hsign hadvance hrest
    rw [hsign] at hends₂
    refine hpass.completes ((Input.passes_of_advance hadvance).completes ?_)
    exact h.condition hrest _ ⟨tail₂, _, l.current, hwritten, hop, hends₂, hsign, rfl⟩
  dsimp only at hread
  unfold goOnCondition at hread
  split at hread
  · rename_i hsign
    obtain ⟨m, hadvance, hread⟩ := ok_of_bind hread
    exact hstep (Or.inl rfl) hsign hadvance hread
  · rename_i hsign
    obtain ⟨m, hadvance, hread⟩ := ok_of_bind hread
    exact hstep (Or.inr rfl) hsign hadvance hread
  · rename_i handThen horElse
    cases hread
    refine ⟨tail₂, us₁ ++ us₂, hpass, hwritten, ?_⟩
    rw [Tail.endsCondition_iff, TokenKind.extendsCondition, Bool.or_eq_false_iff,
      decide_eq_false_iff_not, decide_eq_false_iff_not]
    exact ⟨hends₂, handThen, horElse⟩

theorem Sound.sequence_succ (h : Sound n) {before : Option Tree}
    (hread : Tree.sequence (n + 1) inside before i = .ok (tree, j))
    (hbefore : OpensSequence inside before ts)
    (hhead : before ≠ none → i.current.kind ≠ .backquote) :
    Completes Tail.endsLine inside ts i j (.line tree) := by
  rw [Tree.sequence_succ] at hread
  obtain ⟨⟨next, k⟩, hnext, hread⟩ := ok_of_bind hread
  obtain ⟨tail, us, hpass, hcondition, hends⟩ := h.condition hnext [] rfl
  have hwritten := hbefore.written hcondition fun hsome t ht => by
    rw [hpass.head t ht]
    exact hhead hsome
  dsimp only at hread
  unfold goOnSequence at hread
  split at hread
  · rename_i hsign
    cases hread
    exact ⟨tail, us, hpass, .sequence hwritten, Tail.endsLine_iff.mpr ⟨hends, hsign⟩⟩
  · rename_i hsign
    rw [ne_eq, not_not] at hsign
    rw [hsign] at hends
    obtain ⟨l, hadvance, hread⟩ := ok_of_bind hread
    have hpass' := hpass.trans (Input.passes_of_advance hadvance)
    -- a semicolon at the end of the line
    have hend : ∀ {k' : TokenKind}, l.current.kind = k' → Tail.endsLine inside .semicolon k' = true →
        (.ok (afterSequence before next, l) : Except Fault (Tree × Input)) = .ok (tree, j) →
        Completes Tail.endsLine inside ts i j (.line tree) := by
      intro k' hk hends' heq
      cases heq
      refine ⟨.semicolon, us ++ [k.current], hpass', ?_, by rw [hk]; exact hends'⟩
      rw [← List.append_assoc]
      exact .terminated hwritten hends hsign
    split at hread
    · rename_i hk
      exact hend hk rfl hread
    · rename_i hk
      exact hend hk rfl hread
    · rename_i hk
      exact hend hk rfl hread
    · rename_i hbackquote
      refine hpass.completes ((Input.passes_of_advance hadvance).completes ?_)
      exact h.sequence hread _ ⟨tail, _, k.current, hwritten, hends, hsign, rfl⟩ fun _ => hbackquote

/-- What is read is written by the tokens that are passed, at every depth. -/
theorem sound (n : Nat) : Sound n := by
  -- the functions call each other, so all of them go down together
  induction n with
  | zero =>
    constructor
    all_goals intros; contradiction
  | succ n ih =>
    exact {
      word := fun hread _ hbefore => ih.word_succ hread hbefore
      backquoted := fun hread => ih.backquoted_succ hread
      processRest := fun hread _ _ hbefore hends => ih.processRest_succ hread hbefore hends
      command := fun hread => ih.command_succ hread
      pipeline := fun hread _ _ hleft hends => ih.pipeline_succ hread hleft hends
      condition := fun hread _ hbefore => ih.condition_succ hread hbefore
      sequence := fun hread _ hbefore hhead => ih.sequence_succ hread hbefore hhead }

end Tree

end ValueShell
