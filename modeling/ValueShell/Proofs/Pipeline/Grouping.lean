import ValueShell.Commands.Standard
import ValueShell.Proofs.Pipeline.Diagnosis

/-!
# Grouping does not matter to the diagnosis

Where values have to be written as text depends on how the parts of a command are grouped, but whether the
command is refused and what flows into it and out of it does not. All that the diagnosis of the whole takes from
a part is its `verdict`: nothing if the part is refused, and else its kinds. Verdicts are joined by a partial
operation on kinds (`Kinds.join?`) which is associative, for pipes because each pipe looks only at the two
streams that meet in it, and for the other operators because the kinds of streams are merged associatively and a
mixture never becomes anything else.

`verdict_of_regrouped` says this of all trees that differ in the grouping of any of their parts, also inside of
words.
-/

set_option autoImplicit false

namespace ValueShell

namespace StreamKind

theorem merge_assoc (x y z : StreamKind) : (x.merge y).merge z = x.merge (y.merge z) := by
  cases x <;> cases y <;> cases z <;> rfl

theorem mixed_merge (x : StreamKind) : StreamKind.mixed.merge x = .mixed := by
  cases x <;> rfl

theorem merge_mixed (x : StreamKind) : x.merge .mixed = .mixed := by
  cases x <;> rfl

end StreamKind

/-! ## Kinds that are joined -/

namespace Kinds

/-- The kinds of two parts that are joined by an operator, unless they do not fit together. -/
def join? (op : Operator) (l r : Kinds) : Option Kinds :=
  if op = .pipe then
    if l.output = .mixed ∧ r.input = .values then none else some ⟨l.input, r.output⟩
  else if l.input.merge r.input = .mixed then none
  else some ⟨l.input.merge r.input, l.output.merge r.output⟩

theorem join?_pipe (l r : Kinds) :
    join? .pipe l r =
      if l.output = .mixed ∧ r.input = .values then none else some ⟨l.input, r.output⟩ :=
  if_pos rfl

theorem join?_series {op : Operator} (hop : op ≠ .pipe) (l r : Kinds) :
    join? op l r =
      if l.input.merge r.input = .mixed then none
      else some ⟨l.input.merge r.input, l.output.merge r.output⟩ :=
  if_neg hop

/-- A pipe looks only at the streams that meet in it. -/
theorem join?_pipe_assoc (a b c : Kinds) :
    ((join? .pipe a b).bind fun k => join? .pipe k c) = (join? .pipe b c).bind fun k => join? .pipe a k := by
  simp only [join?_pipe]
  by_cases hab : a.output = .mixed ∧ b.input = .values <;>
    by_cases hbc : b.output = .mixed ∧ c.input = .values <;> simp [hab, hbc]

/-- Inputs that make a mixture make one in every grouping. -/
theorem join?_series_assoc {o₁ o₂ : Operator} (h₁ : o₁ ≠ .pipe) (h₂ : o₂ ≠ .pipe) (a b c : Kinds) :
    ((join? o₁ a b).bind fun k => join? o₂ k c) = (join? o₂ b c).bind fun k => join? o₁ a k := by
  simp only [join?_series h₁, join?_series h₂]
  have hassoc := StreamKind.merge_assoc a.input b.input c.input
  by_cases hab : a.input.merge b.input = .mixed
  · rw [hab, StreamKind.mixed_merge] at hassoc
    by_cases hbc : b.input.merge c.input = .mixed <;> simp [hab, hbc, ← hassoc]
  · by_cases hbc : b.input.merge c.input = .mixed
    · rw [hbc, StreamKind.merge_mixed] at hassoc
      simp [hab, hbc, hassoc]
    · simp [hab, hbc, StreamKind.merge_assoc]

theorem join?_assoc {o₁ o₂ : Operator} (h : o₁ = .pipe ↔ o₂ = .pipe) (a b c : Kinds) :
    ((join? o₁ a b).bind fun k => join? o₂ k c) = (join? o₂ b c).bind fun k => join? o₁ a k := by
  by_cases hpipe : o₁ = .pipe
  · obtain rfl := h.mp hpipe
    subst hpipe
    exact join?_pipe_assoc a b c
  · exact join?_series_assoc hpipe (fun h₂ => hpipe (h.mpr h₂)) a b c

end Kinds

namespace Plan

variable {registry : Registry} {names : Bindings}

/-! ## Verdicts -/

theorem toOption_bind {α β : Type} (x : Except Fault α) (f : α → Except Fault β) :
    (x >>= f).toOption = x.toOption.bind fun a => (f a).toOption := by
  cases x <;> rfl

/-- What the diagnosis of a whole takes from a part: its kinds, unless it is refused. -/
def verdict (registry : Registry) (names : Bindings) (tree : Tree) : Option Kinds :=
  (diagnose registry names tree).toOption.map Prod.snd

/-- The kind of the stream that the pieces of a word share, unless one is refused. -/
def sharedByPieces (registry : Registry) (names : Bindings) (input : StreamKind) (pieces : List Piece) :
    Option StreamKind :=
  (diagnosePieces registry names input pieces).toOption.map Prod.snd

/-- The kind of the stream that words share, unless one is refused. -/
def sharedByWords (registry : Registry) (names : Bindings) (input : StreamKind) (words : List (List Piece)) :
    Option StreamKind :=
  (diagnoseWords registry names input words).toOption.map Prod.snd

theorem verdict_eq_some_iff {tree : Tree} {k : Kinds} :
    verdict registry names tree = some k ↔ ∃ p, diagnose registry names tree = .ok (p, k) := by
  unfold verdict
  cases h : diagnose registry names tree with
  | error fault => simp [Except.toOption]
  | ok r =>
    obtain ⟨p, k'⟩ := r
    simp [Except.toOption]

theorem toOption_join (op : Operator) (l r : Diagnosed) :
    (join op l r).toOption.map Prod.snd = Kinds.join? op l.2 r.2 := by
  obtain ⟨l, lk⟩ := l
  obtain ⟨r, rk⟩ := r
  cases op <;> simp only [join, Kinds.join?] <;> split <;> simp_all [Except.toOption]

theorem verdict_binary (op : Operator) (left right : Tree) :
    verdict registry names (.binary op left right) =
      (verdict registry names left).bind fun l => (verdict registry names right).bind fun r =>
        Kinds.join? op l r := by
  unfold verdict
  rw [diagnose, toOption_bind]
  cases (diagnose registry names left).toOption with
  | none => rfl
  | some l =>
    simp only [Option.bind_some, Option.map_some, toOption_bind]
    cases (diagnose registry names right).toOption with
    | none => rfl
    | some r => exact toOption_join op l r

theorem verdict_assign (command : Tree) (name : String) :
    verdict registry names (.assign command name) = verdict registry names command := by
  unfold verdict
  rw [diagnose, toOption_bind]
  cases (diagnose registry names command).toOption with
  | none => rfl
  | some r => rfl

theorem sharedByPieces_token (input : StreamKind) (t : Token) (rest : List Piece) :
    sharedByPieces registry names input (.token t :: rest) = sharedByPieces registry names input rest := by
  unfold sharedByPieces
  rw [diagnosePieces, toOption_bind]
  cases (diagnosePieces registry names input rest).toOption with
  | none => rfl
  | some r => rfl

theorem sharedByPieces_backquote (input : StreamKind) (command : Tree) (rest : List Piece) :
    sharedByPieces registry names input (.backquote command :: rest) =
      (verdict registry names command).bind fun k =>
        if k.input.merge input = .mixed then none
        else sharedByPieces registry names (k.input.merge input) rest := by
  unfold sharedByPieces verdict
  rw [diagnosePieces, toOption_bind]
  cases (diagnose registry names command).toOption with
  | none => rfl
  | some r =>
    simp only [Option.bind_some, Option.map_some]
    split
    · rfl
    · rw [toOption_bind]
      cases (diagnosePieces registry names (r.2.input.merge input) rest).toOption with
      | none => rfl
      | some others => rfl

theorem sharedByWords_cons (input : StreamKind) (word : List Piece) (rest : List (List Piece)) :
    sharedByWords registry names input (word :: rest) =
      (sharedByPieces registry names input word).bind fun input => sharedByWords registry names input rest := by
  unfold sharedByWords sharedByPieces
  rw [diagnoseWords, toOption_bind]
  cases (diagnosePieces registry names input word).toOption with
  | none => rfl
  | some r =>
    simp only [Option.bind_some, Option.map_some, toOption_bind]
    cases (diagnoseWords registry names r.2 rest).toOption with
    | none => rfl
    | some others => rfl

theorem verdict_process (words : List (List Piece)) (redirects : List Redirect) :
    verdict registry names (.process words redirects) =
      (commandOf registry names words).toOption.bind fun command =>
        (sharedByWords registry names (kindsOf command).input words).map fun input =>
          ⟨input, (kindsOf command).output⟩ := by
  unfold verdict sharedByWords
  rw [diagnose, toOption_bind]
  cases (commandOf registry names words).toOption with
  | none => rfl
  | some command =>
    simp only [Option.bind_some, toOption_bind]
    cases (diagnoseWords registry names (kindsOf command).input words).toOption with
    | none => rfl
    | some r =>
      simp only [Option.bind_some, Option.map_some]
      split <;> rfl

/-! ## Other groupings -/

/-- The trees differ only in the grouping of pipes, or of the other operators, in any of their parts. -/
inductive Regrouped : Tree → Tree → Prop
  | refl (t : Tree) : Regrouped t t
  | symm {t u : Tree} : Regrouped t u → Regrouped u t
  | trans {t u v : Tree} : Regrouped t u → Regrouped u v → Regrouped t v
  | chain {o₁ o₂ : Operator} (h : o₁ = .pipe ↔ o₂ = .pipe) (a b c : Tree) :
      Regrouped (.binary o₂ (.binary o₁ a b) c) (.binary o₁ a (.binary o₂ b c))
  | left {t u : Tree} (op : Operator) (right : Tree) :
      Regrouped t u → Regrouped (.binary op t right) (.binary op u right)
  | right {t u : Tree} (op : Operator) (left : Tree) :
      Regrouped t u → Regrouped (.binary op left t) (.binary op left u)
  | stored {t u : Tree} (name : String) : Regrouped t u → Regrouped (.assign t name) (.assign u name)
  | backquote {t u : Tree} (before after : List (List Piece)) (front back : List Piece)
      (redirects : List Redirect) : Regrouped t u →
      Regrouped (.process (before ++ (front ++ .backquote t :: back) :: after) redirects)
        (.process (before ++ (front ++ .backquote u :: back) :: after) redirects)

/-- What a process runs does not depend on the commands in its words. -/
theorem commandOf_backquote (t u : Tree) (before after : List (List Piece)) (front back : List Piece) :
    commandOf registry names (before ++ (front ++ .backquote t :: back) :: after) =
      commandOf registry names (before ++ (front ++ .backquote u :: back) :: after) := by
  cases before with
  | cons word before => rcases word with _ | ⟨piece, _ | ⟨other, rest⟩⟩ <;> rfl
  | nil =>
    cases front with
    | nil => cases back <;> rfl
    | cons piece front => cases front <;> rfl

theorem sharedByPieces_congr {t u : Tree} (h : verdict registry names t = verdict registry names u)
    (input : StreamKind) (front back : List Piece) :
    sharedByPieces registry names input (front ++ .backquote t :: back) =
      sharedByPieces registry names input (front ++ .backquote u :: back) := by
  induction front generalizing input with
  | nil => rw [List.nil_append, List.nil_append, sharedByPieces_backquote, sharedByPieces_backquote, h]
  | cons piece front ih =>
    cases piece with
    | token token => simp only [List.cons_append, sharedByPieces_token, ih]
    | backquote command => simp only [List.cons_append, sharedByPieces_backquote, ih]

theorem sharedByWords_congr {t u : Tree} (h : verdict registry names t = verdict registry names u)
    (input : StreamKind) (before after : List (List Piece)) (front back : List Piece) :
    sharedByWords registry names input (before ++ (front ++ .backquote t :: back) :: after) =
      sharedByWords registry names input (before ++ (front ++ .backquote u :: back) :: after) := by
  induction before generalizing input with
  | nil => simp only [List.nil_append, sharedByWords_cons, sharedByPieces_congr h]
  | cons word before ih => simp only [List.cons_append, sharedByWords_cons, ih]

/-- Trees that differ in grouping have the same verdict. -/
theorem verdict_of_regrouped {t u : Tree} (h : Regrouped t u) :
    verdict registry names t = verdict registry names u := by
  induction h with
  | refl t => rfl
  | symm _ ih => exact ih.symm
  | trans _ _ ih₁ ih₂ => exact ih₁.trans ih₂
  | chain h a b c =>
    simp only [verdict_binary]
    cases verdict registry names a with
    | none => rfl
    | some ka =>
      cases verdict registry names b with
      | none => rfl
      | some kb =>
        cases verdict registry names c with
        | none => simp
        | some kc => exact Kinds.join?_assoc h ka kb kc
  | left op right _ ih => rw [verdict_binary, verdict_binary, ih]
  | right op left _ ih => rw [verdict_binary, verdict_binary, ih]
  | stored name _ ih => rw [verdict_assign, verdict_assign, ih]
  | @backquote t u before after front back redirects _ ih =>
    rw [verdict_process, verdict_process, commandOf_backquote t u]
    simp only [sharedByWords_congr ih]

/-! ## Whole command lines -/

/-- The kinds of a command line: those of its plan, or of the plan whose values are written as text at the
end. -/
def lineKinds? : Plan → Option Kinds
  | .rendered none p => p.kinds?
  | p => p.kinds?

theorem lineKinds?_of_kinds {p : Plan} {k : Kinds} (h : p.kinds? = some k) : p.lineKinds? = some k := by
  cases p with
  | rendered kinds command =>
    cases kinds with
    | none => cases h
    | some kinds => exact h
  | _ => exact h

/-- A command line that is accepted has the kinds of its tree. They stand at the root of the plan unless values
are written as text there. -/
theorem kinds_of_ofCommand {tree : Tree} {p : Plan} (h : ofCommand registry names tree = .ok p) :
    ∃ k, verdict registry names tree = some k ∧ p.lineKinds? = some k ∧
      p.kinds? = if k.output.isText then some k else none := by
  obtain ⟨⟨q, k⟩, hq, h⟩ := ok_of_bind h
  have hkinds := (typed_of_diagnose tree q k hq).kinds
  refine ⟨k, verdict_eq_some_iff.mpr ⟨q, hq⟩, ?_⟩
  obtain rfl := Except.ok.inj h
  split
  · exact ⟨lineKinds?_of_kinds hkinds, hkinds⟩
  · exact ⟨hkinds, rfl⟩

/-- A command line is accepted if and only if its tree is. -/
theorem exists_ofCommand_iff {tree : Tree} :
    (∃ p, ofCommand registry names tree = .ok p) ↔ ∃ k, verdict registry names tree = some k := by
  constructor
  · rintro ⟨p, hp⟩
    obtain ⟨k, hk, -⟩ := kinds_of_ofCommand hp
    exact ⟨k, hk⟩
  · rintro ⟨k, hk⟩
    obtain ⟨q, hq⟩ := verdict_eq_some_iff.mp hk
    exact ⟨_, by rw [ofCommand, hq]; rfl⟩

/-- Pipes can be grouped in any way, and so can chains of the other operators: one grouping is accepted if and
only if the other one is, with the same kinds, and the roots of their plans have the same kinds. -/
theorem ofCommand_regrouped (registry : Registry) (names : Bindings) (a b c : Tree) (o₁ o₂ : Operator)
    (hops : o₁ = .pipe ↔ o₂ = .pipe) :
    ((∃ p, ofCommand registry names (.binary o₂ (.binary o₁ a b) c) = .ok p) ↔
      ∃ q, ofCommand registry names (.binary o₁ a (.binary o₂ b c)) = .ok q) ∧
    ∀ p q, ofCommand registry names (.binary o₂ (.binary o₁ a b) c) = .ok p →
      ofCommand registry names (.binary o₁ a (.binary o₂ b c)) = .ok q →
      p.kinds? = q.kinds? ∧ ∃ k, p.lineKinds? = some k ∧ q.lineKinds? = some k := by
  have hverdict := @verdict_of_regrouped registry names _ _ (.chain hops a b c)
  refine ⟨by rw [exists_ofCommand_iff, exists_ofCommand_iff, hverdict], ?_⟩
  intro p q hp hq
  obtain ⟨k, hk, hpline, hp⟩ := kinds_of_ofCommand hp
  obtain ⟨k', hk', hqline, hq⟩ := kinds_of_ofCommand hq
  obtain rfl : k' = k := Option.some.inj (hk'.symm.trans (hverdict.symm.trans hk))
  exact ⟨hp.trans hq.symm, k', hpline, hqline⟩

/-- A program between two commands. -/
theorem ofCommand_regrouped_program :
    let command (name : String) : Tree := .process [[.token ⟨.literal, name⟩]] []
    ∃ p q, ofCommand Commands.standard []
        (.binary .pipe (.binary .pipe (command "echo") (command "cat")) (command "map")) = .ok p ∧
      ofCommand Commands.standard []
        (.binary .pipe (command "echo") (.binary .pipe (command "cat") (command "map"))) = .ok q ∧
      p.kinds? = q.kinds? ∧ ∃ k, p.lineKinds? = some k ∧ q.lineKinds? = some k := by
  intro command
  obtain ⟨haccepted, hkinds⟩ := ofCommand_regrouped Commands.standard [] (command "echo") (command "cat")
    (command "map") .pipe .pipe Iff.rfl
  obtain ⟨q, hq⟩ := haccepted.mp ⟨_, rfl⟩
  exact ⟨_, q, rfl, hq, hkinds _ q rfl hq⟩

end Plan

end ValueShell
