import Mathlib.Tactic.Choose
import ValueShell.Pipeline.Plan

/-!
# What a diagnosed plan looks like

`Plan.Typed` says, without the diagnosis, which plans fit together: `Typed p k` holds if a command can
be evaluated by `p` such that what it reads is of kind `k.input` and what it writes is of kind
`k.output`. The rules follow the shape of the plan; where values are written as text they do not ask
why. `typed_of_diagnose` is the one theorem about the diagnosis that the rest of the theory needs: what
it returns is typed, carries the kinds that it returns, and is still a plan of the same tree.
-/

set_option autoImplicit false

namespace ValueShell

variable {x y : StreamKind}

namespace StreamKind

/-- What reads a stream of kind `x`, or nothing at all, can be given a stream of kind `y`. -/
def FedBy (x y : StreamKind) : Prop := x = .nothing ∨ x = y

theorem FedBy.refl (x : StreamKind) : FedBy x x := Or.inr rfl

theorem FedBy.trans {z : StreamKind} (hxy : FedBy x y) (hyz : FedBy y z) : FedBy x z := by
  rcases hxy with hx | hx
  · exact Or.inl hx
  · rw [hx]
    exact hyz

/-- Two streams that can be merged into one that is not mixed are both fed by it. -/
theorem fedBy_merge (h : x.merge y ≠ .mixed) : FedBy x (x.merge y) ∧ FedBy y (x.merge y) := by
  revert h
  cases x <;> cases y <;> simp [merge, FedBy]

/-- A merged stream goes through a descriptor if and only if one of its parts does. -/
theorem isText_merge (x y : StreamKind) : (x.merge y).isText = (x.isText || y.isText) := by
  cases x <;> cases y <;> rfl

/-- What reads text is fed by text alone, unless it is fed by a mixture. -/
theorem FedBy.eq_text (h : FedBy .text y) : y = .text := by
  rcases h with h | h
  · cases h
  · exact h.symm

/-- A stream that goes through no descriptor feeds nothing that needs one. -/
theorem FedBy.isText_eq_false (h : FedBy x y) (hy : y.isText = false) : x.isText = false := by
  rcases h with rfl | rfl
  · rfl
  · exact hy

end StreamKind

/-- The output of a command goes through a descriptor only if it is declared to be text. -/
theorem Command.isText_outputKind (c : Command) : c.outputKind.isText = decide (c.outputKind = .text) := by
  unfold Command.outputKind
  split <;> rfl

/-- What a command reads is never a mixture. -/
theorem Command.inputKind_ne_mixed (c : Command) : c.inputKind ≠ .mixed := by
  unfold Command.inputKind
  split <;> simp

namespace Plan

/-! ## Trees and parts of plans -/

mutual

/-- The tree that a plan evaluates: kinds and renderings are forgotten. -/
def toTree : Plan → Tree
  | .process _ words redirects => .process (toWords words) redirects
  | .binary _ op left right => .binary op (toTree left) (toTree right)
  | .assign _ command name => .assign (toTree command) name
  | .rendered _ command => toTree command

def toWords : List (List PlanPiece) → List (List Piece)
  | [] => []
  | word :: rest => toPieces word :: toWords rest

def toPieces : List PlanPiece → List Piece
  | [] => []
  | .token t :: rest => .token t :: toPieces rest
  | .backquote command :: rest => .backquote (toTree command) :: toPieces rest

end

/-- The command in a piece of a word, if it is one. -/
def backquote? : PlanPiece → Option Plan
  | .token _ => none
  | .backquote command => some command

/-- The commands in words. -/
def backquotes (words : List (List PlanPiece)) : List Plan := words.flatten.filterMap backquote?

theorem backquotes_cons (word : List PlanPiece) (words : List (List PlanPiece)) :
    backquotes (word :: words) = word.filterMap backquote? ++ backquotes words := by
  simp [backquotes]

/-- A plan is known to produce nothing at all. -/
def silent (p : Plan) : Bool := p.kinds?.any fun k => k.output = .nothing

/-- `Part q p`: the plan `q` is a part of `p`, be it inside of a word. -/
inductive Part (q : Plan) : Plan → Prop
  | self : Part q q
  | left {kinds op left right} : Part q left → Part q (.binary kinds op left right)
  | right {kinds op left right} : Part q right → Part q (.binary kinds op left right)
  | stored {kinds command name} : Part q command → Part q (.assign kinds command name)
  | rendered {kinds command} : Part q command → Part q (.rendered kinds command)
  | backquote {kinds words redirects b} :
      b ∈ backquotes words → Part q b → Part q (.process kinds words redirects)

/-! ## Plans that fit together -/

/-- The plan `p` reads a stream of kind `k.input` and writes one of kind `k.output`. A registered
command itself never writes text; all of its values may have to be rendered. The commands in words read
the stream of their process. -/
inductive Typed (registry : Registry) (names : Bindings) : Plan → Kinds → Prop
  | program {words redirects} (κ : Plan → Kinds) :
      commandOf registry names (toWords words) = .ok none →
      (∀ b ∈ backquotes words, Typed registry names b (κ b)) →
      (∀ b ∈ backquotes words, (κ b).input.FedBy .text) →
      (∀ b ∈ backquotes words, (κ b).output.isText = !b.silent) →
      Typed registry names (.process (some ⟨.text, .text⟩) words redirects) ⟨.text, .text⟩
  | command {words redirects c kinds input output} (κ : Plan → Kinds) :
      commandOf registry names (toWords words) = .ok (some c) →
      output.isText = false → input ≠ .mixed → c.inputKind.FedBy input →
      (∀ b ∈ backquotes words, Typed registry names b (κ b)) →
      (∀ b ∈ backquotes words, (κ b).input.FedBy input) →
      (∀ b ∈ backquotes words, (κ b).output.isText = !b.silent) →
      Typed registry names (.process (some kinds) words redirects) ⟨input, output⟩
  | stored {command kinds name} :
      Typed registry names command kinds →
      Typed registry names (.assign (some kinds) command name) kinds
  | rendered {command kinds shown} :
      Typed registry names command kinds → kinds.output.isText = false →
      Typed registry names (.rendered shown command) ⟨kinds.input, .text⟩
  | series {op left right l r} {kinds : Kinds} :
      op ≠ .pipe → Typed registry names left l → Typed registry names right r →
      kinds.input ≠ .mixed → l.input.FedBy kinds.input → r.input.FedBy kinds.input →
      l.output.isText = kinds.output.isText → r.output.isText = kinds.output.isText →
      Typed registry names (.binary (some kinds) op left right) kinds
  | pipe {left right l r} :
      Typed registry names left l → Typed registry names right r →
      left.kinds? = some l → right.kinds? = some r →
      (l.output.isText = true ∨ r.input.isText = false) →
      Typed registry names (.binary (some ⟨l.input, r.output⟩) .pipe left right) ⟨l.input, r.output⟩

/-! ## The diagnosis -/

theorem ok_of_bind {α β : Type} {x : Except Fault α} {f : α → Except Fault β} {b : β}
    (h : x >>= f = .ok b) : ∃ a, x = .ok a ∧ f a = .ok b := by
  cases x with
  | error fault => cases h
  | ok a => exact ⟨a, rfl, h⟩

variable {registry : Registry} {names : Bindings} {p : Plan} {k : Kinds} {kinds : Option Kinds}
  {words : List (List PlanPiece)} {redirects : List Redirect}

/-- What the diagnosis guarantees of a plan: it is typed, carries its kinds, and is a plan of the
tree. -/
structure Explains (registry : Registry) (names : Bindings) (tree : Tree) (p : Plan) (k : Kinds) :
    Prop where
  typed : Typed registry names p k
  kinds : p.kinds? = some k
  tree : p.toTree = tree

/-- What the diagnosis guarantees of the commands in words: they can share the stream `input` with
their process, and they write text unless they are silent. -/
def Shared (registry : Registry) (names : Bindings) (input : StreamKind) (commands : List Plan) : Prop :=
  ∀ b ∈ commands, ∃ k, Typed registry names b k ∧ k.input.FedBy input ∧ k.output.isText = !b.silent

theorem Shared.mono {commands : List Plan} (h : Shared registry names x commands) (hxy : x.FedBy y) :
    Shared registry names y commands := by
  intro b hb
  obtain ⟨k, hk, hin, hout⟩ := h b hb
  exact ⟨k, hk, hin.trans hxy, hout⟩

/-- A plan that is rendered if it produces values is typed, and writes text unless it is silent. -/
theorem typed_renderValues (h : Typed registry names p k) (hk : p.kinds? = some k) :
    ∃ k', Typed registry names (if k.output = .values then render p else p) k' ∧
      k'.input = k.input ∧
      k'.output.isText = !(if k.output = .values then render p else p).silent := by
  by_cases hv : k.output = .values
  · refine ⟨⟨k.input, .text⟩, ?_, rfl, ?_⟩
    · rw [if_pos hv]
      exact Typed.rendered h (by rw [hv]; rfl)
    · rw [if_pos hv]
      rfl
  · refine ⟨k, ?_, rfl, ?_⟩
    · rw [if_neg hv]
      exact h
    · rw [if_neg hv]
      unfold silent
      rw [hk]
      cases ho : k.output <;> simp [StreamKind.isText, ho] at hv ⊢

/-- A plan that is rendered if the whole goes through a descriptor and it does not itself. -/
theorem typed_renderFor (whole : StreamKind) (h : Typed registry names p k)
    (hw : k.output.isText = true → whole.isText = true) :
    ∃ k', Typed registry names (if whole.isText && !k.output.isText then render p else p) k' ∧
      k'.input = k.input ∧ k'.output.isText = whole.isText := by
  by_cases hr : (whole.isText && !k.output.isText) = true
  · rw [if_pos hr]
    simp only [Bool.and_eq_true, Bool.not_eq_true'] at hr
    exact ⟨⟨k.input, .text⟩, Typed.rendered h hr.2, rfl, hr.1.symm⟩
  · rw [if_neg hr]
    refine ⟨k, h, rfl, ?_⟩
    cases hk : k.output.isText <;> cases hx : whole.isText <;> simp_all

/-- Two plans that are joined by a pipe are typed, if the pipe is not refused. -/
theorem typed_join_pipe {left right : Tree} {l r : Plan} {lk rk : Kinds}
    (hl : Explains registry names left l lk) (hr : Explains registry names right r rk)
    (h : join .pipe (l, lk) (r, rk) = .ok (p, k)) :
    Explains registry names (.binary .pipe left right) p k := by
  simp only [join] at h
  split at h
  · cases h
  · rw [Except.ok.injEq, Prod.mk.injEq] at h
    obtain ⟨rfl, rfl⟩ := h
    by_cases hw : (!lk.output.isText && rk.input.isText) = true
    · rw [if_pos hw]
      simp only [Bool.and_eq_true, Bool.not_eq_true'] at hw
      have hren : Typed registry names (.rendered (some ⟨lk.input, .text⟩) l) ⟨lk.input, .text⟩ :=
        Typed.rendered hl.typed hw.1
      refine ⟨Typed.pipe (l := ⟨lk.input, .text⟩) hren hr.typed rfl hr.kinds (Or.inl rfl), rfl, ?_⟩
      simp only [toTree, hl.tree, hr.tree]
    · rw [if_neg hw]
      have hfit : lk.output.isText = true ∨ rk.input.isText = false := by
        cases hx : lk.output.isText <;> cases hy : rk.input.isText <;> simp_all
      refine ⟨Typed.pipe hl.typed hr.typed hl.kinds hr.kinds hfit, rfl, ?_⟩
      simp only [toTree, hl.tree, hr.tree]

theorem toTree_ite_render (c : Prop) [Decidable c] (p : Plan) :
    (if c then render p else p).toTree = p.toTree := by
  split
  · rfl
  · rfl

/-- Two plans that are joined by any other operator are typed, if they can share their input. -/
theorem typed_join_series {op : Operator} {left right : Tree} {l r : Plan} {lk rk : Kinds}
    (hop : op ≠ .pipe) (hl : Explains registry names left l lk) (hr : Explains registry names right r rk)
    (h : join op (l, lk) (r, rk) = .ok (p, k)) : Explains registry names (.binary op left right) p k := by
  have hjoin : join op (l, lk) (r, rk) =
      (let kinds : Kinds := ⟨lk.input.merge rk.input, lk.output.merge rk.output⟩
      if kinds.input = .mixed then .error (.complaint .mixedReaders)
      else
        let l := if kinds.output.isText && !lk.output.isText then render l else l
        let r := if kinds.output.isText && !rk.output.isText then render r else r
        .ok (.binary (some kinds) op l r, kinds)) := by
    cases op with
    | pipe => exact absurd rfl hop
    | sequence => rfl
    | andThen => rfl
    | orElse => rfl
  rw [hjoin] at h
  dsimp only at h
  split at h
  · cases h
  · rename_i hin
    rw [Except.ok.injEq, Prod.mk.injEq] at h
    obtain ⟨rfl, rfl⟩ := h
    have hfed := StreamKind.fedBy_merge hin
    have hmerge := StreamKind.isText_merge lk.output rk.output
    obtain ⟨lk', hl', hlin, hlout⟩ := typed_renderFor (lk.output.merge rk.output) hl.typed
      (fun ht => by rw [hmerge, ht, Bool.true_or])
    obtain ⟨rk', hr', hrin, hrout⟩ := typed_renderFor (lk.output.merge rk.output) hr.typed
      (fun ht => by rw [hmerge, ht, Bool.or_true])
    refine ⟨Typed.series hop hl' hr' hin ?_ ?_ hlout hrout, rfl, ?_⟩
    · rw [hlin]
      exact hfed.1
    · rw [hrin]
      exact hfed.2
    · simp only [toTree, toTree_ite_render, hl.tree, hr.tree]

/-- A process whose words are diagnosed is typed. A command that declares text as its output is
rendered. -/
theorem typed_process {words : List (List Piece)} {ws : List (List PlanPiece)}
    (redirects : List Redirect) {command : Option Command} {input : StreamKind}
    (hc : commandOf registry names words = .ok command) (hws : toWords ws = words)
    (hfed : (kindsOf command).input.FedBy input) (hmixed : input ≠ .mixed)
    (hshared : Shared registry names input (backquotes ws)) :
    Explains registry names (.process words redirects)
      (if command.isSome && (kindsOf command).output = .text then
        .rendered (some ⟨input, (kindsOf command).output⟩)
          (.process (some ⟨input, (kindsOf command).output⟩) ws redirects)
      else .process (some ⟨input, (kindsOf command).output⟩) ws redirects)
      ⟨input, (kindsOf command).output⟩ := by
  rw [← hws] at hc ⊢
  choose! κ hκ using hshared
  have htyped := fun b hb => (hκ b hb).1
  have hin := fun b hb => (hκ b hb).2.1
  have hout := fun b hb => (hκ b hb).2.2
  cases command with
  | none =>
    have hinput : input = .text := hfed.eq_text
    subst hinput
    exact ⟨Typed.program κ hc htyped hin hout, rfl, rfl⟩
  | some c =>
    by_cases ht : c.outputKind = .text
    · have hif : (((some c).isSome : Bool) && decide ((kindsOf (some c)).output = .text)) = true := by
        simp [kindsOf, ht]
      rw [if_pos hif]
      have hvalues : Typed registry names
          (.process (some ⟨input, (kindsOf (some c)).output⟩) ws redirects) ⟨input, .values⟩ :=
        Typed.command κ hc rfl hmixed hfed htyped hin hout
      have hkinds : (⟨input, (kindsOf (some c)).output⟩ : Kinds) = ⟨input, .text⟩ := by
        simp [kindsOf, ht]
      rw [hkinds] at hvalues ⊢
      exact ⟨Typed.rendered hvalues rfl, rfl, rfl⟩
    · have hif : ¬ (((some c).isSome : Bool) && decide ((kindsOf (some c)).output = .text)) = true := by
        simp [kindsOf, ht]
      rw [if_neg hif]
      refine ⟨Typed.command κ hc ?_ hmixed hfed htyped hin hout, rfl, rfl⟩
      have hout' := Command.isText_outputKind c
      rw [decide_eq_false ht] at hout'
      exact hout'

/-- What a process reads by itself is never a mixture. -/
theorem kindsOf_input_ne_mixed (command : Option Command) : (kindsOf command).input ≠ .mixed := by
  cases command with
  | none => simp [kindsOf]
  | some c => exact c.inputKind_ne_mixed

mutual

/-- What the diagnosis returns is typed, carries its kinds, and is a plan of the tree. -/
theorem typed_of_diagnose (tree : Tree) (p : Plan) (k : Kinds)
    (h : diagnose registry names tree = .ok (p, k)) : Explains registry names tree p k := by
  cases tree with
  | process words redirects =>
    simp only [diagnose] at h
    obtain ⟨command, hc, h⟩ := ok_of_bind h
    obtain ⟨⟨ws, input⟩, hw, h⟩ := ok_of_bind h
    obtain ⟨htree, hfed, hmixed, hshared⟩ := shared_of_diagnoseWords words _ _ _ hw
    have hprocess := typed_process redirects hc htree hfed
      (hmixed (kindsOf_input_ne_mixed command)) hshared
    dsimp only at h
    split at h
    · rename_i hif
      rw [if_pos hif] at hprocess
      rw [Except.ok.injEq, Prod.mk.injEq] at h
      obtain ⟨rfl, rfl⟩ := h
      exact hprocess
    · rename_i hif
      rw [if_neg hif] at hprocess
      rw [Except.ok.injEq, Prod.mk.injEq] at h
      obtain ⟨rfl, rfl⟩ := h
      exact hprocess
  | binary op left right =>
    simp only [diagnose] at h
    obtain ⟨⟨l, lk⟩, hl, h⟩ := ok_of_bind h
    obtain ⟨⟨r, rk⟩, hr, h⟩ := ok_of_bind h
    have hleft := typed_of_diagnose left l lk hl
    have hright := typed_of_diagnose right r rk hr
    by_cases hop : op = .pipe
    · subst hop
      exact typed_join_pipe hleft hright h
    · exact typed_join_series hop hleft hright h
  | assign command name =>
    simp only [diagnose] at h
    obtain ⟨⟨q, qk⟩, hq, h⟩ := ok_of_bind h
    rw [Except.ok.injEq, Prod.mk.injEq] at h
    obtain ⟨rfl, rfl⟩ := h
    have hcommand := typed_of_diagnose command q qk hq
    exact ⟨Typed.stored hcommand.typed, rfl, by simp only [toTree, hcommand.tree]⟩

/-- The commands in diagnosed words share the input of their process. -/
theorem shared_of_diagnoseWords (words : List (List Piece)) (input : StreamKind)
    (ws : List (List PlanPiece)) (input' : StreamKind)
    (h : diagnoseWords registry names input words = .ok (ws, input')) :
    toWords ws = words ∧ input.FedBy input' ∧ (input ≠ .mixed → input' ≠ .mixed) ∧
      Shared registry names input' (backquotes ws) := by
  cases words with
  | nil =>
    simp only [diagnoseWords, Except.ok.injEq, Prod.mk.injEq] at h
    obtain ⟨rfl, rfl⟩ := h
    exact ⟨rfl, .refl _, id, fun b hb => by cases hb⟩
  | cons word rest =>
    simp only [diagnoseWords] at h
    obtain ⟨⟨w, middle⟩, hw, h⟩ := ok_of_bind h
    obtain ⟨⟨others, last⟩, hrest, h⟩ := ok_of_bind h
    rw [Except.ok.injEq, Prod.mk.injEq] at h
    obtain ⟨rfl, rfl⟩ := h
    obtain ⟨htree₁, hfed₁, hmixed₁, hshared₁⟩ := shared_of_diagnosePieces word _ _ _ hw
    obtain ⟨htree₂, hfed₂, hmixed₂, hshared₂⟩ := shared_of_diagnoseWords rest _ _ _ hrest
    refine ⟨by simp only [toWords, htree₁, htree₂], hfed₁.trans hfed₂, hmixed₂ ∘ hmixed₁, ?_⟩
    intro b hb
    rw [backquotes_cons, List.mem_append] at hb
    rcases hb with hb | hb
    · exact hshared₁.mono hfed₂ b hb
    · exact hshared₂ b hb

/-- The commands in the diagnosed pieces of a word share the input of their process. -/
theorem shared_of_diagnosePieces (pieces : List Piece) (input : StreamKind) (ps : List PlanPiece)
    (input' : StreamKind) (h : diagnosePieces registry names input pieces = .ok (ps, input')) :
    toPieces ps = pieces ∧ input.FedBy input' ∧ (input ≠ .mixed → input' ≠ .mixed) ∧
      Shared registry names input' (ps.filterMap backquote?) := by
  cases pieces with
  | nil =>
    simp only [diagnosePieces, Except.ok.injEq, Prod.mk.injEq] at h
    obtain ⟨rfl, rfl⟩ := h
    exact ⟨rfl, .refl _, id, fun b hb => by cases hb⟩
  | cons piece rest =>
    cases piece with
    | token t =>
      simp only [diagnosePieces] at h
      obtain ⟨⟨others, last⟩, hrest, h⟩ := ok_of_bind h
      rw [Except.ok.injEq, Prod.mk.injEq] at h
      obtain ⟨rfl, rfl⟩ := h
      obtain ⟨htree, hfed, hmixed, hshared⟩ := shared_of_diagnosePieces rest _ _ _ hrest
      exact ⟨by simp only [toPieces, htree], hfed, hmixed, hshared⟩
    | backquote command =>
      simp only [diagnosePieces] at h
      obtain ⟨⟨q, qk⟩, hq, h⟩ := ok_of_bind h
      have hcommand := typed_of_diagnose command q qk hq
      dsimp only at h
      split at h
      · cases h
      · rename_i hmerge
        obtain ⟨⟨others, last⟩, hrest, h⟩ := ok_of_bind h
        rw [Except.ok.injEq, Prod.mk.injEq] at h
        obtain ⟨rfl, rfl⟩ := h
        obtain ⟨htree, hfed, hmixed, hshared⟩ := shared_of_diagnosePieces rest _ _ _ hrest
        have hin := StreamKind.fedBy_merge hmerge
        obtain ⟨k', hk', hkin, hkout⟩ := typed_renderValues hcommand.typed hcommand.kinds
        refine ⟨?_, hin.2.trans hfed, fun _ => hmixed hmerge, ?_⟩
        · simp only [toPieces, toTree_ite_render, htree, hcommand.tree]
        · intro b hb
          simp only [List.filterMap_cons, backquote?, List.mem_cons] at hb
          rcases hb with rfl | hb
          · refine ⟨k', hk', ?_, hkout⟩
            rw [hkin]
            exact hin.1.trans hfed
          · exact hshared b hb

end

/-- The plan of a whole command line is typed, writes text, and is a plan of the tree. -/
theorem typed_of_ofCommand {tree : Tree} (h : ofCommand registry names tree = .ok p) :
    ∃ k, Typed registry names p k ∧ k.output.isText = true ∧ p.toTree = tree := by
  unfold ofCommand at h
  obtain ⟨⟨q, k⟩, hq, h⟩ := ok_of_bind h
  have hexplains := typed_of_diagnose tree q k hq
  rw [Except.ok.injEq] at h
  subst h
  split
  · rename_i ht
    exact ⟨k, hexplains.typed, ht, hexplains.tree⟩
  · rename_i ht
    rw [Bool.not_eq_true] at ht
    exact ⟨⟨k.input, .text⟩, Typed.rendered hexplains.typed ht, rfl, hexplains.tree⟩

/-! ## Parts of typed plans -/

/-- The sides of a typed pipe: both carry their kinds, and values never meet a side that reads text. -/
theorem Typed.pipe_inv {left right : Plan} (h : Typed registry names (.binary kinds .pipe left right) k) :
    ∃ l r, Typed registry names left l ∧ Typed registry names right r ∧
      left.kinds? = some l ∧ right.kinds? = some r ∧
      (l.output.isText = true ∨ r.input.isText = false) ∧ k = ⟨l.input, r.output⟩ := by
  cases h with
  | series hop => exact absurd rfl hop
  | pipe hl hr hlk hrk hfit => exact ⟨_, _, hl, hr, hlk, hrk, hfit, rfl⟩

/-- The sides of any other typed operator: they read what the whole reads, and write what it writes. -/
theorem Typed.series_inv {op : Operator} {left right : Plan} (hop : op ≠ .pipe)
    (h : Typed registry names (.binary kinds op left right) k) :
    ∃ l r, Typed registry names left l ∧ Typed registry names right r ∧
      l.input.FedBy k.input ∧ r.input.FedBy k.input ∧
      l.output.isText = k.output.isText ∧ r.output.isText = k.output.isText := by
  cases h with
  | series _ hl hr _ hlin hrin hlout hrout => exact ⟨_, _, hl, hr, hlin, hrin, hlout, hrout⟩
  | pipe => exact absurd rfl hop

/-- The commands in the words of a typed process share its input. -/
theorem Typed.process_inv (h : Typed registry names (.process kinds words redirects) k) :
    Shared registry names k.input (backquotes words) := by
  cases h with
  | program κ _ hκ hin hout => exact fun b hb => ⟨κ b, hκ b hb, hin b hb, hout b hb⟩
  | command κ _ _ _ _ hκ hin hout => exact fun b hb => ⟨κ b, hκ b hb, hin b hb, hout b hb⟩

/-- A typed program of the system reads text and writes text. -/
theorem Typed.kinds_program (h : Typed registry names (.process kinds words redirects) k)
    (hc : commandOf registry names (toWords words) = .ok none) : k = ⟨.text, .text⟩ := by
  cases h with
  | program => rfl
  | command κ hc' =>
    rw [hc] at hc'
    cases hc'

/-- A typed command writes no text. -/
theorem Typed.kinds_command {c : Command} (h : Typed registry names (.process kinds words redirects) k)
    (hc : commandOf registry names (toWords words) = .ok (some c)) : k.output.isText = false := by
  cases h with
  | program κ hc' =>
    rw [hc] at hc'
    cases hc'
  | command κ _ hout => exact hout

/-- Every part of a typed plan is typed. -/
theorem Typed.part {q : Plan} (hpart : Part q p) (h : Typed registry names p k) :
    ∃ k', Typed registry names q k' := by
  induction hpart generalizing k with
  | self => exact ⟨k, h⟩
  | left _ ih =>
    cases h with
    | series _ hl _ => exact ih hl
    | pipe hl _ => exact ih hl
  | right _ ih =>
    cases h with
    | series _ _ hr => exact ih hr
    | pipe _ hr => exact ih hr
  | stored _ ih =>
    cases h with
    | stored hc => exact ih hc
  | rendered _ ih =>
    cases h with
    | rendered hc => exact ih hc
  | backquote hb _ ih =>
    obtain ⟨k', hk', _⟩ := h.process_inv _ hb
    exact ih hk'

end Plan

end ValueShell
