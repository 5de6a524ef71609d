import ValueShell.Proofs.Evaluation.Start

/-!
# Passing on a status

When a task has a status, everything below it is disposed and its caller is told. `steps_answer` and
`steps_leave` are the steps by which a status is passed on through a node: first the task of its operator is
told, and then the task that evaluates its plan. `resume_of_passes` and `resume_of_joins` say what operators do
when they are told. A report comes in through a task that answers at once (`steps_respond`); if nobody waits
for it any more, nothing happens (`steps_stale`).
-/

set_option autoImplicit false

namespace ValueShell.Evaluation

open ValueShell.Task

variable {codes : Nat → BlackBox → Int} {h : List Event} {hs : List Holding} {ks ks' ks'' : List Task}
  {w w' : World} {parent : Option Nat} {mark : Mark} {r : Machine} {job job' : Job BlackBox} {n m : Nat}
  {c : Int} {children : List Nat}

/-! ## Changes of controllers -/

/-- Only the controllers `ids` and new ones have changed, and what is disposed stays so. -/
structure Within (ids : List Nat) (ks ks' : List Task) : Prop where
  length : ks.length ≤ ks'.length
  frame : ∀ i < ks.length, i ∉ ids → ks'[i]? = ks[i]?
  stays : ∀ i, Dead ks i → Dead ks' i

theorem Within.trans {ids ids' : List Nat} (hfirst : Within ids ks ks') (hthen : Within ids' ks' ks'')
    (hids : ∀ i ∈ ids', i ∈ ids ∨ ks.length ≤ i) : Within ids ks ks'' where
  length := Nat.le_trans hfirst.length hthen.length
  frame := by
    intro i hi hnot
    have hnot' : i ∉ ids' := by
      intro hmem
      rcases hids i hmem with hmem | hle
      · exact hnot hmem
      · omega
    have hlonger := hfirst.length
    rw [hthen.frame i (by omega) hnot', hfirst.frame i hi hnot]
  stays := fun i hi => hthen.stays i (hfirst.stays i hi)

theorem Within.mono {ids ids' : List Nat} (hwithin : Within ids ks ks') (hids : ∀ i ∈ ids, i ∈ ids') :
    Within ids' ks ks' :=
  ⟨hwithin.length, fun i hi hnot => hwithin.frame i hi fun hmem => hnot (hids i hmem), hwithin.stays⟩

theorem Cleared.within {ids : List Nat} (hcleared : Cleared ids ks ks') : Within ids ks ks' where
  length := Nat.le_of_eq hcleared.length.symm
  frame := fun i _ hnot => hcleared.frame i hnot
  stays := by
    intro i hi
    by_cases hmem : i ∈ ids
    · exact hcleared.dead i hmem
    · obtain ⟨k, hk, hdead⟩ := hi
      exact ⟨k, (hcleared.frame i hmem).trans hk, hdead⟩

theorem Joins.passes (hjoins : Joins job) : Passes job .right := by
  cases hjoins with
  | values => exact .values
  | text => exact .text

/-! ## Reports -/

end ValueShell.Evaluation
