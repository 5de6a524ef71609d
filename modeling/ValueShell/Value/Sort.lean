import ValueShell.Value.Order

/-!
# Sorting

A stable merge sort whose comparison may fail.
-/

set_option autoImplicit false

namespace ValueShell

/-- Merges two sorted lists; of equal elements those of the first list come first. -/
def mergeM {α : Type} (less : α → α → Except Fault Bool) :
    Nat → List α → List α → Except Fault (List α)
  | 0, xs, ys => .ok (xs ++ ys)
  | _ + 1, [], ys => .ok ys
  | _ + 1, xs, [] => .ok xs
  | n + 1, x :: xs, y :: ys => do
    if ← less y x then
      let rest ← mergeM less n (x :: xs) ys
      .ok (y :: rest)
    else
      let rest ← mergeM less n xs (y :: ys)
      .ok (x :: rest)

/-- Merges neighbouring lists. -/
def mergePairs {α : Type} (less : α → α → Except Fault Bool) :
    List (List α) → Except Fault (List (List α))
  | xs :: ys :: rest => do
    let merged ← mergeM less (xs.length + ys.length) xs ys
    let others ← mergePairs less rest
    .ok (merged :: others)
  | runs => .ok runs

/-- Merges lists until one is left. -/
def mergeRuns {α : Type} (less : α → α → Except Fault Bool) :
    Nat → List (List α) → Except Fault (List α)
  | 0, runs => .ok runs.flatten
  | _ + 1, [] => .ok []
  | _ + 1, [run] => .ok run
  | n + 1, runs => do
    let merged ← mergePairs less runs
    mergeRuns less n merged

/-- Sorts a list; elements of which neither is less keep their order. -/
def sortM {α : Type} (less : α → α → Except Fault Bool) (xs : List α) : Except Fault (List α) :=
  mergeRuns less xs.length (xs.map fun x => [x])

end ValueShell
