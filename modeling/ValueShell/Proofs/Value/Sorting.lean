import ValueShell.Value.Sort

/-!
# Sorted lists

Comparing values may fail, so a list is sorted without a fault only if the comparisons of its members succeed
and agree on an order (`Decides`). Then merging two sorted lists sorts what is in both (`exists_mergeM`), each
round of merging leaves about half as many lists (`exists_mergePairs`), and after as many rounds as there are
members one list is left (`exists_sortM`).

The members of a list of values are `Comparable` if equality and order of values make a total order of them.
Integers always are, and so are texts.
-/

set_option autoImplicit false

namespace ValueShell

variable {α : Type} {less : α → α → Except Fault Bool} {R : α → α → Prop}

/-- Comparing decides how the members of a list are ordered: of any two it says which can stand before the
other. -/
structure Decides (less : α → α → Except Fault Bool) (R : α → α → Prop) (xs : List α) : Prop where
  compares : ∀ a ∈ xs, ∀ b ∈ xs, less a b = .ok true ∧ R a b ∨ less a b = .ok false ∧ R b a
  trans : ∀ a ∈ xs, ∀ b ∈ xs, ∀ c ∈ xs, R a b → R b c → R a c

/-- The second list has the members of the first one in order. -/
structure Sorts (R : α → α → Prop) (xs zs : List α) : Prop where
  perm : zs.Perm xs
  ordered : zs.Pairwise R

theorem Decides.mono {xs ys : List α} (h : Decides less R ys) (hsub : xs ⊆ ys) : Decides less R xs where
  compares a ha b hb := h.compares a (hsub ha) b (hsub hb)
  trans a ha b hb c hc := h.trans a (hsub ha) b (hsub hb) c (hsub hc)

/-- Only one list has the given members in order, if no two of them can stand before each other. -/
theorem Sorts.unique {xs ys zs : List α} (hy : Sorts R xs ys) (hz : Sorts R xs zs)
    (hR : ∀ a ∈ xs, ∀ b ∈ xs, R a b → R b a → a = b) : ys = zs := by
  refine List.Perm.eq_of_pairwise ?_ hy.ordered hz.ordered (hy.perm.trans hz.perm.symm)
  intro a b ha hb
  exact hR a (hy.perm.mem_iff.mp ha) b (hz.perm.mem_iff.mp hb)

/-! ## Merging -/

/-- What stands before the first member of a sorted list stands before all of them. -/
theorem before_all {x y : α} {ys zs : List α} (h : Decides less R zs) (hx : x ∈ zs) (hsub : y :: ys ⊆ zs)
    (hxy : R x y) (hys : (y :: ys).Pairwise R) : ∀ z ∈ y :: ys, R x z := by
  intro z hz
  rcases List.mem_cons.mp hz with rfl | hmem
  · exact hxy
  · exact h.trans x hx y (hsub List.mem_cons_self) z (hsub hz) hxy (List.rel_of_pairwise_cons hys hmem)

theorem exists_mergeM (n : Nat) (xs ys : List α) (hn : xs.length + ys.length ≤ n)
    (h : Decides less R (xs ++ ys)) (hxs : xs.Pairwise R) (hys : ys.Pairwise R) :
    ∃ zs, mergeM less n xs ys = .ok zs ∧ Sorts R (xs ++ ys) zs := by
  induction n generalizing xs ys with
  | zero =>
    obtain rfl : xs = [] := List.eq_nil_of_length_eq_zero (by omega)
    exact ⟨ys, rfl, .refl _, hys⟩
  | succ n ih =>
    cases xs with
    | nil => exact ⟨ys, rfl, .refl _, hys⟩
    | cons x xs =>
      cases ys with
      | nil =>
        rw [List.append_nil]
        exact ⟨x :: xs, rfl, .refl _, hxs⟩
      | cons y ys =>
        simp only [List.length_cons] at hn
        rcases h.compares y (by simp) x (by simp) with ⟨hless, hyx⟩ | ⟨hless, hxy⟩
        · -- the first of the second list goes first
          have hmiddle : (x :: xs ++ y :: ys).Perm (y :: (x :: xs ++ ys)) := List.perm_middle
          obtain ⟨zs, hmerge, hperm, hordered⟩ := ih (x :: xs) ys (by simp; omega)
            (h.mono fun a ha => hmiddle.mem_iff.mpr (List.mem_cons_of_mem y ha)) hxs hys.of_cons
          refine ⟨y :: zs, by simp [mergeM, hless, hmerge, bind, Except.bind],
            (hperm.cons y).trans hmiddle.symm, ?_⟩
          refine List.Pairwise.cons ?_ hordered
          intro z hz
          rcases List.mem_append.mp (hperm.mem_iff.mp hz) with hmem | hmem
          · exact before_all h (by simp) (List.subset_append_left _ _) hyx hxs z hmem
          · exact List.rel_of_pairwise_cons hys hmem
        · obtain ⟨zs, hmerge, hperm, hordered⟩ := ih xs (y :: ys) (by simp; omega)
            (h.mono (List.subset_cons_self x _)) hxs.of_cons hys
          refine ⟨x :: zs, by simp [mergeM, hless, hmerge, bind, Except.bind], hperm.cons x, ?_⟩
          refine List.Pairwise.cons ?_ hordered
          intro z hz
          rcases List.mem_append.mp (hperm.mem_iff.mp hz) with hmem | hmem
          · exact List.rel_of_pairwise_cons hxs hmem
          · exact before_all h (by simp) (List.subset_append_right _ _) hxy hys z hmem

/-- A round of merging sorts neighbouring lists together. -/
theorem exists_mergePairs (runs : List (List α)) (h : Decides less R runs.flatten)
    (hruns : ∀ run ∈ runs, run.Pairwise R) :
    ∃ merged, mergePairs less runs = .ok merged ∧ merged.flatten.Perm runs.flatten ∧
      (∀ run ∈ merged, run.Pairwise R) ∧ merged.length = (runs.length + 1) / 2 := by
  induction runs using mergePairs.induct with
  | case1 xs ys rest ih =>
    have hflatten : (xs :: ys :: rest).flatten = xs ++ ys ++ rest.flatten := by simp
    rw [hflatten] at h
    obtain ⟨zs, hmerge, hperm, hordered⟩ := exists_mergeM _ xs ys (Nat.le_refl _)
      (h.mono (List.subset_append_left _ _)) (hruns xs (by simp)) (hruns ys (by simp))
    obtain ⟨others, hothers, hflat, hall, hlength⟩ := ih (h.mono (List.subset_append_right _ _))
      (fun run hrun => hruns run (by simp [hrun]))
    refine ⟨zs :: others, by simp [mergePairs, hmerge, hothers, bind, Except.bind], ?_, ?_, ?_⟩
    · rw [hflatten]
      exact hperm.append hflat
    · intro run hrun
      rcases List.mem_cons.mp hrun with rfl | hmem
      · exact hordered
      · exact hall run hmem
    · simp only [List.length_cons, hlength]
      omega
  | case2 runs hshort =>
    have hfew : runs.length ≤ 1 := by
      rcases runs with _ | ⟨xs, _ | ⟨ys, rest⟩⟩
      · simp
      · simp
      · exact absurd rfl (hshort xs ys rest)
    refine ⟨runs, ?_, .refl _, hruns, by omega⟩
    rw [mergePairs]
    exact hshort

/-- Rounds of merging end with one sorted list. Each leaves fewer lists, unless one is left already. -/
theorem exists_mergeRuns (n : Nat) (runs : List (List α)) (hn : runs.length ≤ n + 1)
    (h : Decides less R runs.flatten) (hruns : ∀ run ∈ runs, run.Pairwise R) :
    ∃ zs, mergeRuns less n runs = .ok zs ∧ Sorts R runs.flatten zs := by
  induction n generalizing runs with
  | zero =>
    refine ⟨runs.flatten, rfl, .refl _, ?_⟩
    rcases runs with _ | ⟨run, _ | ⟨other, rest⟩⟩
    · exact List.Pairwise.nil
    · simpa using hruns run
    · simp only [List.length_cons] at hn
      omega
  | succ n ih =>
    rcases runs with _ | ⟨xs, _ | ⟨ys, rest⟩⟩
    · exact ⟨[], rfl, .refl _, List.Pairwise.nil⟩
    · exact ⟨xs, rfl, by simp, hruns xs (by simp)⟩
    · obtain ⟨merged, hpairs, hflat, hall, hlength⟩ := exists_mergePairs _ h hruns
      simp only [List.length_cons] at hn hlength
      obtain ⟨zs, hzs, hperm, hordered⟩ := ih merged (by omega)
        (h.mono fun a ha => hflat.mem_iff.mp ha) hall
      exact ⟨zs, by simp [mergeRuns, hpairs, hzs, bind, Except.bind], hperm.trans hflat, hordered⟩

/-- A list whose comparisons decide an order is sorted by it. -/
theorem exists_sortM (xs : List α) (h : Decides less R xs) :
    ∃ zs, sortM less xs = .ok zs ∧ Sorts R xs zs := by
  have hflat : (xs.map fun x => [x]).flatten = xs := List.flatMap_singleton' xs
  obtain ⟨zs, hzs, hsorts⟩ := exists_mergeRuns xs.length (xs.map fun x => [x]) (by simp)
    (by rwa [hflat]) (by simp)
  rw [hflat] at hsorts
  exact ⟨zs, hzs, hsorts⟩

/-! ## Values that have an order -/

namespace Value

/-- The value equals the other or is less. -/
def AtMost (a b : Value) : Prop := a.equal b = true ∨ related .lt a b = .ok true

/-- Equality and order of values make a total order of the members of a list. Only values that are not equal
have to be compared by order. -/
structure Comparable (vs : List Value) : Prop where
  decided : ∀ a ∈ vs, ∀ b ∈ vs, a.equal b = false → ∃ less, related .lt a b = .ok less
  equal_iff : ∀ a ∈ vs, ∀ b ∈ vs, a.equal b = true ↔ AtMost a b ∧ AtMost b a
  total : ∀ a ∈ vs, ∀ b ∈ vs, AtMost a b ∨ AtMost b a
  trans : ∀ a ∈ vs, ∀ b ∈ vs, ∀ c ∈ vs, AtMost a b → AtMost b c → AtMost a c

theorem Comparable.mono {us vs : List Value} (h : Comparable vs) (hsub : us ⊆ vs) : Comparable us where
  decided a ha b hb := h.decided a (hsub ha) b (hsub hb)
  equal_iff a ha b hb := h.equal_iff a (hsub ha) b (hsub hb)
  total a ha b hb := h.total a (hsub ha) b (hsub hb)
  trans a ha b hb c hc := h.trans a (hsub ha) b (hsub hb) c (hsub hc)

/-- Values that compare as the members of an ordered type do. -/
theorem Comparable.of_compare {β : Type} [Ord β] [Std.TransOrd β] (f : β → Value)
    (hequal : ∀ x y, (f x).equal (f y) = (compare x y == .eq))
    (hless : ∀ x y, related .lt (f x) (f y) = .ok (compare x y == .lt)) (xs : List β) :
    Comparable (xs.map f) := by
  have hatMost (x y : β) : AtMost (f x) (f y) ↔ (compare x y).isLE = true := by
    unfold AtMost
    rw [hequal, hless]
    cases compare x y <;> simp
  constructor
  · simp only [List.forall_mem_map]
    intro x _ y _ _
    exact ⟨_, hless x y⟩
  · simp only [List.forall_mem_map, hatMost, hequal]
    intro x _ y _
    rw [Std.OrientedOrd.eq_swap (a := y) (b := x)]
    cases compare x y <;> simp
  · simp only [List.forall_mem_map, hatMost]
    intro x _ y _
    rw [Std.OrientedOrd.eq_swap (a := y) (b := x)]
    cases compare x y <;> simp
  · simp only [List.forall_mem_map, hatMost]
    intro x _ y _ z _
    exact Std.TransCmp.isLE_trans

theorem comparable_ints (ns : List Int) : Comparable (ns.map .int) :=
  .of_compare .int (fun _ _ => by simp [equal, equalWithin, number?, Number.compare?])
    (fun _ _ => by simp [related, relatedWithin, number?, Number.compare?, Relation.holds]) ns

theorem comparable_texts (ss : List String) : Comparable (ss.map .text) :=
  .of_compare .text (fun _ _ => by rw [Bool.eq_iff_iff]; simp [equal, equalWithin, number?])
    (fun _ _ => by simp [related, relatedWithin, number?, Relation.holds]) ss

end Value

end ValueShell
