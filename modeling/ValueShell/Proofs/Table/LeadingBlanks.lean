import ValueShell.Proofs.Table.SelectList
import ValueShell.Proofs.Text.Indented

/-!
# White space before a select list

Spaces and tabs before a select list indent it, and the two marks of the indentation are fragments of its
entries. The one before the first entry does not matter (`exists_ofFragments_cons`). The one behind the
last entry hides an alias there (`ofFragments_concat`), and the name of the column is lost.
-/

set_option autoImplicit false

namespace ValueShell

variable {f : Fragment}

namespace Text

variable {p : Char → Bool} {u v : List Char}

theorem trim_append_left (hu : ∀ c ∈ u, p c = true) (v : List Char) : trim p (u ++ v) = trim p v := by
  rw [trim, List.dropWhile_append_of_pos hu, trim]

theorem trim_append_right (hv : ∀ c ∈ v, p c = true) (u : List Char) : trim p (u ++ v) = trim p u := by
  have hblank : v.dropWhile p = [] := by simpa using @List.dropWhile_append_of_pos _ p v [] hv
  rw [trim, trim, List.dropWhile_append]
  split
  · rename_i hnil
    rw [hblank, List.isEmpty_iff.mp hnil]
  · rw [trimEnd, List.reverse_append, List.dropWhile_append_of_pos (by simpa using hv), trimEnd]

end Text

namespace SelectEntry

open Fragment Text

/-! ## The text of an entry -/

theorem exists_textFrom (stop : Option (Nat × Nat)) (fs : List Fragment) :
    ∃ gap, (∀ c ∈ gap, isGap c = true) ∧ textFrom stop fs = gap ++ textFrom none fs := by
  cases fs with
  | nil => exact ⟨[], by simp, rfl⟩
  | cons f fs =>
    cases stop with
    | none => exact ⟨[], by simp, rfl⟩
    | some place =>
      refine ⟨if place ≠ f.start then [' '] else [], ?_, by simp [textFrom]⟩
      split
      · exact List.forall_mem_singleton.mpr rfl
      · simp

theorem trim_textFrom_cons (hf : ∀ c ∈ f.text, isGap c = true) (fs : List Fragment) :
    trim isGap (textFrom none (f :: fs)) = trim isGap (textFrom none fs) := by
  obtain ⟨gap, hgap, htext⟩ := exists_textFrom (some f.stop) fs
  rw [textFrom, htext, List.nil_append, trim_append_left hf, trim_append_left hgap]

theorem exists_textFrom_concat (hf : f.text = []) (stop : Option (Nat × Nat)) (fs : List Fragment) :
    ∃ gap, (∀ c ∈ gap, isGap c = true) ∧ textFrom stop (fs ++ [f]) = textFrom stop fs ++ gap := by
  induction fs generalizing stop with
  | nil =>
    obtain ⟨gap, hgap, htext⟩ := exists_textFrom stop [f]
    exact ⟨gap, hgap, by simpa [textFrom, hf] using htext⟩
  | cons g fs ih =>
    obtain ⟨gap, hgap, htext⟩ := ih (some g.stop)
    exact ⟨gap, hgap, by simp [textFrom, htext]⟩

theorem movePlace_inj (k : Nat) {p q : Nat × Nat} : movePlace k p = movePlace k q ↔ p = q := by
  refine ⟨fun h => ?_, fun h => by rw [h]⟩
  obtain ⟨hline, hcolumn⟩ := Prod.mk.inj h
  unfold moveColumn at hcolumn
  rw [hline] at hcolumn
  refine Prod.ext hline ?_
  split at hcolumn
  · exact Nat.add_right_cancel hcolumn
  · exact hcolumn

theorem textFrom_map_move (k : Nat) (stop : Option (Nat × Nat)) (fs : List Fragment) :
    textFrom (stop.map (movePlace k)) (fs.map (move k)) = textFrom stop fs := by
  induction fs generalizing stop with
  | nil => cases stop <;> rfl
  | cons f fs ih =>
    have hrest : textFrom (some (movePlace k f.stop)) (fs.map (move k)) = textFrom (some f.stop) fs := ih (some f.stop)
    cases stop with
    | none => simp [textFrom, move, hrest]
    | some place => simp [textFrom, move, hrest, movePlace_inj]

theorem textOf_map_move (k : Nat) (fs : List Fragment) : textOf (fs.map (move k)) = textOf fs :=
  congrArg String.ofList (textFrom_map_move k none fs)

theorem toList_textOf (fs : List Fragment) : (textOf fs).toList = textFrom none fs := String.toList_ofList

/-! ## Entries with marks -/

/-- The entries say the same up to white space at the ends of their expressions. -/
def SameUpToBlanks (r r' : SelectEntry) : Prop :=
  r.name = r'.name ∧ trim isGap r.expression.toList = trim isGap r'.expression.toList

/-- An entry does not depend on the column at which it begins. -/
theorem ofFragments_map_move (k : Nat) (e : List Fragment) : ofFragments (e.map (move k)) = ofFragments e := by
  unfold ofFragments
  rw [← List.map_reverse, textOf_map_move]
  cases e.reverse with
  | nil => rfl
  | cons last before =>
    cases before with
    | nil => rfl
    | cons mark others =>
      simp only [List.map_cons, ← List.map_reverse, textOf_map_move]
      rfl

/-- The cases of an entry that is read: it is nothing but its expression, or a name follows. -/
theorem ofFragments_cases {e : List Fragment} {r : SelectEntry} (hr : ofFragments e = .ok r) :
    r = ⟨textOf e, none⟩ ∧ (∀ f : Fragment, f.kind ≠ .name → ofFragments (f :: e) = .ok ⟨textOf (f :: e), none⟩) ∨
      ∃ x v, r = ⟨textOf x, some v⟩ ∧ ∀ f, ofFragments (f :: e) = .ok ⟨textOf (f :: x), some v⟩ := by
  unfold ofFragments at hr ⊢
  simp only [List.reverse_cons]
  cases hreverse : e.reverse with
  | nil =>
    rw [hreverse] at hr
    cases hr
  | cons last before =>
    rw [hreverse] at hr
    cases before with
    | nil =>
      cases hr
      exact .inl ⟨rfl, fun f hf => by simp [hf]⟩
    | cons mark others =>
      simp only [List.cons_append, List.reverse_append, List.reverse_singleton] at hr ⊢
      by_cases has : (mark.kind = .name && mark.text = ['a', 's']) = true
      · simp only [if_pos has] at hr ⊢
        by_cases hstring : last.kind = .string
        · simp only [if_pos hstring] at hr ⊢
          cases hvalue : Expr.evalText {} (String.ofList last.text) with
          | error fault =>
            rw [hvalue] at hr
            cases hr
          | ok v =>
            rw [hvalue] at hr
            cases hr
            exact .inr ⟨_, v, rfl, fun f => rfl⟩
        · simp only [if_neg hstring] at hr ⊢
          by_cases hname : last.kind = .name
          · simp only [if_pos hname] at hr ⊢
            cases hr
            exact .inr ⟨_, _, rfl, fun f => rfl⟩
          · simp only [if_neg hname] at hr ⊢
            cases hr
            exact .inl ⟨rfl, fun f _ => trivial⟩
      · simp only [if_neg has] at hr ⊢
        cases hr
        exact .inl ⟨rfl, fun f _ => trivial⟩

/-- A mark before an entry does not matter. -/
theorem exists_ofFragments_cons {e : List Fragment} {r : SelectEntry} (hr : ofFragments e = .ok r)
    (hkind : f.kind ≠ .name) (hf : ∀ c ∈ f.text, isGap c = true) :
    ∃ r', ofFragments (f :: e) = .ok r' ∧ SameUpToBlanks r r' := by
  have hsame (fs : List Fragment) (name : Option Value) :
      SameUpToBlanks ⟨textOf fs, name⟩ ⟨textOf (f :: fs), name⟩ :=
    ⟨rfl, by rw [toList_textOf, toList_textOf, trim_textFrom_cons hf]⟩
  obtain ⟨rfl, hplain⟩ | ⟨x, v, rfl, haliased⟩ := ofFragments_cases hr
  · exact ⟨_, hplain f hkind, hsame e none⟩
  · exact ⟨_, haliased f, hsame x (some v)⟩

/-- An entry with a mark behind it is nothing but its expression. -/
theorem ofFragments_concat (hname : f.kind ≠ .name) (hstring : f.kind ≠ .string) (e : List Fragment) :
    ofFragments (e ++ [f]) = .ok ⟨textOf (e ++ [f]), none⟩ := by
  unfold ofFragments
  rw [List.reverse_append, List.reverse_singleton, List.singleton_append]
  cases e.reverse with
  | nil => rfl
  | cons mark others => simp [hname, hstring]

/-! ## Lists with marks -/

theorem entriesOf_map_move (k : Nat) (outer : Int) (fs : List Fragment) :
    entriesOf outer (fs.map (move k)) = (entriesOf outer fs).map (List.map (move k)) := by
  induction fs generalizing outer with
  | nil => rfl
  | cons f fs ih =>
    have hcomma : isComma (f.move k) = isComma f := rfl
    have hbracket : bracket (f.move k) = bracket f := rfl
    rw [List.map_cons, entriesOf, entriesOf, hcomma, hbracket, ih, ih]
    split
    · rfl
    · obtain ⟨e, es, hes⟩ := exists_cons_entriesOf (outer + bracket f) fs
      rw [hes]
      rfl

/-- A mark behind a list belongs to its last entry. -/
theorem exists_entriesOf_concat (hf : f.kind ≠ .operator) (outer : Int) (fs : List Fragment) :
    ∃ init last, entriesOf outer fs = init ++ [last] ∧ entriesOf outer (fs ++ [f]) = init ++ [last ++ [f]] := by
  induction fs generalizing outer with
  | nil => exact ⟨[], [], rfl, by simp [entriesOf, isComma, hf]⟩
  | cons g fs ih =>
    obtain ⟨init, last, hfs, hfs'⟩ := ih (outer + bracket g)
    by_cases hdivides : (isComma g && outer = 0) = true
    · rw [bracket_comma (Bool.and_eq_true_iff.mp hdivides).1, Int.add_zero] at hfs hfs'
      exact ⟨[] :: init, last, by simp [entriesOf, hdivides, hfs], by simp [entriesOf, hdivides, hfs']⟩
    · cases init with
      | nil => exact ⟨[], g :: last, by simp [entriesOf, hdivides, hfs], by simp [entriesOf, hdivides, hfs']⟩
      | cons e init =>
        exact ⟨(g :: e) :: init, last, by simp [entriesOf, hdivides, hfs], by simp [entriesOf, hdivides, hfs']⟩

theorem entriesOf_mark (hf : f.kind ≠ .operator) (outer : Int) (fs : List Fragment) :
    entriesOf outer (f :: fs) = (entriesOf outer fs).modifyHead (f :: ·) := by
  have hcomma : isComma f = false := by simp [isComma, hf]
  rw [entriesOf, hcomma, bracket_of_ne hf, Int.add_zero]
  rfl

theorem exists_concat {α β : Type} {R : α → β → Prop} {xs : List α} {x : α} {ys : List β}
    (h : List.Forall₂ R (xs ++ [x]) ys) : ∃ zs z, ys = zs ++ [z] ∧ List.Forall₂ R xs zs ∧ R x z := by
  induction xs generalizing ys with
  | nil =>
    cases h with
    | cons hx hrest =>
      cases hrest
      exact ⟨[], _, rfl, .nil, hx⟩
  | cons a xs ih =>
    cases h with
    | cons ha hrest =>
      obtain ⟨zs, z, rfl, hxs, hx⟩ := ih hrest
      exact ⟨_ :: zs, z, rfl, .cons ha hxs, hx⟩

/-- A mark before a list belongs to its first entry. -/
theorem exists_forall₂_modifyHead {entries : List (List Fragment)} {es : List SelectEntry}
    (hes : List.Forall₂ (fun e r => ofFragments e = .ok r) entries es) (hkind : f.kind ≠ .name)
    (hf : ∀ c ∈ f.text, isGap c = true) :
    ∃ es', List.Forall₂ (fun e r => ofFragments e = .ok r) (entries.modifyHead (f :: ·)) es' ∧
      List.Forall₂ SameUpToBlanks es es' := by
  cases hes with
  | nil => exact ⟨[], .nil, .nil⟩
  | cons hr hrest =>
    obtain ⟨r', hr', hsame⟩ := exists_ofFragments_cons hr hkind hf
    exact ⟨_, .cons hr' hrest, .cons hsame (List.forall₂_same.mpr fun r _ => ⟨rfl, rfl⟩)⟩

theorem fault_of_parse {text : String} {es : List SelectEntry} (hes : parse text = .ok es) :
    (scan text.toList).fault = none := by
  unfold parse at hes
  dsimp only at hes
  split at hes
  · cases hes
  · assumption

/-- Spaces and tabs before a select list that is one statement do not matter, except for the last entry: it has no
name, and if it was given one, that is part of the expression. -/
theorem same_but_last_name (b s : String) (es : List SelectEntry) (hb : ∀ c ∈ b.toList, c = ' ' ∨ c = '\t')
    (hne : b ≠ "") (hone : oneStatement s.toList = true) (hes : parse s = .ok es) :
    ∃ rs r rs' r', es = rs ++ [r] ∧ parse (b ++ s) = .ok (rs' ++ [r']) ∧ List.Forall₂ SameUpToBlanks rs rs' ∧
      r'.name = none ∧ (r.name = none → SameUpToBlanks r r') ∧
      (separate 0 [] (scan s.toList).fragments).getLast?.map (fun e => trim isGap (textOf e).toList) =
        some (trim isGap r'.expression.toList) := by
  have hscan := fault_of_parse hes
  rw [parse_iff_forall₂ hscan] at hes
  rw [separate_scan hscan] at hes ⊢
  obtain ⟨hscan', place, hparts⟩ := exists_indented (by simpa using hne) hb hone hscan
  rw [← String.toList_append] at hscan' hparts
  generalize (scan s.toList).fragments.filter isPart = parts at hes hparts ⊢
  generalize b.toList.length = k at hparts
  obtain ⟨init, last, hinit, hinit'⟩ :=
    @exists_entriesOf_concat (dedentAt place) (by simp [dedentAt]) 0 (parts.map (move k))
  rw [entriesOf_map_move] at hinit
  -- The entries without the marks, moved
  have hmoved : List.Forall₂ (fun e r => ofFragments e = .ok r) (init ++ [last]) es := by
    rw [← hinit, List.forall₂_map_left_iff]
    simpa only [ofFragments_map_move] using hes
  obtain ⟨rs, r, rfl, hrs, hr⟩ := exists_concat hmoved
  obtain ⟨e, he, rfl⟩ : ∃ e, (entriesOf 0 parts).getLast? = some e ∧ e.map (move k) = last := by
    have hlast := congrArg List.getLast? hinit
    rwa [List.getLast?_map, List.getLast?_concat, Option.map_eq_some_iff] at hlast
  rw [ofFragments_map_move] at hr
  -- The same entries with the mark behind them, and then also with the mark before them
  have hlast : ofFragments (e.map (move k) ++ [dedentAt place]) = _ :=
    ofFragments_concat (by simp [dedentAt]) (by simp [dedentAt]) _
  have hgaps : ∀ c ∈ (indentOf 1 b.toList).text, isGap c = true := fun c hc => by
    rcases hb c hc with rfl | rfl <;> rfl
  obtain ⟨es', hes', hsame⟩ :=
    exists_forall₂_modifyHead (List.rel_append hrs (.cons hlast .nil)) (by simp [indentOf]) hgaps
  obtain ⟨rs', r', rfl, hsame, hname, htext⟩ := exists_concat hsame
  obtain ⟨gap, hgap, hbehind⟩ := exists_textFrom_concat (f := dedentAt place) rfl none (e.map (move k))
  rw [toList_textOf, hbehind, trim_append_right hgap, ← toList_textOf, textOf_map_move] at htext
  refine ⟨rs, r, rs', r', rfl, ?_, hsame, hname.symm, fun hnone => ?_, ?_⟩
  · rw [parse_iff_forall₂ hscan', separate_scan hscan', hparts, entriesOf_mark (by simp [indentOf]), hinit']
    exact hes'
  · obtain ⟨rfl, -⟩ | ⟨x, v, rfl, -⟩ := ofFragments_cases hr
    · exact ⟨hname, htext⟩
    · cases hnone
  · rw [he, Option.map_some, htext]

/-- A list on two lines with a name for both entries. -/
def namedList : String := "f(a,\n  b) as c, d as e"

theorem same_but_last_name_call :
    oneStatement namedList.toList = true ∧
      parse namedList = .ok [⟨"f(a, b)", some (.text "c")⟩, ⟨"d", some (.text "e")⟩] ∧
      ∃ rs' r', parse ("\t " ++ namedList) = .ok (rs' ++ [r']) ∧
        List.Forall₂ SameUpToBlanks [⟨"f(a, b)", some (.text "c")⟩] rs' ∧ r'.name = none := by
  have hes : parse namedList = .ok [⟨"f(a, b)", some (.text "c")⟩, ⟨"d", some (.text "e")⟩] := rfl
  have hb : ∀ c ∈ ['\t', ' '], c = ' ' ∨ c = '\t' := by simp
  obtain ⟨rs, r, rs', r', heq, hparse, hsame, hname, -⟩ :=
    same_but_last_name "\t " namedList _ hb (by decide) rfl hes
  obtain ⟨rfl, -⟩ := @List.append_inj' _ [_] [_] rs [r] heq rfl
  exact ⟨rfl, hes, rs', r', hparse, hsame, hname⟩

/-- A space before the list, and the name of its only entry is lost. -/
theorem not_same_after_blanks :
    parse "a as b" = .ok [⟨"a", some (.text "b")⟩] ∧ parse (" " ++ "a as b") = .ok [⟨" a as b ", none⟩] ∧
      ¬ List.Forall₂ SameUpToBlanks [⟨"a", some (.text "b")⟩] [⟨" a as b ", none⟩] := by
  refine ⟨rfl, rfl, fun h => ?_⟩
  cases h with
  | cons hsame _ => cases hsame.1

end SelectEntry

end ValueShell
