import Mathlib.Algebra.Ring.Nat
import Mathlib.Data.List.Nodup
import ValueShell.Proofs.Table.Piping
import ValueShell.Proofs.Text.FirstString

/-!
# Tables in columns

A table is shown as a rectangle. Each column is as wide as the widest of its texts, its name included
(`isWidest_columnWidth`), so every cell is padded to exactly that width and no text is cut. With the
separators between the cells all lines come out equally long, and as long as the line of dashes, whose
length is computed on its own (`length_lineOf`). No text breaks a line, so the lines that are written are
the lines that are read off the result (`pretty_rectangular`).
-/

set_option autoImplicit false

namespace ValueShell

variable {ts : List String} {i : Nat} {widths : List Nat}

/-! ## Lines that are written one after the other -/

namespace Text

/-- Texts without line feeds are the lines of what is written when each of them gets its line feed. -/
theorem linesOf_join {ls : List String} (h : ∀ l ∈ ls, '\n' ∉ l.toList) :
    linesOf (String.join (ls.map (· ++ "\n"))) = ls.map (· ++ "\n") := by
  have hlines : lines (ls.flatMap fun l => l.toList ++ ['\n']) = ls.map fun l => l.toList ++ ['\n'] := by
    induction ls with
    | nil => rfl
    | cons l ls ih =>
      rw [List.forall_mem_cons] at h
      rw [List.flatMap_cons, List.append_assoc, List.map_cons, ← ih h.2, lines, linesFrom_append h.1]
      simp [linesFrom, lines]
  have htext : (String.join (ls.map (· ++ "\n"))).toList = ls.flatMap fun l => l.toList ++ ['\n'] := by
    rw [String.toList_join, List.flatMap_map]
    exact List.flatMap_congr fun l _ => String.toList_append
  rw [linesOf, htext, hlines, List.map_map]
  exact List.map_congr_left fun l _ => String.toList_inj.mp (by simp)

end Text

namespace Table

variable {columns : List String} {rows : List Value} {texts : List (List String)} {separator : String}

/-! ## Widths -/

/-- A width is that of the widest of some texts. -/
def IsWidest (width : Nat) (ts : List String) : Prop :=
  (∀ t ∈ ts, t.length ≤ width) ∧ ∃ t ∈ ts, t.length = width

/-- The texts of a column: its name, and what each line has at its place. -/
def columnTexts (columns : List String) (texts : List (List String)) (i : Nat) : List String :=
  (columns :: texts).filterMap (·[i]?)

theorem isWidest_foldl (t : String) (ts : List String) :
    IsWidest ((ts.map String.length).foldl max t.length) (t :: ts) := by
  have hmax : ((t :: ts).map String.length).max? = some ((ts.map String.length).foldl max t.length) :=
    List.max?_cons'
  obtain ⟨hmem, hall⟩ := List.max?_eq_some_iff.mp hmax
  exact ⟨fun u hu => hall _ (List.mem_map_of_mem hu), List.mem_map.mp hmem⟩

/-- No two columns have one name, so a name finds one text in a line. -/
theorem filterMap_zip_column (hdistinct : columns.Nodup) (hlength : ts.length = columns.length)
    (hi : i < columns.length) :
    ((columns.zip ts).filterMap fun (name, text) => if name = columns[i] then some text else none) =
      (ts[i]?).toList := by
  induction columns generalizing ts i with
  | nil => exact absurd hi (Nat.not_lt_zero i)
  | cons c columns ih =>
    obtain _ | ⟨t, ts⟩ := ts
    · cases hlength
    rw [List.nodup_cons] at hdistinct
    rw [List.zip_cons_cons, List.filterMap_cons]
    cases i with
    | zero =>
      have hothers : ∀ p ∈ columns.zip ts, ¬ p.1 = c := by
        rintro ⟨name, text⟩ hp rfl
        exact hdistinct.1 (List.of_mem_zip hp).1
      simpa using fun name text hp => hothers (name, text) hp
    | succ i =>
      have hi : i < columns.length := Nat.lt_of_succ_lt_succ hi
      have hc : ¬ c = columns[i] := fun h => hdistinct.1 (h ▸ List.getElem_mem hi)
      simpa [hc] using ih hdistinct.2 (Nat.succ.inj hlength) hi

theorem isWidest_columnWidth (hdistinct : columns.Nodup)
    (hlength : ∀ ts ∈ texts, ts.length = columns.length) (hi : i < columns.length) :
    IsWidest (columnWidth columns texts columns[i]) (columnTexts columns texts i) := by
  have hcells : (texts.flatMap fun ts =>
      (columns.zip ts).filterMap fun (name, text) => if name = columns[i] then some text else none) =
      texts.filterMap (·[i]?) := by
    rw [List.filterMap_eq_flatMap_toList]
    exact List.flatMap_congr fun ts hts => filterMap_zip_column hdistinct (hlength ts hts) hi
  rw [columnWidth, columnTexts, hcells, List.filterMap_cons_some (f := (·[i]?)) (List.getElem?_eq_getElem hi)]
  exact isWidest_foldl _ _

/-! ## Lines -/

/-- A line of a table: texts that are padded to widths, divided by a separator. -/
def lineOf (separator : String) (widths : List Nat) (ts : List String) : String :=
  separator.intercalate (List.zipWith padLeft widths ts)

theorem length_padLeft {width : Nat} {t : String} (h : t.length ≤ width) : (padLeft width t).length = width := by
  simp [padLeft, h]

/-- Texts that fit into their columns fill them. -/
theorem map_length_zipWith_padLeft (h : List.Forall₂ (fun w t => t.length ≤ w) widths ts) :
    (List.zipWith padLeft widths ts).map String.length = widths := by
  induction h with
  | nil => rfl
  | cons hle _ ih => rw [List.zipWith_cons_cons, List.map_cons, length_padLeft hle, ih]

theorem length_intercalate (separator : String) (ts : List String) :
    (separator.intercalate ts).length =
      (ts.map String.length).sum + (ts.length - 1) * separator.length := by
  induction ts with
  | nil => simp
  | cons t ts ih =>
    cases ts with
    | nil => simp
    | cons u ts =>
      rw [String.intercalate_cons_cons, String.length_append, String.length_append, ih]
      simp only [List.map_cons, List.sum_cons, List.length_cons, Nat.add_sub_cancel, Nat.succ_mul]
      omega

/-- A line is as long as its columns and the separators between them. -/
theorem length_lineOf (h : List.Forall₂ (fun w t => t.length ≤ w) widths ts) :
    (lineOf separator widths ts).length = widths.sum + (widths.length - 1) * separator.length := by
  rw [lineOf, length_intercalate, map_length_zipWith_padLeft h, List.length_zipWith, ← h.length_eq,
    Nat.min_self]

theorem notMem_padLeft {c : Char} (hc : c ≠ ' ') {width : Nat} {t : String} (ht : c ∉ t.toList) :
    c ∉ (padLeft width t).toList := by
  simp [padLeft, hc, ht]

theorem notMem_lineOf {c : Char} (hc : c ≠ ' ') (hseparator : c ∉ separator.toList)
    (hts : ∀ t ∈ ts, c ∉ t.toList) : c ∉ (lineOf separator widths ts).toList := by
  have hcells : ∀ cell ∈ List.zipWith padLeft widths ts, c ∉ cell.toList := by
    intro cell hcell
    rw [← List.map_uncurry_zip_eq_zipWith] at hcell
    obtain ⟨⟨w, t⟩, hmem, rfl⟩ := List.mem_map.mp hcell
    exact notMem_padLeft hc (hts t (List.of_mem_zip hmem).2)
  rw [lineOf]
  generalize List.zipWith padLeft widths ts = cells at hcells
  induction cells with
  | nil => simp
  | cons cell cells ih =>
    rw [List.forall_mem_cons] at hcells
    cases cells with
    | nil => simpa using hcells.1
    | cons next cells =>
      rw [String.intercalate_cons_cons, String.toList_append, String.toList_append, List.mem_append,
        List.mem_append, not_or, not_or]
      exact ⟨⟨hcells.1, hseparator⟩, ih hcells.2⟩

/-! ## Cells -/

/-- A row has values, one at each place. -/
def RowHas (row : Value) (values : List Value) : Prop :=
  ∀ i (h : i < values.length), Value.at_.cell row i = .ok values[i]

theorem elementAt_natCast {vs : List Value} (h : i < vs.length) : Value.elementAt vs i = .ok vs[i] := by
  have hsign : ¬ (i : Int) < 0 := by omega
  have hplace : Value.position? vs.length i = some i := by
    simp [Value.position?, hsign, h]
  simp [Value.elementAt, hplace, h]

theorem rowHas_list (vs : List Value) : RowHas (.list vs) vs := fun _ h => elementAt_natCast h

theorem rowHas_tuple (vs : List Value) : RowHas (.tuple vs) vs := fun _ h => elementAt_natCast h

/-- The place of the one column with a name. -/
theorem columnIndex_getElem (hdistinct : columns.Nodup) (hi : i < columns.length) :
    Value.columnIndex columns columns[i] = .ok i := by
  have hlast : columns.length - 1 - i < columns.reverse.length := by
    rw [List.length_reverse]
    omega
  have hname : columns.reverse[columns.length - 1 - i] = columns[i] := by
    rw [List.getElem_reverse]
    congr 1
    omega
  have hplace : columns.reverse.idxOf columns[i] = columns.length - 1 - i := by
    rw [← hname]
    exact (List.nodup_reverse.mpr hdistinct).idxOf_getElem _ hlast
  have hmem : columns.contains columns[i] = true := List.contains_iff_mem.mpr (List.getElem_mem hi)
  simp only [Value.columnIndex, hplace, hmem, if_pos]
  congr 1
  omega

/-- A row with as many values as there are columns has the text of each in its column. -/
theorem mapM_at_eq_ok (hdistinct : columns.Nodup) {v : Value} {values : List Value} (hrow : RowHas v values)
    (hlength : values.length = columns.length) :
    (columns.mapM fun c => (Value.at_ (row columns v) (.text c)).map Value.display) =
      .ok (values.map Value.display) := by
  apply mapM_eq_ok_iff.mpr
  rw [List.forall₂_iff_get]
  refine ⟨by rw [List.length_map, hlength], fun i hi hi' => ?_⟩
  have hindex := columnIndex_getElem hdistinct hi
  have hcell := hrow i (by rw [hlength]; exact hi)
  have hat : Value.at_ (row columns v) (.text columns[i]) = .ok values[i] := by
    simp only [row, Value.at_, Value.isKey, hindex]
    exact hcell
  simp only [List.get_eq_getElem, hat, List.getElem_map]
  rfl

theorem cellTexts_eq_ok (hdistinct : columns.Nodup) {cells : List (List Value)}
    (hrows : List.Forall₂ RowHas rows cells) (hlength : ∀ values ∈ cells, values.length = columns.length) :
    cellTexts columns rows = .ok (cells.map (·.map Value.display)) := by
  apply mapM_eq_ok_iff.mpr
  rw [List.forall₂_map_right_iff]
  induction hrows with
  | nil => exact .nil
  | cons hrow _ ih =>
    rw [List.forall_mem_cons] at hlength
    exact .cons (mapM_at_eq_ok hdistinct hrow hlength.1) (ih hlength.2)

/-! ## The whole table -/

theorem foldl_distinct (acc : List String) {columns : List String} (h : (acc ++ columns).Nodup) :
    columns.foldl (fun acc c => if acc.contains c then acc else acc ++ [c]) acc = acc ++ columns := by
  induction columns generalizing acc with
  | nil => exact (List.append_nil acc).symm
  | cons c columns ih =>
    have hc : acc.contains c = false := by
      have hnot : c ∉ acc := fun hmem => (List.nodup_append.mp h).2.2 c hmem c List.mem_cons_self rfl
      simpa using hnot
    rw [List.append_cons] at h ⊢
    rw [List.foldl_cons, hc, if_neg Bool.false_ne_true, ih _ h]

theorem distinctColumns_eq_self (hdistinct : columns.Nodup) : distinctColumns columns = columns :=
  foldl_distinct [] hdistinct

/-- The line of dashes below the names of the columns. -/
def dashes (separator : String) (widths : List Nat) : String :=
  String.ofList (List.replicate (widths.sum + (widths.length - 1) * separator.length) '-')

/-- A table with columns is written line by line. -/
theorem pretty_eq_join (hcolumns : columns ≠ []) (hdistinct : columns.Nodup)
    (htexts : cellTexts columns rows = .ok texts)
    (hwidths : widths = columns.map (columnWidth columns texts)) :
    pretty columns rows separator =
      .ok (String.join ((lineOf separator widths columns :: dashes separator widths ::
        texts.map (lineOf separator widths)).map (· ++ "\n"))) := by
  have hline (ts : List String) :
      separator.intercalate ((columns.zip ts).map fun (c, text) => padLeft (columnWidth columns texts c) text) =
        lineOf separator widths ts := by
    rw [lineOf, hwidths, List.zipWith_map_left, ← List.map_uncurry_zip_eq_zipWith]
    rfl
  have hsome : ¬ widths.isEmpty = true := by simpa [hwidths] using hcolumns
  rw [pretty, htexts]
  simp only [bind, Except.bind, distinctColumns_eq_self hdistinct, ← hwidths, hline, if_neg hsome]
  rw [← List.sum_eq_foldl, Nat.mul_comm separator.length, ← dashes]
  simp only [List.map_cons, String.join_cons, List.map_map, String.append_assoc]
  rfl

/-- Every text of a line fits into its column. -/
theorem forall₂_length_le (hlength : ∀ ts ∈ columns :: texts, ts.length = widths.length)
    (hwidths : ∀ i (h : i < widths.length), IsWidest widths[i] (columnTexts columns texts i))
    (hts : ts ∈ columns :: texts) : List.Forall₂ (fun w t => t.length ≤ w) widths ts := by
  rw [List.forall₂_iff_get]
  refine ⟨(hlength ts hts).symm, fun i hi hi' => (hwidths i hi).1 _ ?_⟩
  exact List.mem_filterMap.mpr ⟨ts, hts, List.getElem?_eq_getElem hi'⟩

/-- A table with columns of different names, and rows with a value for each, is shown as a rectangle in which
no text is cut: the names, dashes and then the rows in order, one line each. Every cell is its text, padded on
the left to the width of its column, which is that of the widest text in it. -/
theorem pretty_rectangular (columns : List String) (rows : List Value) (cells : List (List Value))
    (separator : String) (hcolumns : columns ≠ []) (hdistinct : columns.Nodup)
    (hrows : List.Forall₂ RowHas rows cells) (hlength : ∀ values ∈ cells, values.length = columns.length)
    (hseparator : '\n' ∉ separator.toList) (hnames : ∀ c ∈ columns, '\n' ∉ c.toList)
    (hvalues : ∀ values ∈ cells, ∀ v ∈ values, '\n' ∉ v.display.toList) :
    ∃ (widths : List Nat) (text : String),
      let texts := cells.map (·.map Value.display)
      let written := lineOf separator widths columns :: dashes separator widths ::
        texts.map (lineOf separator widths)
      pretty columns rows separator = .ok text ∧
      Text.linesOf text = written.map (· ++ "\n") ∧
      (∀ line ∈ written, line.length = widths.sum + (columns.length - 1) * separator.length) ∧
      (∀ ts ∈ columns :: texts, (List.zipWith padLeft widths ts).map String.length = widths) ∧
      widths.length = columns.length ∧
      ∀ i (h : i < widths.length), IsWidest widths[i] (columnTexts columns texts i) := by
  have htexts := cellTexts_eq_ok hdistinct hrows hlength
  generalize htable : cells.map (·.map Value.display) = texts at htexts
  have hsizes : ∀ ts ∈ texts, ts.length = columns.length := by
    rw [← htable, List.forall_mem_map]
    exact fun values hmem => (List.length_map _).trans (hlength values hmem)
  have hunbroken : ∀ ts ∈ columns :: texts, ∀ t ∈ ts, '\n' ∉ t.toList := by
    rw [List.forall_mem_cons, ← htable, List.forall_mem_map]
    exact ⟨hnames, fun values hmem => List.forall_mem_map.mpr (hvalues values hmem)⟩
  obtain ⟨widths, hwidths⟩ : ∃ widths, widths = columns.map (columnWidth columns texts) := ⟨_, rfl⟩
  have hsize : widths.length = columns.length := by rw [hwidths, List.length_map]
  have hwidest : ∀ i (h : i < widths.length), IsWidest widths[i] (columnTexts columns texts i) := by
    subst hwidths
    intro i hi
    rw [List.getElem_map]
    exact isWidest_columnWidth hdistinct hsizes (hsize ▸ hi)
  have hfit : ∀ ts ∈ columns :: texts, List.Forall₂ (fun w t => t.length ≤ w) widths ts := by
    intro ts hts
    refine forall₂_length_le ?_ hwidest hts
    rw [hsize]
    exact List.forall_mem_cons.mpr ⟨rfl, hsizes⟩
  refine ⟨widths, _, pretty_eq_join hcolumns hdistinct htexts hwidths, ?_, ?_, ?_, hsize, hwidest⟩
  · refine Text.linesOf_join fun line hline => ?_
    simp only [List.mem_cons, List.mem_map] at hline
    obtain rfl | rfl | ⟨ts, hts, rfl⟩ := hline
    · exact notMem_lineOf (by decide) hseparator hnames
    · simp [dashes]
    · exact notMem_lineOf (by decide) hseparator (hunbroken ts (List.mem_cons_of_mem _ hts))
  · intro line hline
    rw [← hsize]
    simp only [List.mem_cons, List.mem_map] at hline
    obtain rfl | rfl | ⟨ts, hts, rfl⟩ := hline
    · exact length_lineOf (hfit columns List.mem_cons_self)
    · simp [dashes]
    · exact length_lineOf (hfit ts (List.mem_cons_of_mem _ hts))
  · exact fun ts hts => map_length_zipWith_padLeft (hfit ts hts)

/-- A name is the widest text of the one column, and a cell that of the other; one row is a list and one a
tuple. -/
theorem pretty_rectangular_mixed :
    let columns := ["number", "x"]
    let rows := [Value.list [.int 7, .text ""], .tuple [.int (-12), .text "wide cell"]]
    let cells := [[Value.int 7, .text ""], [.int (-12), .text "wide cell"]]
    columns ≠ [] ∧ columns.Nodup ∧ List.Forall₂ RowHas rows cells ∧
      (∀ values ∈ cells, values.length = columns.length) ∧
      (∀ values ∈ cells, ∀ v ∈ values, '\n' ∉ v.display.toList) ∧
      ∃ (widths : List Nat) (text : String),
        pretty columns rows Table.separator = .ok text ∧
        (∀ line ∈ Text.linesOf text, line.length = widths.sum + 3) ∧
        ∀ i (h : i < widths.length),
          IsWidest widths[i] (columnTexts columns (cells.map (·.map Value.display)) i) := by
  intro columns rows cells
  have hrows : List.Forall₂ RowHas rows cells := .cons (rowHas_list _) (.cons (rowHas_tuple _) .nil)
  have hlength : ∀ values ∈ cells, values.length = columns.length := by simp [cells, columns]
  have hvalues : ∀ values ∈ cells, ∀ v ∈ values, '\n' ∉ v.display.toList := by decide +kernel
  obtain ⟨widths, text, htext, hlines, hlengths, -, -, hwidest⟩ := pretty_rectangular columns rows cells
    Table.separator (List.cons_ne_nil _ _) (by decide) hrows hlength (by decide) (by decide) hvalues
  refine ⟨List.cons_ne_nil _ _, by decide, hrows, hlength, hvalues, widths, text, htext, ?_, hwidest⟩
  rw [hlines, List.forall_mem_map]
  intro line hline
  rw [String.length_append, hlengths line hline]
  rfl

end Table

end ValueShell
