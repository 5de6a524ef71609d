import Mathlib.Data.List.Forall2
import ValueShell.Commands.Standard
import ValueShell.Proofs.Expr.Name
import ValueShell.Proofs.Pipeline.Diagnosis

/-!
# Table commands in a pipe

A chain of steps on a table can be worked in two ways: step by step on the table itself
(`TableStep.applyAll`), or by commands in a pipe each of which reads the rows of the one before it
(`TableStep.pipe`). Only rows go through a pipe, and a command takes the columns from the first row that it
reads.

One command makes of the rows of a table what the step makes of the table, if the rows show the columns
(`output_of_apply`). Without a row there is nothing to take the columns from, and a step leaves such a table
as it is (`apply_of_none`): what comes of a filter or a sort has no columns then, and what comes of a select
list has those of the list. So all along a pipe the outputs show the tables of the steps (`shows_pipe`), and
only the last command can lose columns.
-/

set_option autoImplicit false

namespace ValueShell

open Plan (ok_of_bind)
open Stage (markRows)

/-- Working on all elements succeeds exactly if it succeeds on each. -/
theorem mapM_eq_ok_iff {α β : Type} {f : α → Except Fault β} {as : List α} {bs : List β} :
    as.mapM f = .ok bs ↔ List.Forall₂ (fun a b => f a = .ok b) as bs := by
  constructor
  · intro h
    induction as generalizing bs with
    | nil =>
      cases h
      exact .nil
    | cons a as ih =>
      rw [List.mapM_cons] at h
      obtain ⟨b, hb, h⟩ := ok_of_bind h
      obtain ⟨bs', hbs', h⟩ := ok_of_bind h
      cases h
      exact .cons hb (ih hbs')
  · intro h
    induction h with
    | nil => rfl
    | cons hab _ ih =>
      rw [List.mapM_cons, hab, ih]
      rfl

/-- The output that shows the rows of a table. -/
def Output.ofTable (mark : Nat) (columns : List String) (rows : Emission) : Output :=
  { values := markRows mark columns rows.values, columns := some columns, fault := rows.fault }

/-- What is made value by value ends in a fault if the values that it is made of do. -/
theorem Emission.fault_of_expand {f : Value → Except Fault (List Value)} {fault : Option Fault}
    {vs : List Value} (h : (expand f fault vs).fault = none) : fault = none := by
  induction vs with
  | nil => exact h
  | cons v vs ih =>
    unfold expand at h
    split at h
    · exact ih h
    · cases h

theorem Emission.of_all {e : Emission} {vs : List Value} (h : e.all = .ok vs) :
    e.fault = none ∧ e.values = vs := by
  unfold all at h
  split at h
  · cases h
  · rename_i hfault
    exact ⟨hfault, Except.ok.inj h⟩

/-- The name of a column has the value that the row has in the column. -/
theorem Table.evalRow_column {cs : List Char} {row v : Value} (s : Surroundings)
    (hword : Expr.isWord cs = true) (hkeyword : Expr.keywords.contains (String.ofList cs) = false)
    (hcell : row.at_ (.text (String.ofList cs)) = .ok v) :
    evalRow s (.text (String.ofList cs)) row = .ok v := by
  show Expr.evalText { row := some row, locals := s.locals, globals := s.globals } (String.ofList cs) = .ok v
  rw [Expr.evalText_name _ hword hkeyword]
  simp [Expr.Scope.lookup, Expr.Scope.nearby, Bindings.find?, hcell, bind, Except.bind]

/-! ## Stages on the rows of a table -/

namespace Stage

variable {source : Nat} {columns : List String} {vs out : List Value}

@[simp]
theorem markRows_cons (mark : Nat) (columns : List String) (v : Value) (vs : List Value) :
    markRows mark columns (v :: vs) = .row mark columns v :: markRows mark columns vs :=
  rfl

theorem markRows_append (mark : Nat) (columns : List String) (us vs : List Value) :
    markRows mark columns (us ++ vs) = markRows mark columns us ++ markRows mark columns vs :=
  List.map_append

/-- Working row by row goes as far as the expansion of the rows does. -/
theorem feed_rows (f : Value → Except Fault (List Value)) (mark : Nat) (names : List String) :
    (Stage.rows source f mark names).feed (markRows source columns vs) =
      { values := markRows mark names (Emission.expand f none vs).values
        fault := (Emission.expand f none vs).fault } := by
  induction vs with
  | nil => rfl
  | cons v vs ih =>
    cases hv : f v with
    | error fault =>
      simp [feed, receive, rowValues, Except.bind, hv, Emission.expand, Emission.ofFault, markRows,
        Output.laterFault]
    | ok us =>
      simp [feed, receive, rowValues, Except.bind, hv, ih, Emission.expand, Emission.after, markRows_append]

/-- Working on all rows at once begins when all are there. -/
theorem feed_allRows {held : List Value} {finish : List Value → Except Fault (List Value)}
    (h : finish (held ++ vs) = .ok out) :
    (Stage.allRows source held finish).feed (markRows source columns vs) = { values := out } := by
  induction vs generalizing held with
  | nil =>
    rw [List.append_nil] at h
    simp [markRows, feed, receive, h]
  | cons v vs ih =>
    have hrest : finish ((held ++ [v]) ++ vs) = .ok out := by simpa using h
    simp [feed, receive, rowValues, ih hrest]

end Stage

/-! ## Steps and commands -/

/-- A step of working on a table. -/
inductive TableStep where
  | filter (condition : Value)
  | sort (expression : Value) (direction : Option Value)
  | select (list : Value)

namespace TableStep

/-- The command that works the step on rows. -/
def command : TableStep → Command
  | .filter _ => Commands.where_
  | .sort _ _ => Commands.orderBy
  | .select _ => Commands.select

/-- The words of the command. -/
def words : TableStep → List Value
  | .filter condition => [.text "where", condition]
  | .sort expression direction => [.text "orderby", expression] ++ direction.toList
  | .select list => [.text "select", list]

/-- What the command makes of the rows that it reads. -/
def output (step : TableStep) (s : Surroundings) (mark : Nat) (rows : List Value) : Output :=
  (step.command.start { args := step.words, supply := .elements, surroundings := s, mark }).run rows

/-- What the step makes of a table. -/
def apply (step : TableStep) (s : Surroundings) (t : Table) : Except Fault Table :=
  match step with
  | .filter condition => .ok (t.filter s condition)
  | .sort expression direction => do
    let ascending ← sortDirection direction
    t.orderBy s expression ascending
  | .select list => t.select s list

/-- What steps make of a table, one after the other. -/
def applyAll (s : Surroundings) : List TableStep → Table → Except Fault Table
  | [], t => .ok t
  | step :: rest, t => do
    let t ← step.apply s t
    applyAll s rest t

/-- What commands make of an output, one after the other, each with the mark of its own rows. -/
def pipe (s : Surroundings) : List (TableStep × Nat) → Output → Output
  | [], out => out
  | (step, mark) :: rest, out =>
    if out.fault.isSome then out else pipe s rest (step.output s mark out.values)

/-- The step leaves the columns of a table as they are. -/
def keepsColumns : TableStep → Bool
  | .filter _ => true
  | .sort _ _ => true
  | .select _ => false

variable {s : Surroundings} {step : TableStep} {t u : Table} {columns : List String}

/-- The step as work on the rows of a table. -/
def rowCommand : TableStep → RowCommand
  | .filter condition => .filter condition
  | .sort expression direction => .sort expression direction
  | .select list => .select list

theorem output_eq (step : TableStep) (s : Surroundings) (mark : Nat) (rows : List Value) :
    step.output s mark rows = (Stage.firstRow step.rowCommand s mark).feed rows := by
  cases step with
  | filter condition => rfl
  | sort expression direction => cases direction <;> rfl
  | select list => rfl

/-! ## One command -/

theorem sort_of_apply {expression : Value} {direction : Option Value}
    (h : (sort expression direction).apply s t = .ok u) :
    ∃ ascending sorted, sortDirection direction = .ok ascending ∧ t.rows.fault = none ∧
      Table.sortRows s expression ascending t.columns t.rows.values = .ok sorted ∧
      u = { t with rows := { values := sorted } } := by
  obtain ⟨ascending, hdirection, horder⟩ := ok_of_bind h
  obtain ⟨rows, hrows, hsort⟩ := ok_of_bind horder
  obtain ⟨sorted, hsorted, hu⟩ := ok_of_bind hsort
  obtain ⟨hfault, rfl⟩ := Emission.of_all hrows
  exact ⟨ascending, sorted, hdirection, hfault, hsorted, (Except.ok.inj hu).symm⟩

theorem select_of_apply {list : Value} (h : (select list).apply s t = .ok u) :
    ∃ text entries, list = .text text ∧ SelectEntry.parse text = .ok entries ∧
      u = { columns := entries.map SelectEntry.column,
            rows := t.rows.bind (Table.pick s entries t.columns) } := by
  cases list with
  | text text =>
    obtain ⟨entries, hentries, hu⟩ := ok_of_bind h
    exact ⟨text, entries, rfl, hentries, (Except.ok.inj hu).symm⟩
  | _ => cases h

/-- What is known when a step makes the table `u` of the table `t`: how the command begins on rows of `t`,
and how the rows of `u` come from them. -/
inductive Begins (s : Surroundings) (mark source : Nat) (t u : Table) (step : TableStep) : Prop where
  /-- It works row by row. -/
  | rows {f : Value → Except Fault (List Value)}
    (hbegins : Stage.beginRows step.rowCommand s mark source t.columns =
      .ok (some u.columns, .rows source f mark u.columns))
    (hrows : u.rows = t.rows.bind f)
  /-- It works on all rows at once, which are there without a fault. -/
  | allRows {finish : List Value → Except Fault (List Value)}
    (hbegins : Stage.beginRows step.rowCommand s mark source t.columns =
      .ok (some u.columns, .allRows source [] finish))
    (hfault : t.rows.fault = none)
    (hfinish : finish t.rows.values = .ok (markRows mark u.columns u.rows.values))
    (hrows : u.rows.fault = none)

theorem begins_of_apply (mark source : Nat) (h : step.apply s t = .ok u) : Begins s mark source t u step := by
  cases step with
  | filter condition =>
    cases h
    exact .rows rfl rfl
  | sort expression direction =>
    obtain ⟨ascending, sorted, hdirection, hfault, hsorted, rfl⟩ := sort_of_apply h
    refine .allRows (by simp only [rowCommand, Stage.beginRows, hdirection]; rfl) hfault ?_ rfl
    simp [hsorted, bind, Except.bind]
  | select list =>
    obtain ⟨text, entries, rfl, hentries, rfl⟩ := select_of_apply h
    exact .rows (by simp only [rowCommand, Stage.beginRows, hentries]; rfl) rfl

/-- What a step makes of a table ends in a fault if the rows of the table do. -/
theorem fault_of_apply (h : step.apply s t = .ok u) (hfault : u.rows.fault = none) :
    t.rows.fault = none := by
  cases begins_of_apply 0 0 h with
  | rows hbegins hrows =>
    rw [hrows] at hfault
    exact Emission.fault_of_expand hfault
  | allRows hbegins hfault hfinish hrows => exact hfault

theorem sortRows_nil (s : Surroundings) (expression : Value) (ascending : Bool) (columns : List String) :
    Table.sortRows s expression ascending columns [] = .ok [] := by
  cases ascending <;> rfl

/-- A step leaves a table without rows as it is, but for the columns, and does not look at these except to
keep them. -/
theorem apply_of_none (h : step.apply s t = .ok u) (hnone : t.rows.values = []) (columns : List String) :
    u.rows = t.rows ∧ step.apply s { t with columns } =
      .ok { u with columns := if step.keepsColumns then columns else u.columns } := by
  obtain ⟨_, values, fault⟩ := t
  obtain rfl : values = [] := hnone
  cases step with
  | filter condition =>
    cases h
    exact ⟨rfl, rfl⟩
  | sort expression direction =>
    obtain ⟨ascending, sorted, hdirection, rfl, hsorted, rfl⟩ := sort_of_apply h
    obtain rfl : [] = sorted := Except.ok.inj ((sortRows_nil ..).symm.trans hsorted)
    refine ⟨rfl, ?_⟩
    simp [apply, Table.orderBy, Emission.all, hdirection, bind, Except.bind, sortRows_nil, keepsColumns]
  | select list =>
    obtain ⟨text, entries, rfl, hentries, rfl⟩ := select_of_apply h
    refine ⟨rfl, ?_⟩
    simp [apply, Table.select, hentries, bind, Except.bind, Emission.bind, Emission.expand, keepsColumns]

/-- A command makes of the rows of a table what the step makes of the table, if the rows show the columns. -/
theorem output_of_apply (mark source : Nat) (h : step.apply s t = .ok u) (hfault : t.rows.fault = none)
    (hcolumns : t.rows.values = [] → t.columns = []) :
    step.output s mark (markRows source t.columns t.rows.values) = .ofTable mark u.columns u.rows := by
  obtain ⟨columns, values, fault⟩ := t
  obtain rfl : fault = none := hfault
  rw [output_eq]
  cases values with
  | nil =>
    obtain rfl : columns = [] := hcolumns rfl
    cases begins_of_apply mark 0 h with
    | rows hbegins hrows =>
      simp [Stage.feed, Stage.receive, hbegins, hrows, markRows, Output.ofTable, Emission.bind,
        Emission.expand]
    | allRows hbegins hfault hfinish hrows =>
      simp [Stage.feed, Stage.receive, hbegins, hfinish, hrows, markRows, Output.ofTable]
  | cons v vs =>
    cases begins_of_apply mark source h with
    | @rows f hbegins hrows =>
      cases hv : f v with
      | error fault =>
        simp [Stage.feed, Stage.receive, hbegins, hrows, hv, markRows, Output.ofTable, Emission.bind,
          Emission.expand, Emission.ofFault]
      | ok vs =>
        simp [Stage.feed, Stage.receive, hbegins, hrows, hv, Stage.feed_rows, Output.ofTable, Emission.bind,
          Emission.expand, Emission.after, Stage.markRows_append]
    | @allRows finish hbegins hfault hfinish hrows =>
      have hrest : finish ([v] ++ vs) = .ok (markRows mark u.columns u.rows.values) := hfinish
      simp [Stage.feed, Stage.receive, hbegins, hrows, Output.ofTable, Stage.feed_allRows hrest]

/-- An output that shows a table: its rows, and its columns if there is a row to show them. -/
def Shows (out : Output) (t : Table) : Prop :=
  ∃ mark columns, out = .ofTable mark columns t.rows ∧ (t.rows.values ≠ [] → columns = t.columns)

/-- A command makes of what shows a table what the step makes of the table, except that columns which it
would keep are lost without a row. -/
theorem output_of_shows {out : Output} (mark : Nat) (hout : Shows out t) (h : step.apply s t = .ok u)
    (hfault : t.rows.fault = none) :
    step.output s mark out.values =
      .ofTable mark (if step.keepsColumns && t.rows.values.isEmpty then [] else u.columns) u.rows := by
  obtain ⟨source, columns, rfl, hcolumns⟩ := hout
  by_cases hnone : t.rows.values = []
  · have hempty := output_of_apply mark source (apply_of_none h hnone []).2 hfault fun _ => rfl
    simpa [Output.ofTable, hnone, markRows] using hempty
  · obtain rfl := hcolumns hnone
    simpa [Output.ofTable, hnone] using output_of_apply mark source h hfault fun hempty => absurd hempty hnone

theorem shows_output {out : Output} (mark : Nat) (hout : Shows out t) (h : step.apply s t = .ok u)
    (hfault : t.rows.fault = none) : Shows (step.output s mark out.values) u := by
  refine ⟨mark, _, output_of_shows mark hout h hfault, ?_⟩
  intro hvalues
  -- rows come only of rows, and these have shown the columns
  have hread : t.rows.values ≠ [] := by
    intro hempty
    rw [(apply_of_none h hempty []).1] at hvalues
    exact hvalues hempty
  simp [hread]

/-! ## A chain of commands -/

theorem fault_of_applyAll {steps : List TableStep} (h : applyAll s steps t = .ok u)
    (hfault : u.rows.fault = none) : t.rows.fault = none := by
  induction steps generalizing t with
  | nil =>
    cases h
    exact hfault
  | cons step rest ih =>
    obtain ⟨v, hstep, hrest⟩ := ok_of_bind h
    exact fault_of_apply hstep (ih hrest)

theorem fault_of_shows {out : Output} (h : Shows out t) : out.fault = t.rows.fault := by
  obtain ⟨mark, columns, rfl, -⟩ := h
  rfl

theorem pipe_cons {rest : List (TableStep × Nat)} {mark : Nat} {out : Output} (h : out.fault = none) :
    pipe s ((step, mark) :: rest) out = pipe s rest (step.output s mark out.values) := by
  simp [pipe, h]

theorem pipe_append (s : Surroundings) (steps rest : List (TableStep × Nat)) (out : Output) :
    pipe s (steps ++ rest) out = pipe s rest (pipe s steps out) := by
  induction steps generalizing out with
  | nil => rfl
  | cons entry steps ih =>
    cases hfault : out.fault with
    | none =>
      rw [List.cons_append, pipe_cons hfault, pipe_cons hfault]
      apply ih
    | some fault => cases rest <;> simp [pipe, hfault]

/-- All along a pipe the outputs show the tables of the steps. -/
theorem shows_pipe {steps : List (TableStep × Nat)} {out : Output} (hout : Shows out t)
    (h : applyAll s (steps.map Prod.fst) t = .ok u) (hfault : u.rows.fault = none) :
    Shows (pipe s steps out) u := by
  induction steps generalizing t out with
  | nil =>
    cases h
    exact hout
  | cons entry steps ih =>
    obtain ⟨v, hstep, hrest⟩ := ok_of_bind h
    have hnone : t.rows.fault = none := fault_of_apply hstep (fault_of_applyAll hrest hfault)
    rw [pipe_cons ((fault_of_shows hout).trans hnone)]
    exact ih (shows_output entry.2 hout hstep hnone) hrest

/-- Commands in a pipe make of the rows of a table what the steps make of the table, if these end without a
fault: the same rows, and the same columns, except that no columns are left where the last command would
keep those of its input and reads no row. -/
theorem pipe_eq_ofTable (s : Surroundings) (steps : List (TableStep × Nat)) (last : TableStep)
    (mark source : Nat) (t u v : Table) (hsteps : applyAll s (steps.map Prod.fst) t = .ok u)
    (hlast : last.apply s u = .ok v) (hfault : v.rows.fault = none) :
    pipe s (steps ++ [(last, mark)]) (.ofTable source t.columns t.rows) =
      .ofTable mark (if last.keepsColumns && u.rows.values.isEmpty then [] else v.columns) v.rows := by
  have hnone : u.rows.fault = none := fault_of_apply hlast hfault
  have hshows := shows_pipe ⟨source, t.columns, rfl, fun _ => rfl⟩ hsteps hnone
  rw [pipe_append, pipe_cons ((fault_of_shows hshows).trans hnone)]
  exact output_of_shows mark hshows hlast hnone

/-- A select list, a filter and a sort of three rows. -/
theorem pipe_eq_ofTable_numbers :
    let t : Table :=
      ⟨["a", "b"], { values := [.list [.int 2, .int 5], .list [.int 0, .int 6], .list [.int 1, .int 7]] }⟩
    let u : Table := ⟨["a"], { values := [.list [.int 2], .list [.int 1]] }⟩
    let v : Table := ⟨["a"], { values := [.list [.int 1], .list [.int 2]] }⟩
    applyAll {} [.select (.text "a"), .filter (.text "a")] t = .ok u ∧
      apply (.sort (.text "a") none) {} u = .ok v ∧
      pipe {} [(.select (.text "a"), 1), (.filter (.text "a"), 2), (.sort (.text "a") none, 3)]
          (.ofTable 0 t.columns t.rows) = .ofTable 3 ["a"] v.rows := by
  have hpair (x y : Value) : Table.evalRow {} (.text "a") (Table.row ["a", "b"] (.list [x, y])) = .ok x :=
    @Table.evalRow_column ['a'] _ _ {} (by decide) (by decide) rfl
  have hsingle (x : Value) : Table.evalRow {} (.text "a") (Table.row ["a"] (.list [x])) = .ok x :=
    @Table.evalRow_column ['a'] _ _ {} (by decide) (by decide) rfl
  have hlist : SelectEntry.parse "a" = .ok [{ expression := "a" }] := rfl
  have hless (x y : Value) : Table.keyLess ((.int 1, 1), x) ((.int 2, 0), y) = .ok true := by
    simp [Table.keyLess, Value.equal, Value.related, Value.depth, Value.relatedWithin, Value.number?,
      Value.equalWithin]
    rfl
  intro t u v
  have hsteps : applyAll {} [.select (.text "a"), .filter (.text "a")] t = .ok u := by
    simp [t, u, applyAll, apply, Table.select, hlist, SelectEntry.column, Table.pick, Table.filter,
      Emission.bind, Emission.expand, Emission.after, Table.keep, hpair, hsingle, bind, Except.bind, pure,
      Except.pure, Value.truthy]
  have hlast : apply (.sort (.text "a") none) {} u = .ok v := by
    simp [u, v, apply, sortDirection, Table.orderBy, Emission.all, Table.sortRows, hsingle, bind, Except.bind,
      pure, Except.pure, sortM, mergeRuns, mergePairs, mergeM, hless]
  exact ⟨hsteps, hlast, pipe_eq_ofTable {} [(.select (.text "a"), 1), (.filter (.text "a"), 2)]
    (.sort (.text "a") none) 3 0 t u v hsteps hlast rfl⟩

/-- Columns are lost with the rows: a filter in a pipe that no row enters. -/
theorem filter_loses_columns :
    ¬ ∀ (s : Surroundings) (steps : List (TableStep × Nat)) (last : TableStep) (mark source : Nat)
        (t u v : Table), applyAll s (steps.map Prod.fst) t = .ok u → last.apply s u = .ok v →
      v.rows.fault = none →
      (pipe s (steps ++ [(last, mark)]) (.ofTable source t.columns t.rows)).columns = some v.columns := by
  intro h
  have hcolumns := h {} [] (.filter (.text "True")) 1 0 ⟨["k"], .empty⟩ ⟨["k"], .empty⟩
    ⟨["k"], .empty⟩ rfl rfl rfl
  exact absurd hcolumns (by decide)

end TableStep

end ValueShell
