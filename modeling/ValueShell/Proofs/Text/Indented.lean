import ValueShell.Proofs.Text.Statements

/-!
# Indented texts

What a line says does not depend on the indentations around it, and only places change when something
is put before the first line (`scanLine_shift`, `readLine_shift`). So a text that is one statement is read
the same when spaces and tabs are put before it, but for two marks: one of the indentation at its
beginning, and one of the way back at its end (`exists_indented`).
-/

set_option autoImplicit false

namespace ValueShell.Fragment

open Text

/-! ## Moved lines -/

/-- The column of a character when `k` characters are put before the first line. -/
def moveColumn (k line column : Nat) : Nat := if line = 1 then column + k else column

/-- The place of a character when some are put before the first line. -/
def movePlace (k : Nat) (place : Nat × Nat) : Nat × Nat := (place.1, moveColumn k place.1 place.2)

/-- A fragment when some characters are put before the first line. -/
def move (k : Nat) (f : Fragment) : Fragment := { f with start := movePlace k f.start, stop := movePlace k f.stop }

/-- What a line leaves when some characters are put before the first line, and the indentations are others. -/
def State.shift (k : Nat) (indents : List Nat) (s : State) : State :=
  { s with open? := s.open?.map (fun o => { o with start := movePlace k o.start }), indents }

theorem moveColumn_add (k line column n : Nat) : moveColumn k line (column + n) = moveColumn k line column + n := by
  unfold moveColumn
  split <;> omega

/-- What is put before the first line only moves its fragments. -/
theorem scanLine_shift (k : Nat) (indents : List Nat) (line n column : Nat) (cs : List Char) (s : State) :
    scanLine line n (moveColumn k line column) cs (s.shift k indents) =
      ((scanLine line n column cs s).1.map (move k), (scanLine line n column cs s).2.shift k indents) := by
  induction n generalizing column cs s with
  | zero => rfl
  | succ n ih =>
    rw [scanLine.eq_def, scanLine.eq_def line (n + 1) column]
    simp only [drop_length_takeWhile, ← moveColumn_add]
    cases hpiece : piece? (cs.dropWhile isGap) with
    | none =>
      cases cs with
      | nil => rfl
      | cons c rest =>
        simp only [ih]
        rfl
    | some found =>
      cases found with
      | nothing => rfl
      | opens quote long => rfl
      | join cut => exact ih (column + (cs.takeWhile isGap).length + cut.1.length) cut.2 { s with joined := true }
      | fragment kind cut =>
        have hcount {p q : Prop} [Decidable p] [Decidable q] (m n : Int) :
            (if p then { s.shift k indents with brackets := m }
              else if q then { s.shift k indents with brackets := n } else s.shift k indents) =
            (if p then { s with brackets := m } else if q then { s with brackets := n } else s).shift k indents := by
          split
          · rfl
          · split <;> rfl
        simp only [hcount, ih]
        rfl

/-- Enough fuel is as good as more. -/
theorem scanLine_fuel {line n m column : Nat} {cs : List Char} {s : State} (hn : cs.length < n) (hm : cs.length < m) :
    scanLine line n column cs s = scanLine line m column cs s := by
  induction n generalizing m column cs s with
  | zero => exact absurd hn (Nat.not_lt_zero _)
  | succ n ih =>
    obtain ⟨m, rfl⟩ := Nat.exists_eq_succ_of_ne_zero (Nat.ne_zero_of_lt hm)
    rw [scanLine.eq_def, scanLine.eq_def line (m + 1)]
    simp only [drop_length_takeWhile]
    cases hpiece : piece? (cs.dropWhile isGap) with
    | none =>
      cases cs with
      | nil => rfl
      | cons c rest => simp only [ih (Nat.lt_of_succ_lt_succ hn) (Nat.lt_of_succ_lt_succ hm)]
    | some found =>
      have hlength {cut : Cut} (hcut : found.cut? = some cut) : cut.2.length < cs.length := by
        obtain ⟨hne, happend⟩ := takes_piece? _ cut (by rw [hpiece]; exact hcut)
        have hsum := congrArg List.length happend
        have hpos := List.length_pos_iff.mpr hne
        have hle := (List.dropWhile_sublist isGap (l := cs)).length_le
        rw [List.length_append] at hsum
        omega
      cases found with
      | nothing => rfl
      | opens quote long => rfl
      | join cut =>
        have hless := @hlength cut rfl
        exact ih (by omega) (by omega)
      | fragment kind cut =>
        have hless := @hlength cut rfl
        simp only [@ih m _ cut.2 _ (by omega) (by omega)]

variable {number k : Nat} {indents : List Nat} {line : List Char} {s : State}

theorem shift_self (s : State) : s.shift 0 s.indents = s := by
  obtain ⟨brackets, joined, opened, strict, around⟩ := s
  cases opened <;> simp [State.shift, movePlace, moveColumn]

theorem rests_shift (s : State) : (s.shift k indents).rests = s.rests := by
  rw [State.rests, State.shift, Option.isNone_map]
  rfl

/-- A later line does not change when something is put before the first. -/
theorem readLine_shift (hnumber : number ≠ 1) (k : Nat) (indents : List Nat) (s : State) (line : List Char) :
    readLine number (s.shift k indents) line =
      ((readLine number s line).1.map (move k), (readLine number s line).2.shift k indents) := by
  have hcolumn (column : Nat) : moveColumn k number column = column := by simp [moveColumn, hnumber]
  have hscan (n column : Nat) (cs : List Char) (s : State) := scanLine_shift k indents number n column cs s
  simp only [hcolumn] at hscan
  rw [readLine.eq_def, readLine.eq_def number s]
  cases hopen : s.open? with
  | some o =>
    have hopen' : (s.shift k indents).open? = some { o with start := movePlace k o.start } := by
      rw [State.shift, hopen, Option.map_some]
    simp only [hopen']
    cases close? o.quote o.long line with
    | some cut =>
      have hread := hscan (line.length + 1) cut.1.length cut.2 { s with open? := none, strict := false }
      simp only [State.shift, Option.map_none] at hread ⊢
      simp only [hread, List.map_cons, move, movePlace, hcolumn]
    | none =>
      have hstrict : (s.shift k indents).strict = s.strict := rfl
      simp only [hstrict]
      split
      · simp [State.shift, move, movePlace, hcolumn]
      · rfl
  | none =>
    have hopen' : (s.shift k indents).open? = none := by rw [State.shift, hopen, Option.map_none]
    have hinside' : ((s.shift k indents).brackets ≠ 0 || (s.shift k indents).joined) =
        (s.brackets ≠ 0 || s.joined) := rfl
    simp only [hopen', hinside']
    split
    · have hread := hscan (line.length + 1) 0 line { s with joined := false }
      simp only [State.shift, hopen, Option.map_none] at hread ⊢
      exact hread
    · cases line.dropWhile isGap with
      | nil => rfl
      | cons c body =>
        dsimp only
        split
        · refine Prod.ext ?_ rfl
          split <;> simp [move, movePlace, hcolumn]
        · exact hscan _ _ _ _

theorem indents_readLine (hnumber : number ≠ 1) : (readLine number s line).2.indents = s.indents := by
  have hread := readLine_shift hnumber 0 s.indents s line
  rw [shift_self] at hread
  rw [hread]
  rfl

/-! ## Texts of one statement -/

/-- No statement begins on the lines. -/
def goesOn (number : Nat) (s : State) : List (List Char) → Bool
  | [] => true
  | line :: rest => s.stops line || !s.begins line && goesOn (number + 1) (readLine number s line).2 rest

/-- A text that is one statement, which begins with its first character. It can have many lines. -/
def oneStatement (cs : List Char) : Bool :=
  match Text.lines cs with
  | [] => false
  | line :: rest =>
    (line.head?.any fun c => !(isGap c || c = '#' || isLineEnd c)) && goesOn 2 (readLine 1 {} line).2 rest

/-- The mark of an indentation. -/
def indentOf (number : Nat) (blank : List Char) : Fragment := ⟨.indent, blank, (number, 0), (number, blank.length)⟩

/-- The later lines of an indented statement: one more mark at the end. -/
theorem scanLines_shift {last : List Char} (lines : List (List Char)) (hnumber : 1 < number) (k w : Nat)
    (hindents : s.indents = [0]) (hgoes : goesOn number s lines = true)
    (hfault : (scanLines number last s lines).fault = none) (last' : List Char) :
    (scanLines number last' (s.shift k [w, 0]) lines).fault = none ∧
      ∃ gs n, (scanLines number last s lines).fragments.filter isSaid = gs ++ [endingAt n] ∧
        (scanLines number last' (s.shift k [w, 0]) lines).fragments.filter isSaid =
          gs.map (move k) ++ [dedentAt (n, 0), endingAt n] := by
  induction lines generalizing number last s last' with
  | nil =>
    by_cases hopen : (s.open?.isSome || s.brackets ≠ 0 || s.joined) = true
    · rw [scanLines, if_pos hopen] at hfault
      cases hfault
    · have hrests : s.rests = true := by simpa [State.rests, and_assoc] using hopen
      rw [scanLines_nil hrests, scanLines_nil ((rests_shift s).trans hrests), said_finish, said_finish, hindents]
      exact ⟨rfl, [], number, rfl, rfl⟩
  | cons line rest ih =>
    have hstops' : (s.shift k [w, 0]).stops line = s.stops line := by rw [State.stops, rests_shift, State.stops]
    have hbegins' : (s.shift k [w, 0]).begins line = s.begins line := by rw [State.begins, rests_shift, State.begins]
    cases hstops : s.stops line with
    | true =>
      rw [scanLines_stops hstops, scanLines_stops (hstops'.trans hstops), said_finish, said_finish, hindents]
      exact ⟨rfl, [], number, rfl, rfl⟩
    | false =>
      obtain ⟨hbegins, hgoes⟩ : s.begins line = false ∧ goesOn (number + 1) (readLine number s line).2 rest = true := by
        simpa [goesOn, hstops] using hgoes
      have hnumber' : number ≠ 1 := Nat.ne_of_gt hnumber
      rw [scanLines_goes hstops hbegins] at hfault ⊢
      rw [scanLines_goes (hstops'.trans hstops) (hbegins'.trans hbegins), readLine_shift hnumber']
      obtain ⟨hfault', gs, n, hgs, hgs'⟩ := ih (Nat.lt_succ_of_lt hnumber) ((indents_readLine hnumber').trans hindents)
        hgoes hfault line
      refine ⟨hfault', (readLine number s line).1.filter isSaid ++ gs, n, ?_, ?_⟩
      · rw [Scan.after, List.filter_append, hgs, List.append_assoc]
      · rw [Scan.after, List.filter_append, hgs', List.filter_map, List.map_append, List.append_assoc]
        rfl

/-! ## The first line -/

theorem exists_linesFrom {cs : List Char} (hcs : cs ≠ []) :
    ∃ l ls, ∀ line, linesFrom line cs = (line.reverse ++ l) :: ls := by
  induction cs with
  | nil => exact absurd rfl hcs
  | cons c rest ih =>
    by_cases hfeed : (c == '\n') = true
    · exact ⟨['\n'], linesFrom [] rest, fun line => by simp [linesFrom, beq_iff_eq.mp hfeed]⟩
    · by_cases hrest : rest = []
      · subst hrest
        exact ⟨[c], [], fun line => by simp [linesFrom, hfeed]⟩
      · obtain ⟨l, ls, hl⟩ := ih hrest
        exact ⟨c :: l, ls, fun line => by simp [linesFrom, hfeed, hl]⟩

/-- White space before a text belongs to its first line. -/
theorem lines_append {b cs l : List Char} {ls : List (List Char)} (hb : ∀ c ∈ b, isGap c = true)
    (hlines : Text.lines cs = l :: ls) : Text.lines (b ++ cs) = (b ++ l) :: ls := by
  have hfeed : '\n' ∉ b := fun hmem => by cases hb _ hmem
  obtain ⟨l', ls', hl⟩ := @exists_linesFrom cs fun hnil => by rw [hnil] at hlines; cases hlines
  cases (hl []).symm.trans hlines
  rw [Text.lines, linesFrom_append hfeed, hl]
  simp

theorem indentation_of_head? {l : List Char} (hl : ∀ c ∈ l.head?, isGap c = false) (width : Nat) :
    indentation width l = width := by
  unfold indentation
  split
  · cases hl _ rfl
  · cases hl _ rfl
  · cases hl _ rfl
  · rfl

theorem le_indentation (width : Nat) {b l : List Char} (hb : ∀ c ∈ b, c = ' ' ∨ c = '\t')
    (hl : ∀ c ∈ l.head?, isGap c = false) : width ≤ indentation width (b ++ l) := by
  induction b generalizing width with
  | nil => exact Nat.le_of_eq (indentation_of_head? hl width).symm
  | cons c b ih =>
    obtain ⟨hc, hrest⟩ := List.forall_mem_cons.mp hb
    rcases hc with rfl | rfl
    · exact Nat.le_of_succ_le (ih (width + 1) hrest)
    · exact Nat.le_trans (by omega) (ih ((width / 8 + 1) * 8) hrest)

/-- Spaces and tabs that are put before a line indent it. -/
theorem indentation_pos {b l : List Char} (hne : b ≠ []) (hb : ∀ c ∈ b, c = ' ' ∨ c = '\t')
    (hl : ∀ c ∈ l.head?, isGap c = false) : 0 < indentation 0 (b ++ l) := by
  obtain ⟨c, b, rfl⟩ := List.exists_cons_of_ne_nil hne
  obtain ⟨hc, hrest⟩ := List.forall_mem_cons.mp hb
  rcases hc with rfl | rfl
  · exact le_indentation 1 hrest hl
  · exact Nat.le_trans (by decide) (le_indentation 8 hrest hl)

/-- The line of a statement, with white space before it. -/
theorem readLine_first {b tail : List Char} {c : Char} (hb : ∀ c ∈ b, isGap c = true) (hgap : isGap c = false)
    (hc : (c = '#' || isLineEnd c) = false) :
    ({} : State).begins (b ++ c :: tail) = true ∧ (b ++ c :: tail).takeWhile isGap = b ∧
      ∀ indents, readLine 1 ({ indents } : State) (b ++ c :: tail) =
        ((readLine 1 {} (c :: tail)).1.map (move b.length), (readLine 1 {} (c :: tail)).2.shift b.length indents) := by
  have hdrop (b : List Char) (hb : ∀ c ∈ b, isGap c = true) : (b ++ c :: tail).dropWhile isGap = c :: tail := by
    rw [List.dropWhile_append_of_pos hb, List.dropWhile_cons_of_neg (by simp [hgap])]
  have htake (b : List Char) (hb : ∀ c ∈ b, isGap c = true) : (b ++ c :: tail).takeWhile isGap = b := by
    rw [List.takeWhile_append_of_pos hb, List.takeWhile_cons_of_neg (by simp [hgap]), List.append_nil]
  have hbegins (b : List Char) (hb : ∀ c ∈ b, isGap c = true) : ({} : State).begins (b ++ c :: tail) = true := by
    rw [State.begins, hdrop b hb]
    simpa [State.rests] using hc
  have hread (b : List Char) (hb : ∀ c ∈ b, isGap c = true) (indents : List Nat) :
      readLine 1 ({ indents } : State) (b ++ c :: tail) =
        scanLine 1 ((b ++ c :: tail).length + 1) b.length (c :: tail) ({ indents } : State) := by
    obtain ⟨c', body, hline, -, -, hread⟩ := @readLine_begins 1 _ _ (hbegins b hb)
    cases (hdrop b hb).symm.trans hline
    rw [hread, htake b hb]
  refine ⟨hbegins b hb, htake b hb, fun indents => ?_⟩
  have hplain : readLine 1 {} (c :: tail) = scanLine 1 ((c :: tail).length + 1) 0 (c :: tail) {} :=
    hread [] (fun c hc => by cases hc) [0]
  have hshift := scanLine_shift b.length indents 1 ((c :: tail).length + 1) 0 (c :: tail) {}
  rw [← hplain, show moveColumn b.length 1 0 = b.length by simp [moveColumn]] at hshift
  rw [hread b hb, ← hshift]
  exact scanLine_fuel (Nat.lt_succ_of_le (by simp)) (Nat.lt_succ_self _)

/-- Spaces and tabs before one statement: a mark before it, and one behind it. -/
theorem exists_indented {b cs : List Char} (hne : b ≠ []) (hb : ∀ c ∈ b, c = ' ' ∨ c = '\t')
    (hone : oneStatement cs = true) (hscan : (scan cs).fault = none) :
    (scan (b ++ cs)).fault = none ∧
      ∃ place, (scan (b ++ cs)).fragments.filter isPart =
        indentOf 1 b :: (((scan cs).fragments.filter isPart).map (move b.length) ++ [dedentAt place]) := by
  have hb' : ∀ c ∈ b, isGap c = true := fun c hc => by rcases hb c hc with rfl | rfl <;> rfl
  unfold oneStatement at hone
  split at hone
  · cases hone
  rename_i l ls hlines
  obtain ⟨hhead, hgoes⟩ := Bool.and_eq_true_iff.mp hone
  cases l with
  | nil => cases hhead
  | cons c tail =>
    obtain ⟨hgap, hc⟩ : isGap c = false ∧ (c = '#' || isLineEnd c) = false := by
      simpa [Bool.or_assoc] using hhead
    have hl : ∀ d ∈ (c :: tail).head?, isGap d = false := fun d hd => by cases hd; exact hgap
    obtain ⟨hbegins, -, hself⟩ := @readLine_first [] tail c (fun c hc => by cases hc) hgap hc
    obtain ⟨hbegins', htake, hread⟩ := @readLine_first b tail c hb' hgap hc
    have hmarks : marks 1 [0] (c :: tail) = some ([], [0]) := by simp [marks, indentation_of_head? hl 0]
    have hmarks' : marks 1 [0] (b ++ c :: tail) = some ([indentOf 1 b], [indentation 0 (b ++ c :: tail), 0]) := by
      simp [marks, indentation_pos hne hb hl, htake, indentOf]
    have hplain : scan cs =
        (scanLines 2 (c :: tail) (readLine 1 {} (c :: tail)).2 ls).after (readLine 1 {} (c :: tail)).1 := by
      rw [scan, hlines]
      refine (scanLines_begins hbegins).trans ?_
      exact congrArg (fun m : Option _ => m.elim _ _) hmarks
    have hindented : scan (b ++ cs) =
        (scanLines 2 (b ++ c :: tail)
          ((readLine 1 {} (c :: tail)).2.shift b.length [indentation 0 (b ++ c :: tail), 0]) ls).after
          (indentOf 1 b :: (readLine 1 {} (c :: tail)).1.map (move b.length)) := by
      rw [scan, lines_append hb' hlines]
      refine (scanLines_begins hbegins').trans ((congrArg (fun m : Option _ => m.elim _ _) hmarks').trans ?_)
      exact congrArg (fun read : List Fragment × State =>
        (scanLines 2 (b ++ c :: tail) read.2 ls).after ([indentOf 1 b] ++ read.1)) (hread _)
    have hindents : (readLine 1 {} (c :: tail)).2.indents = [0] := congrArg (fun read => read.2.indents) (hself [0])
    rw [hplain] at hscan
    obtain ⟨hfault, gs, n, hgs, hgs'⟩ := scanLines_shift ls (by decide) b.length (indentation 0 (b ++ c :: tail))
      hindents hgoes hscan (b ++ c :: tail)
    refine ⟨by rw [hindented]; exact hfault, (n, 0), ?_⟩
    have hmove (fs : List Fragment) :
        (fs.map (move b.length)).filter isPart = (fs.filter isPart).map (move b.length) := by
      rw [List.filter_map]
      rfl
    have hmark : isPart (indentOf 1 b) = true := rfl
    have hends : [dedentAt (n, 0), endingAt n].filter isPart = [dedentAt (n, 0)] := rfl
    have hend : [endingAt n].filter isPart = [] := rfl
    rw [hindented, hplain, Scan.after, Scan.after, List.filter_append, List.filter_append,
      ← filter_isPart_filter_isSaid (scanLines _ _ _ _).fragments, hgs', List.filter_append, hends,
      ← filter_isPart_filter_isSaid (scanLines _ (c :: tail) _ _).fragments, hgs, List.filter_append, hend,
      List.filter_cons_of_pos hmark, hmove, hmove]
    simp

end ValueShell.Fragment
