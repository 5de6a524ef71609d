import ValueShell.Proofs.Text.Pieces

/-!
# Statements

A line that begins a statement first says how its indentation changes (`marks`), and then what it says
whatever its indentation is (`readLine`); `scanLines_goes` and `scanLines_begins` are the steps of
`scanLines` in these terms. By induction on the lines, a text ends in one mark, and all before it is tidy
(`exists_ending`).
-/

set_option autoImplicit false

namespace ValueShell.Fragment

open Text

/-! ## Lines and statements -/

/-- No string, bracket or backslash goes on in the next line. -/
def State.rests (s : State) : Bool := s.open?.isNone && s.brackets = 0 && !s.joined

/-- A line on which the text ends: nothing but white space, and no line end. -/
def State.stops (s : State) (line : List Char) : Bool := s.rests && (line.dropWhile isGap).isEmpty

/-- A statement begins on the line. -/
def State.begins (s : State) (line : List Char) : Bool :=
  s.rests && (line.dropWhile isGap).head?.any fun c => !(c = '#' || isLineEnd c)

/-- What a line says whatever its indentation is, and what it leaves for the next. -/
def readLine (number : Nat) (s : State) (line : List Char) : List Fragment × State :=
  match s.open? with
  | some o =>
    match close? o.quote o.long line with
    | some (piece, rest) =>
      let read := scanLine number (line.length + 1) piece.length rest { s with open? := none, strict := false }
      (⟨.string, o.text ++ piece, o.start, (number, piece.length)⟩ :: read.1, read.2)
    | none =>
      if s.strict && !(['\n', '\\'].isPrefixOf line.reverse || ['\n', '\r', '\\'].isPrefixOf line.reverse) then
        ([⟨.unknown, o.text ++ line, o.start, (number, line.length)⟩], { s with open? := none })
      else ([], { s with open? := some { o with text := o.text ++ line } })
  | none =>
    if s.brackets ≠ 0 || s.joined then scanLine number (line.length + 1) 0 line { s with joined := false }
    else
      let column := (line.takeWhile isGap).length
      match line.dropWhile isGap with
      | [] => ([], s)
      | c :: body =>
        if c = '#' || isLineEnd c then
          let comment := if c = '#' then trimLine (c :: body) else []
          let stop := column + comment.length
          ((if c = '#' then [⟨.comment, comment, (number, column), (number, stop)⟩] else []) ++
            [⟨.lineEnd, (c :: body).drop comment.length, (number, stop), (number, line.length)⟩], s)
        else scanLine number (line.length + 1) column (c :: body) s

/-- The marks of the indentation of a statement, and the indentations behind them. -/
def marks (number : Nat) (indents : List Nat) (line : List Char) : Option (List Fragment × List Nat) :=
  let blank := line.takeWhile isGap
  let width := indentation 0 line
  let outer := indents.dropWhile (· > width)
  if width > indents.headD 0 then
    some ([⟨.indent, blank, (number, 0), (number, blank.length)⟩], width :: indents)
  else if outer.headD 0 = width then
    some ((indents.take (indents.length - outer.length)).map
      fun _ => ⟨.dedent, [], (number, blank.length), (number, blank.length)⟩, outer)
  else none

variable {number : Nat} {last line : List Char} {s : State} {rest : List (List Char)}

theorem rests_iff (s : State) : s.rests = true ↔ s.open? = none ∧ s.brackets = 0 ∧ s.joined = false := by
  simp [State.rests, and_assoc]

theorem scanLines_nil (hrests : s.rests = true) : scanLines number last s [] = finish number last s.indents := by
  obtain ⟨hopen, hbrackets, hjoined⟩ := (rests_iff s).mp hrests
  simp [scanLines, hopen, hbrackets, hjoined]

theorem scanLines_stops (hstops : s.stops line = true) :
    scanLines number last s (line :: rest) = finish number last s.indents := by
  obtain ⟨hrests, hblank⟩ := Bool.and_eq_true_iff.mp hstops
  obtain ⟨hopen, hbrackets, hjoined⟩ := (rests_iff s).mp hrests
  rw [scanLines.eq_def]
  simp [hopen, hbrackets, hjoined, drop_length_takeWhile, List.isEmpty_iff.mp hblank]

/-- A line on which no statement begins. -/
theorem scanLines_goes (hstops : s.stops line = false) (hbegins : s.begins line = false) :
    scanLines number last s (line :: rest) =
      (scanLines (number + 1) line (readLine number s line).2 rest).after (readLine number s line).1 := by
  rw [scanLines.eq_def, readLine.eq_def]
  cases hopen : s.open? with
  | some o =>
    dsimp only
    cases hclose : close? o.quote o.long line with
    | some cut => rfl
    | none =>
      dsimp only
      split <;> rfl
  | none =>
    dsimp only
    by_cases hinside : (s.brackets ≠ 0 || s.joined) = true
    · simp only [if_pos hinside]
    · have hrests : s.rests = true := by simpa [State.rests, hopen] using hinside
      simp only [if_neg hinside, drop_length_takeWhile]
      cases hline : line.dropWhile isGap with
      | nil => simp [State.stops, hrests, hline] at hstops
      | cons c body =>
        rw [State.begins, hrests, hline] at hbegins
        have hc : (c = '#' || isLineEnd c) = true := by rwa [← Bool.not_eq_false']
        simp only [if_pos hc]

/-- A line on which a statement begins, from its first character on. -/
theorem readLine_begins (hbegins : s.begins line = true) :
    ∃ c body, line.dropWhile isGap = c :: body ∧ (c = '#' || isLineEnd c) = false ∧ s.rests = true ∧
      ∀ indents, readLine number { s with indents } line =
        scanLine number (line.length + 1) (line.takeWhile isGap).length (c :: body) { s with indents } := by
  obtain ⟨hrests, hhead⟩ := Bool.and_eq_true_iff.mp hbegins
  cases hline : line.dropWhile isGap with
  | nil => simp [hline] at hhead
  | cons c body =>
    have hc : (c = '#' || isLineEnd c) = false := by simpa [hline] using hhead
    obtain ⟨hopen, hbrackets, hjoined⟩ := (rests_iff s).mp hrests
    refine ⟨c, body, rfl, hc, hrests, fun indents => ?_⟩
    rw [readLine.eq_def, hline]
    simp only [hopen, hbrackets, hjoined, hc]
    rfl

theorem scanLines_begins (hbegins : s.begins line = true) :
    scanLines number last s (line :: rest) =
      (marks number s.indents line).elim { fragments := [], fault := some .badIndentation } fun m =>
        (scanLines (number + 1) line (readLine number { s with indents := m.2 } line).2 rest).after
          (m.1 ++ (readLine number { s with indents := m.2 } line).1) := by
  obtain ⟨c, body, hline, hc, hrests, hread⟩ := @readLine_begins number _ _ hbegins
  simp only [hread]
  obtain ⟨brackets, joined, opened, strict, around⟩ := s
  obtain ⟨rfl, rfl, rfl⟩ := (rests_iff _).mp hrests
  rw [scanLines.eq_def]
  simp only [drop_length_takeWhile, hline, hc, marks]
  by_cases hwider : indentation 0 line > around.headD 0
  · simp only [if_pos hwider]
    rfl
  · by_cases hwidth : (around.dropWhile (· > indentation 0 line)).headD 0 = indentation 0 line
    · simp only [if_neg hwider, hwidth, ne_eq, not_true_eq_false, if_false]
      rfl
    · simp only [if_neg hwider, hwidth, ne_eq, not_false_eq_true, if_true]
      rfl

/-! ## Tidy texts -/

/-- Every fragment but the end of a line. -/
def isSaid (f : Fragment) : Bool := f.kind ≠ .newline && f.kind ≠ .lineEnd

/-- What stands in a text: every fragment but the ends of lines and the end of the text. -/
def isPart (f : Fragment) : Bool := isSaid f && f.kind ≠ .ending

theorem filter_isPart_filter_isSaid (fs : List Fragment) : (fs.filter isSaid).filter isPart = fs.filter isPart := by
  rw [List.filter_filter]
  refine List.filter_congr fun f _ => ?_
  unfold isPart
  cases isSaid f <;> simp

theorem tidy_readLine (number : Nat) (line : List Char) (hs : s.Tidy) :
    (∀ f ∈ (readLine number s line).1, isSaid f = true → f.Tidy) ∧ (readLine number s line).2.Tidy := by
  have hscan {column : Nat} {cs : List Char} {s : State} (hs : s.Tidy) :
      (∀ f ∈ (scanLine number (line.length + 1) column cs s).1, isSaid f = true → f.Tidy) ∧
        (scanLine number (line.length + 1) column cs s).2.Tidy :=
    (tidy_scanLine _ _ _ _ hs).imp_left fun hread f hf _ => hread f hf
  unfold readLine
  split
  · rename_i o hopen
    obtain ⟨c, hc, hdelimiter⟩ := hs o hopen
    have hstring {kind : Kind} (hkind : kind ≠ .ending) (piece : List Char) (stop : Nat × Nat) :
        Tidy ⟨kind, o.text ++ piece, o.start, stop⟩ := tidy_of_head? hkind (by simp [hc]) hdelimiter
    split
    · rename_i piece rest hclose
      refine (hscan ?_).imp_left fun hread => List.forall_mem_cons.mpr ⟨fun _ => hstring (by simp) _ _, hread⟩
      exact fun o ho => by cases ho
    · split
      · exact ⟨List.forall_mem_singleton.mpr fun _ => hstring (by simp) _ _, fun o ho => by cases ho⟩
      · refine ⟨by simp, fun o ho => ?_⟩
        cases ho
        exact ⟨c, by simp [hc], hdelimiter⟩
  · split
    · exact hscan hs
    · dsimp only
      split
      · exact ⟨by simp, hs⟩
      · rename_i c body _
        split
        · refine ⟨List.forall_mem_append.mpr ⟨?_, List.forall_mem_singleton.mpr (by simp [isSaid])⟩, hs⟩
          split
          · rename_i hcomment
            refine List.forall_mem_singleton.mpr fun _ => ?_
            cases htext : trimLine (c :: body) with
            | nil => exact tidy_of_nil (by simp) rfl
            | cons d text =>
              have hstarts := trimEnd_isPrefix isLineEnd (c :: body)
              rw [← trimLine, htext, List.cons_prefix_cons] at hstarts
              exact tidy_of_head? (by simp) rfl (by rw [hstarts.1, hcomment]; rfl)
          · simp
        · exact hscan hs

theorem tidy_marks {ms : List Fragment} {indents indents' : List Nat}
    (hmarks : marks number indents line = some (ms, indents')) : ∀ f ∈ ms, isSaid f = true ∧ f.Tidy := by
  unfold marks at hmarks
  dsimp only at hmarks
  split at hmarks
  · cases hmarks
    refine List.forall_mem_singleton.mpr ⟨rfl, by simp, fun d hd hdelimiter => ?_⟩
    have hgap := List.all_eq_true.mp (List.all_takeWhile (p := isGap) (l := line)) d (List.mem_of_mem_head? hd)
    rw [isGap_of_isDelimiter hdelimiter] at hgap
    cases hgap
  · split at hmarks
    · cases hmarks
      intro f hf
      obtain ⟨_, -, rfl⟩ := List.mem_map.mp hf
      exact ⟨rfl, tidy_of_nil (by simp) rfl⟩
    · cases hmarks

/-- The mark of the way back from an indentation. -/
def dedentAt (place : Nat × Nat) : Fragment := ⟨.dedent, [], place, place⟩

/-- The mark at the end of a text. -/
def endingAt (number : Nat) : Fragment := ⟨.ending, [], (number, 0), (number, 0)⟩

theorem said_finish (number : Nat) (last : List Char) (indents : List Nat) :
    (finish number last indents).fragments.filter isSaid =
      indents.dropLast.map (fun _ => dedentAt (number, 0)) ++ [endingAt number] := by
  have hback : (indents.dropLast.map fun _ => dedentAt (number, 0)).filter isSaid =
      indents.dropLast.map fun _ => dedentAt (number, 0) :=
    List.filter_eq_self.mpr fun f hf => by
      obtain ⟨_, -, rfl⟩ := List.mem_map.mp hf
      rfl
  unfold finish
  dsimp only
  rw [List.filter_append, List.filter_append]
  refine congrArg (· ++ [endingAt number]) ?_
  split
  · exact hback
  · split <;> exact hback

/-- A text that is read to its end has one ending, the last of its fragments, and the others are tidy. -/
theorem exists_ending (lines : List (List Char)) (hs : s.Tidy)
    (hfault : (scanLines number last s lines).fault = none) :
    ∃ gs n, (scanLines number last s lines).fragments.filter isSaid = gs ++ [endingAt n] ∧ ∀ g ∈ gs, g.Tidy := by
  have hend (number : Nat) (last : List Char) (indents : List Nat) :
      ∃ gs n, (finish number last indents).fragments.filter isSaid = gs ++ [endingAt n] ∧ ∀ g ∈ gs, g.Tidy :=
    ⟨_, number, said_finish number last indents, fun g hg => by
      obtain ⟨_, -, rfl⟩ := List.mem_map.mp hg
      exact tidy_of_nil (by simp [dedentAt]) rfl⟩
  have hline (number : Nat) (line : List Char) {s : State} (hs : s.Tidy) :
      ∀ f ∈ (readLine number s line).1.filter isSaid, f.Tidy := fun f hf => by
    obtain ⟨hf, hsaid⟩ := List.mem_filter.mp hf
    exact (tidy_readLine number line hs).1 f hf hsaid
  induction lines generalizing number last s with
  | nil =>
    by_cases hopen : (s.open?.isSome || s.brackets ≠ 0 || s.joined) = true
    · rw [scanLines, if_pos hopen] at hfault
      cases hfault
    · rw [scanLines_nil (by simpa [State.rests, and_assoc] using hopen)]
      exact hend _ _ _
  | cons line rest ih =>
    cases hstops : s.stops line with
    | true =>
      rw [scanLines_stops hstops]
      exact hend _ _ _
    | false =>
      cases hbegins : s.begins line with
      | false =>
        rw [scanLines_goes hstops hbegins] at hfault ⊢
        obtain ⟨gs, n, hgs, htidy⟩ := ih (tidy_readLine number line hs).2 hfault
        refine ⟨_, n, ?_, List.forall_mem_append.mpr ⟨hline number line hs, htidy⟩⟩
        rw [Scan.after, List.filter_append, hgs, List.append_assoc]
      | true =>
        rw [scanLines_begins hbegins] at hfault ⊢
        cases hmarks : marks number s.indents line with
        | none =>
          rw [hmarks] at hfault
          cases hfault
        | some m =>
          rw [hmarks] at hfault
          have hs' : State.Tidy { s with indents := m.2 } := hs
          obtain ⟨gs, n, hgs, htidy⟩ := ih (tidy_readLine number line hs').2 hfault
          have hsaid : m.1.filter isSaid = m.1 := List.filter_eq_self.mpr fun f hf => (tidy_marks hmarks f hf).1
          refine ⟨m.1 ++ (readLine number { s with indents := m.2 } line).1.filter isSaid ++ gs, n, ?_, ?_⟩
          · rw [Option.elim_some, Scan.after, List.filter_append, List.filter_append, hsaid, hgs]
            simp only [List.append_assoc]
          · exact List.forall_mem_append.mpr ⟨List.forall_mem_append.mpr
              ⟨fun f hf => (tidy_marks hmarks f hf).2, hline number line hs'⟩, htidy⟩

end ValueShell.Fragment
