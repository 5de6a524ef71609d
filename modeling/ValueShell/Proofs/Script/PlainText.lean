import ValueShell.Script.Convert

/-!
# Scripts without command lines

In a script that has no comments, no backslashes and no carriage returns, reading drops nothing but the
line feeds at the ends of lines: a literal is taken as it stands, its line feeds included, and a line is
its indentation, its content and one line feed. Such a script is put together again by writing its
lines, so that converting it changes nothing as long as no line is a command line.
-/

set_option autoImplicit false

namespace ValueShell.Script

open ValueShell.Text

variable {cs : List Char} {quote : Char} {taken : Taken} {n : Nat}

/-- No comment, no backslash and no carriage return. -/
def Plain (cs : List Char) : Prop := ∀ c ∈ cs, c ≠ '#' ∧ c ≠ '\\' ∧ c ≠ '\r'

/-- The text is empty or ends with a line feed. -/
def EndsInFeed (cs : List Char) : Prop := cs = [] ∨ cs.getLast? = some '\n'

instance (cs : List Char) : Decidable (Plain cs) :=
  List.decidableBAll (fun c => c ≠ '#' ∧ c ≠ '\\' ∧ c ≠ '\r') cs

instance (cs : List Char) : Decidable (EndsInFeed cs) := inferInstanceAs (Decidable (_ ∨ _))

theorem Plain.of_append {front : List Char} (h : Plain (front ++ cs)) : Plain cs :=
  fun c hc => h c (List.mem_append_right front hc)

theorem Plain.tail {c : Char} (h : Plain (c :: cs)) : Plain cs :=
  fun d hd => h d (List.mem_cons_of_mem c hd)

theorem EndsInFeed.of_append {front : List Char} (h : EndsInFeed (front ++ cs)) : EndsInFeed cs := by
  rcases List.eq_nil_or_concat cs with rfl | ⟨init, last, rfl⟩
  · exact Or.inl rfl
  · right
    rcases h with h | h
    · simp at h
    · simpa [← List.append_assoc] using h

theorem EndsInFeed.eq_nil (h : EndsInFeed cs) (hlast : cs.getLast? ≠ some '\n') : cs = [] :=
  h.resolve_right hlast

/-! ### Literals -/

/-- A piece was cut off from a text, and the piece ends with a quote. -/
structure Cut (quote : Char) (cs : List Char) (taken : Taken) : Prop where
  text : cs = taken.1 ++ taken.2
  last : taken.1.getLast? = some quote

theorem Cut.of_withHead {head : List Char} {r : Except Complaint Taken} (h : withHead head r = .ok taken)
    (hr : ∀ t, r = .ok t → Cut quote cs t) : Cut quote (head ++ cs) taken := by
  cases r with
  | error c => simp [withHead, Except.map] at h
  | ok t =>
    obtain ⟨htext, hlast⟩ := hr t rfl
    have htaken : taken = (head ++ t.1, t.2) := by
      simpa [withHead, Except.map] using h.symm
    subst htaken
    constructor
    · rw [htext, List.append_assoc]
    · simp [List.getLast?_append, hlast]

theorem Cut.length_lt (h : Cut quote cs taken) (hn : cs.length ≤ n) : taken.2.length < n := by
  have hne : taken.1 ≠ [] := by
    intro hnil
    have hlast := h.last
    rw [hnil] at hlast
    cases hlast
  have hpos := List.length_pos_iff.mpr hne
  have htext := congrArg List.length h.text
  rw [List.length_append] at htext
  omega

theorem cut_shortLiteral (hplain : Plain cs) (h : shortLiteral quote cs = .ok taken) :
    Cut quote cs taken := by
  induction cs generalizing taken with
  | nil => simp [shortLiteral] at h
  | cons c rest ih =>
    have hc := (hplain c (by simp)).2.1
    rw [shortLiteral] at h
    · split at h
      · cases h
      · split at h
        case isTrue hquote =>
          cases h
          exact ⟨rfl, by simp [hquote]⟩
        case isFalse => exact Cut.of_withHead h fun t ht => ih hplain.tail ht
    all_goals simp_all

theorem cut_longLiteral {count : Nat} (hplain : Plain cs) (h : longLiteral quote count cs = .ok taken) :
    Cut quote cs taken := by
  induction cs generalizing count taken with
  | nil => simp [longLiteral] at h
  | cons c rest ih =>
    have hc := (hplain c (by simp)).2.1
    rw [longLiteral] at h
    · split at h
      case isTrue hquote =>
        split at h
        · cases h
          exact ⟨rfl, by simp [hquote]⟩
        · exact Cut.of_withHead h fun t ht => ih hplain.tail ht
      case isFalse => exact Cut.of_withHead h fun t ht => ih hplain.tail ht
    all_goals simp_all

theorem cut_literal {rest : List Char} (hplain : Plain rest) (h : literal quote rest = .ok taken) :
    Cut quote (quote :: rest) taken := by
  unfold literal at h
  split at h
  case h_1 c after =>
    split at h
    · exact Cut.of_withHead h fun t ht => cut_shortLiteral hplain ht
    · rename_i hc
      have hc : c = quote := by simpa using hc
      subst hc
      split at h
      · split at h
        · rename_i hd
          subst hd
          exact Cut.of_withHead h fun t ht => cut_longLiteral hplain.tail.tail ht
        · cases h
          exact ⟨rfl, rfl⟩
      · cases h
        exact ⟨rfl, rfl⟩
  case h_2 => exact Cut.of_withHead h fun t ht => cut_shortLiteral hplain ht

/-! ### Lines -/

/-- What stands at the head of a text up to its first line feed outside of literals, or the whole text. -/
inductive Reads : List Char → Body → Prop
  | fed (content left : List Char) : Reads (content ++ '\n' :: left) ⟨content, left, false⟩
  | unfed (content : List Char) (h : content.getLast? ≠ some '\n') : Reads content ⟨content, [], true⟩

theorem Reads.cons {piece : List Char} {b : Body} (h : Reads cs b) (hpiece : piece.getLast? ≠ some '\n') :
    Reads (piece ++ cs) (b.cons piece) := by
  cases h with
  | fed content left =>
    rw [← List.append_assoc]
    exact Reads.fed (piece ++ content) left
  | unfed _ h =>
    refine Reads.unfed (piece ++ cs) ?_
    rw [List.getLast?_append, ne_eq, Option.or_eq_some_iff]
    rintro (hcs | ⟨-, hlast⟩)
    · exact h hcs
    · exact hpiece hlast

theorem reads_body {b : Body} (hn : cs.length < n) (hplain : Plain cs) (h : body n cs = .ok b) :
    Reads cs b := by
  induction n generalizing cs b with
  | zero => omega
  | succ n ih =>
    cases cs with
    | nil =>
      cases h
      exact Reads.unfed [] (by simp)
    | cons c rest =>
      obtain ⟨hhash, hslash, hreturn⟩ := hplain c (by simp)
      have hrest : rest.length < n := by simpa using hn
      unfold body at h
      split at h
      case isTrue hquote =>
        cases hliteral : literal c rest with
        | error e => simp [hliteral, bind, Except.bind] at h
        | ok taken =>
          have hcut := cut_literal hplain.tail hliteral
          have hleft : taken.2.length < n := hcut.length_lt hrest
          -- line feeds inside of a literal stay in the line, but its last character is a quote
          have hpiece : taken.1.getLast? ≠ some '\n' := by
            rw [hcut.last]
            rintro ⟨⟩
            revert hquote
            decide
          cases hbody : body n taken.2 with
          | error e => simp [hliteral, hbody, bind, Except.bind] at h
          | ok others =>
            have hb : b = others.cons taken.1 := by
              simpa [hliteral, hbody, bind, Except.bind] using h.symm
            rw [hb, hcut.text]
            rw [hcut.text] at hplain
            exact (ih hleft hplain.of_append hbody).cons hpiece
      case isFalse hquote =>
        split at h
        case isTrue hfeed =>
          cases h
          rw [hfeed]
          exact Reads.fed [] rest
        case isFalse hfeed =>
          cases hbody : body n rest with
          | error e => simp [hbody, Except.map] at h
          | ok others =>
            have hb : b = others.cons [c] := by simpa [hbody, Except.map] using h.symm
            rw [hb]
            have hlast : [c].getLast? ≠ some '\n' := by simpa using hfeed
            exact (ih hrest hplain.tail hbody).cons hlast

theorem feed_not_mem_indent (cs : List Char) : '\n' ∉ cs.takeWhile isIndent := by
  intro hmem
  have hindent : isIndent '\n' = true := List.all_eq_true.mp List.all_takeWhile _ hmem
  revert hindent
  decide

theorem exists_body {indent rest : List Char} {mode : Mode} {next : Option (Line × List Char)}
    (h : (do
      let b ← body (rest.length + 1) rest
      if b.ended && b.content.isEmpty then .ok none
      else .ok (some (⟨indent, mode, b.content⟩, b.left))) = Except.ok next) :
    ∃ b, body (rest.length + 1) rest = .ok b ∧
      next = if b.ended && b.content.isEmpty then none else some (⟨indent, mode, b.content⟩, b.left) := by
  cases hbody : body (rest.length + 1) rest with
  | error c => simp [hbody, bind, Except.bind] at h
  | ok b =>
    refine ⟨b, rfl, ?_⟩
    simp only [hbody, bind, Except.bind] at h
    split at h
    case isTrue hempty =>
      cases h
      rw [if_pos hempty]
    case isFalse hmore =>
      cases h
      rw [if_neg hmore]

/-- The next line has its mode from a mark behind the indentation, and its content from what follows. -/
theorem nextLine_eq_ok {next : Option (Line × List Char)} (h : nextLine cs = .ok next) :
    ∃ mode mark rest b, cs = cs.takeWhile isIndent ++ (mark ++ rest) ∧ '\n' ∉ mark ∧
      (mode = Mode.host → mark = []) ∧ body (rest.length + 1) rest = .ok b ∧
      next = if b.ended && b.content.isEmpty then none
        else some (⟨cs.takeWhile isIndent, mode, b.content⟩, b.left) := by
  have hcs := (List.takeWhile_append_dropWhile (p := isIndent) (l := cs)).symm
  unfold nextLine at h
  dsimp only at h
  split at h
  case h_1 after hafter =>
    obtain ⟨b, hbody, hnext⟩ := exists_body h
    refine ⟨.shell, '>' :: after.takeWhile isIndent, _, b, ?_, ?_, nofun, hbody, hnext⟩
    · rw [List.cons_append, List.takeWhile_append_dropWhile, ← hafter, ← hcs]
    · simp only [List.mem_cons, not_or]
      exact ⟨by decide, feed_not_mem_indent after⟩
  case h_2 =>
    obtain ⟨b, hbody, hnext⟩ := exists_body h
    exact ⟨.host, [], _, b, hcs, List.not_mem_nil, fun _ => rfl, hbody, hnext⟩

/-- A line as it stands in a script. -/
def Line.written (line : Line) : List Char := line.indent ++ (line.content ++ ['\n'])

theorem eq_nil_of_nextLine (hplain : Plain cs) (hfeed : EndsInFeed cs) (h : nextLine cs = .ok none) :
    cs = [] := by
  obtain ⟨mode, mark, rest, b, hcs, hmark, -, hbody, hnext⟩ := nextLine_eq_ok h
  rw [hcs] at hplain
  have hreads := reads_body (Nat.lt_succ_self _) hplain.of_append.of_append hbody
  cases hreads with
  | fed content left => simp at hnext
  | unfed _ hlast =>
    have hrest : rest = [] := by simpa using hnext
    refine hfeed.eq_nil fun hlast => ?_
    have hmem := List.mem_of_getLast? hlast
    rw [hcs, hrest, List.append_nil, List.mem_append] at hmem
    rcases hmem with hindent | hmem
    · exact feed_not_mem_indent cs hindent
    · exact hmark hmem

theorem written_of_nextLine {left : List Char} {line : Line} (hplain : Plain cs) (hfeed : EndsInFeed cs)
    (h : nextLine cs = .ok (some (line, left))) (hmode : line.mode = .host) :
    cs = line.written ++ left := by
  obtain ⟨mode, mark, rest, b, hcs, -, hmark, hbody, hnext⟩ := nextLine_eq_ok h
  rw [hcs] at hplain hfeed
  have hreads := reads_body (Nat.lt_succ_self _) hplain.of_append.of_append hbody
  split at hnext
  case isTrue => cases hnext
  case isFalse hmore =>
    cases hnext
    rw [hmark hmode, List.nil_append] at hcs
    cases hreads with
    | fed content left =>
      simpa [Line.written] using hcs
    | unfed _ hlast =>
      -- reading stops at the end of the script only where no line feed stands there
      have hrest := hfeed.of_append.of_append.eq_nil hlast
      simp [hrest] at hmore

theorem rejoin_linesFrom (hn : cs.length < n) (hplain : Plain cs) (hfeed : EndsInFeed cs)
    (hread : (linesFrom n cs).complaint = none) (hmode : ∀ line ∈ (linesFrom n cs).lines, line.mode = .host) :
    (linesFrom n cs).lines.flatMap Line.written = cs := by
  induction n generalizing cs with
  | zero => omega
  | succ n ih =>
    unfold linesFrom at hread hmode ⊢
    cases hnext : nextLine cs with
    | error c => simp [hnext] at hread
    | ok next =>
      cases next with
      | none => simp [eq_nil_of_nextLine hplain hfeed hnext]
      | some pair =>
        obtain ⟨line, left⟩ := pair
        simp only [hnext] at hread hmode ⊢
        have hcs := written_of_nextLine hplain hfeed hnext (hmode line (by simp))
        have hleft : left.length < n := by
          rw [hcs] at hn
          simp [Line.written] at hn
          omega
        rw [hcs] at hplain hfeed
        have hothers := ih hleft hplain.of_append hfeed.of_append hread
          fun other hmem => hmode other (List.mem_cons_of_mem line hmem)
        rw [List.flatMap_cons, hothers, ← hcs]

/-- The lines of a plain script, each with its line feed, make up the script. -/
theorem rejoin_lines (hplain : Plain cs) (hfeed : EndsInFeed cs) (hread : (lines cs).complaint = none)
    (hmode : ∀ line ∈ (lines cs).lines, line.mode = .host) : (lines cs).lines.flatMap Line.written = cs :=
  rejoin_linesFrom (Nat.lt_succ_self _) hplain hfeed hread hmode

/-! ### Writing -/

theorem writeLines_host {style : Style} {ls : List Line} (hmode : ∀ line ∈ ls, line.mode = .host) :
    writeLines style none ls = { text := String.ofList (ls.flatMap Line.written) } := by
  induction ls with
  | nil => rfl
  | cons line rest ih =>
    have hhost := hmode line (by simp)
    have hrest := ih fun other hmem => hmode other (List.mem_cons_of_mem line hmem)
    simp [writeLines, lineText, hhost, hrest, Written.after, Line.written, String.ofList_append,
      String.append_assoc]

/-- A plain script in the host language alone is converted into itself, behind the line that makes the
function known. -/
theorem convert_plain (style : Style) (cs : List Char) (hplain : Plain cs) (hfeed : EndsInFeed cs)
    (hread : (lines cs).complaint = none) (hmode : ∀ line ∈ (lines cs).lines, line.mode = .host) :
    convert { style with signature := false } cs =
      { text := "import pysh.shell.runner\n" ++ String.ofList cs } := by
  unfold convert
  dsimp only
  rw [hread, Option.map_none, writeLines_host hmode, rejoin_lines hplain hfeed hread hmode]
  simp [Written.after, importText]

/-- A literal over two lines, quotes inside of quotes, an empty line, blanks and a form feed. -/
theorem convert_plain_condition :
    let script := "if a:\n\tb = '''x\n > \"y'''\n\n    c = \"it's\" \x0b\n\x0c\n".toList
    (Plain script ∧ EndsInFeed script ∧ (lines script).complaint = none ∧
      (∀ line ∈ (lines script).lines, line.mode = .host) ∧ (lines script).lines.length = 5) ∧
    convert {} script = { text := "import pysh.shell.runner\n" ++ String.ofList script } :=
  ⟨by decide +kernel, convert_plain {} _ (by decide +kernel) (by decide +kernel) (by decide +kernel)
    (by decide +kernel)⟩

end ValueShell.Script
