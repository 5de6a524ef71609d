import Mathlib.Data.List.Infix
import ValueShell.Proofs.Command.Lexing
import ValueShell.Script.Line

/-!
# String literals of scripts and of command lines

The same string literal is read twice: when a script is cut into lines (`literal`), and when a command
line is cut into tokens (`Token.cutString`). On one line both stop at the same quote. Between three
quotes they need not: a script counts quotes up to three and does not start to count again at an escape,
so that `"""a"\b"""` is over before its last quote. In general a script takes the beginning of the
string, and the two agree exactly for the strings that do not close early.
-/

set_option autoImplicit false

namespace ValueShell

open Text

/-! ## Strings over several lines -/

namespace Text

/-- Characters that were read belong to the first line. -/
theorem exists_linesFrom_cons {line : List Char} (hline : line ≠ []) (cs : List Char) :
    ∃ more others, linesFrom line cs = (line.reverse ++ more) :: others ∧
      cs = more ++ others.flatten := by
  induction cs generalizing line with
  | nil => exact ⟨[], [], by simp [linesFrom, hline], rfl⟩
  | cons c rest ih =>
    by_cases hfeed : c = '\n'
    · refine ⟨['\n'], linesFrom [] rest, ?_, ?_⟩
      · simp [linesFrom, hfeed]
      · simp [hfeed, flatten_linesFrom]
    · obtain ⟨more, others, hlines, hrest⟩ := ih (List.cons_ne_nil c line)
      refine ⟨c :: more, others, ?_, ?_⟩
      · simp [linesFrom, hfeed, hlines]
      · simp [hrest]

/-- What has no line feed stands on the first line. -/
theorem exists_lines_append {front : List Char} (hne : front ≠ []) (hfront : '\n' ∉ front)
    (cs : List Char) :
    ∃ line others, lines (front ++ cs) = (front ++ line) :: others ∧ cs = line ++ others.flatten := by
  have hlines := exists_linesFrom_cons (List.reverse_ne_nil_iff.mpr hne) cs
  rw [lines, linesFrom_append hfront, List.append_nil]
  simpa using hlines

/-- Every line but the last ends in a line feed. -/
theorem getLast?_of_mem_dropLast_linesFrom {line cs l : List Char}
    (h : l ∈ (linesFrom line cs).dropLast) : l.getLast? = some '\n' := by
  induction cs generalizing line with
  | nil =>
    unfold linesFrom at h
    split at h <;> cases h
  | cons c rest ih =>
    unfold linesFrom at h
    split at h
    · cases hothers : linesFrom [] rest with
      | nil =>
        rw [hothers] at h
        cases h
      | cons first others =>
        rw [hothers, List.dropLast_cons_cons] at h
        rcases List.mem_cons.mp h with rfl | h
        · simp
        · have hmem : l ∈ (linesFrom [] rest).dropLast := by rwa [hothers]
          exact ih hmem
    · exact ih h

end Text

namespace Fragment

variable {q : Char} {cs piece left line more : List Char}

/-- The string between three quotes that goes on at the head of a text ends after `piece`. -/
inductive Closing (q : Char) : List Char → List Char → List Char → Prop
  | quotes (left : List Char) : Closing q (q :: q :: q :: left) [q, q, q] left
  | quote {cs piece left : List Char} : ¬ [q, q] <+: cs → Closing q cs piece left →
      Closing q (q :: cs) (q :: piece) left
  | escape {c : Char} {cs piece left : List Char} : c ≠ '\n' → Closing q cs piece left →
      Closing q ('\\' :: c :: cs) ('\\' :: c :: piece) left
  | plain {c : Char} {cs piece left : List Char} : c ≠ '\\' → c ≠ q → Closing q cs piece left →
      Closing q (c :: cs) (c :: piece) left

theorem closing_of_close? (h : close? q true cs = some (piece, left)) : Closing q cs piece left := by
  fun_induction close? q true cs generalizing piece left with
  | case1 => cases h
  | case2 => cases h
  | case3 c rest hc ih =>
    obtain ⟨⟨piece', left'⟩, hread, heq⟩ := Option.map_eq_some_iff.mp h
    cases heq
    exact .escape hc (ih hread)
  | case4 => cases h
  | case5 => contradiction
  | case6 rest _ hquotes =>
    cases h
    obtain ⟨others, rfl⟩ := List.isPrefixOf_iff_prefix.mp hquotes
    exact .quotes others
  | case7 rest _ hquotes _ _ ih =>
    obtain ⟨⟨piece', left'⟩, hread, heq⟩ := Option.map_eq_some_iff.mp h
    cases heq
    rw [List.isPrefixOf_iff_prefix] at hquotes
    exact .quote hquotes (ih hread)
  | case8 c rest _ hslash hquote ih =>
    obtain ⟨⟨piece', left'⟩, hread, heq⟩ := Option.map_eq_some_iff.mp h
    cases heq
    exact .plain hslash hquote (ih hread)

theorem Closing.text (h : Closing q cs piece left) : cs = piece ++ left := by
  induction h with
  | quotes left => rfl
  | quote _ _ ih => rw [ih, List.cons_append]
  | escape _ _ ih => rw [ih, List.cons_append, List.cons_append]
  | plain _ _ _ ih => rw [ih, List.cons_append]

theorem Closing.three_le (h : Closing q cs piece left) : 3 ≤ piece.length := by
  induction h with
  | quotes => rfl
  | quote _ _ ih => simp only [List.length_cons]; omega
  | escape _ _ ih => simp only [List.length_cons]; omega
  | plain _ _ _ ih => simp only [List.length_cons]; omega

theorem Closing.ne_nil (h : Closing q cs piece left) : piece ≠ [] := by
  have hlength := h.three_le
  rintro rfl
  simp at hlength

/-- A string that ends in a text ends there too when more follows. -/
theorem Closing.append (h : Closing q cs piece left) (more : List Char) :
    Closing q (cs ++ more) piece (left ++ more) := by
  induction h with
  | quotes left => exact .quotes (left ++ more)
  | @quote cs piece left hquotes hrest ih =>
    have hlength : [q, q].length ≤ cs.length := by
      have hthree := hrest.three_le
      simp only [hrest.text, List.length_append, List.length_cons, List.length_nil]
      omega
    exact .quote (fun hbegins => hquotes
      (List.prefix_of_prefix_length_le hbegins (List.prefix_append cs more) hlength)) ih
  | escape hc _ ih => exact .escape hc ih
  | plain hslash hquote _ ih => exact .plain hslash hquote ih

theorem getLast?_of_cons {c : Char} (hc : c ≠ '\n') (h : (c :: cs).getLast? = some '\n') :
    cs.getLast? = some '\n' := by
  cases cs with
  | nil =>
    cases h
    contradiction
  | cons d rest => rwa [List.getLast?_cons_cons] at h

/-- A string that does not end in a line goes on in the next one. -/
theorem Closing.of_line (hq : q ≠ '\n') (hlast : line.getLast? = some '\n')
    (hjoin : ¬ ['\\', '\n'] <:+: line) (hline : close? q true line = none)
    (h : Closing q more piece left) : Closing q (line ++ more) (line ++ piece) left := by
  fun_induction close? q true line with
  | case1 => cases hlast
  | case2 rest => exact absurd ⟨[], rest, rfl⟩ hjoin
  | case3 c rest hc ih =>
    have hrest := getLast?_of_cons hc (getLast?_of_cons (by decide) hlast)
    refine .escape hc (ih hrest (fun hwithin => hjoin ?_) (Option.map_eq_none_iff.mp hline))
    exact (hwithin.trans (List.suffix_cons c rest).isInfix).trans (List.suffix_cons _ _).isInfix
  | case4 rest hpair =>
    cases rest with
    | nil => exact absurd (Option.some.inj hlast) (by decide)
    | cons c rest => exact absurd rfl (hpair c rest rfl)
  | case5 => contradiction
  | case6 rest _ hquotes => cases hline
  | case7 rest _ hquotes _ _ ih =>
    have hrest := getLast?_of_cons hq hlast
    refine .quote (fun hbegins => hquotes ?_) (ih hrest (fun hwithin => hjoin ?_)
      (Option.map_eq_none_iff.mp hline))
    · -- the two quotes stand before the line feed at the end of the line
      rw [List.isPrefixOf_iff_prefix]
      refine List.prefix_of_prefix_length_le hbegins (List.prefix_append rest more) ?_
      rcases rest with _ | ⟨d, _ | ⟨e, rest⟩⟩
      · cases hrest
      · cases hrest
        exact absurd (List.cons_prefix_cons.mp hbegins).1 hq
      · simp
    · exact hwithin.trans (List.suffix_cons q rest).isInfix
  | case8 c rest _ hslash hquote ih =>
    cases rest with
    | nil => exact .plain hslash hquote h
    | cons d rest =>
      rw [List.getLast?_cons_cons] at hlast
      refine .plain hslash hquote (ih hlast (fun hwithin => hjoin ?_) (Option.map_eq_none_iff.mp hline))
      exact hwithin.trans (List.suffix_cons c _).isInfix

/-- A string between three quotes that is open ends where it ends in the lines put together. -/
theorem closing_of_scanLines {s : State} {o : Open} {f : Fragment} {fs : List Fragment}
    (hopen : s.open? = some o) (hlong : o.long = true) (hstrict : s.strict = false)
    (hquote : o.quote ≠ '\n') (number : Nat) (last : List Char) {ls : List (List Char)}
    (hfed : ∀ l ∈ ls.dropLast, l.getLast? = some '\n') (hjoin : ¬ ['\\', '\n'] <:+: ls.flatten)
    (h : (scanLines number last s ls).fragments = f :: fs) :
    ∃ piece left, Closing o.quote ls.flatten piece left ∧ f.text = o.text ++ piece := by
  induction ls generalizing s o number last with
  | nil =>
    rw [scanLines] at h
    simp [hopen] at h
  | cons line rest ih =>
    rw [List.flatten_cons] at hjoin
    rw [scanLines] at h
    simp only [hopen, hlong, hstrict, Bool.false_and, Bool.false_eq_true, if_false] at h
    split at h
    · rename_i piece left hclose
      simp only [Scan.after, List.cons_append, List.cons.injEq] at h
      refine ⟨piece, left ++ rest.flatten, ?_, ?_⟩
      · exact (closing_of_close? hclose).append rest.flatten
      · rw [← h.1]
    · rename_i hclose
      cases rest with
      | nil =>
        rw [scanLines] at h
        simp at h
      | cons next others =>
        rw [List.dropLast_cons_cons] at hfed
        have hrest : ¬ ['\\', '\n'] <:+: (next :: others).flatten := fun hwithin =>
          hjoin (hwithin.trans (List.suffix_append line _).isInfix)
        have hline : ¬ ['\\', '\n'] <:+: line := fun hwithin =>
          hjoin (hwithin.trans (List.prefix_append line _).isInfix)
        obtain ⟨piece, left, hclosing, htext⟩ := ih (o := ⟨o.text ++ line, o.start, o.quote, true⟩) rfl
          rfl rfl hquote _ _ (fun l hl => hfed l (List.mem_cons_of_mem line hl)) hrest h
        refine ⟨line ++ piece, left, ?_, ?_⟩
        · exact hclosing.of_line hquote (hfed line List.mem_cons_self) hline hclose
        · rw [htext, List.append_assoc]

end Fragment

/-! ## The string at the head of a text -/

namespace Fragment

variable {q : Char} {cs rest : List Char}

/-- A string between three quotes. -/
theorem first_long {f : Fragment} (hq : q = apostrophe ∨ q = doubleQuote)
    (hjoin : ¬ ['\\', '\n'] <:+: cs) (h : first (q :: q :: q :: cs) = .ok f) :
    ∃ piece left, Closing q cs piece left ∧ f.text = q :: q :: q :: piece := by
  have hfeed : q ≠ '\n' := by rcases hq with rfl | rfl <;> decide
  have hgap := isGap_quote hq
  obtain ⟨fs, hfs⟩ := exists_fragments_of_first h
  obtain ⟨line, others, hlines, -, hscan⟩ := scan_quote hq (q :: q :: cs)
  have hquotes : '\n' ∉ [q, q, q] := by simp [Ne.symm hfeed]
  obtain ⟨line', others', hlines', hcs⟩ := exists_lines_append (List.cons_ne_nil q _) hquotes cs
  have heq := hlines.symm.trans hlines'
  simp only [List.cons_append, List.nil_append, List.cons.injEq, true_and] at heq
  obtain ⟨rfl, rfl⟩ := heq
  have hpiece := piece?_long hq line'
  rw [hscan, Scan.after, scanLine] at hfs
  cases hclose : close? q true line' with
  | some cut =>
    rw [hclose] at hpiece
    simp [hgap, hpiece, after] at hfs
    refine ⟨cut.1, cut.2 ++ others.flatten, ?_, ?_⟩
    · rw [hcs]
      exact (closing_of_close? hclose).append others.flatten
    · rw [← hfs.1]
  | none =>
    rw [hclose] at hpiece
    simp [hgap, hpiece] at hfs
    cases others with
    | nil =>
      rw [scanLines] at hfs
      simp at hfs
    | cons next others =>
      have hfed : ∀ l ∈ (q :: q :: q :: line') :: (next :: others).dropLast, l.getLast? = some '\n' := by
        intro l hl
        have hmem : l ∈ (linesFrom [] (q :: q :: q :: cs)).dropLast := by
          change l ∈ (lines (q :: q :: q :: cs)).dropLast
          rwa [hlines, List.dropLast_cons_cons]
        exact getLast?_of_mem_dropLast_linesFrom hmem
      rw [hcs] at hjoin
      have hrest : ¬ ['\\', '\n'] <:+: (next :: others).flatten := fun hwithin =>
        hjoin (hwithin.trans (List.suffix_append line' _).isInfix)
      have hline : ¬ ['\\', '\n'] <:+: line' := fun hwithin =>
        hjoin (hwithin.trans (List.prefix_append line' _).isInfix)
      have hlast := getLast?_of_cons hfeed (getLast?_of_cons hfeed (getLast?_of_cons hfeed
        (hfed _ List.mem_cons_self)))
      obtain ⟨piece, left, hclosing, htext⟩ := closing_of_scanLines rfl rfl rfl hfeed _ _
        (fun l hl => hfed l (List.mem_cons_of_mem _ hl)) hrest hfs
      refine ⟨line' ++ piece, left, ?_, ?_⟩
      · rw [hcs]
        exact hclosing.of_line hfeed hlast hline hclose
      · simpa using htext

theorem getLast?_after {head : List Char} {cut : Cut} (hne : cut.1 ≠ []) :
    (after head cut).1.getLast? = cut.1.getLast? := by
  obtain ⟨c, hc⟩ := Option.isSome_iff_exists.mp (List.getLast?_isSome.mpr hne)
  rw [after, List.getLast?_append, hc, Option.some_or]

/-- Only a backslash before the end of a line continues a string on one line. -/
theorem getLast?_of_shortBody? {piece left : List Char} (hq : q ≠ '\n') (hreturn : '\r' ∉ cs)
    (hjoin : ¬ ['\\', '\n'] <:+: cs) (h : shortBody? q cs = some (piece, left)) :
    piece.getLast? ≠ some '\n' := by
  fun_induction shortBody? q cs generalizing piece left with
  | case1 => cases h
  | case2 rest => exact absurd ⟨[], rest, rfl⟩ hjoin
  | case3 rest => simp at hreturn
  | case4 c rest _ _ ih =>
    obtain ⟨cut, hread, heq⟩ := Option.map_eq_some_iff.mp h
    have hne := (append_of_shortBody? hread).1
    have hrest : ¬ ['\\', '\n'] <:+: rest := fun hwithin =>
      hjoin ((hwithin.trans (List.suffix_cons c rest).isInfix).trans (List.suffix_cons _ _).isInfix)
    have hlast := ih (fun hmem => hreturn (by simp [hmem])) hrest hread
    rwa [← getLast?_after hne, heq] at hlast
  | case5 rest =>
    cases h
    simpa using hq
  | case6 => cases h
  | case7 c rest _ _ _ _ _ ih =>
    obtain ⟨cut, hread, heq⟩ := Option.map_eq_some_iff.mp h
    have hne := (append_of_shortBody? hread).1
    have hrest : ¬ ['\\', '\n'] <:+: rest := fun hwithin =>
      hjoin (hwithin.trans (List.suffix_cons c rest).isInfix)
    have hlast := ih (fun hmem => hreturn (by simp [hmem])) hrest hread
    rwa [← getLast?_after hne, heq] at hlast

/-- A string on one line: it is what stands at the head of its line, up to the closing quote. -/
theorem first_short {f : Fragment} (hq : q = apostrophe ∨ q = doubleQuote) (hshort : ¬ [q, q] <+: cs)
    (hreturn : '\r' ∉ cs) (hjoin : ¬ ['\\', '\n'] <:+: cs) (h : first (q :: cs) = .ok f)
    (hf : f.kind = .string) :
    ∃ line more piece left, cs = line ++ more ∧ shortBody? q line = some (piece, left) ∧
      piece.getLast? ≠ some '\n' ∧ f.text = q :: piece := by
  have hgap := isGap_quote hq
  have hfeed : q ≠ '\n' := by rcases hq with rfl | rfl <;> decide
  obtain ⟨fs, hfs⟩ := exists_fragments_of_first h
  obtain ⟨line, others, -, rfl, hscan⟩ := scan_quote hq cs
  have hline : ¬ [q, q] <+: line := fun hbegins =>
    hshort (hbegins.trans (List.prefix_append line others.flatten))
  have hpiece := piece?_short hq hline
  rw [hscan, Scan.after, scanLine] at hfs
  cases hbody : shortBody? q line with
  | none =>
    rw [hbody] at hpiece
    simp [hgap, hpiece] at hfs
    rw [← hfs.1] at hf
    cases hf
  | some cut =>
    have hlast : cut.1.getLast? ≠ some '\n' := getLast?_of_shortBody? hfeed
      (fun hmem => hreturn (List.mem_append_left _ hmem))
      (fun hwithin => hjoin (hwithin.trans (List.prefix_append line _).isInfix)) hbody
    rw [hbody, Option.map_some, if_neg hlast] at hpiece
    simp [hgap, hpiece, after] at hfs
    exact ⟨line, others.flatten, cut.1, cut.2, rfl, hbody, hlast, by rw [← hfs.1]⟩

end Fragment

/-! ## The literal of a script -/

namespace Script

open Fragment

variable {q c : Char} {cs piece left : List Char}

theorem shortLiteral_escape (hfeed : c ≠ '\n') (hreturn : c ≠ '\r') :
    shortLiteral q ('\\' :: c :: cs) = withHead ['\\', c] (shortLiteral q cs) := by
  rw [shortLiteral]
  · exact fun heq => hfeed heq
  · exact fun _ heq _ => hreturn heq
  · exact fun heq => hreturn heq

theorem shortLiteral_plain (hslash : c ≠ '\\') (hfeed : c ≠ '\n') (hreturn : c ≠ '\r') :
    shortLiteral q (c :: cs) = if c = q then .ok ([c], cs) else withHead [c] (shortLiteral q cs) := by
  rw [shortLiteral]
  · simp [shortLiteral.isLineEnd, hslash, hfeed, hreturn]
  all_goals simp [hslash]

theorem longLiteral_escape (count : Nat) (hfeed : c ≠ '\n') (hreturn : c ≠ '\r') :
    longLiteral q count ('\\' :: c :: cs) = withHead ['\\', c] (longLiteral q count cs) := by
  rw [longLiteral]
  · exact fun heq => hfeed heq
  · exact fun _ heq _ => hreturn heq
  · exact fun heq => hreturn heq

theorem longLiteral_quote (count : Nat) (hslash : q ≠ '\\') :
    longLiteral q count (q :: cs) =
      if count ≥ 2 then .ok ([q], cs) else withHead [q] (longLiteral q (count + 1) cs) := by
  rw [longLiteral]
  · rw [if_pos rfl]
  all_goals simp [hslash]

theorem longLiteral_plain (count : Nat) (hslash : c ≠ '\\') (hquote : c ≠ q) :
    longLiteral q count (c :: cs) = withHead [c] (longLiteral q 0 cs) := by
  rw [longLiteral]
  · rw [if_neg hquote, if_neg hslash]
  all_goals simp [hslash]

theorem shortLiteral_of_shortBody? (hq : q ≠ '\n' ∧ q ≠ '\\' ∧ q ≠ '\r') (hreturn : '\r' ∉ cs)
    (h : shortBody? q cs = some (piece, left)) (hlast : piece.getLast? ≠ some '\n') (more : List Char) :
    shortLiteral q (cs ++ more) = .ok (piece, left ++ more) := by
  fun_induction shortBody? q cs generalizing piece left with
  | case1 => cases h
  | case2 =>
    cases h
    exact absurd rfl hlast
  | case3 =>
    cases h
    exact absurd rfl hlast
  | case4 c rest hfeed hpair ih =>
    obtain ⟨cut, hread, heq⟩ := Option.map_eq_some_iff.mp h
    rw [List.mem_cons, List.mem_cons, not_or, not_or] at hreturn
    rw [show piece = (after ['\\', c] cut).1 by rw [heq],
      getLast?_after (append_of_shortBody? hread).1] at hlast
    have hrest := ih hreturn.2.2 hread hlast
    cases heq
    rw [List.cons_append, List.cons_append,
      shortLiteral_escape (fun heq => hfeed heq) (Ne.symm hreturn.2.1), hrest]
    rfl
  | case5 rest =>
    cases h
    rw [List.cons_append, shortLiteral_plain hq.2.1 hq.1 hq.2.2, if_pos rfl]
  | case6 => cases h
  | case7 c rest _ _ _ hquote hplain ih =>
    obtain ⟨cut, hread, heq⟩ := Option.map_eq_some_iff.mp h
    rw [List.mem_cons, not_or] at hreturn
    rw [show piece = (after [c] cut).1 by rw [heq],
      getLast?_after (append_of_shortBody? hread).1] at hlast
    have hrest := ih hreturn.2 hread hlast
    simp only [Bool.or_eq_true, decide_eq_true_eq, not_or] at hplain
    cases heq
    rw [List.cons_append, shortLiteral_plain hplain.2 hplain.1 (Ne.symm hreturn.1), if_neg hquote, hrest]
    rfl

/-- A text without its escapes: each backslash is dropped together with the character after it. -/
def unescaped : List Char → List Char
  | [] => []
  | '\\' :: _ :: rest => unescaped rest
  | c :: rest => c :: unescaped rest

theorem unescaped_cons (hslash : c ≠ '\\') : unescaped (c :: cs) = c :: unescaped cs := by
  rw [unescaped]
  simp [hslash]

/-- Quotes that stand before another character do not count with those after it. -/
theorem triple_infix_cons {count : Nat} (hcount : count ≤ 2) (hquote : c ≠ q) :
    [q, q, q] <:+: List.replicate count q ++ c :: cs ↔ [q, q, q] <:+: cs := by
  have hne : ∀ {xs ys : List Char}, q :: xs <+: c :: ys ↔ False := by
    intro xs ys
    simp [List.cons_prefix_cons, Ne.symm hquote]
  match count, hcount with
  | 0, _ => simp [List.infix_cons_iff, hne]
  | 1, _ => simp [List.replicate, List.infix_cons_iff, List.cons_prefix_cons, hne]
  | 2, _ => simp [List.replicate, List.infix_cons_iff, List.cons_prefix_cons, hne]

/-- A script takes the beginning of a string between three quotes. It takes all of it unless three quotes
stand together before the last one, `count` quotes before the text and no escapes counted. -/
theorem longLiteral_of_closing (hq : q ≠ '\\') (hreturn : '\r' ∉ cs) (h : Closing q cs piece left)
    {count : Nat} (hcount : count ≤ 2) :
    ∃ taken others, taken ++ others = piece ∧ longLiteral q count cs = .ok (taken, others ++ left) ∧
      (others = [] ↔ ¬ [q, q, q] <:+: List.replicate count q ++ unescaped piece.dropLast) := by
  induction h generalizing count with
  | quotes left =>
    have htwo : unescaped [q, q, q].dropLast = [q, q] := by
      simp [unescaped_cons hq, unescaped]
    rw [htwo]
    match count, hcount with
    | 0, _ =>
      refine ⟨[q, q, q], [], rfl, ?_, ?_⟩
      · simp [longLiteral_quote _ hq, withHead, Except.map]
      · simp [List.infix_cons_iff, List.cons_prefix_cons]
    | 1, _ =>
      refine ⟨[q, q], [q], rfl, ?_, ?_⟩
      · simp [longLiteral_quote _ hq, withHead, Except.map]
      · simp [List.replicate]
    | 2, _ =>
      refine ⟨[q], [q, q], rfl, ?_, ?_⟩
      · simp [longLiteral_quote _ hq]
      · simp [List.replicate, List.infix_cons_iff, List.cons_prefix_cons]
  | @quote cs piece left _ hrest ih =>
    rw [List.mem_cons, not_or] at hreturn
    have hpiece : (q :: piece).dropLast = q :: piece.dropLast :=
      List.dropLast_cons_of_ne_nil hrest.ne_nil
    by_cases htwo : count = 2
    · refine ⟨[q], piece, rfl, ?_, ?_⟩
      · rw [longLiteral_quote count hq, if_pos (by omega), hrest.text]
      · rw [hpiece, unescaped_cons hq, htwo]
        have hthird : [q, q, q] <:+: List.replicate 2 q ++ q :: unescaped piece.dropLast :=
          (List.prefix_append [q, q, q] _).isInfix
        exact iff_of_false hrest.ne_nil (not_not_intro hthird)
    · obtain ⟨taken, others, htaken, hliteral, hothers⟩ := ih hreturn.2 (show count + 1 ≤ 2 by omega)
      refine ⟨q :: taken, others, by rw [List.cons_append, htaken], ?_, ?_⟩
      · rw [longLiteral_quote count hq, if_neg (by omega), hliteral]
        rfl
      · rw [hothers, hpiece, unescaped_cons hq, List.replicate_succ']
        simp
  | @escape c cs piece left hfeed hrest ih =>
    rw [List.mem_cons, List.mem_cons, not_or, not_or] at hreturn
    obtain ⟨taken, others, htaken, hliteral, hothers⟩ := ih hreturn.2.2 hcount
    refine ⟨'\\' :: c :: taken, others, by rw [← htaken]; rfl, ?_, ?_⟩
    · rw [longLiteral_escape count hfeed (Ne.symm hreturn.2.1), hliteral]
      rfl
    · rw [hothers, List.dropLast_cons_of_ne_nil (List.cons_ne_nil c piece),
        List.dropLast_cons_of_ne_nil hrest.ne_nil, unescaped]
  | @plain c cs piece left hslash hquote hrest ih =>
    rw [List.mem_cons, not_or] at hreturn
    obtain ⟨taken, others, htaken, hliteral, hothers⟩ := ih hreturn.2 (Nat.zero_le 2)
    refine ⟨c :: taken, others, by rw [List.cons_append, htaken], ?_, ?_⟩
    · rw [longLiteral_plain count hslash hquote, hliteral]
      rfl
    · rw [hothers, List.dropLast_cons_of_ne_nil hrest.ne_nil, unescaped_cons hslash,
        triple_infix_cons hcount hquote]
      rfl

/-- The text is a string between three quotes, and with its escapes left out three quotes stand together
before its last quote. -/
def ClosesEarly (q : Char) (s : List Char) : Prop :=
  [q, q, q] <+: s ∧ [q, q, q] <:+: unescaped (s.drop 3).dropLast

instance (q : Char) (s : List Char) : Decidable (ClosesEarly q s) := inferInstanceAs (Decidable (_ ∧ _))

theorem literal_short {line more : List Char} (hq : q = apostrophe ∨ q = doubleQuote)
    (hshort : ¬ [q, q] <+: line ++ more) (hreturn : '\r' ∉ line)
    (h : shortBody? q line = some (piece, left)) (hlast : piece.getLast? ≠ some '\n') :
    literal q (line ++ more) = .ok (q :: piece, left ++ more) := by
  have hplain : q ≠ '\n' ∧ q ≠ '\\' ∧ q ≠ '\r' := by rcases hq with rfl | rfl <;> decide
  have hliteral := shortLiteral_of_shortBody? hplain hreturn h hlast more
  cases line with
  | nil => cases h
  | cons c rest =>
    rw [List.cons_append] at hshort hliteral ⊢
    by_cases hc : c = q
    · -- an empty string
      subst hc
      rw [shortLiteral_plain hplain.2.1 hplain.1 hplain.2.2, if_pos rfl, Except.ok.injEq,
        Prod.mk.injEq] at hliteral
      obtain ⟨rfl, hleft⟩ := hliteral
      rw [List.cons_prefix_cons, not_and] at hshort
      rw [← hleft]
      cases hrest : rest ++ more with
      | nil => simp [literal]
      | cons d after =>
        have hd : d ≠ c := by
          rintro rfl
          exact hshort rfl (hrest ▸ List.prefix_append [d] after)
        simp [literal, hd]
    · unfold literal
      simp only [ne_eq, hc, not_false_eq_true, if_true, hliteral]
      rfl

theorem literal_long (hq : q = apostrophe ∨ q = doubleQuote) (hreturn : '\r' ∉ cs)
    (h : Closing q cs piece left) :
    ∃ taken others, taken ++ others = q :: q :: q :: piece ∧
      literal q (q :: q :: cs) = .ok (taken, others ++ left) ∧
      (others = [] ↔ ¬ ClosesEarly q (q :: q :: q :: piece)) := by
  have hslash : q ≠ '\\' := by rcases hq with rfl | rfl <;> decide
  obtain ⟨taken, others, rfl, hliteral, hothers⟩ :=
    longLiteral_of_closing hslash hreturn h (Nat.zero_le 2)
  refine ⟨q :: q :: q :: taken, others, rfl, ?_, ?_⟩
  · simp [literal, hliteral, withHead, Except.map]
  · rw [hothers]
    simp [ClosesEarly]

/-- A text that begins with a quote, without carriage returns and without backslashes at the ends of
lines, and at whose head a command line has a string. A script takes this string and stops behind it if
and only if the string does not close early; in any case it takes a beginning of the string. -/
theorem literal_iff_not_closesEarly {kind : TokenKind} {s : List Char} (hreturn : '\r' ∉ q :: cs)
    (hjoin : ¬ ['\\', '\n'] <:+: q :: cs) (h : Token.cutString (q :: cs) = .ok (some (kind, s, left))) :
    (literal q cs = .ok (s, left) ↔ ¬ ClosesEarly q s) ∧
      ∃ taken others, taken ++ others = s ∧ literal q cs = .ok (taken, others ++ left) := by
  obtain ⟨_, _, f, heq, hkind, hfirst, hstring, rfl, rfl⟩ := Token.exists_first_of_cutString h
  cases heq
  have hq : q = apostrophe ∨ q = doubleQuote := hkind.imp And.left And.left
  rw [List.mem_cons, not_or] at hreturn
  have hrest : ¬ ['\\', '\n'] <:+: cs := fun hwithin =>
    hjoin (hwithin.trans (List.suffix_cons q cs).isInfix)
  have hread : ∃ taken others, taken ++ others = f.text ∧
      literal q cs = .ok (taken, others ++ (q :: cs).drop f.text.length) ∧
      (others = [] ↔ ¬ ClosesEarly q f.text) := by
    by_cases hlong : [q, q] <+: cs
    · obtain ⟨body, rfl⟩ := hlong
      have hbody : ¬ ['\\', '\n'] <:+: body := fun hwithin =>
        hrest (hwithin.trans (List.suffix_append [q, q] body).isInfix)
      obtain ⟨piece, left, hclosing, htext⟩ := first_long hq hbody hfirst
      have hleft : (q :: ([q, q] ++ body)).drop f.text.length = left := by
        rw [htext, hclosing.text]
        simp
      rw [hleft, htext]
      exact literal_long hq (fun hmem => hreturn.2 (List.mem_append_right [q, q] hmem)) hclosing
    · obtain ⟨line, more, piece, left, rfl, hbody, hlast, htext⟩ :=
        first_short hq hlong hreturn.2 hrest hfirst hstring
      have hline := (append_of_shortBody? hbody).2
      have hleft : (q :: (line ++ more)).drop f.text.length = left ++ more := by
        rw [htext, hline]
        simp
      have hshort : ¬ [q, q, q] <+: q :: piece := by
        rw [List.cons_prefix_cons, not_and]
        intro _ hpiece
        rw [hline, List.append_assoc] at hlong
        exact hlong (hpiece.trans (List.prefix_append piece _))
      refine ⟨q :: piece, [], by rw [htext, List.append_nil], ?_, ?_⟩
      · rw [hleft]
        exact literal_short hq hlong (fun hmem => hreturn.2 (List.mem_append_left more hmem)) hbody hlast
      · rw [htext]
        exact iff_of_true rfl fun hearly => hshort hearly.1
  obtain ⟨taken, others, htaken, hliteral, hothers⟩ := hread
  refine ⟨?_, taken, others, htaken, hliteral⟩
  rw [hliteral, ← hothers, ← htaken]
  simp

/-- A string over two lines, with a quote, an escaped backslash and an escaped quote inside. -/
theorem literal_document :
    let text := "\"\"a\"b\\\\\"\nc\\\"d\"\"\" e".toList
    let s := doubleQuote :: "\"\"a\"b\\\\\"\nc\\\"d\"\"\"".toList
    let left := " e".toList
    ('\r' ∉ doubleQuote :: text ∧ ¬ ['\\', '\n'] <:+: doubleQuote :: text ∧
      Token.cutString (doubleQuote :: text) = .ok (some (.doubleQuoted, s, left)) ∧
      ¬ ClosesEarly doubleQuote s) ∧
    literal doubleQuote text = .ok (s, left) := by
  have hread : Token.cutString (doubleQuote :: "\"\"a\"b\\\\\"\nc\\\"d\"\"\" e".toList) =
      .ok (some (.doubleQuoted, doubleQuote :: "\"\"a\"b\\\\\"\nc\\\"d\"\"\"".toList, " e".toList)) := by
    decide +kernel
  have hearly : ¬ ClosesEarly doubleQuote (doubleQuote :: "\"\"a\"b\\\\\"\nc\\\"d\"\"\"".toList) := by
    decide +kernel
  exact ⟨⟨by decide +kernel, by decide +kernel, hread, hearly⟩,
    (literal_iff_not_closesEarly (by decide +kernel) (by decide +kernel) hread).1.mpr hearly⟩

/-- A script ends the string one quote early: an escape does not start the count of quotes again. -/
theorem literal_closes_early :
    let text := "\"\"a\"\\b\"\"\"".toList
    '\r' ∉ doubleQuote :: text ∧ ¬ ['\\', '\n'] <:+: doubleQuote :: text ∧
      Token.cutString (doubleQuote :: text) = .ok (some (.doubleQuoted, doubleQuote :: text, [])) ∧
      literal doubleQuote text = .ok (doubleQuote :: text.dropLast, [doubleQuote]) := by
  decide +kernel

end Script

end ValueShell
