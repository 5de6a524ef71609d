import ValueShell.Proofs.Script.Literal

/-!
# What follows a string

A string that is read first ends at its closing quote, whatever follows. The line on which it ends can be
replaced from there on, and so can all lines after it: `first_append` says that the same string is read
first then. Only the empty string between two quotes has to be followed by something else than a third
one.
-/

set_option autoImplicit false

namespace ValueShell

variable {c : Char} {line : List Char} {others : List (List Char)} {f : Fragment} {fs : List Fragment}

namespace Text

/-- The lines of a text that does not end in a line feed, up to the last, which goes on with what
follows. -/
theorem exists_linesFrom_append (line : List Char) {cs : List Char} (hne : cs = [] → line ≠ [])
    (hlast : cs.getLast? ≠ some '\n') :
    ∃ ls p, p ≠ [] ∧ line.reverse ++ cs = ls.flatten ++ p ∧ ∀ rest, ∃ more others,
      linesFrom line (cs ++ rest) = ls ++ (p ++ more) :: others ∧ rest = more ++ others.flatten := by
  induction cs generalizing line with
  | nil =>
    refine ⟨[], line.reverse, by simpa using hne rfl, by simp, fun rest => ?_⟩
    exact exists_linesFrom_cons (hne rfl) rest
  | cons c cs ih =>
    have htail : cs.getLast? ≠ some '\n' := by
      intro htail
      cases cs with
      | nil => cases htail
      | cons d cs => exact hlast (by rw [List.getLast?_cons_cons, htail])
    by_cases hfeed : c = '\n'
    · subst hfeed
      have hcs : cs ≠ [] := by
        rintro rfl
        exact hlast rfl
      obtain ⟨ls, p, hp, hflat, hlines⟩ := ih [] (fun h => absurd h hcs) htail
      refine ⟨(line.reverse ++ ['\n']) :: ls, p, hp, ?_, fun rest => ?_⟩
      · rw [List.reverse_nil, List.nil_append] at hflat
        rw [hflat]
        simp
      · obtain ⟨more, others, heq, hrest⟩ := hlines rest
        refine ⟨more, others, ?_, hrest⟩
        rw [List.cons_append, linesFrom, if_pos (beq_self_eq_true _), heq]
        simp
    · obtain ⟨ls, p, hp, hflat, hlines⟩ := ih (c :: line) (fun _ => List.cons_ne_nil _ _) htail
      refine ⟨ls, p, hp, ?_, fun rest => ?_⟩
      · rw [← hflat]
        simp
      · obtain ⟨more, others, heq, hrest⟩ := hlines rest
        refine ⟨more, others, ?_, hrest⟩
        rw [List.cons_append, linesFrom, if_neg (by simpa using hfeed), heq]

theorem exists_lines_of_getLast? {cs : List Char} (hne : cs ≠ []) (hlast : cs.getLast? ≠ some '\n') :
    ∃ ls p, p ≠ [] ∧ cs = ls.flatten ++ p ∧ ∀ rest, ∃ more others,
      lines (cs ++ rest) = ls ++ (p ++ more) :: others ∧ rest = more ++ others.flatten :=
  exists_linesFrom_append [] (fun hnil => absurd hnil hne) hlast

end Text

namespace Fragment

open Text

variable {q : Char} {cs piece left : List Char}

/-! ## The closing quote -/

theorem eq_after {read : Option Cut} {head : List Char} (h : read.map (after head) = some (piece, left)) :
    ∃ piece', read = some (piece', left) ∧ piece = head ++ piece' := by
  obtain ⟨⟨piece', left'⟩, hread, heq⟩ := Option.map_eq_some_iff.mp h
  cases heq
  exact ⟨piece', hread, rfl⟩

/-- A prefix of two quotes does not reach beyond two characters. -/
theorem not_quotes_append {front rest other : List Char} (hlength : 2 ≤ front.length)
    (h : ¬ [q, q] <+: front ++ rest) : ¬ [q, q] <+: front ++ other := by
  intro hquotes
  have hfront : [q, q] <+: front :=
    List.prefix_of_prefix_length_le hquotes (List.prefix_append front other) hlength
  exact h (hfront.trans (List.prefix_append front rest))

theorem getLast?_append_of_some {head : List Char} (h : piece.getLast? = some c) :
    (head ++ piece).getLast? = some c := by
  rw [List.getLast?_append, h, Option.some_or]

theorem close?_cons (hc : c ≠ '\\') (long : Bool) (rest : List Char) :
    close? q long (c :: rest) =
      if c = q then
        if !long then some ([c], rest)
        else if [q, q].isPrefixOf rest then some ([c, q, q], rest.drop 2)
        else (close? q long rest).map (after [c])
      else (close? q long rest).map (after [c]) := by
  rw [close?.eq_def]
  split <;> simp_all

/-- A string ends where it ended, whatever follows, and its last character is the quote. -/
theorem close?_append {long : Bool} (h : close? q long cs = some (piece, left)) (other : List Char) :
    close? q long (piece ++ other) = some (piece, other) ∧ piece.getLast? = some q := by
  fun_induction close? q long cs generalizing piece left with
  | case1 => cases h
  | case2 => cases h
  | case3 c rest hc ih =>
    obtain ⟨piece', hread, rfl⟩ := eq_after h
    obtain ⟨hclose, hlast⟩ := ih hread
    refine ⟨?_, getLast?_append_of_some hlast⟩
    simp [close?, hc, hclose, after]
  | case4 => cases h
  | case5 rest hlong _ hslash =>
    cases h
    refine ⟨?_, rfl⟩
    rw [List.cons_append, close?_cons hslash, if_pos rfl, if_pos hlong, List.nil_append]
  | case6 rest hlong hquotes _ hslash =>
    cases h
    refine ⟨?_, rfl⟩
    rw [List.cons_append, close?_cons hslash, if_pos rfl, if_neg hlong]
    simp
  | case7 rest hlong hquotes _ hslash ih =>
    obtain ⟨piece', hread, rfl⟩ := eq_after h
    obtain ⟨hclose, hlast⟩ := ih hread
    refine ⟨?_, getLast?_append_of_some hlast⟩
    obtain rfl : long = true := by simpa using hlong
    have hlength := (closing_of_close? hread).three_le
    rw [List.isPrefixOf_iff_prefix, (append_of_close? hread).2] at hquotes
    have hbody : ¬ [q, q] <+: piece' ++ other := not_quotes_append (by omega) hquotes
    rw [List.singleton_append, List.cons_append, close?_cons hslash, if_pos rfl, if_neg hlong,
      if_neg (by simpa using hbody), hclose]
    rfl
  | case8 c rest _ hslash hquote ih =>
    obtain ⟨piece', hread, rfl⟩ := eq_after h
    obtain ⟨hclose, hlast⟩ := ih hread
    refine ⟨?_, getLast?_append_of_some hlast⟩
    rw [List.singleton_append, List.cons_append, close?_cons hslash, if_neg hquote, hclose]
    rfl

theorem shortBody?_cons (hc : c ≠ '\\') (rest : List Char) :
    shortBody? q (c :: rest) =
      if c = q then some ([c], rest) else if c = '\n' then none else (shortBody? q rest).map (after [c]) := by
  rw [shortBody?.eq_def]
  split <;> simp_all

/-- The body of a string on one line ends where it ended, whatever follows: with the quote, or with the
end of the line. -/
theorem shortBody?_append (h : shortBody? q cs = some (piece, left)) (hslash : q ≠ '\\')
    (other : List Char) :
    shortBody? q (piece ++ other) = some (piece, other) ∧
      (piece.getLast? = some q ∨ piece.getLast? = some '\n') := by
  fun_induction shortBody? q cs generalizing piece left with
  | case1 => cases h
  | case2 rest =>
    cases h
    exact ⟨rfl, .inr rfl⟩
  | case3 rest =>
    cases h
    exact ⟨rfl, .inr rfl⟩
  | case4 c rest hfeed hreturn ih =>
    obtain ⟨piece', hread, rfl⟩ := eq_after h
    obtain ⟨hbody, hlast⟩ := ih hread
    refine ⟨?_, hlast.imp getLast?_append_of_some getLast?_append_of_some⟩
    -- what follows begins as before, since the rest of the body is not empty
    obtain ⟨hne, rfl⟩ := append_of_shortBody? hread
    obtain ⟨d, body, rfl⟩ := List.exists_cons_of_ne_nil hne
    change shortBody? q ('\\' :: c :: d :: (body ++ other)) = _
    rw [shortBody?]
    · rw [← List.cons_append, hbody]
      rfl
    · exact hfeed
    · rintro rest rfl hrest
      exact hreturn (body ++ left) rfl (by rw [List.cons_append, (List.cons.inj hrest).1])
  | case5 rest =>
    cases h
    refine ⟨?_, .inl rfl⟩
    rw [List.cons_append, shortBody?_cons hslash, if_pos rfl, List.nil_append]
  | case6 => cases h
  | case7 c rest _ _ _ hquote hplain ih =>
    obtain ⟨piece', hread, rfl⟩ := eq_after h
    obtain ⟨hbody, hlast⟩ := ih hread
    refine ⟨?_, hlast.imp getLast?_append_of_some getLast?_append_of_some⟩
    simp only [Bool.or_eq_true, decide_eq_true_eq, not_or] at hplain
    rw [List.singleton_append, List.cons_append, shortBody?_cons hplain.2, if_neg hquote,
      if_neg hplain.1, hbody]
    rfl

/-! ## The line on which the string begins -/

section Quote

variable (hq : q = apostrophe ∨ q = doubleQuote)

include hq

theorem quote_ne_feed : q ≠ '\n' := by
  rcases hq with rfl | rfl <;> decide

theorem append_of_piece? (h : piece? (q :: cs) = some (.fragment .string (piece, left))) :
    q :: cs = piece ++ left := by
  rcases piece?_quote hq cs with hpiece | ⟨long, hpiece⟩ | ⟨piece', left', hpiece, -, hcs⟩
  · rw [hpiece] at h
    cases h
  · rw [hpiece] at h
    cases h
  · rw [hpiece] at h
    cases h
    exact hcs

/-- A string on its line is read whatever follows it, but for a third quote after two. -/
theorem piece?_append (h : piece? (q :: cs) = some (.fragment .string (piece, left))) (other : List Char)
    (hother : piece = [q, q] → ¬ [q] <+: other) :
    piece? (piece ++ other) = some (.fragment .string (piece, other)) ∧ piece.getLast? = some q := by
  by_cases hlong : [q, q] <+: cs
  · obtain ⟨rest, rfl⟩ := hlong
    rw [List.cons_append, List.cons_append, List.nil_append, piece?_long hq] at h
    cases hclose : close? q true rest with
    | none => simp [hclose] at h
    | some cut =>
      obtain ⟨body, left'⟩ := cut
      simp only [hclose, Option.elim_some, Option.some.injEq, Piece.fragment.injEq, true_and, after,
        Prod.mk.injEq] at h
      obtain ⟨rfl, rfl⟩ := h
      obtain ⟨hbody, hlast⟩ := close?_append hclose other
      refine ⟨?_, getLast?_append_of_some hlast⟩
      have hpiece := piece?_long hq (body ++ other)
      rwa [hbody] at hpiece
  · rw [piece?_short hq hlong] at h
    obtain ⟨⟨body, left'⟩, hread, hcut⟩ := Option.map_eq_some_iff.mp h
    split at hcut
    · cases hcut
    rename_i hfeed
    simp only [Piece.fragment.injEq, true_and, after, Prod.mk.injEq] at hcut
    obtain ⟨rfl, rfl⟩ := hcut
    obtain ⟨hbody, hlast⟩ := shortBody?_append hread (ne_of_quote hq).1 other
    replace hlast := hlast.resolve_right hfeed
    refine ⟨?_, getLast?_append_of_some hlast⟩
    have hshort : ¬ [q, q] <+: body ++ other := by
      rcases Nat.lt_or_ge body.length 2 with hlength | hlength
      · obtain ⟨c, rfl⟩ : ∃ c, body = [c] := by
          have hne := (append_of_shortBody? hread).1
          have hpos := List.length_pos_iff.mpr hne
          exact List.length_eq_one_iff.mp (by omega)
        obtain rfl : c = q := by simpa using hlast
        intro hquotes
        exact hother rfl (by simpa [List.cons_prefix_cons] using hquotes)
      · rw [(append_of_shortBody? hread).2] at hlong
        exact not_quotes_append hlength hlong
    rw [List.singleton_append, List.cons_append, piece?_short hq hshort, hbody]
    simp [hfeed, after]

/-- What a first line leaves behind on which a string begins that goes on. -/
def opened (q : Char) (long : Bool) (line : List Char) : State :=
  { open? := some ⟨line, (1, 0), q, long⟩, strict := !long }

theorem scan_of_lines (hlines : lines (q :: cs) = (q :: line) :: others) :
    scan (q :: cs) =
      (scanLines 2 (q :: line) (scanLine 1 (line.length + 2) 0 (q :: line) {}).2 others).after
        (scanLine 1 (line.length + 2) 0 (q :: line) {}).1 := by
  obtain ⟨line', others', hlines', -, hscan⟩ := scan_quote hq cs
  rw [hlines'] at hlines
  cases hlines
  exact hscan

/-- The first fragment of a text that begins with a quote, if it is a string: either it stands on the
first line, or it goes on in the lines after that. -/
theorem scan_cases (hlines : lines (q :: cs) = (q :: line) :: others)
    (h : (scan (q :: cs)).fragments = f :: fs) (hf : f.kind = .string) :
    (∃ left, piece? (q :: line) = some (.fragment .string (f.text, left))) ∨
      ∃ long, piece? (q :: line) = some (.opens q long) ∧
        (scanLines 2 (q :: line) (opened q long (q :: line)) others).fragments = f :: fs := by
  have hgap := isGap_quote hq
  rw [scan_of_lines hq hlines, Scan.after, scanLine] at h
  rcases piece?_quote hq line with hpiece | ⟨long, hpiece⟩ | ⟨piece, left, hpiece, -, -⟩
  · simp [hgap, hpiece] at h
    rw [← h.1] at hf
    cases hf
  · simp [hgap, hpiece] at h
    exact .inr ⟨long, hpiece, h⟩
  · simp [hgap, hpiece] at h
    rw [← h.1]
    exact .inl ⟨left, hpiece⟩

theorem scan_of_fragment (hlines : lines (q :: cs) = (q :: line) :: others)
    (hpiece : piece? (q :: line) = some (.fragment .string (piece, left))) :
    ∃ f fs, (scan (q :: cs)).fragments = f :: fs ∧ f.kind = .string ∧ f.text = piece := by
  have hgap := isGap_quote hq
  rw [scan_of_lines hq hlines, Scan.after, scanLine]
  simp [hgap, hpiece]

theorem scan_of_opens {long : Bool} (hlines : lines (q :: cs) = (q :: line) :: others)
    (hpiece : piece? (q :: line) = some (.opens q long)) :
    (scan (q :: cs)).fragments =
      (scanLines 2 (q :: line) (opened q long (q :: line)) others).fragments := by
  have hgap := isGap_quote hq
  rw [scan_of_lines hq hlines, Scan.after, scanLine]
  simp [hgap, hpiece, opened]

end Quote

/-! ## The lines after it -/

/-- A string that is open ends with its quote. -/
theorem scanLines_ends {s : State} {o : Open} (hopen : s.open? = some o) (number : Nat) (last : List Char)
    (ls : List (List Char)) (h : (scanLines number last s ls).fragments = f :: fs) (hf : f.kind = .string) :
    ∃ piece, f.text = o.text ++ piece ∧ piece.getLast? = some o.quote := by
  obtain ⟨front, line, back, piece, left, -, hclose, htext⟩ := scanLines_open hopen number last ls h hf
  exact ⟨front.flatten ++ piece, htext, getLast?_append_of_some (close?_append hclose []).2⟩

/-- A string that is open ends where it ended, whatever follows on that line and after it. -/
theorem scanLines_append {s : State} {o : Open} {p more : List Char} {ls : List (List Char)}
    (hopen : s.open? = some o) (number : Nat) (last : List Char)
    (h : (scanLines number last s (ls ++ (p ++ more) :: others)).fragments = f :: fs)
    (hf : f.kind = .string) (hp : p ≠ []) (htext : f.text = o.text ++ (ls.flatten ++ p)) (more' : List Char)
    (others' : List (List Char)) :
    ∃ fs', (scanLines number last s (ls ++ (p ++ more') :: others')).fragments = f :: fs' := by
  induction ls generalizing s o number last with
  | nil =>
    rw [List.nil_append, scanLines] at h
    simp only [hopen] at h
    split at h
    · rename_i piece left hclose
      simp [Scan.after] at h
      obtain ⟨rfl, -⟩ := h
      obtain rfl : piece = p := by simpa using htext
      have hclose' := (close?_append hclose more').1
      rw [List.nil_append, scanLines]
      simp [hopen, hclose', Scan.after]
    · split at h
      · simp [Scan.after] at h
        obtain ⟨rfl, -⟩ := h
        cases hf
      · -- the string would go on after `p`
        obtain ⟨piece, hlonger, hlast⟩ := scanLines_ends rfl _ _ _ h hf
        rw [htext] at hlonger
        simp at hlonger
        simp [hlonger] at hlast
  | cons line rest ih =>
    rw [List.cons_append, scanLines] at h
    simp only [hopen] at h
    split at h
    · -- the string would end before `p`
      rename_i piece left hclose
      simp [Scan.after] at h
      obtain ⟨rfl, -⟩ := h
      have hpiece : piece = line ++ (rest.flatten ++ p) := by simpa using htext
      have hline := congrArg List.length (append_of_close? hclose).2
      have hpos := List.length_pos_iff.mpr hp
      rw [hpiece] at hline
      simp only [List.length_append] at hline
      omega
    · split at h
      · simp [Scan.after] at h
        obtain ⟨rfl, -⟩ := h
        cases hf
      · rename_i hclose hstrict
        obtain ⟨fs', hfs⟩ := ih rfl _ _ h (by simpa using htext)
        refine ⟨fs', ?_⟩
        rw [List.cons_append, scanLines]
        simp only [hopen, hclose]
        rw [if_neg hstrict]
        exact hfs

/-! ## The whole string -/

theorem first_of_fragments (h : (scan cs).fragments = f :: fs) : first cs = .ok f := by
  rw [first]
  cases hscan : scan cs with
  | mk fragments fault =>
    rw [hscan] at h
    cases h
    rfl

/-- A string that is read first begins with its quote. -/
theorem exists_cons_of_first (hq : q = apostrophe ∨ q = doubleQuote) (h : first (q :: cs) = .ok f)
    (hf : f.kind = .string) : ∃ body, f.text = q :: body := by
  obtain ⟨hne, rest, hrest⟩ := first_isPrefix hq h hf
  obtain ⟨c, body, hbody⟩ := List.exists_cons_of_ne_nil hne
  rw [hbody, List.cons_append] at hrest
  exact ⟨body, by rw [hbody, (List.cons.inj hrest).1]⟩

/-- A string that is read first ends with its quote. -/
theorem getLast?_of_first (hq : q = apostrophe ∨ q = doubleQuote) (h : first (q :: cs) = .ok f)
    (hf : f.kind = .string) : f.text.getLast? = some q := by
  obtain ⟨fs, hfs⟩ := exists_fragments_of_first h
  obtain ⟨line, others, hlines, -⟩ := exists_lines_cons q cs
  rcases scan_cases hq hlines hfs hf with ⟨left, hpiece⟩ | ⟨long, -, hopen⟩
  · exact (piece?_append hq hpiece [] (by simp)).2
  · obtain ⟨piece, htext, hlast⟩ := scanLines_ends rfl _ _ _ hopen hf
    rw [htext]
    exact getLast?_append_of_some hlast

/-- Three quotes begin no empty string. -/
theorem three_le_of_first (hq : q = apostrophe ∨ q = doubleQuote) (h : first (q :: q :: q :: cs) = .ok f)
    (hf : f.kind = .string) : 3 ≤ f.text.length := by
  have hfeed : '\n' ∉ [q, q, q] := by simpa using (quote_ne_feed hq).symm
  obtain ⟨fs, hfs⟩ := exists_fragments_of_first h
  obtain ⟨line, others, hlines, -⟩ := exists_lines_append (List.cons_ne_nil _ _) hfeed cs
  rcases scan_cases hq hlines hfs hf with ⟨left, hpiece⟩ | ⟨long, -, hopen⟩
  · have hlong := (piece?_long hq line).symm.trans hpiece
    cases hclose : close? q true line with
    | none => simp [hclose] at hlong
    | some cut =>
      simp only [hclose, Option.elim_some, Option.some.injEq, Piece.fragment.injEq, true_and, after,
        Prod.mk.injEq] at hlong
      rw [← hlong.1, List.length_append]
      exact Nat.le_add_right 3 _
  · obtain ⟨piece, htext, -⟩ := scanLines_ends rfl _ _ _ hopen hf
    rw [htext]
    simp

/-- A string that is read first is read first whatever follows it, but for a third quote after two. -/
theorem first_append (hq : q = apostrophe ∨ q = doubleQuote) (h : first (q :: cs) = .ok f)
    (hf : f.kind = .string) {other : List Char} (hother : f.text = [q, q] → ¬ [q] <+: other) :
    ∃ f', first (f.text ++ other) = .ok f' ∧ f'.kind = .string ∧ f'.text = f.text := by
  obtain ⟨fs, hfs⟩ := exists_fragments_of_first h
  obtain ⟨hne, rest, hrest⟩ := first_isPrefix hq h hf
  have hlast : f.text.getLast? ≠ some '\n' := by
    rw [getLast?_of_first hq h hf]
    exact fun heq => quote_ne_feed hq (Option.some.inj heq)
  obtain ⟨ls, p, hp, hflat, hlines⟩ := exists_lines_of_getLast? hne hlast
  obtain ⟨more, others, hread, -⟩ := hlines rest
  obtain ⟨more', others', hread', hother'⟩ := hlines other
  obtain ⟨body, hbody⟩ := exists_cons_of_first hq h hf
  rw [hrest] at hread
  cases ls with
  | nil =>
    -- the string stands on the first line
    obtain rfl : p = f.text := by simpa using hflat.symm
    rw [List.nil_append, hbody, List.cons_append] at hread hread'
    rcases scan_cases hq hread hfs hf with ⟨left, hpiece⟩ | ⟨long, -, hopen⟩
    · have hshort : f.text = [q, q] → ¬ [q] <+: more' := fun htext hquote =>
        hother htext (hother' ▸ hquote.trans (List.prefix_append _ _))
      have hpiece' := (piece?_append hq hpiece more' hshort).1
      rw [hbody, List.cons_append] at hpiece' ⊢
      obtain ⟨f', fs', hfs', hkind, htext⟩ := scan_of_fragment hq hread' hpiece'
      exact ⟨f', first_of_fragments hfs', hkind, htext⟩
    · obtain ⟨piece, htext, hend⟩ := scanLines_ends rfl _ _ _ hopen hf
      have hlength := congrArg List.length (hbody.symm.trans htext)
      have hpos : piece ≠ [] := by
        rintro rfl
        cases hend
      have hpos := List.length_pos_iff.mpr hpos
      simp only [List.length_cons, List.length_append] at hlength
      omega
  | cons first ls =>
    -- it goes on after the first line, which both texts share
    obtain ⟨line, tail, hfirst, -⟩ := exists_lines_cons q cs
    obtain ⟨rfl, -⟩ := List.cons.inj (hfirst.symm.trans hread)
    rw [List.flatten_cons, List.append_assoc] at hflat
    rcases scan_cases hq hread hfs hf with ⟨left, hpiece⟩ | ⟨long, hpiece, hopen⟩
    · have hlength := congrArg List.length (append_of_piece? hq hpiece)
      have hpos := List.length_pos_iff.mpr hp
      rw [hflat] at hlength
      simp only [List.length_append] at hlength
      omega
    · rw [hbody, List.cons_append] at hread'
      obtain ⟨fs', hfs'⟩ := scanLines_append rfl _ _ hopen hf hp hflat more' others'
      have hscan := (scan_of_opens hq hread' hpiece).trans hfs'
      rw [hbody, List.cons_append]
      exact ⟨f, first_of_fragments hscan, hf, hbody⟩

end Fragment

end ValueShell
