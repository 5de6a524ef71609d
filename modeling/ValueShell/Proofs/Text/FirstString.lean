import ValueShell.Fragment

/-!
# The string at the head of a text

A text that begins with a quote is read line by line until its string ends. Here is what the first
fragment of such a text can be: if it is a string, its text stands at the head of the text
(`first_isPrefix`), whether the string ends on its line, goes over several lines between three quotes,
or is continued by a backslash at the end of a line.

Reading any text ends with a fragment or with a fault of its own (`first_ne_exhausted`).
-/

set_option autoImplicit false

namespace ValueShell

namespace Text

variable {cs : List Char}

theorem trimEnd_isPrefix (p : Char → Bool) (cs : List Char) : trimEnd p cs <+: cs := by
  have hsuffix := List.dropWhile_suffix p (l := cs.reverse)
  rw [← List.reverse_prefix, List.reverse_reverse] at hsuffix
  exact hsuffix

theorem flatten_linesFrom (line cs : List Char) : (linesFrom line cs).flatten = line.reverse ++ cs := by
  induction cs generalizing line with
  | nil =>
    unfold linesFrom
    split <;> simp_all
  | cons c rest ih =>
    unfold linesFrom
    split
    · simp_all
    · simp [ih]

theorem flatten_lines (cs : List Char) : (lines cs).flatten = cs := flatten_linesFrom [] cs

theorem ne_nil_of_mem_linesFrom {line cs l : List Char} (h : l ∈ linesFrom line cs) : l ≠ [] := by
  induction cs generalizing line with
  | nil =>
    unfold linesFrom at h
    split at h
    · cases h
    · simp_all
  | cons c rest ih =>
    unfold linesFrom at h
    split at h
    · rcases List.mem_cons.mp h with rfl | h
      · simp
      · exact ih h
    · exact ih h

theorem linesFrom_append {line front : List Char} (hfront : '\n' ∉ front) (cs : List Char) :
    linesFrom line (front ++ cs) = linesFrom (front.reverse ++ line) cs := by
  induction front generalizing line with
  | nil => rfl
  | cons c rest ih =>
    rw [List.mem_cons, not_or] at hfront
    have hc : (c == '\n') = false := by simpa using Ne.symm hfront.1
    rw [List.cons_append, linesFrom, hc, if_neg Bool.false_ne_true, ih hfront.2]
    simp

/-- The first character of a text is the first of its first line. -/
theorem exists_lines_cons (c : Char) (cs : List Char) :
    ∃ line others, lines (c :: cs) = (c :: line) :: others ∧ cs = line ++ others.flatten := by
  have hflat := flatten_lines (c :: cs)
  cases hlines : lines (c :: cs) with
  | nil =>
    rw [hlines] at hflat
    cases hflat
  | cons first others =>
    have hne : first ≠ [] := ne_nil_of_mem_linesFrom (hlines ▸ List.mem_cons_self)
    obtain ⟨d, line, rfl⟩ := List.exists_cons_of_ne_nil hne
    rw [hlines, List.flatten_cons, List.cons_append] at hflat
    injection hflat with hd hrest
    exact ⟨line, others, by rw [hd], hrest.symm⟩

end Text

namespace Fragment

open Text

variable {q : Char} {cs left piece : List Char}

/-! ## Strings that end -/

theorem append_of_map_after {read : Option Cut} {head : List Char}
    (h : read.map (after head) = some (piece, left))
    (ih : ∀ piece' left', read = some (piece', left') → piece' ≠ [] ∧ cs = piece' ++ left') :
    piece ≠ [] ∧ head ++ cs = piece ++ left := by
  obtain ⟨⟨piece', left'⟩, hread, heq⟩ := Option.map_eq_some_iff.mp h
  obtain ⟨hne, hcs⟩ := ih _ _ hread
  cases heq
  simp [hne, hcs]

theorem append_of_close? {long : Bool} (h : close? q long cs = some (piece, left)) :
    piece ≠ [] ∧ cs = piece ++ left := by
  fun_induction close? q long cs generalizing piece left with
  | case1 => cases h
  | case2 => cases h
  | case3 c rest _ ih => exact append_of_map_after h fun _ _ => ih
  | case4 => cases h
  | case5 =>
    cases h
    simp
  | case6 rest _ hquotes =>
    cases h
    obtain ⟨others, rfl⟩ := List.isPrefixOf_iff_prefix.mp hquotes
    simp
  | case7 rest _ _ _ _ ih => exact append_of_map_after h fun _ _ => ih
  | case8 c rest _ _ _ ih => exact append_of_map_after h fun _ _ => ih

theorem append_of_shortBody? (h : shortBody? q cs = some (piece, left)) :
    piece ≠ [] ∧ cs = piece ++ left := by
  fun_induction shortBody? q cs generalizing piece left with
  | case1 => cases h
  | case2 =>
    cases h
    simp
  | case3 =>
    cases h
    simp
  | case4 c rest _ _ ih => exact append_of_map_after h fun _ _ => ih
  | case5 =>
    cases h
    simp
  | case6 => cases h
  | case7 c rest _ _ _ _ _ ih => exact append_of_map_after h fun _ _ => ih

/-! ## The first line -/

section Quote

variable (hq : q = apostrophe ∨ q = doubleQuote)

include hq

theorem ne_of_quote : q ≠ '\\' ∧ q ≠ '#' := by
  rcases hq with rfl | rfl <;> decide

theorem isGap_quote : isGap q = false := by
  rcases hq with rfl | rfl <;> rfl

theorem opening?_quote (rest : List Char) : opening? (q :: rest) = some ([], q, rest) := by
  rcases hq with rfl | rfl <;> rfl

/-- Nothing but a string begins with a quote. -/
theorem plain?_quote (rest : List Char) : piece?.plain? (q :: rest) = none := by
  rcases hq with rfl | rfl <;> rfl

/-- A string between three quotes that ends on its line, or goes on in the next. -/
theorem piece?_long (rest : List Char) :
    piece? (q :: q :: q :: rest) =
      some ((close? q true rest).elim (.opens q true) fun cut =>
        .fragment .string (after [q, q, q] cut)) := by
  obtain ⟨hjoin, hcomment⟩ := ne_of_quote hq
  have hopening := opening?_quote hq (q :: q :: rest)
  unfold piece?
  split
  · contradiction
  · simp_all
  · simp_all
  · simp_all
  · rw [hopening]
    simp
    cases close? q true rest <;> rfl

/-- A string on one line. -/
theorem piece?_short {rest : List Char} (hrest : ¬ [q, q] <+: rest) :
    piece? (q :: rest) = (shortBody? q rest).map fun cut =>
      if cut.1.getLast? = some '\n' then .opens q false else .fragment .string (after [q] cut) := by
  obtain ⟨hjoin, hcomment⟩ := ne_of_quote hq
  have hopening := opening?_quote hq rest
  have hplain := plain?_quote hq rest
  unfold piece?
  split
  · contradiction
  · simp_all
  · simp_all
  · simp_all
  · rw [hopening]
    simp [hrest, hplain]
    cases shortBody? q rest with
    | none => rfl
    | some cut => simp [apply_ite some]

/-- What stands at the head of a text that begins with a quote: no string, a string that goes on in the
next line, or a string. -/
theorem piece?_quote (rest : List Char) :
    piece? (q :: rest) = none ∨ (∃ long, piece? (q :: rest) = some (.opens q long)) ∨
      ∃ piece left, piece? (q :: rest) = some (.fragment .string (piece, left)) ∧ piece ≠ [] ∧
        q :: rest = piece ++ left := by
  by_cases hlong : [q, q] <+: rest
  · obtain ⟨others, rfl⟩ := hlong
    have hpiece := piece?_long hq others
    cases hclose : close? q true others with
    | none =>
      rw [hclose] at hpiece
      exact Or.inr (Or.inl ⟨true, hpiece⟩)
    | some cut =>
      rw [hclose] at hpiece
      exact Or.inr (Or.inr ⟨_, _, hpiece, by simp, by simp [(append_of_close? hclose).2]⟩)
  · have hpiece := piece?_short hq hlong
    cases hbody : shortBody? q rest with
    | none =>
      rw [hbody] at hpiece
      exact Or.inl hpiece
    | some cut =>
      rw [hbody, Option.map_some] at hpiece
      split at hpiece
      · exact Or.inr (Or.inl ⟨false, hpiece⟩)
      · exact Or.inr (Or.inr ⟨_, _, hpiece, by simp, by simp [(append_of_shortBody? hbody).2]⟩)

/-- The first line of a text that begins with a quote is not indented. -/
theorem scan_quote (rest : List Char) :
    ∃ line others, lines (q :: rest) = (q :: line) :: others ∧ rest = line ++ others.flatten ∧
      scan (q :: rest) =
        (scanLines 2 (q :: line) (scanLine 1 (line.length + 2) 0 (q :: line) {}).2 others).after
          (scanLine 1 (line.length + 2) 0 (q :: line) {}).1 := by
  obtain ⟨line, others, hlines, hrest⟩ := exists_lines_cons q rest
  have hgap := isGap_quote hq
  have hwidth : indentation 0 (q :: line) = 0 := by rcases hq with rfl | rfl <;> rfl
  have hline : (decide (q = '#') || isLineEnd q) = false := by rcases hq with rfl | rfl <;> rfl
  refine ⟨line, others, hlines, hrest, ?_⟩
  rw [scan, hlines, scanLines]
  simp [hgap, hwidth, hline]

end Quote

/-! ## The lines after it -/

/-- A string that is open takes lines, and then a piece of the line on which it is closed. -/
theorem scanLines_open {s : State} {o : Open} {f : Fragment} {fs : List Fragment} (hopen : s.open? = some o)
    (number : Nat) (last : List Char) (ls : List (List Char))
    (h : (scanLines number last s ls).fragments = f :: fs) (hf : f.kind = .string) :
    ∃ front line back piece left, ls = front ++ line :: back ∧
      close? o.quote o.long line = some (piece, left) ∧ f.text = o.text ++ (front.flatten ++ piece) := by
  induction ls generalizing s o number last with
  | nil =>
    rw [scanLines] at h
    simp [hopen] at h
  | cons line rest ih =>
    rw [scanLines] at h
    simp only [hopen] at h
    split at h
    · rename_i piece left hclose
      simp [Scan.after] at h
      obtain ⟨rfl, -⟩ := h
      exact ⟨[], line, rest, piece, left, rfl, hclose, rfl⟩
    · split at h
      · simp [Scan.after] at h
        obtain ⟨rfl, -⟩ := h
        cases hf
      · obtain ⟨front, line', back, piece, left, rfl, hclose, htext⟩ := ih rfl _ _ h
        refine ⟨line :: front, line', back, piece, left, rfl, hclose, ?_⟩
        rw [htext, List.flatten_cons, List.append_assoc, List.append_assoc]

/-! ## The first fragment -/

theorem exists_fragments_of_first {f : Fragment} (h : first cs = .ok f) :
    ∃ fs, (scan cs).fragments = f :: fs := by
  unfold first at h
  split at h
  · rename_i heq
    cases h
    exact ⟨_, by rw [heq]⟩
  · cases h
  · cases h

/-- A string that is read first stands at the head of the text. -/
theorem first_isPrefix {f : Fragment} (hq : q = apostrophe ∨ q = doubleQuote) (h : first (q :: cs) = .ok f)
    (hf : f.kind = .string) : f.text ≠ [] ∧ f.text <+: q :: cs := by
  obtain ⟨fs, hfs⟩ := exists_fragments_of_first h
  obtain ⟨line, others, -, rfl, hscan⟩ := scan_quote hq cs
  have hgap := isGap_quote hq
  rw [hscan, Scan.after, scanLine] at hfs
  rcases piece?_quote hq line with hpiece | ⟨long, hpiece⟩ | ⟨piece, left, hpiece, hne, hline⟩
  · simp [hgap, hpiece] at hfs
    rw [← hfs.1] at hf
    cases hf
  · simp [hgap, hpiece] at hfs
    obtain ⟨front, _, back, piece, left, rfl, hclose, htext⟩ := scanLines_open rfl _ _ _ hfs hf
    rw [htext, (append_of_close? hclose).2]
    exact ⟨by simp, by simp⟩
  · simp [hgap, hpiece] at hfs
    rw [← hfs.1, ← List.cons_append, hline, List.append_assoc]
    exact ⟨hne, List.prefix_append _ _⟩

/-- A scan that gives a fragment, or a fault that says why it gives none. -/
def Scan.Ends (r : Scan) : Prop := (r.fragments = [] → r.fault ≠ none) ∧ r.fault ≠ some .exhausted

theorem Scan.Ends.after {r : Scan} (h : r.Ends) (fs : List Fragment) : (r.after fs).Ends := by
  refine ⟨fun hnil => h.1 ?_, h.2⟩
  exact (List.append_eq_nil_iff.mp hnil).2

theorem ends_finish (number : Nat) (last : List Char) (indents : List Nat) :
    (finish number last indents).Ends := by
  simp [finish, Scan.Ends]

theorem ends_scanLines (number : Nat) (last : List Char) (s : State) (ls : List (List Char)) :
    (scanLines number last s ls).Ends := by
  induction ls generalizing number last s with
  | nil =>
    rw [scanLines]
    split
    · simp [Scan.Ends]
    · apply ends_finish
  | cons line rest ih =>
    rw [scanLines]
    dsimp only
    split
    · -- inside of a string
      split
      · exact (ih _ _ _).after _
      split
      · exact (ih _ _ _).after _
      · exact ih _ _ _
    split
    · -- inside of brackets, or after a backslash
      exact (ih _ _ _).after _
    split
    · apply ends_finish
    split
    · -- nothing but a comment
      exact (ih _ _ _).after _
    split
    · exact (ih _ _ _).after _
    split
    · simp [Scan.Ends]
    · exact (ih _ _ _).after _

theorem first_ne_exhausted (cs : List Char) : first cs ≠ .error .exhausted := by
  have hends : (scan cs).Ends := ends_scanLines 1 [] {} (lines cs)
  unfold first
  revert hends
  cases scan cs with
  | mk fragments fault =>
    intro hends
    cases fragments with
    | cons f fs => simp
    | nil =>
      cases fault with
      | none => exact absurd rfl (hends.1 rfl)
      | some fault =>
        have hfault := hends.2
        simpa using hfault

end Fragment

end ValueShell
