import ValueShell.Text.Lines

/-!
# The words of a text and of its lines

White space cuts a text into words wherever it stands, so the words of a text are those of its lines,
one line after the other. Normalizing line ends, trimming them and joining lines by blanks change none
of them (`wordsOf_bareLines`).
-/

set_option autoImplicit false

namespace ValueShell.Text

variable {c : Char}

/-- A blank ends the word that is being read, whatever comes after it. -/
theorem wordsFrom_append_blank (hc : isBlank c = true) (word cs rest : List Char) :
    wordsFrom word (cs ++ c :: rest) = wordsFrom word cs ++ words rest := by
  induction cs generalizing word with
  | nil =>
    simp only [List.nil_append, wordsFrom, if_pos hc, words]
    split <;> rfl
  | cons d cs ih =>
    rw [List.cons_append, wordsFrom, wordsFrom]
    split
    · split
      · exact ih []
      · exact congrArg (word.reverse :: ·) (ih [])
    · exact ih (d :: word)

theorem words_append_blank (hc : isBlank c = true) (cs rest : List Char) :
    words (cs ++ c :: rest) = words cs ++ words rest :=
  wordsFrom_append_blank hc [] cs rest

theorem words_blank_cons (hc : isBlank c = true) (rest : List Char) : words (c :: rest) = words rest :=
  words_append_blank hc [] rest

theorem words_blanks {cs : List Char} (h : ∀ c ∈ cs, isBlank c = true) : words cs = [] := by
  induction cs with
  | nil => rfl
  | cons c cs ih =>
    rw [words_blank_cons (h c List.mem_cons_self), ih fun d hd => h d (List.mem_cons_of_mem c hd)]

theorem words_append_blanks (cs : List Char) {rest : List Char} (h : ∀ c ∈ rest, isBlank c = true) :
    words (cs ++ rest) = words cs := by
  cases rest with
  | nil => rw [List.append_nil]
  | cons c rest =>
    have hrest : ∀ d ∈ rest, isBlank d = true := fun d hd => h d (List.mem_cons_of_mem c hd)
    rw [words_append_blank (h c List.mem_cons_self), words_blanks hrest, List.append_nil]

/-- Blanks that are trimmed from the end are part of no word. -/
theorem words_trimEnd {p : Char → Bool} (hp : ∀ c, p c = true → isBlank c = true) (cs : List Char) :
    words (trimEnd p cs) = words cs := by
  have hcut : cs = trimEnd p cs ++ (cs.reverse.takeWhile p).reverse := by
    rw [trimEnd, ← List.reverse_append, List.takeWhile_append_dropWhile, List.reverse_reverse]
  have hblanks : ∀ c ∈ (cs.reverse.takeWhile p).reverse, isBlank c = true := by
    intro c hc
    exact hp c (List.all_eq_true.mp List.all_takeWhile c (List.mem_reverse.mp hc))
  conv => rhs; rw [hcut]
  exact (words_append_blanks _ hblanks).symm

theorem isBlank_of_isLineEnd (c : Char) (h : isLineEnd c = true) : isBlank c = true := by
  rw [isLineEnd, Bool.or_eq_true, beq_iff_eq, beq_iff_eq] at h
  obtain rfl | rfl := h
  · rfl
  · rfl

/-! ## Lines -/

theorem flatMap_words_linesFrom (line cs : List Char) :
    (linesFrom line cs).flatMap words = words (line.reverse ++ cs) := by
  fun_induction linesFrom line cs with
  | case1 line h =>
    rw [List.isEmpty_iff.mp h]
    rfl
  | case2 line h => rw [List.flatMap_cons, List.flatMap_nil, List.append_nil, List.append_nil]
  | case3 line c rest h ih =>
    cases beq_iff_eq.mp h
    rw [List.flatMap_cons, ih, List.reverse_cons, List.reverse_nil, List.nil_append,
      words_append_blank rfl, words_append_blank rfl]
    exact congrArg (· ++ words rest) (List.append_nil _)
  | case4 line c rest h ih => rw [ih, List.reverse_cons, List.append_assoc, List.singleton_append]

/-- The words of a text are those of its lines. -/
theorem flatMap_words_lines (cs : List Char) : (lines cs).flatMap words = words cs :=
  flatMap_words_linesFrom [] cs

theorem wordsFrom_normalizeNewlines (word cs : List Char) :
    wordsFrom word (normalizeNewlines cs) = wordsFrom word cs := by
  have hfeed (word rest : List Char) : wordsFrom word ('\n' :: rest) = wordsFrom word [] ++ words rest :=
    wordsFrom_append_blank rfl word [] rest
  have hreturn (word rest : List Char) : wordsFrom word ('\r' :: rest) = wordsFrom word [] ++ words rest :=
    wordsFrom_append_blank rfl word [] rest
  induction cs generalizing word with
  | nil => rfl
  | cons c rest ih =>
    by_cases hc : c = '\r'
    · subst hc
      by_cases hrest : ∃ others, rest = '\n' :: others
      · obtain ⟨others, rfl⟩ := hrest
        -- The line feed is there already, and the return before it is one more blank.
        have hpair : normalizeNewlines ('\r' :: '\n' :: others) = normalizeNewlines ('\n' :: others) := rfl
        rw [hpair, ih, hfeed, hreturn, words_blank_cons rfl]
      · rw [normalizeNewlines, hfeed, hreturn]
        · exact congrArg _ (ih [])
        · exact fun others h => hrest ⟨others, h⟩
    · rw [normalizeNewlines]
      · simp only [wordsFrom, ih]
      · exact fun others h _ => hc h
      · exact hc

/-- The words of lines that are joined by blanks are those of the lines. -/
theorem words_intercalate (ls : List (List Char)) :
    words ([' '].intercalate ls) = ls.flatMap words := by
  induction ls with
  | nil => rfl
  | cons l ls ih =>
    cases ls with
    | nil => rw [List.intercalate_singleton, List.flatMap_cons, List.flatMap_nil, List.append_nil]
    | cons l' ls =>
      rw [List.intercalate_cons_cons, List.append_assoc, List.singleton_append, words_append_blank rfl, ih]
      exact List.flatMap_cons.symm

theorem wordsOf_intercalate (ls : List String) : wordsOf (" ".intercalate ls) = ls.flatMap wordsOf := by
  have htext : (" ".intercalate ls).toList = [' '].intercalate (ls.map String.toList) :=
    String.toList_intercalate
  rw [wordsOf, htext, words_intercalate, List.flatMap_map, List.map_flatMap]
  rfl

/-- Neither the kind of the line ends nor cutting a text into bare lines changes its words. -/
theorem wordsOf_bareLines (s : String) :
    (bareLines (String.ofList (normalizeNewlines s.toList))).flatMap wordsOf = wordsOf s := by
  have hline (l : List Char) :
      wordsOf (trimLineEnd (String.ofList l)) = (words l).map String.ofList := by
    rw [wordsOf, trimLineEnd, String.toList_ofList, String.toList_ofList, trimLine,
      words_trimEnd isBlank_of_isLineEnd]
  rw [bareLines, linesOf, List.map_map, List.flatMap_map, String.toList_ofList]
  simp only [Function.comp_apply, hline]
  rw [← List.map_flatMap, flatMap_words_lines, words, wordsFrom_normalizeNewlines]
  rfl

end ValueShell.Text
