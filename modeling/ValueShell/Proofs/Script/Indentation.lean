import ValueShell.Script.Indent

/-!
# The stack of indentations

The widths on the stack grow from its bottom to its top, and each of them is the width of its text
(`IndentStack.Ordered`). A line may take any number of indentations off and put up to two on, and keeps
this in every case (`IndentStack.Ordered.after`). So it is so after every line of a script, and what is
predicted there can be told from the line: only where the line leaves a block does the stack decide, by the
nearest indentation on it that is narrower (`IndentStack.Narrower`).
-/

set_option autoImplicit false

namespace ValueShell.Script

/-- The line begins like a statement that ends a block. -/
def Line.leaves (line : Line) : Bool :=
  "pass".toList.isPrefixOf line.content || "return".toList.isPrefixOf line.content

/-- The line belongs to the host language and ends in a colon. -/
def Line.Opens (line : Line) : Prop := line.mode = .host ∧ line.content.getLast? = some ':'

/-- The line belongs to the host language, begins like a statement that ends a block and opens none. -/
def Line.Closes (line : Line) : Prop := line.mode = .host ∧ line.content.getLast? ≠ some ':' ∧ line.leaves = true

namespace IndentStack

variable {s s' : IndentStack}

/-! ## The order on the stack -/

/-- The widths are those of the texts, and they grow from the bottom to the top. -/
structure Ordered (s : IndentStack) : Prop where
  widths : ∀ i ∈ s, i.width = indentWidth i.text
  growing : s.Pairwise fun i j => j.width < i.width

theorem Ordered.sublist (h : s.Ordered) (hs : s'.Sublist s) : s'.Ordered where
  widths := fun i hi => h.widths i (hs.mem hi)
  growing := h.growing.sublist hs

/-- Once the indentations that are not narrower are gone, all that are left are narrower. -/
theorem Ordered.lt_of_mem_dropWhile (h : s.Ordered) (width : Nat) {i : Indent}
    (hi : i ∈ s.dropWhile fun i => i.width ≥ width) : i.width < width := by
  induction s with
  | nil => cases hi
  | cons j below ih =>
    have hbelow := (List.pairwise_cons.mp h.growing).1
    by_cases hj : j.width ≥ width
    · rw [List.dropWhile_cons_of_pos (by simpa using hj)] at hi
      exact ih (h.sublist (List.sublist_cons_self j below)) hi
    · rw [List.dropWhile_cons_of_neg (by simpa using hj)] at hi
      rcases List.mem_cons.mp hi with rfl | hi
      · omega
      · have hlt := hbelow i hi
        omega

theorem Ordered.push (h : s.Ordered) (indent : List Char) : (s.push indent).Ordered where
  widths := by
    intro i hi
    rcases List.mem_cons.mp hi with rfl | hi
    · rfl
    · exact h.widths i ((List.dropWhile_sublist _).mem hi)
  growing := by
    refine List.pairwise_cons.mpr ⟨?_, h.growing.sublist (List.dropWhile_sublist _)⟩
    intro i hi
    exact h.lt_of_mem_dropWhile (indentWidth indent) hi

/-- Every line keeps the order. -/
theorem Ordered.after (h : s.Ordered) (line : Line) : (s.after line).Ordered := by
  have hpush := h.push line.indent
  unfold IndentStack.after
  split
  · exact h.sublist (List.tail_sublist s)
  · dsimp only
    split
    · split
      · exact hpush.push _
      · split
        · exact hpush.sublist (List.tail_sublist _)
        · exact hpush
    · exact hpush

/-- The stack after some lines. -/
def afterAll (s : IndentStack) (ls : List Line) : IndentStack := ls.foldl IndentStack.after s

theorem Ordered.afterAll (h : s.Ordered) (ls : List Line) : (s.afterAll ls).Ordered := by
  induction ls generalizing s with
  | nil => exact h
  | cons line rest ih => exact ih (h.after line)

/-! ## What is predicted -/

theorem predictions_append (s : IndentStack) (before rest : List Line) :
    predictions s (before ++ rest) = predictions s before ++ predictions (s.afterAll before) rest := by
  induction before generalizing s with
  | nil => rfl
  | cons line before ih =>
    rw [List.cons_append, predictions, predictions, ih (s.after line)]
    rfl

theorem length_predictions (s : IndentStack) (ls : List Line) : (predictions s ls).length = ls.length := by
  induction ls generalizing s with
  | nil => rfl
  | cons line rest ih => rw [predictions, List.length_cons, ih, List.length_cons]

/-- The prediction after a line is the one of the stack after it. -/
theorem getElem?_predictions (s : IndentStack) (before rest : List Line) (line : Line) :
    (predictions s (before ++ line :: rest))[before.length]? =
      some ((s.afterAll before).after line).prediction := by
  rw [predictions_append, List.getElem?_append_right (Nat.le_of_eq (length_predictions s before)),
    length_predictions, Nat.sub_self]
  rfl

/-- The text is that of the nearest indentation on the stack that is narrower than a width, and empty if
there is none. -/
inductive Narrower (s : IndentStack) (width : Nat) : List Char → Prop
  | found {above below : IndentStack} {i : Indent} (stack : s = above ++ i :: below)
      (narrower : i.width < width) (nearest : ∀ j ∈ above, width ≤ j.width) : Narrower s width i.text
  | missing (none : ∀ j ∈ s, width ≤ j.width) : Narrower s width []

theorem narrower_dropWhile (s : IndentStack) (width : Nat) :
    Narrower s width (prediction (s.dropWhile fun i => i.width ≥ width)) := by
  induction s with
  | nil => exact .missing fun j hj => by cases hj
  | cons j below ih =>
    by_cases hj : j.width ≥ width
    · rw [List.dropWhile_cons_of_pos (by simpa using hj)]
      generalize prediction _ = text at ih ⊢
      cases ih with
      | @found above _ i stack narrower nearest =>
        refine @Narrower.found _ _ (j :: above) _ i (congrArg (j :: ·) stack) narrower ?_
        exact List.forall_mem_cons.mpr ⟨hj, nearest⟩
      | missing none => exact .missing (List.forall_mem_cons.mpr ⟨hj, none⟩)
    · rw [List.dropWhile_cons_of_neg (by simpa using hj)]
      have hlt : j.width < width := by omega
      exact @Narrower.found _ _ [] below j rfl hlt fun i hi => by cases hi

theorem prediction_push (s : IndentStack) (indent : List Char) : (s.push indent).prediction = indent := rfl

variable {line : Line}

theorem prediction_of_opens (hline : line.content ≠ []) (h : line.Opens) :
    (s.after line).prediction = line.indent ++ List.replicate 4 ' ' := by
  obtain ⟨hmode, hlast⟩ := h
  simp only [after, List.isEmpty_iff, hline, hmode, hlast, if_true, if_false, BEq.rfl]
  exact prediction_push _ _

theorem narrower_of_closes (hline : line.content ≠ []) (h : line.Closes) :
    Narrower s (indentWidth line.indent) (s.after line).prediction := by
  obtain ⟨hmode, hlast, hleaves⟩ := h
  have hcolon : (line.content.getLast? == some ':') = false := by simpa using hlast
  unfold Line.leaves at hleaves
  simp only [after, List.isEmpty_iff, hline, hmode, hcolon, hleaves, if_true, if_false, Bool.false_eq_true]
  exact narrower_dropWhile s (indentWidth line.indent)

theorem prediction_of_neither (hline : line.content ≠ []) (hopens : ¬line.Opens) (hcloses : ¬line.Closes) :
    (s.after line).prediction = line.indent := by
  cases hmode : line.mode with
  | host =>
    have hlast : line.content.getLast? ≠ some ':' := fun hlast => hopens ⟨hmode, hlast⟩
    have hcolon : (line.content.getLast? == some ':') = false := by simpa using hlast
    have hleaves : line.leaves = false := by
      rw [Bool.eq_false_iff]
      intro hleaves
      exact hcloses ⟨hmode, hlast, hleaves⟩
    unfold Line.leaves at hleaves
    simp only [after, List.isEmpty_iff, hline, hmode, hcolon, hleaves, if_true, if_false, Bool.false_eq_true]
    exact prediction_push s line.indent
  | shell =>
    simp only [after, List.isEmpty_iff, hline, hmode, if_false, reduceCtorEq]
    exact prediction_push s line.indent

end IndentStack

/-- After every line of a script, the widths on the stack grow from the bottom to the top, and each is the
width of its text. If the line is not empty, the prediction after it is four spaces more than its own
indentation where the line opens a block, the nearest indentation that is narrower than its own where it
leaves one, and its own indentation otherwise. -/
theorem indents_ordered {cs : List Char} {before rest : List Line} {line : Line}
    (h : (lines cs).lines = before ++ line :: rest) :
    let around := IndentStack.afterAll [] before
    let stack := around.after line
    (stack.reverse.map Indent.width).Pairwise (· < ·) ∧
      (∀ i ∈ stack, i.width = indentWidth i.text) ∧
      (predictions [] (lines cs).lines)[before.length]? = some stack.prediction ∧
      (line.content ≠ [] →
        (line.Opens → stack.prediction = line.indent ++ List.replicate 4 ' ') ∧
        (line.Closes → around.Narrower (indentWidth line.indent) stack.prediction) ∧
        (¬line.Opens → ¬line.Closes → stack.prediction = line.indent)) := by
  intro around stack
  have hempty : IndentStack.Ordered [] := ⟨fun i hi => (List.not_mem_nil hi).elim, .nil⟩
  have hstack : stack.Ordered := (hempty.afterAll before).after line
  refine ⟨?_, hstack.widths, ?_, ?_⟩
  · rw [List.pairwise_map, List.pairwise_reverse]
    exact hstack.growing
  · rw [h]
    exact IndentStack.getElem?_predictions [] before rest line
  · intro hline
    exact ⟨IndentStack.prediction_of_opens hline, IndentStack.narrower_of_closes hline,
      IndentStack.prediction_of_neither hline⟩

/-- A script with a block in a block. -/
def nested : List Char := "if x:\n\tfor y in x:\n\t  return y\n".toList

theorem indents_ordered_nested :
    let opening : List Line := [⟨[], .host, "if x:".toList⟩, ⟨['\t'], .host, "for y in x:".toList⟩]
    let line : Line := ⟨['\t', ' ', ' '], .host, "return y".toList⟩
    (lines nested).lines = opening ++ [line] ∧ line.Closes ∧
      IndentStack.afterAll [] opening =
        [⟨['\t', ' ', ' ', ' ', ' '], 12⟩, ⟨['\t'], 8⟩, ⟨[' ', ' ', ' ', ' '], 4⟩, ⟨[], 0⟩] ∧
      (predictions [] (lines nested).lines)[2]? = some ['\t'] ∧
      (IndentStack.afterAll [] opening).Narrower 10 ['\t'] := by
  intro opening line
  have hlines : (lines nested).lines = opening ++ [line] := by decide +kernel
  have hcloses : line.Closes := by
    refine ⟨rfl, ?_, ?_⟩ <;> decide
  have hcontent : line.content ≠ [] := by decide
  obtain ⟨-, -, hprediction, hlaw⟩ := indents_ordered hlines
  exact ⟨hlines, hcloses, rfl, hprediction, (hlaw hcontent).2.1 hcloses⟩

end ValueShell.Script
