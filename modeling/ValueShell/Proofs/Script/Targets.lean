import ValueShell.Proofs.Command.Names
import ValueShell.Proofs.Command.Printing
import ValueShell.Script.Convert

/-!
# The targets of converted command lines

A converted command line assigns the results that it hands back to the names that it gives them. The names
are written one after the other with commas behind them, and read as the targets of the assignment. A name
that is let through may hold commas, equals signs and other punctuation (`Tree.isResultName`), and then the
assignment has other targets than results, or none that can be assigned to. `result_names_iff` says that it
has as many as there are results if and only if all names are those of variables.
-/

set_option autoImplicit false

namespace ValueShell.Script

open ValueShell.Text ValueShell.Evaluation

variable {names : List String}

/-! ## What is written -/

/-- What a converted command line writes before its call. -/
def assignment (names : List String) : String :=
  if names.isEmpty then "" else String.join (names.map (· ++ ", ")) ++ "= "

/-- The call of a converted command line, without the assignment of its results. -/
def bareCall (style : Style) (content : String) (names : List String) : Call :=
  { Call.ofCommand style.runFunction content names with targets := [] }

theorem callText_eq (style : Style) (content : String) (names : List String) :
    callText style content names = assignment names ++ (bareCall style content names).source := by
  rw [callText, Call.source, Call.source, bareCall, assignment]
  simp [Call.ofCommand, String.append_assoc]

/-- Names with a comma behind each. -/
def listing (names : List String) : List Char := names.flatMap fun name => name.toList ++ [',', ' ']

theorem toList_assignment (h : names ≠ []) : (assignment names).toList = listing names ++ ['=', ' '] := by
  have hempty : names.isEmpty = false := by simpa using h
  rw [assignment, hempty, if_neg Bool.false_ne_true, String.toList_append, String.toList_join, listing]
  simp [List.flatMap_map, String.toList_append]

/-! ## What is read -/

/-- The targets of an assignment with this left side, if it is one assignment and they are variables with a
comma behind each. Without an equals sign there is no assignment and no target. -/
def targets? (side : List Char) : Option (List (List Char)) :=
  match side.splitOn '=' with
  | [gap] => if gap.all isBlank then some [] else none
  | [listed, gap] =>
    let parts := (listed.splitOn ',').map strip
    if gap.all isBlank && parts.getLast? == some [] && parts.dropLast.all Expr.isWord then
      some parts.dropLast
    else none
  | _ => none

theorem length_splitOn (c : Char) (cs : List Char) : (cs.splitOn c).length = cs.count c + 1 := by
  induction cs with
  | nil => rfl
  | cons d cs ih =>
    rw [List.splitOn_cons_eq_if_modifyHead, List.count_cons]
    split
    · rw [List.length_cons, ih]
    · rw [List.length_modifyHead, ih]

theorem strip_padded {gap word : List Char} (hgap : ∀ c ∈ gap, isBlank c = true)
    (hword : ∀ c ∈ word, isBlank c = false) : strip (gap ++ word) = word := by
  have hdrop : ∀ {cs : List Char}, (∀ c ∈ cs, isBlank c = false) → cs.dropWhile isBlank = cs := by
    intro cs hcs
    cases cs with
    | nil => rfl
    | cons c cs => rw [List.dropWhile_cons, hcs c List.mem_cons_self, if_neg Bool.false_ne_true]
  rw [strip, trim, List.dropWhile_append_of_pos hgap, hdrop hword, trimEnd, hdrop (by simpa using hword),
    List.reverse_reverse]

/-- Names without commas are read as they were written. -/
theorem parts_listing (hcomma : ∀ name ∈ names, ',' ∉ name.toList)
    (hblank : ∀ name ∈ names, ∀ c ∈ name.toList, isBlank c = false) {gap : List Char}
    (hgap : ∀ c ∈ gap, isBlank c = true) :
    ((gap ++ listing names).splitOn ',').map strip = names.map String.toList ++ [[]] := by
  have hcut : ',' ∉ gap := fun hmem => absurd (hgap _ hmem) (by decide)
  induction names generalizing gap with
  | nil =>
    rw [listing, List.flatMap_nil, List.append_nil, List.splitOn_eq_singleton hcut, List.map_singleton]
    simpa using strip_padded hgap (List.forall_mem_nil _)
  | cons name names ih =>
    have hmore : gap ++ listing (name :: names) = gap ++ name.toList ++ ',' :: ([' '] ++ listing names) := by
      simp [listing]
    have hname : ',' ∉ gap ++ name.toList := by
      simp [hcut, hcomma name List.mem_cons_self]
    rw [hmore, List.splitOn_append_cons_self_of_not_mem hname, List.map_cons,
      strip_padded hgap (hblank name List.mem_cons_self),
      ih (fun n hn => hcomma n (List.mem_cons_of_mem _ hn)) (fun n hn => hblank n (List.mem_cons_of_mem _ hn))
        (List.forall_mem_singleton.mpr rfl) (by decide)]
    rfl

theorem count_listing_cons (name : String) (names : List String) :
    (listing (name :: names)).count ',' = name.toList.count ',' + 1 + (listing names).count ',' := by
  rw [listing, List.flatMap_cons, ← listing, List.count_append, List.count_append]
  rfl

theorem length_le_count_listing (names : List String) : names.length ≤ (listing names).count ',' := by
  induction names with
  | nil => exact Nat.le_refl 0
  | cons name names ih =>
    rw [count_listing_cons, List.length_cons]
    omega

/-- Every comma inside of a name is one more than there are names. -/
theorem comma_not_mem_of_count (h : (listing names).count ',' ≤ names.length) :
    ∀ name ∈ names, ',' ∉ name.toList := by
  induction names with
  | nil => exact List.forall_mem_nil _
  | cons name names ih =>
    rw [count_listing_cons, List.length_cons] at h
    have hrest := length_le_count_listing names
    exact List.forall_mem_cons.mpr ⟨List.count_eq_zero.mp (by omega), ih (by omega)⟩

/-- A name without an equals sign makes no further assignment. -/
theorem equals_not_mem_listing (h : ∀ name ∈ names, '=' ∉ name.toList) : '=' ∉ listing names := by
  intro hmem
  obtain ⟨name, hname, hchar⟩ := List.mem_flatMap.mp hmem
  simp [h name hname] at hchar

/-- The left side of one assignment is read as its parts. -/
theorem targets?_listing (h : '=' ∉ listing names) :
    targets? (listing names ++ ['=', ' ']) =
      let parts := ((listing names).splitOn ',').map strip
      if parts.getLast? == some [] && parts.dropLast.all Expr.isWord then some parts.dropLast else none := by
  rw [targets?, List.splitOn_append_cons_self_of_not_mem h, List.splitOn_eq_singleton (by decide)]
  rfl

/-- Variables are the targets that they are written as. -/
theorem targets?_of_isWord (h : ∀ name ∈ names, Expr.isWord name.toList = true) (hnames : names ≠ []) :
    targets? (assignment names).toList = some (names.map String.toList) := by
  have hnone : ∀ {d : Char}, isAsciiNameChar d = false → ∀ name ∈ names, d ∉ name.toList := by
    intro d hd name hname hmem
    exact Expr.ne_of_nameChar (Expr.isAsciiNameChar_of_mem (h name hname) hmem) hd rfl
  have hblank : ∀ name ∈ names, ∀ c ∈ name.toList, isBlank c = false := by
    intro name hname c hc
    exact Token.isBlank_of_unquotedChar
      (Token.isUnquotedChar_iff.mpr (.inl (Expr.isAsciiNameChar_of_mem (h name hname) hc)))
  have hparts := parts_listing (hnone rfl) hblank (List.forall_mem_nil _)
  rw [List.nil_append] at hparts
  rw [toList_assignment hnames, targets?_listing (equals_not_mem_listing (hnone rfl)), hparts]
  simpa using h

/-- A left side with targets has one equals sign at most. -/
theorem count_of_targets? {side : List Char} {targets : List (List Char)} (h : targets? side = some targets) :
    side.count '=' ≤ 1 := by
  have hpieces := length_splitOn '=' side
  unfold targets? at h
  split at h
  · rename_i heq
    rw [heq] at hpieces
    simp at hpieces
    omega
  · rename_i heq
    rw [heq] at hpieces
    simp at hpieces
    omega
  · cases h

/-- Names that hold more than the name of a variable do not give as many targets as there are names. -/
theorem isWord_of_targets? {targets : List (List Char)} (hresult : ∀ name ∈ names, Tree.isResultName name = true)
    (hnames : names ≠ []) (h : targets? (assignment names).toList = some targets)
    (hlength : targets.length = names.length) : ∀ name ∈ names, Expr.isWord name.toList = true := by
  rw [toList_assignment hnames] at h
  have hequals : '=' ∉ listing names := by
    have hcount := count_of_targets? h
    rw [List.count_append] at hcount
    have hsign : ['=', ' '].count '=' = 1 := rfl
    exact List.count_eq_zero.mp (by omega)
  rw [targets?_listing hequals] at h
  dsimp only at h
  split at h
  · rename_i hread
    obtain ⟨-, hwords⟩ := (Bool.and_eq_true _ _).mp hread
    cases h
    -- one target for each comma
    have hcomma : ∀ name ∈ names, ',' ∉ name.toList := by
      rw [List.length_dropLast, List.length_map, length_splitOn] at hlength
      exact comma_not_mem_of_count (by omega)
    have hblank : ∀ name ∈ names, ∀ c ∈ name.toList, isBlank c = false := by
      intro name hname c hc
      obtain ⟨-, hchars⟩ := (Bool.and_eq_true _ _).mp (hresult name hname)
      exact Token.isBlank_of_unquotedChar (List.all_eq_true.mp hchars c hc)
    have hparts := parts_listing hcomma hblank (List.forall_mem_nil _)
    rw [List.nil_append] at hparts
    rw [hparts, List.dropLast_concat, List.all_map] at hwords
    exact List.all_eq_true.mp hwords
  · cases h

/-- **As many targets as names.** -/
theorem targets?_iff (hresult : ∀ name ∈ names, Tree.isResultName name = true) :
    (∃ targets, targets? (assignment names).toList = some targets ∧ targets.length = names.length) ↔
      ∀ name ∈ names, Expr.isWord name.toList = true := by
  by_cases hnames : names = []
  · subst hnames
    simp [assignment, targets?]
  · constructor
    · rintro ⟨targets, htargets, hlength⟩
      exact isWord_of_targets? hresult hnames htargets hlength
    · intro hwords
      exact ⟨_, targets?_of_isWord hwords hnames, List.length_map _⟩

/-- **Which names are let through, and when they can be assigned to.** The names in trees are the unquoted
words that begin like a name, and they are names of variables unless they hold punctuation. The assignment
that a converted command line makes has as many targets as results are handed back, if and only if all the
names that are asked for are names of variables. -/
theorem result_names_iff {content : String} {tree : Tree} {left : Tree.Input}
    (hparse : Tree.parse [] content = .ok (tree, left)) (style : Style) (results : Bindings)
    (name : String) :
    ((∃ aliases text tree left, Tree.parse aliases text = .ok (tree, left) ∧ name ∈ tree.names) ↔
      Tree.isResultName name = true) ∧
    (Tree.isResultName name = true →
      (Expr.isWord name.toList = true ↔ ∀ c ∈ name.toList, c ∉ Token.punctuation)) ∧
    resultNames content = .ok tree.resultNames ∧ tree.resultNames ⊆ tree.names ∧
    callText style content tree.resultNames =
      assignment tree.resultNames ++ (bareCall style content tree.resultNames).source ∧
    ((∃ targets, targets? (assignment tree.resultNames).toList = some targets ∧
        targets.length = (Session.responses results tree.resultNames).length) ↔
      ∀ n ∈ tree.resultNames, Expr.isWord n.toList = true) := by
  refine ⟨⟨?_, fun hname => ?_⟩, Tree.isWord_iff, ?_, tree.resultNames_subset, ?_, ?_⟩
  · rintro ⟨aliases, text, tree, left, hparse, hmem⟩
    exact Tree.isResultName_of_parse hparse name hmem
  · obtain ⟨left, hparse⟩ := Tree.exists_parse_arrow hname
    exact ⟨[], _, _, left, hparse, List.mem_append_right _ (List.mem_singleton.mpr rfl)⟩
  · rw [resultNames, hparse]
    rfl
  · exact callText_eq style content tree.resultNames
  · rw [Session.responses, List.length_map]
    exact targets?_iff fun n hn =>
      Tree.isResultName_of_parse hparse n (tree.resultNames_subset hn)

/-- A command that passes on a number. -/
def sending (name : String) : Tree :=
  .process [[.token ⟨.literal, "send"⟩], [.token ⟨.literal, "3"⟩]] [.capture name]

/-- Two names of variables are two targets for two results. -/
theorem result_names_iff_variables :
    ∃ left, Tree.parse [] "(send 3 => x) -> y_1" = .ok (.assign (sending "x") "y_1", left) ∧
      assignment ["x", "y_1"] = "x, y_1, = " ∧
      ∀ results, ∃ targets, targets? (assignment ["x", "y_1"]).toList = some targets ∧
        targets.length = (Session.responses results ["x", "y_1"]).length := by
  have hwell : (Tree.assign (sending "x") "y_1").wellFormed false = true := by decide
  obtain ⟨left, hparse⟩ := Tree.exists_parse [] "(send 3 => x) -> y_1" hwell (by decide +kernel)
  have hwords : ∀ name ∈ ["x", "y_1"], Expr.isWord name.toList = true := by decide
  refine ⟨left, hparse, rfl, fun results => ?_⟩
  obtain ⟨-, -, -, -, -, htargets⟩ := result_names_iff hparse {} results "x"
  exact htargets.mpr hwords

/-- A comma lets one name be read as two targets, for the one result that is handed back. -/
theorem comma_in_result_name :
    ∃ left, Tree.parse [] "send 3 => a,b" = .ok (sending "a,b", left) ∧
      (sending "a,b").resultNames = ["a,b"] ∧ Expr.isWord "a,b".toList = false ∧
      assignment ["a,b"] = "a,b, = " ∧
      targets? (assignment ["a,b"]).toList = some ["a".toList, "b".toList] ∧
      ∀ results, (Session.responses results ["a,b"]).length = 1 := by
  have hwell : (sending "a,b").wellFormed false = true := by decide
  obtain ⟨left, hparse⟩ := Tree.exists_parse [] "send 3 => a,b" hwell (by decide +kernel)
  exact ⟨left, hparse, rfl, by decide, rfl, by decide +kernel, fun results => rfl⟩

end ValueShell.Script
