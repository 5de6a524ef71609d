import ValueShell.Proofs.Text.Quoting
import ValueShell.Script.Call

/-!
# How a call is read

A call that a converted script makes is read as the expression that it is meant to be: its function, with
its arguments in their places, and texts as literals of the same value (`parse_source`). Each part of a call
is scanned and parsed whatever follows it, as long as this begins with a comma or a closing bracket (`Scans`,
`expression_argument`), and lists of parts by induction.
-/

set_option autoImplicit false

namespace ValueShell.Script

open ValueShell.Text ValueShell.Expr

/-! ## Lexemes -/

/-- A part of a call ends before such a text. -/
def Delimited (rest : List Char) : Prop := ∀ c ∈ rest.head?, c = ',' ∨ c = ']' ∨ c = ')'

/-- The text is scanned as these lexemes, between brackets that wait to be closed. -/
def Scans (waiting : List String) (text : List Char) (ls : List Lexeme) : Prop :=
  ∃ steps ≤ text.length, ∀ n rest, Delimited rest →
    scanFrom (n + steps) waiting false (text ++ rest) = ls ++ scanFrom n waiting false rest

namespace Scans

variable {waiting : List String}

theorem quote (waiting : List String) (s : String) : Scans waiting (quote s).toList [.constant (.text s)] := by
  refine ⟨1, ?_, fun n rest hrest => ?_⟩
  · rw [Text.quote, String.toList_ofList, quoteChars_eq, List.length_cons]
    omega
  · have hquote : ∀ d ∈ rest.head?, d ≠ apostrophe ∧ d ≠ doubleQuote := by
      intro d hd
      rcases hrest d hd with rfl | rfl | rfl <;> decide
    rw [Text.quote, String.toList_ofList, scanFrom_quoteChars n waiting s.toList hquote, String.ofList_toList]
    rfl

/-- Parts with commas between them. -/
theorem intercalate {α : Type} {text : α → String} {lexemes : α → List Lexeme} {parts : List α}
    (h : ∀ part ∈ parts, Scans waiting (text part).toList (lexemes part)) :
    Scans waiting (", ".intercalate (parts.map text)).toList ([.mark ","].intercalate (parts.map lexemes)) := by
  induction parts with
  | nil => exact ⟨0, Nat.zero_le _, fun n rest _ => rfl⟩
  | cons part parts ih =>
    obtain ⟨hpart, hparts⟩ := List.forall_mem_cons.mp h
    cases parts with
    | nil =>
      simp only [List.map_cons, List.map_nil, List.intercalate_singleton, String.intercalate_singleton]
      exact hpart
    | cons next parts =>
      obtain ⟨steps, hsteps, hscan⟩ := hpart
      obtain ⟨more, hmore, hscans⟩ := ih hparts
      have hcomma : ∀ (n : Nat) (rest : List Char), scanFrom (n + 2) waiting false (',' :: ' ' :: rest) =
          .mark "," :: scanFrom n waiting false rest := fun _ _ => rfl
      have htext : (", ".intercalate ((part :: next :: parts).map text)).toList =
          (text part).toList ++ ',' :: ' ' :: (", ".intercalate ((next :: parts).map text)).toList := by
        simp only [List.map_cons, String.intercalate_cons_cons, String.toList_append, List.append_assoc]
        rfl
      rw [htext]
      refine ⟨more + 2 + steps, ?_, fun n rest hrest => ?_⟩
      · rw [List.length_append, List.length_cons, List.length_cons]
        omega
      · rw [List.append_assoc, List.cons_append, List.cons_append, ← Nat.add_assoc, ← Nat.add_assoc, hscan,
          hcomma, hscans n rest hrest]
        · simp [List.intercalate_cons_cons]
        · simp [Delimited]

end Scans

/-- A word that is no keyword is a name. -/
theorem scanFrom_name {name : String} (hword : isWord name.toList = true)
    (hkeyword : keywords.contains name = false) {after : List Char} (hafter : EndsWord after) (n : Nat)
    (waiting : List String) :
    scanFrom (n + 1) waiting false (name.toList ++ after) = .name name :: scanFrom n waiting false after := by
  cases hname : name.toList with
  | nil =>
    rw [hname] at hword
    cases hword
  | cons c word =>
    rw [hname] at hword
    rw [scanFrom_word n waiting hword hafter, ← hname, String.ofList_toList, wordLexeme, hkeyword,
      if_neg Bool.false_ne_true]

theorem endsWord_cons {c : Char} (hname : mayBeNameChar c = false) (hquote : isQuote c = false)
    (rest : List Char) : EndsWord (c :: rest) := by
  intro d hd
  cases hd
  exact ⟨hname, hquote⟩

/-- A call without arguments. -/
theorem Scans.access {name : String} (hword : isWord name.toList = true)
    (hkeyword : keywords.contains name = false) :
    Scans [")"] (name.toList ++ ['(', ')']) [.name name, .mark "(", .mark ")"] := by
  refine ⟨3, ?_, fun n rest _ => ?_⟩
  · cases hname : name.toList with
    | nil =>
      rw [hname] at hword
      cases hword
    | cons c word => simp
  · have hbrackets : scanFrom (n + 2) [")"] false ('(' :: ')' :: rest) =
        .mark "(" :: .mark ")" :: scanFrom n [")"] false rest := rfl
    rw [List.append_assoc]
    exact (scanFrom_name hword hkeyword (endsWord_cons rfl rfl _) (n + 2) [")"]).trans (congrArg _ hbrackets)

/-- The lexemes of an argument. -/
def Argument.lexemes : Argument → List Lexeme
  | .text s => [.constant (.text s)]
  | .texts ss =>
    .mark "[" :: ([.mark ","].intercalate (ss.map fun s => [.constant (.text s)]) ++ [.mark "]"])
  | .locals => [.name "locals", .mark "(", .mark ")"]
  | .globals => [.name "globals", .mark "(", .mark ")"]

theorem scans_argument (a : Argument) : Scans [")"] a.source.toList a.lexemes := by
  cases a with
  | text s =>
    rw [Argument.source, Argument.lexemes]
    exact .quote _ s
  | texts ss =>
    obtain ⟨steps, hsteps, hscan⟩ := Scans.intercalate fun s (_ : s ∈ ss) => .quote ["]", ")"] s
    have htext : (Argument.texts ss).source.toList =
        '[' :: ((", ".intercalate (ss.map Text.quote)).toList ++ [']']) := by
      rw [Argument.source, bracketed, String.toList_append, String.toList_append]
      rfl
    refine ⟨steps + 2, ?_, fun n rest hrest => ?_⟩
    · rw [htext, List.length_cons, List.length_append, List.length_singleton]
      omega
    · have hopening : ∀ (n : Nat) (rest : List Char), scanFrom (n + 1) [")"] false ('[' :: rest) =
          .mark "[" :: scanFrom n ["]", ")"] false rest := fun _ _ => rfl
      have hclosing : ∀ (n : Nat) (rest : List Char), scanFrom (n + 1) ["]", ")"] false (']' :: rest) =
          .mark "]" :: scanFrom n [")"] false rest := fun _ _ => rfl
      have hfuel : n + (steps + 2) = n + 1 + steps + 1 := by omega
      rw [htext, hfuel, List.cons_append, List.append_assoc, hopening, List.singleton_append, hscan, hclosing]
      · simp [Argument.lexemes]
      · simp [Delimited]
  | locals => exact .access (by decide : isWord "locals".toList = true) (by decide)
  | globals => exact .access (by decide : isWord "globals".toList = true) (by decide)

/-- The function that runs command lines. -/
def runFunction : Expr := .attribute (.attribute (.attribute (.name "pysh") "shell") "runner") "run"

/-- The lexemes of a call of this function. -/
def callLexemes (arguments : List Argument) : List Lexeme :=
  [.name "pysh", .mark ".", .name "shell", .mark ".", .name "runner", .mark ".", .name "run", .mark "("] ++
    ([.mark ","].intercalate (arguments.map Argument.lexemes) ++ [.mark ")"])

/-- The function and the bracket that opens its arguments. -/
theorem scanFrom_function (n : Nat) (rest : List Char) :
    scanFrom (n + 9) [] true ("pysh.shell.runner.run(".toList ++ rest) =
      [.name "pysh", .mark ".", .name "shell", .mark ".", .name "runner", .mark ".", .name "run",
        .mark "("] ++ scanFrom n [")"] false rest := by
  have hfresh : scanFrom (n + 9) [] true ("pysh.shell.runner.run(".toList ++ rest) =
      scanFrom (n + 8) [] false ("pysh".toList ++ '.' :: ("shell".toList ++ '.' :: ("runner".toList ++
        '.' :: ("run".toList ++ '(' :: rest)))) :=
    scanFrom_fresh (n + 8) (by decide : isAsciiNameChar 'p' = true)
  have hshell (m : Nat) (ds : List Char) : scanFrom (m + 1) [] false ('.' :: ("shell".toList ++ ds)) =
      .mark "." :: scanFrom m [] false ("shell".toList ++ ds) := rfl
  have hrunner (m : Nat) (ds : List Char) : scanFrom (m + 1) [] false ('.' :: ("runner".toList ++ ds)) =
      .mark "." :: scanFrom m [] false ("runner".toList ++ ds) := rfl
  have hrun (m : Nat) (ds : List Char) : scanFrom (m + 1) [] false ('.' :: ("run".toList ++ ds)) =
      .mark "." :: scanFrom m [] false ("run".toList ++ ds) := rfl
  have hbracket : scanFrom (n + 1) [] false ('(' :: rest) = .mark "(" :: scanFrom n [")"] false rest := rfl
  rw [hfresh, scanFrom_name (by decide) (by decide) (endsWord_cons rfl rfl _), hshell,
    scanFrom_name (by decide) (by decide) (endsWord_cons rfl rfl _), hrunner,
    scanFrom_name (by decide) (by decide) (endsWord_cons rfl rfl _), hrun,
    scanFrom_name (by decide) (by decide) (endsWord_cons rfl rfl _), hbracket]
  rfl

theorem scan_source {arguments : List Argument}
    (hreturn : '\r' ∉ (Call.mk [] "pysh.shell.runner.run" arguments).source.toList) :
    Lexeme.scan (Call.mk [] "pysh.shell.runner.run" arguments).source.toList = callLexemes arguments := by
  obtain ⟨steps, hsteps, hscan⟩ := Scans.intercalate fun a (_ : a ∈ arguments) => scans_argument a
  have htext : (Call.mk [] "pysh.shell.runner.run" arguments).source.toList =
      "pysh.shell.runner.run(".toList ++
        ((", ".intercalate (arguments.map Argument.source)).toList ++ [')']) := by
    simp only [Call.source, String.toList_append]
    rfl
  have hclosing : ∀ n : Nat, scanFrom (n + 2) [")"] false [')'] = [.mark ")"] := fun _ => rfl
  have hlength : "pysh.shell.runner.run(".toList.length = 22 := rfl
  obtain ⟨n, hfuel⟩ : ∃ n, 2 * ("pysh.shell.runner.run(".toList ++
      ((", ".intercalate (arguments.map Argument.source)).toList ++ [')'])).length + 2 =
        n + 2 + steps + 9 := by
    simp only [List.length_append, List.length_singleton, hlength]
    generalize (", ".intercalate (arguments.map Argument.source)).toList.length = length at hsteps ⊢
    exact ⟨2 * length + 37 - steps, by omega⟩
  rw [Lexeme.scan, normalizeNewlines_eq_self fun c hc heq => hreturn (heq ▸ hc), htext, hfuel, scanFrom_function,
    hscan, hclosing]
  · rfl
  · simp [Delimited]

/-! ## Expressions -/

/-- The expression that an argument is read as. -/
def Argument.expr : Argument → Expr
  | .text s => .literal (.text s)
  | .texts ss => .list (ss.map fun s => .literal (.text s))
  | .locals => .call (.name "locals") []
  | .globals => .call (.name "globals") []

/-- The marks after a part of a call. -/
def IsDelimiter (m : String) : Prop := m = "," ∨ m = "]" ∨ m = ")"

/-- What follows goes on with no operand. -/
inductive Ended : List Lexeme → Prop
  | nil : Ended []
  | mark {m : String} {rest : List Lexeme} : IsDelimiter m → Ended (.mark m :: rest)

section Operand

variable {ls after : List Lexeme} {e : Expr}

theorem binaryRest_ended (hafter : Ended after) (n level : Nat) :
    binaryRest (n + 1) level e after = some (e, after) := by
  cases hafter with
  | nil => rfl
  | mark hm =>
    have hnone : ∀ {m : String}, IsDelimiter m → levelOp? level m = none := by
      rintro m (rfl | rfl | rfl) <;> simp [levelOp?]
    rw [binaryRest, hnone hm]

/-- An operand is read on every level of operators. -/
theorem binary_operand (hafter : Ended after) {n : Nat} (h : factor n ls = some (e, after))
    (level steps : Nat) (hlevel : level + steps = 6) :
    binary_ (n + 1 + steps) level ls = some (e, after) := by
  induction steps generalizing level with
  | zero => rw [binary_, if_pos (by omega), h]
  | succ steps ih =>
    rw [← Nat.add_assoc, binary_, if_neg (by omega), ih (level + 1) (by omega), Nat.add_right_comm n]
    exact binaryRest_ended hafter _ level

theorem comparisons_ended (hafter : Ended after) (n : Nat) : comparisons (n + 1) after = some ([], after) := by
  cases hafter with
  | nil => rfl
  | mark hm => rcases hm with rfl | rfl | rfl <;> rfl

theorem atKeyword_ended (hafter : Ended after) (k : String) : atKeyword k after = false := by
  cases hafter <;> rfl

/-- What begins with a bracket or a name and is an operand is an expression. -/
theorem expression_operand {first : Lexeme} (hfirst : first = .mark "[" ∨ ∃ s, first = .name s)
    (hafter : Ended after) {n : Nat} (h : factor n (first :: ls) = some (e, after)) :
    expression (n + 11) (first :: ls) = some (e, after) := by
  have hbinary : binary_ (n + 7) 0 (first :: ls) = some (e, after) := binary_operand hafter h 0 6 rfl
  have hinversion : inversion (n + 8) (first :: ls) = some (e, after) := by
    have hstep : inversion (n + 8) (first :: ls) = (binary_ (n + 7) 0 (first :: ls)).bind fun operand =>
        (comparisons (n + 7) operand.2).bind fun others =>
          some (if others.1.isEmpty then operand.1 else .compare operand.1 others.1, others.2) := by
      rcases hfirst with rfl | ⟨s, rfl⟩ <;> rfl
    rw [hstep, hbinary, Option.bind_some, comparisons_ended hafter]
    rfl
  have hconjunction : conjunction (n + 9) (first :: ls) = some (e, after) := by
    rw [conjunction, hinversion]
    simp only [Option.bind_eq_bind, Option.bind_some, atKeyword_ended hafter, Bool.false_eq_true, if_false]
  have hdisjunction : disjunction (n + 10) (first :: ls) = some (e, after) := by
    rw [disjunction, hconjunction]
    simp only [Option.bind_eq_bind, Option.bind_some, atKeyword_ended hafter, Bool.false_eq_true, if_false]
  have hstep : expression (n + 11) (first :: ls) = (disjunction (n + 10) (first :: ls)).bind fun yes =>
      if atKeyword "if" yes.2 then
        (disjunction (n + 10) (yes.2.drop 1)).bind fun condition =>
          (expectKeyword "else" condition.2).bind fun rest =>
            (expression (n + 10) rest).bind fun no => some (.choice condition.1 yes.1 no.1, no.2)
      else some yes := by
    rcases hfirst with rfl | ⟨s, rfl⟩ <;> rfl
  rw [hstep, hdisjunction]
  simp only [Option.bind_some, atKeyword_ended hafter, Bool.false_eq_true, if_false]

/-- An operand without a power. -/
theorem factor_ended {n : Nat} {first : Lexeme} (hfirst : first = .mark "[" ∨ ∃ s, first = .name s)
    (hafter : Ended after) {head : Expr} {rest : List Lexeme} (hatom : atom n (first :: ls) = some (head, rest))
    (h : trailers n head rest = some (e, after)) : factor (n + 1) (first :: ls) = some (e, after) := by
  have hpower : atMark "**" after = false := by
    cases hafter with
    | nil => rfl
    | mark hm => rcases hm with rfl | rfl | rfl <;> rfl
  have hstep : factor (n + 1) (first :: ls) = (atom n (first :: ls)).bind fun r =>
      (trailers n r.1 r.2).bind fun base =>
        if atMark "**" base.2 then
          (factor n (base.2.drop 1)).bind fun exponent => some (.binary .power base.1 exponent.1, exponent.2)
        else some base := by
    rcases hfirst with rfl | ⟨s, rfl⟩ <;> rfl
  rw [hstep, hatom, Option.bind_some, h, Option.bind_some, hpower, if_neg Bool.false_ne_true]

end Operand

/-! ### Texts and lists of texts -/

theorem item_text (n : Nat) (s : String) {m : String} (hm : IsDelimiter m) (rest : List Lexeme) :
    item (n + 20) (.constant (.text s) :: .mark m :: rest) = some (.literal (.text s), .mark m :: rest) := by
  rcases hm with rfl | rfl | rfl <;> rfl

/-- After a text comes a comma or the end of the list. -/
theorem exists_delimiter (ss : List String) (rest : List Lexeme) :
    ∃ m after, IsDelimiter m ∧
      ss.flatMap (fun s => [.mark ",", .constant (.text s)]) ++ .mark "]" :: rest = .mark m :: after := by
  cases ss with
  | nil => exact ⟨_, _, .inr (.inl rfl), rfl⟩
  | cons => exact ⟨_, _, .inl rfl, rfl⟩

theorem moreItems_texts (n : Nat) (ss : List String) (rest : List Lexeme) :
    moreItems (n + ss.length + 20) "]"
        (ss.flatMap (fun s => [.mark ",", .constant (.text s)]) ++ .mark "]" :: rest) =
      some (ss.map fun s => .literal (.text s), rest) := by
  induction ss generalizing n with
  | nil => rfl
  | cons s ss ih =>
    have hfuel : n + (s :: ss).length + 20 = n + ss.length + 20 + 1 := by
      rw [List.length_cons]
      omega
    obtain ⟨m, after, hm, hafter⟩ := exists_delimiter ss rest
    rw [hfuel, List.flatMap_cons, List.append_assoc, List.cons_append, List.singleton_append]
    have hstep : moreItems (n + ss.length + 20 + 1) "]" (.mark "," :: .constant (.text s) :: .mark m :: after) =
        (item (n + ss.length + 20) (.constant (.text s) :: .mark m :: after)).bind fun r =>
          (moreItems (n + ss.length + 20) "]" r.2).bind fun others => some (r.1 :: others.1, others.2) := rfl
    rw [hafter, hstep, item_text _ _ hm, Option.bind_some, ← hafter, ih, Option.bind_some]
    rfl

theorem intercalate_texts (s : String) (ss : List String) :
    [Lexeme.mark ","].intercalate ((s :: ss).map fun s => [.constant (.text s)]) =
      .constant (.text s) :: ss.flatMap fun s => [.mark ",", .constant (.text s)] := by
  induction ss generalizing s with
  | nil => rfl
  | cons t ss ih =>
    rw [List.map_cons, List.map_cons, List.intercalate_cons_cons,
      ← List.map_cons (f := fun s => [Lexeme.constant (.text s)]), ih]
    rfl

theorem atom_texts (n : Nat) (ss : List String) (rest : List Lexeme) :
    atom (n + ss.length + 21) ((Argument.texts ss).lexemes ++ rest) =
      some ((Argument.texts ss).expr, rest) := by
  cases ss with
  | nil => rfl
  | cons s ss =>
    obtain ⟨m, after, hm, hafter⟩ := exists_delimiter ss rest
    have hlexemes : (Argument.texts (s :: ss)).lexemes ++ rest =
        .mark "[" :: .constant (.text s) :: .mark m :: after := by
      rw [Argument.lexemes, intercalate_texts, ← hafter]
      simp
    have hitem := item_text (n + ss.length + 1) s hm after
    have hmore := moreItems_texts (n + 1) ss rest
    have hfuel : n + (s :: ss).length + 21 = n + ss.length + 1 + 20 + 1 := rfl
    rw [Nat.add_right_comm n 1, hafter] at hmore
    rw [hlexemes, hfuel, atom]
    simp only [atMark, Bool.false_eq_true, if_false, hitem, Option.bind_eq_bind, Option.bind_some, atKeyword,
      hmore]
    rfl

/-! ### Arguments -/

/-- How much deeper than other arguments an argument is read. -/
def Argument.depth : Argument → Nat
  | .texts ss => ss.length
  | _ => 0

theorem expression_argument (n : Nat) (a : Argument) {m : String} (hm : IsDelimiter m) (rest : List Lexeme) :
    expression (n + a.depth + 33) (a.lexemes ++ .mark m :: rest) = some (a.expr, .mark m :: rest) := by
  cases a with
  | text s => rcases hm with rfl | rfl | rfl <;> rfl
  | texts ss =>
    refine expression_operand (.inl rfl) (.mark hm) (factor_ended (.inl rfl) (.mark hm) (atom_texts n ss _) ?_)
    rcases hm with rfl | rfl | rfl <;> rfl
  | locals => rcases hm with rfl | rfl | rfl <;> rfl
  | globals => rcases hm with rfl | rfl | rfl <;> rfl

/-- Arguments by their places. -/
def positional (es : List Expr) : List (ArgKind × Expr) := es.map fun e => (.positional, e)

/-- An argument is put after those before it. -/
theorem arguments_argument (n : Nat) (a : Argument) (es : List Expr) {m : String} (hm : IsDelimiter m)
    (rest : List Lexeme) :
    arguments (n + a.depth + 35) (positional es) (a.lexemes ++ .mark m :: rest) =
      afterArgument (n + a.depth + 34) (positional (es ++ [a.expr])) (.mark m :: rest) := by
  have hread := expression_argument n a hm rest
  have hnamed : named (n + a.depth + 34) (a.lexemes ++ .mark m :: rest) =
      some (a.expr, .mark m :: rest) := by
    rw [← hread]
    cases a <;> rfl
  rw [arguments.eq_def]
  dsimp only
  split
  · rename_i heq
    cases a <;> simp [Argument.lexemes] at heq
  · rename_i heq
    cases a <;> simp [Argument.lexemes] at heq
  · rename_i heq
    cases a <;> simp [Argument.lexemes] at heq
  · rename_i heq
    cases a <;> simp [Argument.lexemes] at heq
  · -- all arguments so far are taken by their places
    rw [if_neg (by simp [positional]), hnamed]
    simp [atKeyword, positional]

/-- All arguments up to the closing parenthesis. -/
theorem arguments_list (n : Nat) (as : List Argument) (es : List Expr) (rest : List Lexeme) :
    arguments (n + (as.map Argument.depth).sum + 2 * as.length + 35) (positional es)
        ([.mark ","].intercalate (as.map Argument.lexemes) ++ .mark ")" :: rest) =
      some (positional (es ++ as.map Argument.expr), rest) := by
  induction as generalizing n es with
  | nil => simp [arguments]
  | cons a as ih =>
    have hfuel : n + ((a :: as).map Argument.depth).sum + 2 * (a :: as).length + 35 =
        n + (as.map Argument.depth).sum + 2 * as.length + 2 + a.depth + 35 := by
      simp only [List.map_cons, List.sum_cons, List.length_cons]
      omega
    have hnext : n + (as.map Argument.depth).sum + 2 * as.length + 2 + a.depth + 34 =
        n + a.depth + (as.map Argument.depth).sum + 2 * as.length + 35 + 1 := by
      omega
    rw [hfuel]
    cases as with
    | nil =>
      rw [List.map_singleton, List.intercalate_singleton, arguments_argument _ a es (.inr (.inr rfl))]
      simp [afterArgument, atMark, arguments]
    | cons b as =>
      have hcomma : [Lexeme.mark ","].intercalate ((a :: b :: as).map Argument.lexemes) ++ .mark ")" :: rest =
          a.lexemes ++ .mark "," ::
            ([.mark ","].intercalate ((b :: as).map Argument.lexemes) ++ .mark ")" :: rest) := by
        simp [List.intercalate_cons_cons]
      rw [hcomma, arguments_argument _ a es (.inl rfl), hnext, afterArgument, ih]
      simp

/-! ### Calls -/

theorem depth_lt_length (a : Argument) : a.depth < a.lexemes.length := by
  cases a with
  | text s => exact Nat.zero_lt_one
  | texts ss =>
    have hlisted : ss.length ≤
        ([Lexeme.mark ","].intercalate (ss.map fun s => [Lexeme.constant (.text s)])).length := by
      induction ss with
      | nil => exact Nat.le_refl 0
      | cons s ss ih =>
        cases ss with
        | nil => exact Nat.le_refl 1
        | cons t ss =>
          simp only [List.map_cons, List.intercalate_cons_cons, List.length_append, List.length_cons] at ih ⊢
          omega
    rw [Argument.depth, Argument.lexemes, List.length_cons, List.length_append]
    omega
  | locals => decide
  | globals => decide

/-- There are as many lexemes as the depth of reading asks for. -/
theorem depth_le_length (as : List Argument) :
    (as.map Argument.depth).sum + as.length ≤
      ([Lexeme.mark ","].intercalate (as.map Argument.lexemes)).length := by
  induction as with
  | nil => exact Nat.le_refl 0
  | cons a as ih =>
    have ha := depth_lt_length a
    cases as with
    | nil => simpa using Nat.succ_le_of_lt ha
    | cons b as =>
      simp only [List.map_cons, List.intercalate_cons_cons, List.length_append, List.length_cons,
        List.sum_cons] at ih ⊢
      omega

theorem expressions_call (n : Nat) (as : List Argument) :
    expressions (n + (as.map Argument.depth).sum + 2 * as.length + 52) (callLexemes as) =
      some (.call runFunction (positional (as.map Argument.expr)), []) := by
  have harguments := arguments_list n as [] []
  generalize n + (as.map Argument.depth).sum + 2 * as.length = fuel at harguments ⊢
  have htrailers : trailers (fuel + 39) (.name "pysh") ((callLexemes as).drop 1) =
      some (.call runFunction (positional (as.map Argument.expr)), []) := by
    have hstep : trailers (fuel + 39) (.name "pysh") ((callLexemes as).drop 1) =
        (arguments (fuel + 35) [] ([.mark ","].intercalate (as.map Argument.lexemes) ++ [.mark ")"])).bind
          fun r => trailers (fuel + 35) (.call runFunction r.1) r.2 := rfl
    have hnone : positional [] = [] := rfl
    rw [hstep, ← hnone, harguments]
    rfl
  have hexpression : expression (fuel + 51) (callLexemes as) =
      some (.call runFunction (positional (as.map Argument.expr)), []) :=
    expression_operand (.inr ⟨_, rfl⟩) .nil (factor_ended (.inr ⟨_, rfl⟩) .nil rfl htrailers)
  have hstep : expressions (fuel + 52) (callLexemes as) = (expression (fuel + 51) (callLexemes as)).bind
      fun first => if atMark "," first.2 then
        (expressions.more (fuel + 51) first.2).bind fun others =>
          some (.tuple (first.1 :: others.1), others.2)
      else some first := rfl
  rw [hstep, hexpression]
  rfl

/-- A call is read as what it was written for, if no line ends inside of it. -/
theorem parse_source {as : List Argument}
    (h : ∀ c ∈ (Call.mk [] "pysh.shell.runner.run" as).source.toList, isPrintable c = true) :
    Expr.parse (Call.mk [] "pysh.shell.runner.run" as).source =
      .ok (.call runFunction (positional (as.map Argument.expr))) := by
  have hreturn : '\r' ∉ (Call.mk [] "pysh.shell.runner.run" as).source.toList := fun hmem => by
    cases h _ hmem
  have hnul : (Call.mk [] "pysh.shell.runner.run" as).source.toList.contains (Char.ofNat 0) = false := by
    rw [Bool.eq_false_iff, ne_eq, List.contains_iff_mem]
    intro hmem
    cases h _ hmem
  obtain ⟨n, hfuel⟩ : ∃ n, 40 * ((callLexemes as).length + 2) =
      n + (as.map Argument.depth).sum + 2 * as.length + 52 := by
    have hlength := depth_le_length as
    simp only [callLexemes, List.length_append, List.length_cons, List.length_nil]
    generalize ([Lexeme.mark ","].intercalate (as.map Argument.lexemes)).length = length at hlength ⊢
    exact ⟨40 * (8 + (length + 1) + 2) - ((as.map Argument.depth).sum + 2 * as.length + 52), by omega⟩
  rw [Expr.parse, hnul, if_neg Bool.false_ne_true, scan_source hreturn]
  dsimp only
  rw [hfuel, expressions_call]
  rfl

end ValueShell.Script
