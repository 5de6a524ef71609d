import ValueShell.Proofs.Script.CallSource
import ValueShell.Proofs.Script.Scoping
import ValueShell.Proofs.Script.Targets

/-!
# Command lines in converted scripts

A command line becomes one line of the converted script: its indentation, the assignment of its results and
a call. Whatever the command line holds, this line has only printable characters, and so no line feed, and
its call is read back with the command line as the value of the first argument (`convert_command_line`).
-/

set_option autoImplicit false

namespace ValueShell.Script

open ValueShell.Text ValueShell.Evaluation

/-! ## Printable characters -/

/-- A text of printable characters stands on one line. -/
def Printable (s : String) : Prop := ∀ c ∈ s.toList, isPrintable c = true

namespace Printable

variable {s t : String}

theorem append (hs : Printable s) (ht : Printable t) : Printable (s ++ t) := by
  rw [Printable, String.toList_append]
  exact List.forall_mem_append.mpr ⟨hs, ht⟩

theorem feed_not_mem (h : Printable s) : '\n' ∉ s.toList := fun hmem => by
  cases h _ hmem

theorem quote (s : String) : Printable (quote s) := by
  intro c hc
  rw [Text.quote, String.toList_ofList] at hc
  exact isPrintable_of_mem_quoteChars hc

theorem intercalate {parts : List String} (h : ∀ part ∈ parts, Printable part) :
    Printable (", ".intercalate parts) := by
  induction parts with
  | nil => simp [Printable]
  | cons part parts ih =>
    obtain ⟨hpart, hparts⟩ := List.forall_mem_cons.mp h
    cases parts with
    | nil => simpa using hpart
    | cons next parts =>
      rw [String.intercalate_cons_cons]
      exact (hpart.append (by simp [Printable, isPrintable])).append (ih hparts)

theorem join {parts : List String} (h : ∀ part ∈ parts, Printable part) : Printable (String.join parts) := by
  induction parts with
  | nil => simp [Printable]
  | cons part parts ih =>
    obtain ⟨hpart, hparts⟩ := List.forall_mem_cons.mp h
    rw [String.join_cons]
    exact hpart.append (ih hparts)

theorem argument (a : Argument) : Printable a.source := by
  cases a with
  | text s => exact .quote s
  | texts ss =>
    rw [Argument.source, bracketed]
    refine (Printable.append (by simp [Printable, isPrintable]) (.intercalate fun part hpart => ?_)).append
      (by simp [Printable, isPrintable])
    obtain ⟨s, -, rfl⟩ := List.mem_map.mp hpart
    exact .quote s
  | locals => simp [Argument.source, Printable, isPrintable]
  | globals => simp [Argument.source, Printable, isPrintable]

/-- The names that are let through are printable. -/
theorem of_isResultName {name : String} (h : Tree.isResultName name = true) : Printable name := by
  intro c hc
  obtain ⟨-, hchars⟩ := (Bool.and_eq_true _ _).mp h
  have hbounds := Token.toNat_of_unquotedChar (List.all_eq_true.mp hchars c hc)
  rw [isPrintable, if_pos (by omega)]
  simp
  omega

theorem assignment {names : List String} (h : ∀ name ∈ names, Tree.isResultName name = true) :
    Printable (assignment names) := by
  rw [Script.assignment]
  split
  · simp [Printable]
  · refine (Printable.join fun part hpart => ?_).append (by simp [Printable, isPrintable])
    obtain ⟨name, hname, rfl⟩ := List.mem_map.mp hpart
    exact (of_isResultName (h name hname)).append (by simp [Printable, isPrintable])

theorem source (as : List Argument) : Printable (Call.mk [] "pysh.shell.runner.run" as).source := by
  have hfunction : Printable "pysh.shell.runner.run" := by simp [Printable, isPrintable]
  have harguments : Printable (", ".intercalate (as.map Argument.source)) := by
    refine .intercalate fun part hpart => ?_
    obtain ⟨a, -, rfl⟩ := List.mem_map.mp hpart
    exact argument a
  have hnone : Printable "" := by simp [Printable]
  exact (((hnone.append hfunction).append (by simp [Printable, isPrintable])).append harguments).append
    (by simp [Printable, isPrintable])

end Printable

/-! ## Lines one after the other -/

/-- What is written after lines that can be converted. -/
theorem writeLines_append {style : Style} {before : List Line} (h : (writeLines style none before).fault = none)
    (fault : Option Fault) (lines : List Line) :
    writeLines style fault (before ++ lines) =
      (writeLines style fault lines).after (writeLines style none before).text := by
  induction before with
  | nil => simp [writeLines, Written.after]
  | cons line before ih =>
    rw [writeLines] at h
    rw [List.cons_append, writeLines, writeLines]
    cases htext : lineText style line with
    | error e =>
      rw [htext] at h
      cases h
    | ok text =>
      rw [htext] at h
      dsimp only at h ⊢
      rw [ih h]
      simp [Written.after, String.append_assoc]

theorem source_bareCall (content : String) (names : List String) :
    (bareCall {} content names).source =
      "pysh.shell.runner.run(" ++ quote content ++ ", locals(), globals(), " ++ bracketed (names.map quote) ++
        ")" := by
  have hfunction : "pysh.shell.runner.run(" = "" ++ "pysh.shell.runner.run" ++ "(" := rfl
  have hbetween : ", locals(), globals(), " = ", " ++ ("locals()" ++ (", " ++ ("globals()" ++ ", "))) := rfl
  rw [hfunction, hbetween]
  simp only [bareCall, Call.source, Call.ofCommand, Argument.source, List.map_cons, List.map_nil,
    String.intercalate_cons_cons, String.intercalate_singleton, String.append_assoc]
  rfl

/-- **A command line becomes one line.** It is written after the lines before it, as its indentation, the
assignment of its results and a call, and before the lines after it. No line feed stands between its
indentation and its end. The call is read as a call of the function that runs command lines, and the literal
that is its first argument has the command line as its value. -/
theorem convert_command_line {script : List Char} {before after : List Line} {line : Line} {tree : Tree}
    {left : Tree.Input} (signature : Bool) (hlines : (lines script).lines = before ++ line :: after)
    (hbefore : (writeLines { signature } none before).fault = none) (hmode : line.mode = .shell)
    (hcontent : line.content ≠ [])
    (hparse : Tree.parse [] (String.ofList line.content) = .ok (tree, left)) :
    let content := String.ofList line.content
    let names := tree.resultNames
    ∃ call literal,
      (convert { signature } script).text =
        (if signature then signatureText else "") ++ importText ++ (writeLines { signature } none before).text ++
          (String.ofList line.indent ++ assignment names ++ call ++ "\n") ++
          (writeLines { signature } ((lines script).complaint.map .complaint) after).text ∧
      '\n' ∉ (assignment names ++ call).toList ∧
      call = "pysh.shell.runner.run(" ++ literal ++ ", locals(), globals(), " ++ bracketed (names.map quote) ++
        ")" ∧
      Expr.parse call = .ok (.call runFunction (positional [.literal (.text content),
        .call (.name "locals") [], .call (.name "globals") [],
        .list (names.map fun name => .literal (.text name))])) ∧
      ∀ scope, Expr.evalText scope literal = .ok (.text content) := by
  intro content names
  have hnames : resultNames content = .ok names := by
    rw [resultNames, hparse]
    rfl
  have hline : lineText { signature } line = .ok (assignment names ++ (bareCall {} content names).source) := by
    rw [lineText_shell _ hmode hcontent, hnames, ← callText_eq]
    rfl
  have hwords : ∀ name ∈ names, Tree.isResultName name = true := fun name hname =>
    Tree.isResultName_of_parse hparse name (tree.resultNames_subset hname)
  refine ⟨(bareCall {} content names).source, quote content, ?_, ?_, ?_, ?_, fun scope => ?_⟩
  · rw [convert, hlines, writeLines_append hbefore, writeLines, hline]
    simp [Written.after, String.append_assoc]
  · exact ((Printable.assignment hwords).append (.source _)).feed_not_mem
  · exact source_bareCall content names
  · exact parse_source (Printable.source _)
  · exact Expr.evalText_quote scope content

/-- A command line with a string over two lines, in which quotes and a backslash stand. -/
def quotedLine : Line where
  indent := "  ".toList
  mode := .shell
  content := "echo \'\'\'a\"b\\c\nd\'\'\' => y".toList

theorem convert_command_line_quoted :
    let script := "x = 1\n  > echo \'\'\'a\"b\\c\nd\'\'\' => y\nf(y)\n".toList
    ∃ call literal,
      (convert {} script).text =
        "import pysh.shell.runner\nx = 1\n" ++ ("  " ++ "y, = " ++ call ++ "\n") ++ "f(y)\n" ∧
      '\n' ∉ ("y, = " ++ call).toList ∧
      ∀ scope, Expr.evalText scope literal = .ok (.text "echo \'\'\'a\"b\\c\nd\'\'\' => y") := by
  intro script
  have hlines : (lines script).lines =
      [⟨[], .host, "x = 1".toList⟩] ++ quotedLine :: [⟨[], .host, "f(y)".toList⟩] := by
    decide +kernel
  have hwell : (Tree.process [[.token ⟨.literal, "echo"⟩], [.token ⟨.singleQuoted, "\'\'\'a\"b\\c\nd\'\'\'"⟩]]
      [.capture "y"]).wellFormed false = true := by decide
  obtain ⟨left, hparse⟩ := Tree.exists_parse [] (String.ofList quotedLine.content) hwell (by decide +kernel)
  obtain ⟨call, literal, htext, hfeed, -, -, hvalue⟩ :=
    convert_command_line false hlines rfl rfl (by decide +kernel) hparse
  refine ⟨call, literal, ?_, hfeed, hvalue⟩
  have hhead : (if false = true then signatureText else "") ++ importText ++
      (writeLines {} none [⟨[], .host, "x = 1".toList⟩]).text = "import pysh.shell.runner\nx = 1\n" := by
    decide +kernel
  have htail : (writeLines {} ((lines script).complaint.map .complaint) [⟨[], .host, "f(y)".toList⟩]).text =
      "f(y)\n" := by
    decide +kernel
  rw [htext, htail, hhead]
  rfl

end ValueShell.Script
