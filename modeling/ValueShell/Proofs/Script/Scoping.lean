import ValueShell.Proofs.Command.Printing
import ValueShell.Proofs.Evaluation.Classification
import ValueShell.Proofs.Evaluation.Storing
import ValueShell.Proofs.Expr.FreeNames
import ValueShell.Script.Convert

/-!
# Names in the command lines of a script

By the rule of scopes a local name hides a global one, and this hides a variable of the environment. The
call that runs a command line passes the local names where the global ones are taken, and the other way
round, so that in a command line a global name hides a local one. This decides the values of `$x` and of
all free names of expressions, from the beginning of a run to its end (`converted_names_seen`). The
difference shows for a name that is both local and global, with different values.
-/

set_option autoImplicit false

namespace ValueShell.Script

open ValueShell.Evaluation ValueShell.Task

variable {site : Site} {environment : List (String × String)} {x : String}

/-! ## The two orders -/

/-- The variables of an environment as names. -/
def environmentNames (environment : List (String × String)) : Bindings :=
  environment.map fun e => (e.1, .text e.2)

/-- The value of a name by the rule of scopes. -/
def Site.nearest (site : Site) (environment : List (String × String)) (x : String) : Option Value :=
  (site.locals.find? x).or ((site.globals.find? x).or ((environmentNames environment).find? x))

/-- The value of a name in a command line. -/
def Site.seen (site : Site) (environment : List (String × String)) (x : String) : Option Value :=
  (site.globals.find? x).or ((site.locals.find? x).or ((environmentNames environment).find? x))

/-- A name is seen by the rule of scopes if and only if it is not local and global with two values. -/
theorem Site.seen_eq_nearest_iff :
    site.seen environment x = site.nearest environment x ↔
      ∀ v u, site.locals.find? x = some v → site.globals.find? x = some u → v = u := by
  unfold seen nearest
  cases site.locals.find? x with
  | none => simp
  | some v =>
    cases site.globals.find? x with
    | none => simp
    | some u =>
      constructor
      · rintro heq v' u' ⟨⟩ ⟨⟩
        exact (Option.some.inj heq).symm
      · intro h
        rw [h v u rfl rfl]

/-! ## What a call passes -/

theorem invocation?_ofCommand (function command : String) (names : List String) (site : Site) :
    (Call.ofCommand function command names).invocation? site =
      some { command, globals := site.locals, locals := site.globals, names } := rfl

/-- In the session of a call names have the values that are seen. -/
theorem find?_names_session {i : Invocation} (hglobals : i.globals = site.locals)
    (hlocals : i.locals = site.globals) (s : Session) :
    (i.session s).world.scope.names.find? x = site.seen s.environment x := by
  have hnames : (i.session s).world.scope.names =
      i.locals ++ i.globals ++ environmentNames s.environment := rfl
  rw [hnames, hlocals, hglobals, Bindings.find?_append, Bindings.find?_append, Option.or_assoc]
  rfl

/-- A command line is written as the call that runs it. -/
theorem lineText_shell (style : Style) {line : Line} (hmode : line.mode = .shell)
    (hcontent : line.content ≠ []) :
    lineText style line =
      (resultNames (String.ofList line.content)).map (callText style (String.ofList line.content)) := by
  have hempty : line.content.isEmpty = false := by simpa using hcontent
  unfold lineText
  rw [hmode]
  dsimp only
  rw [hempty, if_neg Bool.false_ne_true]

/-! ## Values of substitutions -/

/-- Substitutions have the values that names have by a rule: a variable its own, and an expression the one
that it has wherever its free names have theirs. -/
structure Resolves (scope : WordScope) (rule : String → Option Value) : Prop where
  name : ∀ {t : Token} {x : String} {v : Value}, t.kind = .substitution → substituted t.text = x.toList →
    Expr.isWord x.toList = true → Expr.keywords.contains x = false → rule x = some v →
    scope.tokenValue t = .ok v
  expression : ∀ {t : Token} {e : Expr} {names : Bindings}, t.kind = .substitution →
    Expr.parseTrimmed (String.ofList (substituted t.text)) = .ok e →
    (∀ x ∈ e.freeNames, names.find? x = rule x) → scope.tokenValue t = Expr.value { globals := names } e

theorem resolves_find? (scope : WordScope) : Resolves scope scope.names.find? where
  name := by
    intro t x v ht hx hword hkeyword hv
    have hname : String.ofList (substituted t.text) = x := by
      rw [hx, String.ofList_toList]
    unfold WordScope.tokenValue
    rw [ht]
    apply WordScope.substitution_name
    · rw [hx]
      exact hword
    · rw [hname]
      exact hkeyword
    · rw [hname]
      exact hv
  expression := by
    intro t e names ht hparse hnames
    unfold WordScope.tokenValue
    rw [ht]
    exact Expr.evalText_congr hparse hnames

/-- Every command line of a converted script becomes a call that runs it. From wherever the call is made,
and wherever the run of the command line has come to, names are resolved as they are seen from the place of
the call: global before local before the environment. This is the rule of scopes for the names that are not
both local and global with different values, and for no others. -/
theorem converted_names_seen (style : Style) {line : Line} (hmode : line.mode = .shell)
    (hcontent : line.content ≠ []) {text : String} (htext : lineText style line = .ok text) :
    ∃ names, resultNames (String.ofList line.content) = .ok names ∧
      text = (Call.ofCommand style.runFunction (String.ofList line.content) names).source ∧
      ∀ (site : Site) (s : Session),
        (∃ i, (Call.ofCommand style.runFunction (String.ofList line.content) names).invocation? site =
            some i ∧
          i.command = String.ofList line.content ∧ i.globals = site.locals ∧ i.locals = site.globals ∧
          ∀ plan next r, (i.session s).plan i.command = .ok plan →
            (∀ w c w', next w c w' → w'.scope.names = w.scope.names) →
            Run LeafTask.leaf next plan (i.session s).world r →
            Resolves r.world.scope (site.seen s.environment)) ∧
        ∀ x, site.seen s.environment x = site.nearest s.environment x ↔
          ∀ v u, site.locals.find? x = some v → site.globals.find? x = some u → v = u := by
  rw [lineText_shell style hmode hcontent] at htext
  cases hnames : resultNames (String.ofList line.content) with
  | error fault =>
    rw [hnames] at htext
    cases htext
  | ok names =>
    rw [hnames] at htext
    cases htext
    refine ⟨names, rfl, rfl, fun site s => ⟨⟨_, invocation?_ofCommand _ _ _ site, rfl, rfl, rfl, ?_⟩, ?_⟩⟩
    · intro plan next r hplan hnext hrun
      have hseen : r.world.scope.names.find? = site.seen s.environment := by
        funext x
        rw [names_of_run hnext hrun]
        exact find?_names_session rfl rfl s
      rw [← hseen]
      exact resolves_find? r.world.scope
    · exact fun x => Site.seen_eq_nearest_iff

/-- A place where a name is local and global. -/
def shadowing : Site where
  locals := [("x", .text "inner"), ("z", .list [.text "1", .text "2"])]
  globals := [("x", .text "outer")]

/-- A command that prints a variable and a list of texts that begin with it. -/
def printing : Tree :=
  .process [[.token ⟨.literal, "echo"⟩], [.token ⟨.substitution, "$x"⟩],
    [.token ⟨.substitution, "$\x7b[x + y for y in z]\x7d"⟩]] []

/-- The command as a line of a script. -/
def printingLine : Line where
  indent := []
  mode := .shell
  content := "echo $x $\x7b[x + y for y in z]\x7d".toList

theorem exists_parse_printing :
    ∃ rest, Tree.parse [] (String.ofList printingLine.content) = .ok (printing, rest) :=
  Tree.exists_parse [] _ (by decide) (by decide +kernel)

theorem printing_content_ne : printingLine.content ≠ [] := by decide +kernel

theorem lineText_printing :
    lineText {} printingLine = .ok (callText {} (String.ofList printingLine.content) []) := by
  obtain ⟨rest, hparse⟩ := exists_parse_printing
  have hnames : resultNames (String.ofList printingLine.content) = .ok [] := by
    rw [resultNames, hparse]
    rfl
  rw [lineText_shell {} rfl printing_content_ne, hnames]
  rfl

theorem converted_names_seen_printing :
    ∃ (call : Call) (i : Invocation) (plan : Plan) (e : Expr) (r : Runner (Job LeafTask) Mark Response World),
      lineText {} printingLine = .ok call.source ∧ call.invocation? shadowing = some i ∧
      (i.session {}).plan i.command = .ok plan ∧
      Run LeafTask.leaf (fun w c w' => w.nextCompletion = .ok (c, w')) plan (i.session {}).world r ∧
      r.world.scope.tokenValue ⟨.substitution, "$x"⟩ = .ok (.text "outer") ∧
      Expr.parseTrimmed "[x + y for y in z]" = .ok e ∧
      r.world.scope.tokenValue ⟨.substitution, "$\x7b[x + y for y in z]\x7d"⟩ =
        Expr.value { globals := [("x", .text "outer"), ("z", .list [.text "1", .text "2"])] } e := by
  obtain ⟨rest, hparse⟩ := exists_parse_printing
  obtain ⟨names, -, hcall, hsite⟩ := converted_names_seen {} rfl printing_content_ne lineText_printing
  obtain ⟨⟨i, hi, hcommand, hglobals, hlocals, hresolves⟩, -⟩ := hsite shadowing {}
  obtain ⟨plan, hplan⟩ : ∃ plan, Plan.ofCommand [] (i.session {}).world.scope.names printing = .ok plan :=
    ⟨_, rfl⟩
  have hsession : (i.session {}).plan i.command = .ok plan := by
    rw [hcommand, Session.plan]
    change (Tree.parse [] (String.ofList printingLine.content)).bind _ = _
    rw [hparse]
    exact hplan
  have hresolved := hresolves plan (fun w c w' => w.nextCompletion = .ok (c, w')) (evaluation plan _) hsession
    (fun w c w' hnext => congrArg Standing.names (World.standing_nextCompletion hnext)) .start
  have hfree : (Expr.parseTrimmed "[x + y for y in z]").toOption.map Expr.freeNames = some ["z", "x"] := by
    decide +kernel
  obtain ⟨e, he⟩ : ∃ e, Expr.parseTrimmed "[x + y for y in z]" = .ok e := by
    cases hread : Expr.parseTrimmed "[x + y for y in z]" with
    | error fault =>
      rw [hread] at hfree
      cases hfree
    | ok e => exact ⟨e, rfl⟩
  rw [he] at hfree
  refine ⟨_, i, plan, e, _, hcall ▸ lineText_printing, hi, hsession, .start, ?_, he, ?_⟩
  · exact hresolved.name (x := "x") rfl (by decide +kernel) (by decide +kernel) (by decide +kernel) rfl
  · have hbody : String.ofList (substituted "$\x7b[x + y for y in z]\x7d") = "[x + y for y in z]" := by
      decide +kernel
    refine hresolved.expression rfl (by rw [hbody]; exact he) fun x hx => ?_
    rw [Option.some.inj hfree] at hx
    rcases List.mem_pair.mp hx with rfl | rfl
    · rfl
    · rfl

/-- A global name hides a local one, against the rule of scopes. -/
theorem global_hides_local :
    ∃ (call : Call) (i : Invocation), lineText {} printingLine = .ok call.source ∧
      call.invocation? shadowing = some i ∧ shadowing.nearest [] "x" = some (.text "inner") ∧
      (i.session {}).world.scope.tokenValue ⟨.substitution, "$x"⟩ = .ok (.text "outer") ∧
      ¬ Resolves (i.session {}).world.scope (shadowing.nearest []) := by
  have hname : substituted "$x" = "x".toList := by decide +kernel
  have hword : Expr.isWord "x".toList = true := by decide +kernel
  have hkeyword : Expr.keywords.contains "x" = false := by decide +kernel
  have hagainst : ∀ w : WordScope, w.tokenValue ⟨.substitution, "$x"⟩ = .ok (.text "outer") →
      ¬ Resolves w (shadowing.nearest []) := by
    intro w houter hresolves
    have hinner := hresolves.name (t := ⟨.substitution, "$x"⟩) rfl hname hword hkeyword rfl
    simp [houter] at hinner
  refine ⟨_, _, lineText_printing, rfl, rfl, ?_, hagainst _ ?_⟩
  all_goals exact (resolves_find? _).name rfl hname hword hkeyword rfl

end ValueShell.Script
