import Mathlib.Data.List.Forall2
import ValueShell.Commands.Sample
import ValueShell.Evaluation.Process
import ValueShell.Proofs.Expr.Name

/-!
# Which command a process runs

Whether a process runs a registered command is worked out twice: from the first word as it is written,
when the plan is made (`Plan.commandOf`), and from the first of the values of its words, when it runs
(`ProcessTask.invoke`). The two agree for the words that the scope `recognises`. For any other word they
never find a command both, provided that the names of commands and variables are ordinary.
-/

set_option autoImplicit false

namespace ValueShell

open Evaluation Text

variable {results : List PieceResult} {cs : List Char} {c : Command}

/-! ## Words that are recognised -/

namespace WordScope

/-- No tilde at the head of the text is replaced. -/
def keeps (s : WordScope) (text : String) : Bool := Files.expandHome s.home text == text

/-- The value of a variable names what the word does. A list or tuple does not: for the plan it stands
for its first element. -/
def recognisesValue (s : WordScope) : Option Value → Bool
  | some (.text text) => s.keeps text
  | some (.list _) => false
  | some (.tuple _) => false
  | some _ => true
  | none => false

end WordScope

/-- A substitution without its signs. -/
def substituted (text : String) : List Char :=
  let cs := text.toList
  if ['$', Char.ofNat 0x7B].isPrefixOf cs then (cs.drop 2).dropLast else cs.drop 1

/-- The word is one token, which stands for itself or for a variable. -/
def WordScope.recognises (s : WordScope) : List Piece → Bool
  | [.token t] =>
    match t.kind with
    | .literal => !hasPattern [t] && s.keeps t.text
    | .substitution =>
      let name := String.ofList (substituted t.text)
      Expr.isWord (substituted t.text) && !Expr.keywords.contains name &&
        s.recognisesValue (s.names.find? name)
    | _ => false
  | _ => false

/-! ## What a process runs -/

/-- What a piece of a word gives when it is evaluated. -/
inductive Piece.Gives : Piece → PieceResult → Prop
  | token (t : Token) : Gives (.token t) (.token t)
  | backquote (command : Tree) (lines : List Value) :
      Gives (.backquote command) (.words (outputTokens lines))

/-- The values of a word whose pieces have given their results. -/
def WordScope.wordValues (s : WordScope) (results : List PieceResult) : Except Fault (List Value) :=
  ((groupPieces [] [] results).mapM s.evalWord).map List.flatten

namespace Evaluation

theorem all_isSome_map {α : Type} (l : List α) : (l.map some).any Option.isNone = false := by
  rw [List.any_map, List.any_eq_false]
  exact fun _ _ => Bool.false_ne_true

/-- What a word does once its groups are known: it reports the values of all groups, or fails as the
first group that has none. -/
def WordTask.report (t : WordTask) (w : World) (groups : List (List Token)) : LeafReaction :=
  match groups.mapM w.scope.evalWord with
  | .ok values => leafAsk (.word t) w [.finish (.values values.flatten)]
  | .error fault => leafFault (.word t) w fault

theorem WordTask.conclude_of_results {t : WordTask} (h : t.results = results.map some) (w : World) :
    t.conclude w = t.report w (groupPieces [] [] results) := by
  have hresults : (results.map some).filterMap id = results := by
    rw [List.filterMap_map]
    exact List.filterMap_some
  rw [conclude, h, all_isSome_map, if_neg Bool.false_ne_true, hresults]
  rfl

/-- A word with all its results finishes with its values, if it has values. -/
theorem WordTask.conclude_eq_iff {t : WordTask} {w : World} {values : List Value}
    (h : t.results = results.map some) :
    t.conclude w = leafAsk (.word t) w [.finish (.values values)] ↔
      w.scope.wordValues results = .ok values := by
  rw [WordScope.wordValues, conclude_of_results h, report]
  cases (groupPieces [] [] results).mapM w.scope.evalWord with
  | error fault =>
    constructor
    · intro hfault
      cases congrArg Task.Reaction.fault hfault
    · exact nofun
  | ok groups =>
    constructor
    · intro hask
      cases congrArg Task.Reaction.requests hask
      rfl
    · intro hvalues
      cases hvalues
      rfl

/-- Calls a command, or creates a child process if there is none. -/
def ProcessTask.launch (p : ProcessTask) (self : Nat) (found : Option Command) (w : World) :
    LeafReaction :=
  let args := (p.values.filterMap id).flatten
  let targets := p.targets.filterMap id
  match found with
  | some c => p.callCommand self c args targets w
  | none => p.createChild self args targets w

/-- All words and redirections of a process are evaluated. Its first word is `word`, which finished
earlier, when the names were the same, and the first of all values is `first`. -/
structure Evaluated (w : World) (word : List Piece) (p : ProcessTask) (first : Value) : Prop where
  word : ∃ (earlier : World) (t : WordTask) (results : List PieceResult) (values : List Value),
    earlier.surroundings = w.surroundings ∧ earlier.environment = w.environment ∧
    List.Forall₂ Piece.Gives word results ∧ t.results = results.map some ∧
    t.conclude earlier = leafAsk (.word t) earlier [.finish (.values values)] ∧
    p.values.head? = some (some values)
  values : p.values.any Option.isNone = false
  targets : p.targets.any Option.isNone = false
  first : (p.values.filterMap id).flatten.head? = some first

variable {w : World} {word : List Piece} {p : ProcessTask} {first : Value}

/-- The first value decides what a process runs. -/
theorem Evaluated.invoke (h : Evaluated w word p first) (self : Nat) :
    p.invoke self w = p.launch self (w.registry.find? first) w := by
  have hfirst := h.first
  rw [ProcessTask.invoke, h.values, h.targets, Bool.or_false, if_neg Bool.false_ne_true]
  unfold ProcessTask.launch
  dsimp only
  cases hargs : (p.values.filterMap id).flatten with
  | nil =>
    rw [hargs] at hfirst
    cases hfirst
  | cons v rest =>
    rw [hargs] at hfirst
    cases hfirst
    rfl

end Evaluation

/-! ## One token -/

namespace WordScope

variable {s : WordScope} {t : Token}

/-- A value as the value of a whole word. -/
def expanded (s : WordScope) : Value → Value
  | .text text => .text (Files.expandHome s.home text)
  | v => v

/-- The value of a token only depends on the names. -/
theorem tokenValue_congr {s' : WordScope} (h : s.names = s'.names) :
    s.tokenValue t = s'.tokenValue t := by
  unfold tokenValue substitution
  rw [h]

theorem expanded_congr {s' : WordScope} {v : Value} (h : s.home = s'.home) :
    s.expanded v = s'.expanded v := by
  unfold expanded
  rw [h]

/-- A word of one token that is no pattern has the value of the token. -/
theorem evalWord_token (hpattern : hasPattern [t] = false) :
    s.evalWord [t] = (s.tokenValue t).map fun v => [s.expanded v] := by
  rw [evalWord, if_neg (by simp), hpattern, if_neg Bool.false_ne_true, List.mapM_cons]
  cases s.tokenValue t with
  | error fault => rfl
  | ok v => cases v <;> rfl

/-- The values of a word that is one token. -/
theorem wordValues_token (h : List.Forall₂ Piece.Gives [.token t] results) :
    s.wordValues results = s.evalWord [t] := by
  cases h with
  | cons hgives hnil =>
    cases hgives
    cases hnil
    have hgroups : groupPieces [] [] [.token t] = [[t]] := rfl
    rw [wordValues, hgroups, List.mapM_cons, List.mapM_nil]
    cases hvalues : s.evalWord [t] with
    | error fault => rfl
    | ok values => exact congrArg Except.ok (List.append_nil values)

theorem substitution_eq (text : String) :
    s.substitution text = Expr.evalText { globals := s.names } (String.ofList (substituted text)) := rfl

/-- A substitution that is a bound name has its value. -/
theorem substitution_name {text : String} {v : Value} (hword : Expr.isWord (substituted text) = true)
    (hkeyword : Expr.keywords.contains (String.ofList (substituted text)) = false)
    (hfind : s.names.find? (String.ofList (substituted text)) = some v) :
    s.substitution text = .ok v := by
  rw [substitution_eq, Expr.evalText_name _ hword hkeyword, Expr.lookup_global hfind]

theorem recognises_iff {word : List Piece} :
    s.recognises word = true ↔ ∃ t, word = [.token t] ∧
      (t.kind = .literal ∧ hasPattern [t] = false ∧ s.keeps t.text = true ∨
        t.kind = .substitution ∧ Expr.isWord (substituted t.text) = true ∧
          Expr.keywords.contains (String.ofList (substituted t.text)) = false ∧
          s.recognisesValue (s.names.find? (String.ofList (substituted t.text))) = true) := by
  constructor
  · intro h
    unfold recognises at h
    split at h
    · rename_i t
      refine ⟨t, rfl, ?_⟩
      split at h
      · rename_i hkind
        simp only [Bool.and_eq_true, Bool.not_eq_true'] at h
        exact Or.inl ⟨hkind, h⟩
      · rename_i hkind
        simp only [Bool.and_eq_true, Bool.not_eq_true', and_assoc] at h
        exact Or.inr ⟨hkind, h⟩
      · cases h
    · cases h
  · rintro ⟨t, rfl, ⟨hkind, hpattern, hkeeps⟩ | ⟨hkind, hword, hkeyword, hvalue⟩⟩
    · rw [recognises, hkind]
      simp only [hpattern, hkeeps]
      rfl
    · rw [recognises, hkind]
      simp only [hword, hkeyword, hvalue]
      rfl

/-- A value that is recognised is the value of the word, and no list whose first element counts. -/
theorem recognisesValue_some {v : Value} (h : s.recognisesValue (some v) = true) :
    s.expanded v = v ∧ ∀ items, v ≠ .list items ∧ v ≠ .tuple items := by
  cases v with
  | text text =>
    rw [recognisesValue, keeps, beq_iff_eq] at h
    exact ⟨congrArg Value.text h, fun items => ⟨nofun, nofun⟩⟩
  | list items => cases h
  | tuple items => cases h
  | _ => exact ⟨rfl, fun items => ⟨nofun, nofun⟩⟩

end WordScope

/-! ## The word as it is written -/

namespace Plan

open ValueShell.Expr (isWord)

theorem isName_of_isWord (h : isWord cs = true) : isName cs = true := by
  cases cs with
  | nil => cases h
  | cons c rest =>
    have hfeed : rest.getLast? ≠ some '\n' := by
      intro hlast
      have hchar := (Expr.isWord_cons.mp h).2 '\n' (List.mem_of_getLast? hlast)
      exact absurd hchar (by decide)
    rw [isName, if_neg hfeed]
    exact h

theorem isWord_of_isName (h : isName cs = true) (hfeed : '\n' ∉ cs) : isWord cs = true := by
  cases cs with
  | nil => cases h
  | cons c rest =>
    have hlast : rest.getLast? ≠ some '\n' := fun hlast =>
      hfeed (List.mem_cons_of_mem c (List.mem_of_getLast? hlast))
    rw [isName, if_neg hlast] at h
    exact h

variable {names : Bindings} {t : Token} {v : Value}

/-- A substitution that is no name is not looked up. -/
theorem firstName_expression (hkind : t.kind = .substitution)
    (hname : isName (substituted t.text) = false) : firstName names (.token t) = .ok .none := by
  unfold substituted at hname
  simp only [firstName, hkind, hname, Bool.not_false, if_true]

/-- A substitution that is a name stands for its value, which is nothing if it is not bound. -/
theorem firstName_variable (hkind : t.kind = .substitution) (hname : isName (substituted t.text) = true)
    (hv : (names.find? (String.ofList (substituted t.text))).getD .none = v)
    (hlist : ∀ items, v ≠ .list items ∧ v ≠ .tuple items) : firstName names (.token t) = .ok v := by
  unfold substituted at hname hv
  simp only [firstName, hkind, hname, hv, Bool.not_true, Bool.false_eq_true, if_false]
  cases v with
  | list items => exact absurd rfl (hlist items).1
  | tuple items => exact absurd rfl (hlist items).2
  | _ => rfl

end Plan

/-! ## Both sides -/

namespace Evaluation

variable {w : World} {word : List Piece} {p : ProcessTask} {first : Value} {t : Token}

/-- The value of a first word that is one token, and no pattern. -/
theorem Evaluated.first_token (h : Evaluated w [.token t] p first)
    (hpattern : WordScope.hasPattern [t] = false) :
    ∃ v, w.scope.tokenValue t = .ok v ∧ first = w.scope.expanded v := by
  obtain ⟨earlier, task, results, values, hsurroundings, henvironment, hgives, hresults, hconclude,
    hhead⟩ := h.word
  have hfirst := h.first
  have hnames : earlier.scope.names = w.scope.names := by
    simp only [World.scope, hsurroundings, henvironment]
  have hhome : earlier.scope.home = w.scope.home := congrArg (List.lookup "HOME") henvironment
  have hvalues := (WordTask.conclude_eq_iff hresults).mp hconclude
  rw [WordScope.wordValues_token hgives, WordScope.evalWord_token hpattern,
    WordScope.tokenValue_congr hnames] at hvalues
  cases hv : w.scope.tokenValue t with
  | error fault =>
    rw [hv] at hvalues
    cases hvalues
  | ok v =>
    rw [hv, Except.map, WordScope.expanded_congr hhome] at hvalues
    cases hvalues
    obtain ⟨others, hothers⟩ := List.head?_eq_some_iff.mp hhead
    rw [hothers] at hfirst
    exact ⟨v, rfl, (Option.some.inj hfirst).symm⟩

theorem hasPattern_substitution (hkind : t.kind = .substitution) : WordScope.hasPattern [t] = false := by
  simp [WordScope.hasPattern, hkind]

/-- A word that is recognised means before it is evaluated what it means afterwards. -/
theorem Evaluated.commandOf_eq (h : Evaluated w word p first)
    (hrecognised : w.scope.recognises word = true) (others : List (List Piece)) :
    Plan.commandOf w.registry w.scope.names (word :: others) = .ok (w.registry.find? first) := by
  obtain ⟨t, rfl, ⟨hkind, hpattern, hkeeps⟩ | ⟨hkind, hword, hkeyword, hvalue⟩⟩ :=
    WordScope.recognises_iff.mp hrecognised
  · obtain ⟨v, hv, rfl⟩ := h.first_token hpattern
    rw [WordScope.tokenValue, hkind] at hv
    cases hv
    rw [WordScope.keeps, beq_iff_eq] at hkeeps
    rw [WordScope.expanded, hkeeps, Plan.commandOf, Plan.firstName]
    dsimp only
    rw [hkind]
    rfl
  · obtain ⟨v, hv, rfl⟩ := h.first_token (hasPattern_substitution hkind)
    rw [WordScope.tokenValue, hkind] at hv
    cases hfind : w.scope.names.find? (String.ofList (substituted t.text)) with
    | none =>
      rw [hfind] at hvalue
      cases hvalue
    | some bound =>
      rw [hfind] at hvalue
      obtain ⟨hexpanded, hlist⟩ := WordScope.recognisesValue_some hvalue
      have heq : bound = v :=
        Except.ok.inj ((WordScope.substitution_name hword hkeyword hfind).symm.trans hv)
      subst heq
      rw [Plan.commandOf, Plan.firstName_variable hkind (Plan.isName_of_isWord hword)
        (by rw [hfind]; rfl) hlist, hexpanded]
      rfl

/-! ## Ordinary names -/

/-- The name of a command that an unquoted word can write: it has no quotes, stars or question marks, and
does not begin with a tilde. -/
def isOrdinaryName (name : String) : Bool :=
  (name.toList.head? != some '~') &&
    name.toList.all fun c => !(c = '*' || c = '?') && !Expr.isQuote c

/-- The names of commands are ordinary, those of variables have no line feeds, and what is quoted begins
with a quote. -/
structure Ordinary (w : World) (word : List Piece) : Prop where
  commands : ∀ c ∈ w.registry, isOrdinaryName c.name = true
  names : ∀ e ∈ w.scope.names, '\n' ∉ e.1.toList
  quoted : ∀ t, .token t ∈ word → t.kind = .singleQuoted → ∃ q ∈ t.text.toList, Expr.isQuote q = true

theorem Ordinary.name_of_named? {name : String} (h : Ordinary w word)
    (hnamed : w.registry.named? name = some c) : isOrdinaryName name = true := by
  have hname := List.find?_some hnamed
  rw [beq_iff_eq] at hname
  rw [← hname]
  exact h.commands c (List.mem_of_find?_eq_some hnamed)

theorem Ordinary.isWord {v : Value} (h : Ordinary w word) (hname : Plan.isName cs = true)
    (hfind : w.scope.names.find? (String.ofList cs) = some v) : Expr.isWord cs = true := by
  refine Plan.isWord_of_isName hname ?_
  rw [Bindings.find?, Option.map_eq_some_iff] at hfind
  obtain ⟨e, he, _⟩ := hfind
  have hkey := List.find?_some he
  rw [beq_iff_eq] at hkey
  rw [← String.toList_ofList (l := cs), ← hkey]
  exact h.names e (List.mem_of_find?_eq_some he)

theorem keeps_of_ordinary {name : String} (h : isOrdinaryName name = true) :
    w.scope.keeps name = true := by
  rw [isOrdinaryName, Bool.and_eq_true, bne_iff_ne] at h
  rw [WordScope.keeps, beq_iff_eq, Files.expandHome]
  split
  · rename_i heq
    rw [heq] at h
    exact absurd rfl h.1
  · rfl

theorem hasPattern_of_ordinary (h : isOrdinaryName t.text = true) :
    WordScope.hasPattern [t] = false := by
  rw [isOrdinaryName, Bool.and_eq_true, List.all_eq_true] at h
  have hplain : (t.text.toList.any fun c => c = '*' || c = '?') = false := by
    refine List.any_eq_false.mpr fun c hc => ?_
    have hordinary := h.2 c hc
    rw [Bool.and_eq_true, Bool.not_eq_true'] at hordinary
    rw [hordinary.1]
    exact Bool.false_ne_true
  rw [WordScope.hasPattern, List.any_cons, List.any_nil, Bool.or_false, hplain, Bool.and_false]

/-- A value that names a command is recognised. -/
theorem Ordinary.recognisesValue {v : Value} (h : Ordinary w word) (hcommand : w.registry.find? v = some c) :
    w.scope.recognisesValue (some v) = true := by
  cases v with
  | text text => exact keeps_of_ordinary (h.name_of_named? hcommand)
  | list items => cases hcommand
  | tuple items => cases hcommand
  | _ => rfl

/-- A substitution that names a command both as it is written and by its value is a variable. -/
theorem Evaluated.recognises_substitution {others : List (List Piece)} {c' : Command}
    (h : Evaluated w [.token t] p first) (hordinary : Ordinary w [.token t])
    (hkind : t.kind = .substitution)
    (hwritten : Plan.commandOf w.registry w.scope.names ([.token t] :: others) = .ok (some c))
    (hrun : w.registry.find? first = some c') : w.scope.recognises [.token t] = true := by
  obtain ⟨v, hv, rfl⟩ := h.first_token (hasPattern_substitution hkind)
  rw [WordScope.tokenValue, hkind] at hv
  rw [Plan.commandOf] at hwritten
  cases hname : Plan.isName (substituted t.text) with
  | false =>
    rw [Plan.firstName_expression hkind hname] at hwritten
    cases hwritten
  | true =>
    cases hfind : w.scope.names.find? (String.ofList (substituted t.text)) with
    | none =>
      rw [Plan.firstName_variable (v := .none) hkind hname (by rw [hfind]; rfl)
        fun _ => ⟨nofun, nofun⟩] at hwritten
      cases hwritten
    | some bound =>
      have hword := hordinary.isWord hname hfind
      cases hkeyword : Expr.keywords.contains (String.ofList (substituted t.text)) with
      | true =>
        rcases Expr.evalText_keyword _ hword hkeyword hv with rfl | ⟨b, rfl⟩
        · cases hrun
        · cases hrun
      | false =>
        have heq : bound = v :=
          Except.ok.inj ((WordScope.substitution_name hword hkeyword hfind).symm.trans hv)
        subst heq
        refine WordScope.recognises_iff.mpr ⟨t, rfl, Or.inr ⟨hkind, hword, hkeyword, ?_⟩⟩
        rw [hfind]
        cases bound with
        | list items => cases hrun
        | tuple items => cases hrun
        | text text =>
          rw [Plan.firstName_variable (v := .text text) hkind hname (by rw [hfind]; rfl)
            fun _ => ⟨nofun, nofun⟩] at hwritten
          exact hordinary.recognisesValue (Except.ok.inj hwritten)
        | _ => rfl

/-- If a command is found in the word as it is written and in its value, the word is recognised. -/
theorem Evaluated.recognises_of_found (h : Evaluated w word p first) (hordinary : Ordinary w word)
    {others : List (List Piece)} {c' : Command}
    (hwritten : Plan.commandOf w.registry w.scope.names (word :: others) = .ok (some c))
    (hrun : w.registry.find? first = some c') : w.scope.recognises word = true := by
  have hwritten' := hwritten
  unfold Plan.commandOf at hwritten
  split at hwritten
  · rename_i piece others' heq
    cases heq
    cases piece with
    | backquote command => cases hwritten
    | token t =>
      cases hkind : t.kind with
      | literal =>
        rw [Plan.firstName] at hwritten
        dsimp only at hwritten
        rw [hkind] at hwritten
        have hname := hordinary.name_of_named? (Except.ok.inj hwritten)
        exact WordScope.recognises_iff.mpr
          ⟨t, rfl, Or.inl ⟨hkind, hasPattern_of_ordinary hname, keeps_of_ordinary hname⟩⟩
      | singleQuoted =>
        rw [Plan.firstName] at hwritten
        dsimp only at hwritten
        rw [hkind] at hwritten
        -- an ordinary name has no quotes
        have hname := hordinary.name_of_named? (Except.ok.inj hwritten)
        obtain ⟨q, hq, hquote⟩ := hordinary.quoted t List.mem_cons_self hkind
        rw [isOrdinaryName, Bool.and_eq_true, List.all_eq_true] at hname
        have hplain := hname.2 q hq
        rw [hquote, Bool.not_true, Bool.and_false] at hplain
        cases hplain
      | substitution => exact h.recognises_substitution hordinary hkind hwritten' hrun
      | _ =>
        rw [Plan.firstName] at hwritten
        dsimp only at hwritten
        rw [hkind] at hwritten
        cases hwritten
  · cases hwritten

/-- **Which command a process runs.** It is decided by the first value. For a word that is recognised,
the same command is found in the word as it is written. For any other word the two agree only where
neither finds a command, if names are ordinary. -/
theorem Evaluated.classified (h : Evaluated w word p first) (self : Nat) (others : List (List Piece)) :
    p.invoke self w = p.launch self (w.registry.find? first) w ∧
    (w.scope.recognises word = true →
      Plan.commandOf w.registry w.scope.names (word :: others) = .ok (w.registry.find? first)) ∧
    (Ordinary w word → w.scope.recognises word = false →
      (Plan.commandOf w.registry w.scope.names (word :: others) = .ok (w.registry.find? first) ↔
        Plan.commandOf w.registry w.scope.names (word :: others) = .ok none ∧
          w.registry.find? first = none)) := by
  refine ⟨h.invoke self, fun hrecognised => h.commandOf_eq hrecognised others, ?_⟩
  intro hordinary hnot
  constructor
  · intro hagree
    cases hrun : w.registry.find? first with
    | none =>
      rw [hrun] at hagree
      exact ⟨hagree, rfl⟩
    | some c =>
      rw [hrun] at hagree
      have hrecognised := h.recognises_of_found hordinary hagree hrun
      rw [hnot] at hrecognised
      cases hrecognised
  · rintro ⟨hwritten, hrun⟩
    rw [hwritten, hrun]

/-- In `$x a`, where `x` is the name of a command. -/
theorem classified_variable :
    let w : World := { registry := Commands.sample, surroundings := { locals := [("x", .text "args")] } }
    let word : List Piece := [.token ⟨.substitution, "$x"⟩]
    let p : ProcessTask := { streams := {}, words := [], redirects := [], targets := []
                             values := [some [.text "args"], some [.text "a"]] }
    Evaluated w word p (.text "args") ∧ w.scope.recognises word = true ∧
      Plan.commandOf w.registry w.scope.names [word, [.token ⟨.literal, "a"⟩]] =
        .ok (some Commands.args) := by
  intro w word p
  have hvalues : w.scope.wordValues [.token ⟨.substitution, "$x"⟩] = .ok [.text "args"] := rfl
  let task : WordTask := { streams := {}, pieces := [], running := []
                           results := [some (.token ⟨.substitution, "$x"⟩)] }
  have hconclude : task.conclude w = leafAsk (.word task) w [.finish (.values [.text "args"])] :=
    (WordTask.conclude_eq_iff rfl).mpr hvalues
  have h : Evaluated w word p (.text "args") :=
    ⟨⟨w, task, _, _, rfl, rfl, .cons (.token _) .nil, rfl, hconclude, rfl⟩, rfl, rfl, rfl⟩
  have hrecognised : w.scope.recognises word = true := rfl
  exact ⟨h, hrecognised, (h.classified 0 [[.token ⟨.literal, "a"⟩]]).2.1 hrecognised⟩

/-- In `'args' a` the quotes hide the command until the word is evaluated. -/
theorem quotes_hide_command :
    let w : World := { registry := Commands.sample }
    let word : List Piece := [.token ⟨.singleQuoted, "'args'"⟩]
    let p : ProcessTask := { streams := {}, words := [], redirects := [], targets := []
                             values := [some [.text "args"], some [.text "a"]] }
    Evaluated w word p (.text "args") ∧ Ordinary w word ∧
      Plan.commandOf w.registry w.scope.names [word, [.token ⟨.literal, "a"⟩]] = .ok none ∧
      w.registry.find? (.text "args") = some Commands.args := by
  intro w word p
  have hvalues : w.scope.wordValues [.token ⟨.singleQuoted, "'args'"⟩] = .ok [.text "args"] := rfl
  let task : WordTask := { streams := {}, pieces := [], running := []
                           results := [some (.token ⟨.singleQuoted, "'args'"⟩)] }
  have hconclude : task.conclude w = leafAsk (.word task) w [.finish (.values [.text "args"])] :=
    (WordTask.conclude_eq_iff rfl).mpr hvalues
  have h : Evaluated w word p (.text "args") :=
    ⟨⟨w, task, _, _, rfl, rfl, .cons (.token _) .nil, rfl, hconclude, rfl⟩, rfl, rfl, rfl⟩
  refine ⟨h, ⟨by decide, nofun, ?_⟩, rfl, rfl⟩
  intro t ht _
  cases List.mem_singleton.mp ht
  exact ⟨apostrophe, by decide, rfl⟩

end Evaluation

end ValueShell
