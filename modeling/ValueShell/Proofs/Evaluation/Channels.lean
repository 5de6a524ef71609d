import ValueShell.Commands.Sample
import ValueShell.Commands.Standard
import ValueShell.Proofs.Evaluation.Inheritance
import ValueShell.Proofs.Pipeline.Wiring

/-!
# The channels of processes

In every run of a plan the tasks evaluate what the wiring of the plan says, with the streams that it
says (`planned_of_run`); only the targets of redirections lie outside of the wiring, because their kinds
are never worked out. So what the diagnosis guarantees along the wiring holds of every process that is
ever started. No program of the system is given a pipe of values to read. Commands write to pipes of
values and programs through descriptors exactly if no command in a word of the plan is silent: a silent
command in a word is not rendered, although what a word collects is text.
-/

set_option autoImplicit false

namespace ValueShell.Evaluation

open ValueShell.Task ValueShell.Plan

variable {registry : Registry} {names : Bindings} {s t : Streams Channel} {plan q : Plan}
  {job : Job LeafTask} {x : Reaction (Job LeafTask) Mark Response World}

/-! ## What tasks evaluate -/

/-- The plan `q` is evaluated with the streams `t` as the wiring of `plan` says, or belongs to the target
of a redirection. -/
def Meant (s : Streams Channel) (plan : Plan) (t : Streams Channel) (q : Plan) : Prop :=
  Wired s plan t q ∨ ∃ tree, q = ofTree tree

/-- The commands in a word write to a pipe of text and are meant to be evaluated. -/
def MeantWord (s : Streams Channel) (plan : Plan) (t : Streams Channel) (word : List PlanPiece) : Prop :=
  ∀ b ∈ word.filterMap backquote?, ∀ n,
    Meant s plan (.within (some t) none (some (.descriptor (.writeEnd n)))) b

/-- Everything that a task will evaluate is meant to be evaluated. -/
def Planned (s : Streams Channel) (plan : Plan) : Job LeafTask → Prop
  | .evaluate t q => Meant s plan t q
  | .series t _ left right => Meant s plan t left ∧ Meant s plan t right
  | .store t command _ => Meant s plan t command
  | .render t command _ => ∀ n, Meant s plan (.within (some t) none (some (.values n))) command
  | .joinValues t left right _ => ∀ n,
      Meant s plan (.within (some t) none (some (.values n))) left ∧
        Meant s plan (.within (some t) (some (.values n)) none) right
  | .joinText t left right _ _ => ∀ n,
      Meant s plan (.within (some t) none (some (.descriptor (.writeEnd n)))) left ∧
        Meant s plan (.within (some t) (some (.descriptor (.readEnd n))) none) right
  | .respond _ => True
  | .leaf (.process p) => ∀ word ∈ p.words, MeantWord s plan p.streams word
  | .leaf (.word t) => MeantWord s plan t.streams t.pieces

/-- The commands in the target of a redirection have no kinds. -/
theorem meantWord_ofPieces (pieces : List Piece) : MeantWord s plan t (ofPieces pieces) := by
  intro b hb n
  induction pieces with
  | nil => cases hb
  | cons piece rest ih =>
    cases piece with
    | token token => exact ih hb
    | backquote command =>
      rcases List.mem_cons.mp hb with rfl | hb
      · exact Or.inr ⟨command, rfl⟩
      · exact ih hb

/-- The words of a process that is meant to be evaluated. -/
theorem Meant.words {kinds : Option Kinds} {words : List (List PlanPiece)} {redirects : List Redirect}
    (h : Meant s plan t (.process kinds words redirects)) : ∀ word ∈ words, MeantWord s plan t word := by
  rcases h with h | ⟨tree, htree⟩
  · intro word hword b hb n
    have hmem : b ∈ backquotes words :=
      List.mem_filterMap.mpr <| by
        obtain ⟨piece, hpiece, heq⟩ := List.mem_filterMap.mp hb
        exact ⟨piece, List.mem_flatten.mpr ⟨word, hword, hpiece⟩, heq⟩
    exact Or.inl (.backquote n hmem h)
  · cases tree with
    | process words' redirects' =>
      rw [ofTree, Plan.process.injEq] at htree
      rw [htree.2.1]
      clear htree
      induction words' with
      | nil => intro word hword; cases hword
      | cons first rest ih =>
        intro word hword
        rcases List.mem_cons.mp hword with rfl | hword
        · exact meantWord_ofPieces first
        · exact ih word hword
    | binary => simp [ofTree] at htree
    | assign => simp [ofTree] at htree

/-- The task of a pipe that is meant to be evaluated. -/
theorem Meant.pipe {kinds : Option Kinds} {left right : Plan}
    (h : Meant s plan t (.binary kinds .pipe left right)) (hjob : Job.pipe t left right = .ok job) :
    Planned s plan job := by
  rcases h with h | ⟨tree, htree⟩
  · unfold Job.pipe at hjob
    split at hjob
    · rename_i l r hl hr
      split at hjob
      · cases hjob
      · split at hjob
        · rename_i hout
          cases hjob
          exact fun n => ⟨Or.inl (.textLeft n hl hout h), Or.inl (.textRight n hl hout h)⟩
        · rename_i hout
          rw [Bool.not_eq_true] at hout
          cases hjob
          exact fun n => ⟨Or.inl (.valuesLeft n hl hout h), Or.inl (.valuesRight n hl hout h)⟩
    · cases hjob
  · -- the sides of a pipe in the target of a redirection have no kinds
    cases tree with
    | process => simp [ofTree] at htree
    | assign => simp [ofTree] at htree
    | binary op left' right' =>
      simp only [ofTree, Plan.binary.injEq] at htree
      obtain ⟨_, _, hleft, _⟩ := htree
      have hkinds : left.kinds? = none := by
        rw [hleft]
        cases left' <;> rfl
      rw [Job.pipe, hkinds] at hjob
      cases hjob

/-- The task of a plan that is meant to be evaluated. -/
theorem Meant.ofPlan (h : Meant s plan t q) (hjob : Job.ofPlan LeafTask.leaf t q = .ok job) :
    Planned s plan job := by
  cases q with
  | process kinds words redirects =>
    cases hjob
    exact h.words
  | assign kinds command name =>
    cases hjob
    rcases h with h | ⟨tree, htree⟩
    · exact Or.inl (.stored h)
    · cases tree with
      | process => simp [ofTree] at htree
      | binary => simp [ofTree] at htree
      | assign command' name' =>
        simp only [ofTree, Plan.assign.injEq] at htree
        exact Or.inr ⟨command', htree.2.1⟩
  | rendered kinds command =>
    cases hjob
    rcases h with h | ⟨tree, htree⟩
    · exact fun n => Or.inl (.rendered n h)
    · cases tree <;> simp [ofTree] at htree
  | binary kinds op left right =>
    by_cases hop : op = .pipe
    · subst hop
      exact h.pipe hjob
    · have hseries : job = .series t op left right := by
        cases op with
        | pipe => exact absurd rfl hop
        | _ => cases hjob; rfl
      subst hseries
      rcases h with h | ⟨tree, htree⟩
      · exact ⟨Or.inl (.first hop h), Or.inl (.second hop h)⟩
      · cases tree with
        | process => simp [ofTree] at htree
        | assign => simp [ofTree] at htree
        | binary op' left' right' =>
          simp only [ofTree, Plan.binary.injEq] at htree
          exact ⟨Or.inr ⟨left', htree.2.2.1⟩, Or.inr ⟨right', htree.2.2.2⟩⟩

/-! ## Every task of a run -/

/-- All tasks stay planned, whatever they are told, and call only planned tasks. -/
theorem inherited_planned (s : Streams Channel) (plan : Plan) :
    Inherited (Planned s plan) (fun _ => True) fun _ => True where
  ofPlan := Meant.ofPlan
  series h := h
  store h := ⟨h, fun _ _ _ => trivial⟩
  render h pipe _ := ⟨h, h pipe⟩
  joinValues h pipe := ⟨h, h pipe⟩
  joinText h := ⟨fun _ _ => h, h⟩
  respond := Iff.rfl
  values _ := trivial
  token _ := trivial
  file _ _ _ := trivial
  words h hword := h _ hword
  redirects {p r} h hr i := by
    cases r with
    | descriptor append source target => trivial
    | capture name => trivial
    | file append source pieces => exact meantWord_ofPieces pieces
  process h hstreams hwords _ _ := by
    rw [Planned, hstreams, hwords]
    exact h
  captured _ _ _ _ _ := trivial
  backquotes h hcommand := h _ (List.mem_filterMap.mpr ⟨_, hcommand, rfl⟩)
  word h hstreams hpieces := by
    rw [Planned, hstreams, hpieces]
    exact h
  standing _ _ := trivial

/-- In every run of a plan each task is planned. -/
theorem planned_of_run {next : World → Completion → World → Prop} {w : World}
    {r : Runner (Job LeafTask) Mark Response World} (h : Run LeafTask.leaf next plan w r) :
    r.Every (Planned standardStreams plan) :=
  h.holds (inherited_planned standardStreams plan).maintains (Or.inl .root) trivial (fun _ => trivial)
    fun _ _ _ _ _ => trivial

/-- In every run of a plan a process whose kinds are known has the streams of the wiring. -/
theorem wired_of_run {next : World → Completion → World → Prop} {w : World}
    {r : Runner (Job LeafTask) Mark Response World} (h : Run LeafTask.leaf next plan w r)
    {k : Controller (Job LeafTask) Mark} (hk : k ∈ r.controllers) {kinds : Kinds}
    {words : List (List PlanPiece)} {redirects : List Redirect}
    (htask : k.task = .evaluate t (.process (some kinds) words redirects)) :
    Wired standardStreams plan t (.process (some kinds) words redirects) := by
  have hplanned := (planned_of_run h).controllers k hk
  rw [htask] at hplanned
  rcases hplanned with hwired | ⟨tree, htree⟩
  · exact hwired
  · cases tree <;> simp [ofTree] at htree

/-! ## What is read and written -/

/-- A plan that the diagnosis returns is one of its tree. Both sides of each of its pipes have kinds, and
values never meet a side that reads text. In every run, whatever ends are told in whatever order, a
program of the system reads through a descriptor. -/
theorem pipes_fit_and_programs_read_text {tree : Tree} (h : ofCommand registry names tree = .ok plan) :
    plan.toTree = tree ∧
      (∀ kinds left right, Part (.binary kinds .pipe left right) plan →
        ∃ l r, left.kinds? = some l ∧ right.kinds? = some r ∧
          (l.output.isText = true ∨ r.input.isText = false)) ∧
      ∀ next w r, Run LeafTask.leaf next plan w r → ∀ k ∈ r.controllers, ∀ t kinds words redirects,
        k.task = .evaluate t (.process (some kinds) words redirects) →
        commandOf registry names (toWords words) = .ok none → t.ReadsText := by
  obtain ⟨k, htyped, _, htree⟩ := typed_of_ofCommand h
  refine ⟨htree, ?_, ?_⟩
  · intro kinds left right hpart
    obtain ⟨k', hpipe⟩ := htyped.part hpart
    obtain ⟨l, r, _, _, hl, hr, hfit, _⟩ := hpipe.pipe_inv
    exact ⟨l, r, hl, hr, hfit⟩
  · intro next w r hrun k hk t kinds words redirects htask hprogram
    have hstandard : standardStreams.ReadsText := ⟨.input, rfl⟩
    exact (wired_of_run hrun hk htask).program_reads htyped hstandard hprogram

/-- Values that a program of the system is to read, with a command in one of its words. -/
def sendToProgram : Tree :=
  .binary .pipe (.process [[.token ⟨.literal, "send"⟩], [.token ⟨.literal, "3"⟩]] [])
    (.process [[.token ⟨.literal, "cat"⟩], [.backquote (.process [[.token ⟨.literal, "send"⟩]] [])]] [])

/-- Its plan renders what is sent, and also what is sent in the word. -/
def sendToProgramPlan : Plan :=
  .binary (some ⟨.nothing, .text⟩) .pipe
    (.rendered (some ⟨.nothing, .text⟩) (.process (some ⟨.nothing, .values⟩)
      [[.token ⟨.literal, "send"⟩], [.token ⟨.literal, "3"⟩]] []))
    (.process (some ⟨.text, .text⟩) [[.token ⟨.literal, "cat"⟩],
      [.backquote (.rendered none (.process (some ⟨.nothing, .values⟩)
        [[.token ⟨.literal, "send"⟩]] []))]] [])

theorem pipes_fit_sendToProgram :
    ofCommand Commands.sample [] sendToProgram = .ok sendToProgramPlan ∧
      sendToProgramPlan.toTree = sendToProgram ∧
      (∀ kinds left right, Part (.binary kinds .pipe left right) sendToProgramPlan →
        ∃ l r, left.kinds? = some l ∧ right.kinds? = some r ∧
          (l.output.isText = true ∨ r.input.isText = false)) ∧
      ∀ next w r, Run LeafTask.leaf next sendToProgramPlan w r → ∀ k ∈ r.controllers,
        ∀ t kinds words redirects, k.task = .evaluate t (.process (some kinds) words redirects) →
        commandOf Commands.sample [] (toWords words) = .ok none → t.ReadsText :=
  ⟨rfl, pipes_fit_and_programs_read_text rfl⟩

/-- Along the wiring of a plan that the diagnosis returns all commands write to pipes of values and all
programs through descriptors if and only if no command in a word is silent; and then they do so in every
run. -/
theorem writesRightly_iff_audible {tree : Tree} (h : ofCommand registry names tree = .ok plan) :
    ((∀ t kinds words redirects, Wired standardStreams plan t (.process kinds words redirects) →
        WritesRightly registry names t words) ↔ plan.Audible) ∧
      (plan.Audible → ∀ next w r, Run LeafTask.leaf next plan w r → ∀ k ∈ r.controllers,
        ∀ t kinds words redirects, k.task = .evaluate t (.process (some kinds) words redirects) →
        WritesRightly registry names t words) := by
  obtain ⟨k, htyped, hout, _⟩ := typed_of_ofCommand h
  have hstandard : standardStreams.Writes k.output.isText := by
    rw [hout]
    exact ⟨.output, rfl⟩
  refine ⟨⟨fun hall => ?_, fun haudible t kinds words redirects hwired => ?_⟩, ?_⟩
  · by_contra hsilent
    obtain ⟨t, kinds, words, redirects, hwired, hwrong⟩ :=
      Wired.not_writesRightly (s := standardStreams) htyped hsilent
    exact hwrong (hall t kinds words redirects hwired)
  · exact hwired.writesRightly htyped haudible hstandard
  · intro haudible next w r hrun k' hk' t kinds words redirects htask
    exact (wired_of_run hrun hk' htask).writesRightly htyped haudible hstandard

theorem writesRightly_sendToProgram :
    ofCommand Commands.sample [] sendToProgram = .ok sendToProgramPlan ∧ sendToProgramPlan.Audible ∧
      ∀ t kinds words redirects,
        Wired standardStreams sendToProgramPlan t (.process kinds words redirects) →
        WritesRightly Commands.sample [] t words := by
  have haudible : sendToProgramPlan.Audible := by
    intro kinds words redirects hpart b hb
    cases hpart with
    | left hleft =>
      cases hleft with
      | rendered hcommand =>
        cases hcommand with
        | self => cases hb
        | backquote hnone => cases hnone
    | right hright =>
      cases hright with
      | self =>
        rw [List.mem_singleton.mp hb]
        rfl
      | backquote hword hinner =>
        rw [List.mem_singleton.mp hword] at hinner
        cases hinner with
        | rendered hcommand =>
          cases hcommand with
          | self => cases hb
          | backquote hnone => cases hnone
  have hplan : ofCommand Commands.sample [] sendToProgram = .ok sendToProgramPlan := rfl
  exact ⟨hplan, haudible, (writesRightly_iff_audible hplan).1.mpr haudible⟩

/-- A command in a word that produces nothing. -/
def echoQuiet : Tree :=
  .process [[.token ⟨.literal, "echo"⟩], [.backquote (.process [[.token ⟨.literal, "quiet"⟩]] [])]] []

/-- The silent command in the words is given a descriptor to write to, although it is a command. -/
theorem quiet_writes_to_descriptor :
    ∃ plan t kinds words redirects,
      ofCommand (Commands.standard ++ Commands.sample) [] echoQuiet = .ok plan ∧
      Wired standardStreams plan t (.process kinds words redirects) ∧
      commandOf (Commands.standard ++ Commands.sample) [] (toWords words) = .ok (some Commands.quiet) ∧
      t.output = some (.descriptor (.writeEnd 0)) :=
  ⟨_, _, _, _, _, rfl, .backquote 0 (List.mem_cons_self) (.rendered 0 .root), rfl, rfl⟩

end ValueShell.Evaluation
