import ValueShell.Proofs.Evaluation.Inheritance
import ValueShell.Proofs.Pipeline.Diagnosis

/-!
# Under which names a command stores results

A command may store something under the names of its assignments and captures, wherever they stand: also
in commands inside of words and of the targets of redirections. `Tree.Stores` says so by looking at the
tree alone. No run of the command stores anything under another name (`stores_of_run`): a name gets from
the tree through the tasks, and for captures through the responses of tasks, to the results. Nor does a run
change what words see under a name (`names_of_run`).
-/

set_option autoImplicit false

namespace ValueShell

/-! ## Names in a tree -/

/-- The evaluation of a command may come to store something under a name. `known` says that the kinds of
its parts are worked out; if they are not, a pipe is refused before its sides are evaluated. -/
inductive Tree.Stores : Bool → Tree → String → Prop
  | assigned {known : Bool} {command : Tree} {n : String} : Stores known (.assign command n) n
  | command {known : Bool} {command : Tree} {name n : String} : Stores known command n →
      Stores known (.assign command name) n
  | left {known : Bool} {op : Operator} {left right : Tree} {n : String} : (op = .pipe → known = true) →
      Stores known left n → Stores known (.binary op left right) n
  | right {known : Bool} {op : Operator} {left right : Tree} {n : String} : (op = .pipe → known = true) →
      Stores known right n → Stores known (.binary op left right) n
  | captured {known : Bool} {words : List (List Piece)} {redirects : List Redirect} {n : String} :
      Redirect.capture n ∈ redirects → Stores known (.process words redirects) n
  | word {known : Bool} {words : List (List Piece)} {redirects : List Redirect} {word : List Piece}
      {command : Tree} {n : String} : word ∈ words → Piece.backquote command ∈ word →
      Stores known command n → Stores known (.process words redirects) n
  -- the kinds of commands in targets are never worked out
  | target {known : Bool} {words : List (List Piece)} {redirects : List Redirect} {append : Bool}
      {source : Nat} {pieces : List Piece} {command : Tree} {n : String} :
      Redirect.file append source pieces ∈ redirects → Piece.backquote command ∈ pieces →
      Stores false command n → Stores known (.process words redirects) n

/-- A command inside of a word, or of the target of a redirection, may store something under a name. -/
inductive Tree.Hides : Tree → String → Prop
  | command {command : Tree} {name n : String} : Hides command n → Hides (.assign command name) n
  | left {op : Operator} {left right : Tree} {n : String} : Hides left n → Hides (.binary op left right) n
  | right {op : Operator} {left right : Tree} {n : String} : Hides right n → Hides (.binary op left right) n
  | word {words : List (List Piece)} {redirects : List Redirect} {word : List Piece} {command : Tree}
      {n : String} : word ∈ words → Piece.backquote command ∈ word → Stores true command n →
      Hides (.process words redirects) n
  | target {words : List (List Piece)} {redirects : List Redirect} {append : Bool} {source : Nat}
      {pieces : List Piece} {command : Tree} {n : String} : Redirect.file append source pieces ∈ redirects →
      Piece.backquote command ∈ pieces → Stores false command n → Hides (.process words redirects) n

theorem Redirect.mem_captured {n : String} (redirects : List Redirect) :
    n ∈ Redirect.captured redirects ↔ Redirect.capture n ∈ redirects := by
  induction redirects with
  | nil => simp [captured]
  | cons r rest ih => cases r <;> simp [captured, ih]

namespace Tree

variable {tree : Tree} {n : String}

theorem Hides.stores (h : tree.Hides n) : tree.Stores true n := by
  induction h with
  | command _ ih => exact .command ih
  | left _ ih => exact .left (fun _ => rfl) ih
  | right _ ih => exact .right (fun _ => rfl) ih
  | word hword hpiece hstores => exact .word hword hpiece hstores
  | target hredirect hpiece hstores => exact .target hredirect hpiece hstores

theorem stores_of_mem (tree : Tree) (h : n ∈ tree.resultNames) : tree.Stores true n := by
  fun_induction Tree.resultNames tree with
  | case1 words redirects => exact .captured ((Redirect.mem_captured redirects).mp h)
  | case2 op left right ihl ihr =>
    rcases List.mem_append.mp h with h | h
    · exact .left (fun _ => rfl) (ihl h)
    · exact .right (fun _ => rfl) (ihr h)
  | case3 command name ih =>
    rcases List.mem_append.mp h with h | h
    · exact .command (ih h)
    · rw [List.mem_singleton.mp h]
      exact .assigned

theorem mem_or_hides_of_stores {known : Bool} (hknown : known = true) (h : tree.Stores known n) :
    n ∈ tree.resultNames ∨ tree.Hides n := by
  induction h with
  | assigned => exact .inl (by simp [resultNames])
  | command _ ih => exact (ih hknown).imp (fun h => by simp [resultNames, h]) .command
  | left _ _ ih => exact (ih hknown).imp (fun h => by simp [resultNames, h]) .left
  | right _ _ ih => exact (ih hknown).imp (fun h => by simp [resultNames, h]) .right
  | captured h => exact .inl ((Redirect.mem_captured _).mpr h)
  | word hword hpiece hstores => exact .inr (.word hword hpiece (hknown ▸ hstores))
  | target hredirect hpiece hstores => exact .inr (.target hredirect hpiece hstores)

/-- Outside of words and targets the result names are all names that there are. -/
theorem stores_iff : tree.Stores true n ↔ n ∈ tree.resultNames ∨ tree.Hides n := by
  constructor
  · exact mem_or_hides_of_stores rfl
  · rintro (h | h)
    · exact tree.stores_of_mem h
    · exact h.stores

end Tree

namespace Plan

theorem mem_toWords {word : List PlanPiece} {words : List (List PlanPiece)} (h : word ∈ words) :
    toPieces word ∈ toWords words := by
  induction words with
  | nil => cases h
  | cons first rest ih =>
    rcases List.mem_cons.mp h with rfl | h
    · exact List.mem_cons_self
    · exact List.mem_cons_of_mem _ (ih h)

theorem mem_toPieces {command : Plan} {pieces : List PlanPiece} (h : PlanPiece.backquote command ∈ pieces) :
    Piece.backquote command.toTree ∈ toPieces pieces := by
  induction pieces with
  | nil => cases h
  | cons first rest ih =>
    cases first with
    | token t =>
      rcases List.mem_cons.mp h with heq | h
      · cases heq
      · exact List.mem_cons_of_mem _ (ih h)
    | backquote other =>
      rcases List.mem_cons.mp h with heq | h
      · cases heq
        exact List.mem_cons_self
      · exact List.mem_cons_of_mem _ (ih h)

theorem exists_mem_of_ofPieces {command : Plan} {pieces : List Piece}
    (h : PlanPiece.backquote command ∈ ofPieces pieces) :
    ∃ tree, command = ofTree tree ∧ Piece.backquote tree ∈ pieces := by
  induction pieces with
  | nil => cases h
  | cons first rest ih =>
    cases first with
    | token t =>
      rcases List.mem_cons.mp h with heq | h
      · cases heq
      · obtain ⟨tree, heq, hmem⟩ := ih h
        exact ⟨tree, heq, List.mem_cons_of_mem _ hmem⟩
    | backquote other =>
      rcases List.mem_cons.mp h with heq | h
      · cases heq
        exact ⟨other, rfl, List.mem_cons_self⟩
      · obtain ⟨tree, heq, hmem⟩ := ih h
        exact ⟨tree, heq, List.mem_cons_of_mem _ hmem⟩

theorem exists_mem_of_ofWords {word : List PlanPiece} {words : List (List Piece)} (h : word ∈ ofWords words) :
    ∃ pieces, word = ofPieces pieces ∧ pieces ∈ words := by
  induction words with
  | nil => cases h
  | cons first rest ih =>
    rcases List.mem_cons.mp h with rfl | h
    · exact ⟨first, rfl, List.mem_cons_self⟩
    · obtain ⟨pieces, heq, hmem⟩ := ih h
      exact ⟨pieces, heq, List.mem_cons_of_mem _ hmem⟩

theorem kinds?_ofTree (tree : Tree) : (ofTree tree).kinds? = none := by
  cases tree <;> rfl

end Plan

namespace Evaluation

open ValueShell.Task ValueShell.Plan

variable {N : String → Prop} {K : Bindings → Prop}

/-! ## Names in tasks and responses -/

/-- A plan stores only under names of `N`. The kinds of its parts may not be worked out. -/
def PlanOnly (N : String → Prop) (q : Plan) : Prop :=
  (∀ n, q.toTree.Stores true n → N n) ∨ ∃ tree, q = ofTree tree ∧ ∀ n, tree.Stores false n → N n

/-- The commands in a word store only under names of `N`. -/
def WordOnly (N : String → Prop) (pieces : List PlanPiece) : Prop :=
  ∀ command, PlanPiece.backquote command ∈ pieces → PlanOnly N command

/-- A redirection stores only under names of `N`, and so do the commands in its target. -/
def RedirectOnly (N : String → Prop) : Redirect → Prop
  | .capture name => N name
  | .file _ _ pieces => ∀ command, Piece.backquote command ∈ pieces → ∀ n, command.Stores false n → N n
  | .descriptor _ _ _ => True

/-- A target stores only under names of `N`. -/
def TargetOnly (N : String → Prop) : Target → Prop
  | .capture name => N name
  | _ => True

/-- A response hands on only names of `N`. -/
def ResponseOnly (N : String → Prop) : Response → Prop
  | .target t => TargetOnly N t
  | _ => True

/-- A process stores only under names of `N`. -/
structure ProcessOnly (N : String → Prop) (p : ProcessTask) : Prop where
  words : ∀ word ∈ p.words, WordOnly N word
  redirects : ∀ r ∈ p.redirects, RedirectOnly N r
  targets : ∀ t, some t ∈ p.targets → TargetOnly N t

/-- A task stores only under names of `N`. -/
def JobOnly (N : String → Prop) : Job LeafTask → Prop
  | .evaluate _ q => PlanOnly N q
  | .series _ _ left right => PlanOnly N left ∧ PlanOnly N right
  | .store _ command name => PlanOnly N command ∧ N name
  | .render _ command _ => PlanOnly N command
  | .joinValues _ left right _ => PlanOnly N left ∧ PlanOnly N right
  | .joinText _ left right _ _ => PlanOnly N left ∧ PlanOnly N right
  | .respond response => ResponseOnly N response
  | .leaf (.process p) => ProcessOnly N p
  | .leaf (.word t) => WordOnly N t.pieces

/-- The results have names of `N`, and `K` holds of the names that words see. -/
def WorldOnly (N : String → Prop) (K : Bindings → Prop) (w : World) : Prop :=
  (∀ e ∈ w.stored, N e.1) ∧ K w.scope.names

theorem WorldOnly.of_standing {w w' : World} (h : WorldOnly N K w) (hstanding : w'.standing = w.standing) :
    WorldOnly N K w' := by
  have hstored : w'.stored = w.stored := congrArg Standing.stored hstanding
  have hnames : w'.scope.names = w.scope.names := congrArg Standing.names hstanding
  rw [WorldOnly, hstored, hnames]
  exact h

theorem WorldOnly.store {w : World} (h : WorldOnly N K w) {name : String} (hname : N name) (s : Stored) :
    WorldOnly N K (w.store name s) := by
  have hnames : (w.store name s).scope.names = w.scope.names := by
    unfold World.store
    split <;> rfl
  refine ⟨fun e he => ?_, hnames ▸ h.2⟩
  unfold World.store at he
  split at he
  · obtain ⟨e', he', rfl⟩ := List.mem_map.mp he
    split
    · exact hname
    · exact h.1 e' he'
  · rcases List.mem_append.mp he with he | he
    · exact h.1 e he
    · rw [List.mem_singleton.mp he]
      exact hname

theorem wordOnly_ofPieces {pieces : List Piece}
    (h : ∀ command, Piece.backquote command ∈ pieces → ∀ n, command.Stores false n → N n) :
    WordOnly N (ofPieces pieces) := by
  intro command hcommand
  obtain ⟨tree, rfl, hmem⟩ := exists_mem_of_ofPieces hcommand
  exact .inr ⟨tree, rfl, h tree hmem⟩

theorem processOnly_ofWords {kinds : Option Kinds} {words : List (List PlanPiece)}
    {redirects : List Redirect} (h : PlanOnly N (.process kinds words redirects)) (t : Streams Channel) :
    ProcessOnly N (.ofWords t words redirects) := by
  have hredirects : ∀ known words, (∀ n, (Tree.process words redirects).Stores known n → N n) →
      ∀ r ∈ redirects, RedirectOnly N r := by
    intro known words hstores r hr
    cases r with
    | descriptor append source target => trivial
    | file append source pieces => exact fun command hcommand n hn => hstores n (.target hr hcommand hn)
    | capture name => exact hstores name (.captured hr)
  have htargets : ∀ t', some t' ∈ (ProcessTask.ofWords t words redirects).targets → TargetOnly N t' := by
    intro t' ht'
    obtain ⟨r, -, hnone⟩ := List.mem_map.mp ht'
    cases hnone
  rcases h with h | ⟨tree, htree, h⟩
  · refine ⟨fun word hword command hcommand => ?_, hredirects true _ h, htargets⟩
    exact .inl fun n hn => h n (.word (mem_toWords hword) (mem_toPieces hcommand) hn)
  · cases tree with
    | process words' redirects' =>
      rw [ofTree, Plan.process.injEq] at htree
      obtain ⟨-, rfl, rfl⟩ := htree
      refine ⟨fun word hword => ?_, hredirects false _ h, htargets⟩
      obtain ⟨pieces, rfl, hpieces⟩ := exists_mem_of_ofWords hword
      exact wordOnly_ofPieces fun command hcommand n hn => h n (.word hpieces hcommand hn)
    | binary => simp [ofTree] at htree
    | assign => simp [ofTree] at htree

theorem PlanOnly.assign {kinds : Option Kinds} {command : Plan} {name : String}
    (h : PlanOnly N (.assign kinds command name)) : PlanOnly N command ∧ N name := by
  rcases h with h | ⟨tree, htree, h⟩
  · exact ⟨.inl fun n hn => h n (.command hn), h name .assigned⟩
  · cases tree with
    | assign command' name' =>
      rw [ofTree, Plan.assign.injEq] at htree
      obtain ⟨-, rfl, rfl⟩ := htree
      exact ⟨.inr ⟨command', rfl, fun n hn => h n (.command hn)⟩, h name .assigned⟩
    | binary => simp [ofTree] at htree
    | process => simp [ofTree] at htree

theorem PlanOnly.binary {kinds : Option Kinds} {op : Operator} {left right : Plan}
    (h : PlanOnly N (.binary kinds op left right)) (hop : op = .pipe → left.kinds? ≠ none) :
    PlanOnly N left ∧ PlanOnly N right := by
  rcases h with h | ⟨tree, htree, h⟩
  · exact ⟨.inl fun n hn => h n (.left (fun _ => rfl) hn), .inl fun n hn => h n (.right (fun _ => rfl) hn)⟩
  · cases tree with
    | binary op' left' right' =>
      rw [ofTree, Plan.binary.injEq] at htree
      obtain ⟨-, rfl, rfl, rfl⟩ := htree
      have hnone : op ≠ .pipe := fun heq => hop heq (kinds?_ofTree left')
      exact ⟨.inr ⟨left', rfl, fun n hn => h n (.left (fun heq => absurd heq hnone) hn)⟩,
        .inr ⟨right', rfl, fun n hn => h n (.right (fun heq => absurd heq hnone) hn)⟩⟩
    | assign => simp [ofTree] at htree
    | process => simp [ofTree] at htree

theorem jobOnly_ofPlan {t : Streams Channel} {q : Plan} {job : Job LeafTask} (h : PlanOnly N q)
    (hjob : Job.ofPlan LeafTask.leaf t q = .ok job) : JobOnly N job := by
  cases q with
  | process kinds words redirects =>
    cases hjob
    exact processOnly_ofWords h t
  | assign kinds command name =>
    cases hjob
    exact h.assign
  | rendered kinds command =>
    cases hjob
    rcases h with h | ⟨tree, htree, -⟩
    · exact .inl h
    · cases tree <;> simp [ofTree] at htree
  | binary kinds op left right =>
    cases op with
    | pipe =>
      change Job.pipe t left right = .ok job at hjob
      unfold Job.pipe at hjob
      split at hjob
      · rename_i hleft _
        have hsides := h.binary fun _ hnone => by cases hleft.symm.trans hnone
        split at hjob
        · cases hjob
        · split at hjob
          · cases hjob
            exact hsides
          · cases hjob
            exact hsides
      · cases hjob
    | sequence =>
      cases hjob
      exact h.binary fun heq => by cases heq
    | andThen =>
      cases hjob
      exact h.binary fun heq => by cases heq
    | orElse =>
      cases hjob
      exact h.binary fun heq => by cases heq

/-! ## Every run -/

/-- All tasks store only under names of `N`, and leave the names that words see. -/
theorem inherited_only (N : String → Prop) (K : Bindings → Prop) :
    Inherited (JobOnly N) (ResponseOnly N) (WorldOnly N K) where
  ofPlan := jobOnly_ofPlan
  series h := h
  store h := ⟨h.1, fun _ s hw => hw.store h.2 s⟩
  render h _ _ := ⟨h, h⟩
  joinValues h _ := ⟨h, h⟩
  joinText h := ⟨fun _ _ => h, fun _ => h⟩
  respond := Iff.rfl
  values _ := trivial
  token _ := trivial
  file _ _ _ := trivial
  words h hword := h.words _ hword
  redirects {p r} h hr i := by
    have hredirect := h.redirects r hr
    cases r with
    | descriptor append source target => trivial
    | capture name => exact hredirect
    | file append source pieces => exact wordOnly_ofPieces hredirect
  process h _ hwords hredirects htargets :=
    ⟨hwords ▸ h.words, hredirects ▸ h.redirects, fun t ht => (htargets t ht).elim (h.targets t) id⟩
  captured h htarget _ s hw := hw.store (h.targets _ htarget) s
  backquotes h hcommand _ := h _ hcommand
  word h _ hpieces := by
    rw [JobOnly, hpieces]
    exact h
  standing := WorldOnly.of_standing

/-- No run of a plan stores anything under a name that is not in its tree, as long as nothing is stored
between the ends of commands. -/
theorem stores_of_run {next : World → Completion → World → Prop}
    (hnext : ∀ w c w', next w c w' → w'.stored = w.stored) {plan : Plan} {w : World} (hw : w.stored = [])
    {r : Runner (Job LeafTask) Mark Response World} (h : Run LeafTask.leaf next plan w r) :
    ∀ e ∈ r.world.stored, plan.toTree.Stores true e.1 := by
  have hempty : WorldOnly (plan.toTree.Stores true) (fun _ => True) w := by
    rw [WorldOnly, hw]
    exact ⟨fun e he => absurd he List.not_mem_nil, trivial⟩
  have hholds := h.holds (inherited_only (plan.toTree.Stores true) fun _ => True).maintains (.inl fun n hn => hn)
    hempty (fun _ => trivial) fun w c w' hc hw => ⟨hnext w c w' hc ▸ hw.1, trivial⟩
  exact hholds.world.1

/-- In a run of a plan words see the same names from the beginning to the end, as long as nothing else
changes these. -/
theorem names_of_run {next : World → Completion → World → Prop}
    (hnext : ∀ w c w', next w c w' → w'.scope.names = w.scope.names) {plan : Plan} {w : World}
    {r : Runner (Job LeafTask) Mark Response World} (h : Run LeafTask.leaf next plan w r) :
    r.world.scope.names = w.scope.names := by
  have hholds := h.holds (inherited_only (fun _ => True) (· = w.scope.names)).maintains (.inl fun _ _ => trivial)
    ⟨fun _ _ => trivial, rfl⟩ (fun _ => trivial)
    fun w c w' hc hw => ⟨fun _ _ => trivial, (hnext w c w' hc).trans hw.2⟩
  exact hholds.world.2

end Evaluation

end ValueShell
