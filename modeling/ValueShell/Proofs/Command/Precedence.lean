import ValueShell.Proofs.Command.Completeness

/-!
# How operators group

A chain is a row of processes with operators between them, and with names for statuses anywhere after
the first process, but with no parentheses. Many trees spell the same chain. One of them is grouped:
a left operand binds at least as tight as the operator, and a right operand binds tighter, so all
operators group to the left. `Chain.tree` is this tree, and the reader finds it
(`ofReading_chain`).
-/

set_option autoImplicit false

namespace ValueShell

/-! ## Chains -/

/-- A process as it is written. It does not begin with a backquote. -/
structure Chain.Item where
  words : List (List Piece)
  redirects : List Redirect
  tail : Tail
  tokens : List Token
  written : Written false (.process words redirects) tail tokens
  plain : ∀ t ∈ tokens.head?, t.kind ≠ .backquote

/-- What goes on with a chain. -/
inductive Chain.Link where
  | join (op : Operator) (item : Chain.Item)
  | store (name : String) (named : Tree.beginsLikeName name = true)

/-- A process and what goes on with it. -/
structure Chain where
  first : Chain.Item
  links : List Chain.Link

namespace Chain

def Item.tree (item : Item) : Tree := .process item.words item.redirects

def Link.tokens : Link → List Token
  | .join op item => ⟨op.kind, op.sign⟩ :: item.tokens
  | .store name _ => [⟨.arrow, "->"⟩, ⟨.literal, name⟩]

def tokens (c : Chain) : List Token := c.first.tokens ++ c.links.flatMap Link.tokens

/-- From left to right, the processes, operators and names of the tree are those of the chain. -/
inductive SpelledBy : Chain → Tree → Prop
  | item (a : Item) : SpelledBy ⟨a, []⟩ a.tree
  | binary {op left right a b links links'} : SpelledBy ⟨a, links⟩ left → SpelledBy ⟨b, links'⟩ right →
      SpelledBy ⟨a, links ++ .join op b :: links'⟩ (.binary op left right)
  | assign {command a links name named} : SpelledBy ⟨a, links⟩ command →
      SpelledBy ⟨a, links ++ [.store name named]⟩ (.assign command name)

end Chain

/-! ## Tightness -/

/-- How tight an operator binds. -/
def Operator.tightness : Operator → Nat
  | .sequence => 0
  | .andThen => 1
  | .orElse => 1
  | .pipe => 2

/-- How tight the outermost operator of a tree binds. Storing a status binds like a pipe, and a process
holds together by itself. -/
def Tree.tightness : Tree → Nat
  | .process _ _ => 3
  | .binary op _ _ => op.tightness
  | .assign _ _ => Operator.pipe.tightness

/-- The tree groups as operators do without parentheses. -/
def Tree.grouped : Tree → Bool
  | .process _ _ => true
  | .binary op left right => left.grouped && right.grouped &&
      decide (op.tightness ≤ left.tightness) && decide (op.tightness < right.tightness)
  | .assign command _ => command.grouped && decide (Operator.pipe.tightness ≤ command.tightness)

theorem Tree.grouped_binary_iff {op : Operator} {left right : Tree} :
    (Tree.binary op left right).grouped = true ↔ left.grouped = true ∧ right.grouped = true ∧
      op.tightness ≤ left.tightness ∧ op.tightness < right.tightness := by
  rw [grouped, Bool.and_eq_true, Bool.and_eq_true, Bool.and_eq_true, decide_eq_true_eq,
    decide_eq_true_eq, and_assoc, and_assoc]

theorem Tree.grouped_assign_iff {command : Tree} {name : String} :
    (Tree.assign command name).grouped = true ↔
      command.grouped = true ∧ Operator.pipe.tightness ≤ command.tightness := by
  rw [grouped, Bool.and_eq_true, decide_eq_true_eq]

namespace Chain

def Link.tightness : Link → Nat
  | .join op _ => op.tightness
  | .store _ _ => Operator.pipe.tightness

/-- Puts a link behind a whole tree. -/
def Link.onto : Link → Tree → Tree
  | .join op item, tree => .binary op tree item.tree
  | .store name _, tree => .assign tree name

/-- Puts a link behind the last operand that it binds to. -/
def Link.attach (link : Link) : Tree → Tree
  | .process words redirects => link.onto (.process words redirects)
  | .binary op left right =>
    if op.tightness < link.tightness then .binary op left (link.attach right)
    else link.onto (.binary op left right)
  | .assign command name => link.onto (.assign command name)

/-- The tree that a chain stands for. -/
def tree (c : Chain) : Tree := c.links.foldl (fun tree link => link.attach tree) c.first.tree

namespace Link

variable (link : Link)

theorem tightness_le : link.tightness ≤ Operator.pipe.tightness := by
  cases link with
  | join op item => cases op <;> simp [tightness, Operator.tightness]
  | store name named => exact Nat.le_refl _

@[simp]
theorem tightness_onto (tree : Tree) : (link.onto tree).tightness = link.tightness := by
  cases link <;> rfl

/-- A link loosens a tree to its own tightness. -/
theorem tightness_attach (tree : Tree) :
    (link.attach tree).tightness = min tree.tightness link.tightness := by
  have hle : link.tightness ≤ 2 := link.tightness_le
  cases tree with
  | process words redirects =>
    rw [attach, tightness_onto, Tree.tightness]
    omega
  | binary op left right =>
    rw [attach]
    split
    · simp only [Tree.tightness]
      omega
    · rw [tightness_onto, Tree.tightness]
      omega
  | assign command name =>
    rw [attach, tightness_onto, Tree.tightness, Operator.tightness]
    omega

theorem grouped_onto {tree : Tree} (h : tree.grouped = true) (hle : link.tightness ≤ tree.tightness) :
    (link.onto tree).grouped = true := by
  cases link with
  | join op item =>
    have hitem : op.tightness < item.tree.tightness := Nat.lt_succ_of_le (join op item).tightness_le
    exact Tree.grouped_binary_iff.mpr ⟨h, rfl, hle, hitem⟩
  | store name named => exact Tree.grouped_assign_iff.mpr ⟨h, hle⟩

/-- A link keeps a tree grouped: it goes down on the right as long as the operators are looser. -/
theorem grouped_attach : ∀ {tree : Tree}, tree.grouped = true → (link.attach tree).grouped = true
  | .process words redirects, h => link.grouped_onto h (Nat.le_succ_of_le link.tightness_le)
  | .binary op left right, h => by
    rw [attach]
    split
    · rename_i hlt
      obtain ⟨hleft, hright, hopleft, hopright⟩ := Tree.grouped_binary_iff.mp h
      refine Tree.grouped_binary_iff.mpr ⟨hleft, grouped_attach hright, hopleft, ?_⟩
      rw [tightness_attach]
      omega
    · rename_i hle
      exact link.grouped_onto h (Nat.not_lt.mp hle)
  | .assign command name, h => link.grouped_onto h link.tightness_le

theorem spelledBy_onto {tree : Tree} {a : Item} {links : List Link} (h : SpelledBy ⟨a, links⟩ tree) :
    SpelledBy ⟨a, links ++ [link]⟩ (link.onto tree) := by
  cases link with
  | join op item => exact .binary h (.item item)
  | store name named => exact .assign h

theorem spelledBy_attach {tree : Tree} {c : Chain} (h : SpelledBy c tree) :
    SpelledBy ⟨c.first, c.links ++ [link]⟩ (link.attach tree) := by
  induction h with
  | item a => exact link.spelledBy_onto (.item a)
  | binary hleft hright _ ih =>
    rw [attach]
    split
    · rw [List.append_assoc, List.cons_append]
      exact .binary hleft ih
    · exact link.spelledBy_onto (.binary hleft hright)
  | assign hcommand _ => exact link.spelledBy_onto (.assign hcommand)

end Link

/-- Attaching one link after the other keeps a tree grouped, and spells the links behind the tree. -/
theorem grouped_foldl {tree : Tree} {a : Item} {before : List Link} (links : List Link)
    (h : tree.grouped = true) (hspell : SpelledBy ⟨a, before⟩ tree) :
    (links.foldl (fun tree link => link.attach tree) tree).grouped = true ∧
      SpelledBy ⟨a, before ++ links⟩ (links.foldl (fun tree link => link.attach tree) tree) := by
  induction links generalizing tree before with
  | nil =>
    rw [List.append_nil]
    exact ⟨h, hspell⟩
  | cons link others ih =>
    have hrest := ih (link.grouped_attach h) (link.spelledBy_attach hspell)
    rw [List.append_assoc] at hrest
    exact hrest

theorem grouped_tree (c : Chain) : c.tree.grouped = true ∧ SpelledBy c c.tree :=
  grouped_foldl c.links rfl (.item c.first)

end Chain

/-! ## Grouped trees are written without parentheses -/

/-- Where neither words nor processes go on, a command ends, unless it ends in a space or a semicolon. -/
theorem Tail.endsCommand_of_ne {tail : Tail} {k : TokenKind} (hpadding : tail ≠ .padding)
    (hsemicolon : tail ≠ .semicolon) (hword : k.extendsWord false = false)
    (hprocess : k.extendsProcess = false) :
    tail.endsCommand false k = true := by
  cases tail with
  | word => rw [endsCommand, hword, hprocess]; rfl
  | mark => rw [endsCommand, hprocess]; rfl
  | closed => rfl
  | padding => exact absurd rfl hpadding
  | semicolon => exact absurd rfl hsemicolon

namespace Chain

/-- The phrase that a tree of some tightness is. -/
def phraseAt : Nat → Tree → Phrase
  | 0, tree => .sequence tree
  | 1, tree => .condition tree
  | 2, tree => .pipeline tree
  | _, tree => .command tree

theorem phraseAt_ne_line (n : Nat) (tree tree' : Tree) : phraseAt n tree ≠ .line tree' := by
  unfold phraseAt
  split <;> exact nofun

theorem phraseAt_ne_word (n : Nat) (tree : Tree) : phraseAt n tree ≠ .word [] := by
  unfold phraseAt
  split <;> exact nofun

variable {left right tree : Tree} {tail tail' : Tail} {ts us : List Token}

/-- A tighter phrase is a looser one. -/
theorem written_loosen {m n : Nat} (h : Written false (phraseAt n tree) tail ts) (hle : m ≤ n) :
    Written false (phraseAt m tree) tail ts := by
  induction hle with
  | refl => exact h
  | @step n _ ih =>
    refine ih ?_
    match n with
    | 0 => exact .condition h
    | 1 => exact .pipeline h
    | 2 => exact .command h
    | _ + 3 => exact h

theorem written_join {op : Operator} (hleft : Written false (phraseAt op.tightness left) tail ts)
    (hright : Written false (phraseAt (op.tightness + 1) right) tail' us)
    (hplain : ∀ t ∈ us.head?, t.kind ≠ .backquote) :
    Written false (phraseAt op.tightness (.binary op left right)) tail'
      (ts ++ ⟨op.kind, op.sign⟩ :: us) := by
  have htail := hleft.tail_ne rfl
  have hends : tail.endsCommand false op.kind = true :=
    Tail.endsCommand_of_ne htail.1 (htail.2 (phraseAt_ne_line _ _)) (by cases op <;> rfl)
      (by cases op <;> rfl)
  cases op with
  | pipe => exact .pipe hleft hends rfl hright
  | andThen => exact .conditional hleft (Or.inl rfl) (Tail.endsPipeline_iff.mpr ⟨hends, rfl⟩) rfl hright
  | orElse => exact .conditional hleft (Or.inr rfl) (Tail.endsPipeline_iff.mpr ⟨hends, rfl⟩) rfl hright
  | sequence =>
    have hpipeline := Tail.endsPipeline_iff.mpr ⟨hends, rfl⟩
    exact .successive hleft (Tail.endsCondition_iff.mpr ⟨hpipeline, rfl⟩) rfl hright hplain

theorem written_store {name : String}
    (h : Written false (phraseAt Operator.pipe.tightness tree) tail ts)
    (named : Tree.beginsLikeName name = true) :
    Written false (phraseAt Operator.pipe.tightness (.assign tree name)) .closed
      (ts ++ [⟨.arrow, "->"⟩, ⟨.literal, name⟩]) := by
  have htail := h.tail_ne rfl
  have hends : tail.endsCommand false .arrow = true :=
    Tail.endsCommand_of_ne htail.1 (htail.2 (phraseAt_ne_line _ _)) rfl rfl
  exact Written.store h hends (show (⟨.arrow, "->"⟩ : Token).kind = .arrow from rfl)
    (show (⟨.literal, name⟩ : Token).kind = .literal from rfl) named

/-- The tokens of a chain write each grouped tree that it spells. -/
theorem written_of_spelledBy {c : Chain} (h : SpelledBy c tree) (hgrouped : tree.grouped = true) :
    ∃ tail, Written false (phraseAt tree.tightness tree) tail c.tokens ∧
      ∀ t ∈ c.tokens.head?, t.kind ≠ .backquote := by
  induction h with
  | item a =>
    have htokens : tokens ⟨a, []⟩ = a.tokens := List.append_nil _
    rw [htokens]
    exact ⟨a.tail, .process a.written, a.plain⟩
  | @binary op left right a b links links' _ _ ihleft ihright =>
    obtain ⟨hgleft, hgright, hle, hlt⟩ := Tree.grouped_binary_iff.mp hgrouped
    obtain ⟨tail, hleft, hplain⟩ := ihleft hgleft
    obtain ⟨tail', hright, hplain'⟩ := ihright hgright
    have htokens : tokens ⟨a, links ++ .join op b :: links'⟩ =
        tokens ⟨a, links⟩ ++ ⟨op.kind, op.sign⟩ :: tokens ⟨b, links'⟩ := by
      simp only [tokens, Link.tokens, List.flatMap_append, List.flatMap_cons, List.append_assoc,
        List.cons_append]
    rw [htokens]
    exact ⟨tail', written_join (written_loosen hleft hle) (written_loosen hright hlt) hplain',
      fun t ht => hplain t (hleft.mem_head? (phraseAt_ne_word _ _) ht)⟩
  | @assign command a links name named _ ih =>
    obtain ⟨hgcommand, hle⟩ := Tree.grouped_assign_iff.mp hgrouped
    obtain ⟨tail, hcommand, hplain⟩ := ih hgcommand
    have htokens : tokens ⟨a, links ++ [.store name named]⟩ =
        tokens ⟨a, links⟩ ++ [⟨.arrow, "->"⟩, ⟨.literal, name⟩] := by
      simp only [tokens, Link.tokens, List.flatMap_append, List.flatMap_cons, List.flatMap_nil,
        List.append_assoc, List.append_nil]
    rw [htokens]
    exact ⟨.closed, written_store (written_loosen hcommand hle) named,
      fun t ht => hplain t (hcommand.mem_head? (phraseAt_ne_word _ _) ht)⟩

/-! ## Reading a chain -/

/-- The tokens of a command line that is a chain, with or without a semicolon at its end. -/
def line (c : Chain) (ended : Bool) : List Token :=
  c.tokens ++ if ended then [⟨.semicolon, ";"⟩] else []

theorem written_line {c : Chain} (h : SpelledBy c tree) (hgrouped : tree.grouped = true) (ended : Bool) :
    ∃ tail, Written false (.line tree) tail (c.line ended) ∧ tail.endsLine false .ending = true := by
  obtain ⟨tail, hwritten, _⟩ := written_of_spelledBy h hgrouped
  have hsequence : Written false (.sequence tree) tail c.tokens :=
    written_loosen hwritten (Nat.zero_le _)
  have htail := hsequence.tail_ne rfl
  have hends : ∀ {k : TokenKind}, k.extendsWord false = false → k.extendsProcess = false →
      k.extendsPipeline = false → k.extendsCondition = false → tail.endsCondition false k = true :=
    fun hword hprocess hpipeline hcondition => Tail.endsCondition_iff.mpr
      ⟨Tail.endsPipeline_iff.mpr
        ⟨Tail.endsCommand_of_ne htail.1 (htail.2 nofun) hword hprocess, hpipeline⟩, hcondition⟩
  cases ended with
  | false =>
    rw [line, if_neg Bool.false_ne_true, List.append_nil]
    exact ⟨tail, .sequence hsequence, Tail.endsLine_iff.mpr ⟨hends rfl rfl rfl rfl, nofun⟩⟩
  | true => exact ⟨.semicolon, .terminated hsequence (hends rfl rfl rfl rfl) rfl, rfl⟩

/-- Each grouped tree that is spelled by a chain is read from it. -/
theorem ofReading_of_spelledBy {c : Chain} (h : SpelledBy c tree) (hgrouped : tree.grouped = true)
    (ended : Bool) (fault : Option Fault) :
    Tree.ofReading { tokens := c.line ended ++ [Token.eof], fault } =
      .ok (tree, { tokens := [Token.eof], fault := fault.getD .exhausted }) := by
  obtain ⟨tail, hline, hends⟩ := written_line h hgrouped ended
  exact Tree.ofReading_eq_ok_iff.mpr ⟨tail, c.line ended, rfl, List.cons_ne_nil _ _, rfl, hline, hends⟩

/-- **Precedence and associativity.** A chain spells one grouped tree, and this is the tree that is
read from the chain, whether a semicolon follows or not. -/
theorem ofReading_chain (c : Chain) :
    (c.tree.grouped = true ∧ SpelledBy c c.tree) ∧
    (∀ other : Tree, other.grouped = true → SpelledBy c other → other = c.tree) ∧
    ∀ (ended : Bool) (fault : Option Fault),
      Tree.ofReading { tokens := c.line ended ++ [Token.eof], fault } =
        .ok (c.tree, { tokens := [Token.eof], fault := fault.getD .exhausted }) := by
  obtain ⟨hgrouped, hspelled⟩ := c.grouped_tree
  refine ⟨⟨hgrouped, hspelled⟩, ?_, ofReading_of_spelledBy hspelled hgrouped⟩
  -- both trees are read from the same tokens
  intro other hother hspelled'
  have hread := ofReading_of_spelledBy hspelled' hother false none
  rw [ofReading_of_spelledBy hspelled hgrouped false none] at hread
  cases hread
  rfl

/-- A process of one literal word. -/
def Item.literal (text : String) : Item where
  words := [[.token ⟨.literal, text⟩]]
  redirects := []
  tail := .word
  tokens := [⟨.literal, text⟩]
  written := .first (.part .nothing rfl nofun) nofun
  plain := by
    intro t ht
    cases ht
    exact nofun

/-- In `a ; b | c -> x && d || e` the name takes the status of the whole pipeline. -/
theorem ofReading_chain_mixed :
    let c : Chain := ⟨.literal "a", [.join .sequence (.literal "b"), .join .pipe (.literal "c"),
      .store "x" rfl, .join .andThen (.literal "d"), .join .orElse (.literal "e")]⟩
    c.tree = .binary .sequence (Item.literal "a").tree
      (.binary .orElse
        (.binary .andThen
          (.assign (.binary .pipe (Item.literal "b").tree (Item.literal "c").tree) "x")
          (Item.literal "d").tree)
        (Item.literal "e").tree) ∧
      Tree.ofReading { tokens := c.line true ++ [Token.eof] } =
        .ok (c.tree, { tokens := [Token.eof], fault := .exhausted }) :=
  ⟨rfl, (ofReading_chain _).2.2 true none⟩

end Chain

end ValueShell
