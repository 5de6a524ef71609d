import ValueShell.Proofs.Command.Depth

/-!
# What is written is read

The tokens that write a phrase are read as this phrase if the token after them does not go on with it.
The rules of the grammar are left-recursive and the reader loops, so the statement for the parts of a
loop (`Reads`) says where the loop has come to after the tokens, not what it returns in the end.
-/

set_option autoImplicit false

namespace ValueShell.Tree

variable {inside : Bool} {fault : Fault}
variable {t name opening closing space : Token} {pieces before word : List Piece} {i : Input}
  {words : List (List Piece)} {redirects : List Redirect} {append : Bool} {source : Nat}

@[simp]
theorem Input.current_cons (t : Token) (rest : List Token) :
    Input.current ⟨t :: rest, fault⟩ = t := rfl

@[simp]
theorem Input.advance_cons {rest : List Token} (h : rest ≠ []) :
    Input.advance ⟨t :: rest, fault⟩ = .ok ⟨rest, fault⟩ := by
  cases rest with
  | nil => exact absurd rfl h
  | cons u rest => rfl

theorem resultName_cons {rest : List Token} (c : Complaint) (h : rest ≠ []) (hkind : name.kind = .literal)
    (hname : beginsLikeName name.text = true) :
    resultName ⟨name :: rest, fault⟩ c = .ok (name.text, ⟨rest, fault⟩) := by
  rw [resultName, Input.current, List.headD_cons, hkind, hname, Input.advance_cons h]
  rfl

/-- The reader takes the tokens `ts` for the phrase, and goes on with what follows. -/
def Reads (inside : Bool) (fault : Fault) (tail : Tail) (ts : List Token) : Phrase → Prop
  | .word pieces => ∀ before rest, rest ≠ [] →
      readWord inside before ⟨ts ++ rest, fault⟩ = readWord inside (before ++ pieces) ⟨rest, fault⟩
  | .process words redirects => ∀ rest, rest ≠ [] →
      (tail = .word → (Input.current ⟨rest, fault⟩).kind.extendsWord inside = false) →
      readCommand inside ⟨ts ++ rest, fault⟩ = readProcess inside words redirects ⟨rest, fault⟩
  | .command tree => ∀ rest, rest ≠ [] →
      tail.endsCommand inside (Input.current ⟨rest, fault⟩).kind = true →
      readCommand inside ⟨ts ++ rest, fault⟩ = .ok (tree, ⟨rest, fault⟩)
  | .pipeline tree => ∀ rest, rest ≠ [] →
      tail.endsCommand inside (Input.current ⟨rest, fault⟩).kind = true →
      readStages inside ⟨ts ++ rest, fault⟩ = readPipeline inside tree ⟨rest, fault⟩
  | .condition tree => ∀ rest, rest ≠ [] →
      tail.endsPipeline inside (Input.current ⟨rest, fault⟩).kind = true →
      readCondition inside none ⟨ts ++ rest, fault⟩ =
        goOnCondition (readCondition inside) tree ⟨rest, fault⟩
  | .sequence tree => ∀ rest, rest ≠ [] →
      tail.endsCondition inside (Input.current ⟨rest, fault⟩).kind = true →
      readSequence inside none ⟨ts ++ rest, fault⟩ =
        goOnSequence (readSequence inside) tree ⟨rest, fault⟩
  | .line tree => ∀ rest, rest ≠ [] → tail.endsLine inside (Input.current ⟨rest, fault⟩).kind = true →
      readSequence inside none ⟨ts ++ rest, fault⟩ = .ok (tree, ⟨rest, fault⟩)

/-! ## Where loops end -/

theorem readWord_ends (hne : pieces ≠ []) (h : i.current.kind.extendsWord inside = false) :
    readWord inside pieces i = .ok (pieces, i) := by
  rw [TokenKind.extendsWord, Bool.or_eq_false_iff] at h
  have hdouble : i.current.kind ≠ .doubleQuoted := by
    intro hkind
    rw [hkind] at h
    exact Bool.noConfusion h.1
  rw [readWord_eq, stepWord, if_neg hdouble, if_neg (by simp [h.1]), if_neg (by rw [h.2]; simp),
    if_neg (by simpa using hne)]

theorem readProcess_ends (h : i.current.kind.extendsProcess = false) :
    readProcess inside words redirects i = .ok (.process words redirects, i) := by
  rw [readProcess_eq, stepProcess]
  split
  · rename_i hkind
    rw [hkind] at h
    cases h
  · rename_i hkind
    rw [hkind] at h
    cases h
  · rename_i hkind
    rw [hkind] at h
    cases h
  · rfl

theorem readPipeline_ends {tree : Tree} (h : i.current.kind.extendsPipeline = false) :
    readPipeline inside tree i = .ok (tree, i) := by
  rw [readPipeline_eq, stepPipeline]
  split
  · rename_i hkind
    rw [hkind] at h
    cases h
  · rename_i hkind
    rw [hkind] at h
    cases h
  · rfl

theorem goOnCondition_ends {read : Option (Tree × Operator) → Input → Except Fault (Tree × Input)}
    {tree : Tree} (h : i.current.kind.extendsCondition = false) :
    goOnCondition read tree i = .ok (tree, i) := by
  unfold goOnCondition
  split
  · rename_i hkind
    rw [hkind] at h
    cases h
  · rename_i hkind
    rw [hkind] at h
    cases h
  · rfl

/-! ## Words -/

variable {tail tail' : Tail} {ts us rest : List Token} {tree left right : Tree}

theorem readWord_part (hpart : t.kind.isWordPart = true) (hdouble : t.kind ≠ .doubleQuoted)
    (hrest : rest ≠ []) :
    readWord inside before ⟨t :: rest, fault⟩ =
      readWord inside (before ++ [.token t]) ⟨rest, fault⟩ := by
  rw [readWord_eq, stepWord, Input.current_cons, if_neg hdouble, if_pos hpart, Input.advance_cons hrest,
    ok_bind]

theorem readWord_quoted {expanded : List Token} (hdouble : t.kind = .doubleQuoted)
    (hexpanded : Token.expandQuoted t.text = .ok expanded) (hrest : rest ≠ []) :
    readWord inside before ⟨t :: rest, fault⟩ =
      readWord inside (before ++ expanded.map .token) ⟨rest, fault⟩ := by
  rw [readWord_eq, stepWord, Input.current_cons, if_pos hdouble, hexpanded, ok_bind,
    Input.advance_cons hrest, ok_bind]

theorem readWord_backquoted (hkind : t.kind = .backquote)
    (h : readBackquoted ⟨t :: us, fault⟩ = .ok (tree, ⟨rest, fault⟩)) :
    readWord false before ⟨t :: us, fault⟩ =
      readWord false (before ++ [.backquote tree]) ⟨rest, fault⟩ := by
  rw [readWord_eq, stepWord, Input.current_cons, hkind, if_neg (by decide), if_neg (by decide),
    if_pos (by decide), h, ok_bind]

/-- Spaces after an opening backquote are passed over. -/
theorem readBackquoted_spaces {spaces : List Token} (hspaces : ∀ s ∈ spaces, s.kind = .space)
    (hus : us ≠ []) (hhead : (Input.current ⟨us, fault⟩).kind ≠ .space)
    (hclosing : closing.kind = .backquote) (hrest : rest ≠ [])
    (h : readSequence true none ⟨us, fault⟩ = .ok (tree, ⟨closing :: rest, fault⟩)) :
    readBackquoted ⟨opening :: (spaces ++ us), fault⟩ = .ok (tree, ⟨rest, fault⟩) := by
  induction spaces generalizing opening with
  | nil =>
    rw [readBackquoted_eq, stepBackquoted, List.nil_append, Input.advance_cons hus]
    rw [ok_bind, if_neg hhead, h, ok_bind]
    dsimp only
    rw [Input.current_cons, if_neg (by simp [hclosing]), Input.advance_cons hrest, ok_bind]
  | cons s others ih =>
    have hs : s.kind = .space := hspaces s List.mem_cons_self
    rw [readBackquoted_eq, stepBackquoted, List.cons_append, Input.advance_cons (List.cons_ne_nil _ _)]
    rw [ok_bind, Input.current_cons, if_pos hs]
    exact ih fun s' hs' => hspaces s' (List.mem_cons_of_mem s hs')

/-- A whole word. -/
theorem Reads.word_ends (h : Reads inside fault .word ts (.word pieces)) (hne : pieces ≠ [])
    (hrest : rest ≠ []) (hends : (Input.current ⟨rest, fault⟩).kind.extendsWord inside = false) :
    readWord inside [] ⟨ts ++ rest, fault⟩ = .ok (pieces, ⟨rest, fault⟩) := by
  rw [h [] rest hrest, List.nil_append]
  exact readWord_ends hne hends

/-! ## Processes and commands -/

theorem readProcess_argument (hspace : space.kind = .space) (hus : us ≠ [])
    (hhead : (Input.current ⟨us, fault⟩).kind.extendsWord inside = true)
    (h : readWord inside [] ⟨us, fault⟩ = .ok (word, i)) :
    readProcess inside words redirects ⟨space :: us, fault⟩ =
      readProcess inside (words ++ [word]) redirects i := by
  rw [readProcess_eq, stepProcess, Input.current_cons, hspace]
  dsimp only
  rw [Input.advance_cons hus, ok_bind]
  -- between backquotes a word does not begin with a backquote
  have hbackquote : ¬((decide ((Input.current ⟨us, fault⟩).kind = .backquote) && inside) = true) := by
    rw [Bool.and_eq_true, decide_eq_true_eq]
    rintro ⟨hkind, rfl⟩
    rw [hkind] at hhead
    cases hhead
  rw [if_neg hbackquote, h, ok_bind]

theorem readProcess_padding (hspace : space.kind = .space) (hrest : rest ≠ [])
    (hclosing : (Input.current ⟨rest, fault⟩).kind = .backquote) :
    readProcess true words redirects ⟨space :: rest, fault⟩ =
      .ok (.process words redirects, ⟨rest, fault⟩) := by
  rw [readProcess_eq, stepProcess, Input.current_cons, hspace]
  dsimp only
  rw [Input.advance_cons hrest, ok_bind, if_pos (by rw [hclosing]; rfl)]

theorem readProcess_descriptor {sign : Token} {target : Nat} (hsign : sign.kind = .redirect)
    (hparts : redirectParts sign.text = .ok (append, source, some target)) (hrest : rest ≠ []) :
    readProcess inside words redirects ⟨sign :: rest, fault⟩ =
      readProcess inside words (redirects ++ [.descriptor append source target]) ⟨rest, fault⟩ := by
  rw [readProcess_eq, stepProcess, Input.current_cons, hsign]
  dsimp only
  rw [hparts, ok_bind]
  dsimp only
  rw [Input.advance_cons hrest, ok_bind]

theorem readProcess_file {sign : Token} (hsign : sign.kind = .redirect)
    (hparts : redirectParts sign.text = .ok (append, source, none)) (hus : us ≠ [])
    (h : readWord inside [] ⟨us, fault⟩ = .ok (word, i)) :
    readProcess inside words redirects ⟨sign :: us, fault⟩ =
      readProcess inside words (redirects ++ [.file append source word]) i := by
  rw [readProcess_eq, stepProcess, Input.current_cons, hsign]
  dsimp only
  rw [hparts, ok_bind]
  dsimp only
  rw [Input.advance_cons hus, ok_bind, h, ok_bind]

theorem readProcess_capture {sign : Token} (hsign : sign.kind = .capture) (hliteral : name.kind = .literal)
    (hname : beginsLikeName name.text = true) (hrest : rest ≠ []) :
    readProcess inside words redirects ⟨sign :: name :: rest, fault⟩ =
      readProcess inside words (redirects ++ [.capture name.text]) ⟨rest, fault⟩ := by
  rw [readProcess_eq, stepProcess, Input.current_cons, hsign]
  dsimp only
  rw [Input.advance_cons (List.cons_ne_nil _ _), ok_bind, resultName_cons _ hrest hliteral hname,
    ok_bind]

theorem readCommand_word (hhead : (Input.current ⟨us, fault⟩).kind ≠ .openParen)
    (h : readWord inside [] ⟨us, fault⟩ = .ok (word, i)) :
    readCommand inside ⟨us, fault⟩ = readProcess inside [word] [] i := by
  rw [readCommand_eq, stepCommand, if_neg hhead, h, ok_bind]

theorem readCommand_group (hopening : opening.kind = .openParen) (hus : us ≠ [])
    (hclosing : closing.kind = .closeParen) (hrest : rest ≠ [])
    (h : readSequence inside none ⟨us, fault⟩ = .ok (tree, ⟨closing :: rest, fault⟩)) :
    readCommand inside ⟨opening :: us, fault⟩ = .ok (tree, ⟨rest, fault⟩) := by
  rw [readCommand_eq, stepCommand, Input.current_cons, if_pos hopening, Input.advance_cons hus,
    ok_bind, h, ok_bind]
  dsimp only
  rw [Input.current_cons, if_neg (by simp [hclosing]), Input.advance_cons hrest, ok_bind]

/-! ## Operators -/

theorem readPipeline_pipe {sign : Token} (hsign : sign.kind = .pipe) (hus : us ≠ [])
    (h : readCommand inside ⟨us, fault⟩ = .ok (right, i)) :
    readPipeline inside left ⟨sign :: us, fault⟩ = readPipeline inside (.binary .pipe left right) i := by
  rw [readPipeline_eq, stepPipeline, Input.current_cons, hsign]
  dsimp only
  rw [Input.advance_cons hus, ok_bind, h, ok_bind]

theorem readPipeline_store {sign : Token} (hsign : sign.kind = .arrow) (hliteral : name.kind = .literal)
    (hname : beginsLikeName name.text = true) (hrest : rest ≠ []) :
    readPipeline inside tree ⟨sign :: name :: rest, fault⟩ =
      readPipeline inside (.assign tree name.text) ⟨rest, fault⟩ := by
  rw [readPipeline_eq, stepPipeline, Input.current_cons, hsign]
  dsimp only
  rw [Input.advance_cons (List.cons_ne_nil _ _), ok_bind, resultName_cons _ hrest hliteral hname,
    ok_bind]

theorem readCondition_stages {before : Option (Tree × Operator)} {j : Input}
    (h : readStages inside i = .ok (right, j)) :
    readCondition inside before i =
      goOnCondition (readCondition inside) (afterCondition before right) j := by
  rw [readCondition_eq, stepCondition, h, ok_bind]

theorem goOnCondition_operator {op : Operator} {sign : Token}
    {read : Option (Tree × Operator) → Input → Except Fault (Tree × Input)}
    (hop : op = .andThen ∨ op = .orElse) (hsign : sign.kind = op.kind) (hus : us ≠ []) :
    goOnCondition read left ⟨sign :: us, fault⟩ = read (some (left, op)) ⟨us, fault⟩ := by
  rw [goOnCondition, Input.current_cons, hsign]
  rcases hop with rfl | rfl
  · dsimp only [Operator.kind]
    rw [Input.advance_cons hus, ok_bind]
  · dsimp only [Operator.kind]
    rw [Input.advance_cons hus, ok_bind]

theorem readSequence_condition {before : Option Tree} {j : Input}
    (h : readCondition inside none i = .ok (right, j)) :
    readSequence inside before i =
      goOnSequence (readSequence inside) (afterSequence before right) j := by
  rw [readSequence_eq, stepSequence, h, ok_bind]

section Semicolon

variable {read : Option Tree → Input → Except Fault (Tree × Input)} {sign : Token}

theorem goOnSequence_ends (h : i.current.kind ≠ .semicolon) : goOnSequence read tree i = .ok (tree, i) := by
  rw [goOnSequence, if_pos h]

/-- A semicolon at the end of a line. -/
theorem goOnSequence_terminated (hsign : sign.kind = .semicolon) (hrest : rest ≠ [])
    (hends : Tail.semicolon.endsCommand inside (Input.current ⟨rest, fault⟩).kind = true) :
    goOnSequence read tree ⟨sign :: rest, fault⟩ = .ok (tree, ⟨rest, fault⟩) := by
  rw [goOnSequence, Input.current_cons, if_neg (not_not.mpr hsign), Input.advance_cons hrest, ok_bind]
  simp only [Tail.endsCommand, Bool.or_eq_true, decide_eq_true_eq] at hends
  rcases hends with (hkind | hkind) | hkind
  · rw [hkind]
  · rw [hkind]
  · rw [hkind]

/-- A semicolon before another command. -/
theorem goOnSequence_successive (hsign : sign.kind = .semicolon) (hus : us ≠ [])
    (hhead : Tail.semicolon.endsCommand inside (Input.current ⟨us, fault⟩).kind = false) :
    goOnSequence read tree ⟨sign :: us, fault⟩ = read (some tree) ⟨us, fault⟩ := by
  rw [goOnSequence, Input.current_cons, if_neg (not_not.mpr hsign), Input.advance_cons hus, ok_bind]
  simp only [Tail.endsCommand, Bool.or_eq_false_iff, decide_eq_false_iff_not] at hhead
  obtain ⟨⟨hending, hparen⟩, hbackquote⟩ := hhead
  split
  · rename_i hkind
    exact absurd hkind hending
  · rename_i hkind
    exact absurd hkind hparen
  · rename_i hkind
    exact absurd hkind hbackquote
  · rfl

end Semicolon

/-! ## Phrases -/

/-- The current token is the first one of the phrase that stands next. -/
theorem current_of_written {phrase : Phrase} (h : Written inside phrase tail ts)
    (hphrase : phrase ≠ .word []) :
    phrase.BeginsWith inside (Input.current ⟨ts ++ rest, fault⟩).kind := by
  cases ts with
  | nil => exact absurd rfl (h.ne_nil hphrase)
  | cons t others => exact h.head t rfl

/-- A word, or a phrase that begins with one, begins with neither a parenthesis nor a space. -/
theorem ne_of_extendsWord {k : TokenKind} (h : k.extendsWord inside = true) :
    k ≠ .openParen ∧ k ≠ .space := by
  constructor
  · rintro rfl
    cases h
  · rintro rfl
    cases h

theorem Reads.backquoted {spaces inner : List Token} (h : Reads false fault .word ts (.word pieces))
    (hopening : opening.kind = .backquote) (hspaces : ∀ s ∈ spaces, s.kind = .space)
    (hinner : Written true (.line tree) tail inner) (hline : Reads true fault tail inner (.line tree))
    (hclosing : closing.kind = .backquote) :
    Reads false fault .word (ts ++ opening :: (spaces ++ (inner ++ [closing])))
      (.word (pieces ++ [.backquote tree])) := by
  intro before rest hrest
  have hend : tail.endsLine true .backquote = true := by cases tail <;> rfl
  have hread := hline (closing :: rest) (List.cons_ne_nil _ _)
    (by rw [Input.current_cons, hclosing, hend])
  have hspace : (Input.current ⟨inner ++ closing :: rest, fault⟩).kind ≠ .space := by
    rcases current_of_written hinner Phrase.noConfusion with hword | hparen
    · exact (ne_of_extendsWord hword).2
    · rw [hparen]
      decide
  have htokens : ts ++ opening :: (spaces ++ (inner ++ [closing])) ++ rest =
      ts ++ opening :: (spaces ++ (inner ++ closing :: rest)) := by
    simp only [List.append_assoc, List.cons_append, List.nil_append]
  rw [htokens, h before _ (List.cons_ne_nil _ _), readWord_backquoted hopening
    (readBackquoted_spaces hspaces (by simp) hspace hclosing hrest hread), List.append_assoc]

theorem Reads.first (h : Reads inside fault .word ts (.word word))
    (hwritten : Written inside (.word word) .word ts) (hword : word ≠ []) :
    Reads inside fault .word ts (.process [word] []) := by
  intro rest hrest hends
  have hhead : (Input.current ⟨ts ++ rest, fault⟩).kind.extendsWord inside = true :=
    current_of_written hwritten fun heq => hword (Phrase.word.inj heq)
  exact readCommand_word (ne_of_extendsWord hhead).1 (h.word_ends hword hrest (hends rfl))

theorem Reads.argument (h : Reads inside fault tail ts (.process words redirects))
    (hspace : space.kind = .space) (hwritten : Written inside (.word word) .word us)
    (hread : Reads inside fault .word us (.word word)) (hword : word ≠ []) :
    Reads inside fault .word (ts ++ space :: us) (.process (words ++ [word]) redirects) := by
  intro rest hrest hends
  have hhead : (Input.current ⟨us ++ rest, fault⟩).kind.extendsWord inside = true :=
    current_of_written hwritten fun heq => hword (Phrase.word.inj heq)
  rw [List.append_assoc, List.cons_append,
    h _ (List.cons_ne_nil _ _) fun _ => by rw [Input.current_cons, hspace]; rfl]
  exact readProcess_argument hspace (List.append_ne_nil_of_right_ne_nil _ hrest) hhead
    (hread.word_ends hword hrest (hends rfl))

theorem Reads.file {sign : Token} (h : Reads inside fault tail ts (.process words redirects))
    (hsign : sign.kind = .redirect) (hparts : redirectParts sign.text = .ok (append, source, none))
    (hread : Reads inside fault .word us (.word word)) (hword : word ≠ []) :
    Reads inside fault .word (ts ++ sign :: us)
      (.process words (redirects ++ [.file append source word])) := by
  intro rest hrest hends
  rw [List.append_assoc, List.cons_append,
    h _ (List.cons_ne_nil _ _) fun _ => by rw [Input.current_cons, hsign]; rfl]
  exact readProcess_file hsign hparts (List.append_ne_nil_of_right_ne_nil _ hrest)
    (hread.word_ends hword hrest (hends rfl))

theorem Reads.process (h : Reads inside fault tail ts (.process words redirects))
    (hwritten : Written inside (.process words redirects) tail ts) :
    Reads inside fault tail ts (.command (.process words redirects)) := by
  intro rest hrest hends
  rcases hwritten.tail_process with rfl | rfl
  · rw [Tail.endsCommand, Bool.and_eq_true, Bool.not_eq_true', Bool.not_eq_true'] at hends
    rw [h rest hrest fun _ => hends.1]
    exact readProcess_ends hends.2
  · rw [Tail.endsCommand, Bool.not_eq_true'] at hends
    rw [h rest hrest fun heq => Tail.noConfusion heq]
    exact readProcess_ends hends

theorem Reads.group (hopening : opening.kind = .openParen) (h : Reads inside fault tail ts (.line tree))
    (hends : tail.endsLine inside .closeParen = true) (hclosing : closing.kind = .closeParen) :
    Reads inside fault .closed (opening :: (ts ++ [closing])) (.command tree) := by
  intro rest hrest _
  rw [List.cons_append, List.append_assoc, List.singleton_append]
  exact readCommand_group hopening (List.append_ne_nil_of_right_ne_nil _ (List.cons_ne_nil _ _))
    hclosing hrest
    (h _ (List.cons_ne_nil _ _) (by rw [Input.current_cons, hclosing]; exact hends))

theorem Reads.pipeline (h : Reads inside fault tail ts (.pipeline tree)) :
    Reads inside fault tail ts (.condition tree) := by
  intro rest hrest hends
  rw [Tail.endsPipeline_iff] at hends
  refine readCondition_stages ?_
  rw [h rest hrest hends.1]
  exact readPipeline_ends hends.2

theorem Reads.conditional {op : Operator} {sign : Token}
    (h : Reads inside fault tail ts (.condition left)) (hop : op = .andThen ∨ op = .orElse)
    (hends : tail.endsPipeline inside op.kind = true) (hsign : sign.kind = op.kind)
    (h' : Reads inside fault tail' us (.pipeline right)) :
    Reads inside fault tail' (ts ++ sign :: us) (.condition (.binary op left right)) := by
  intro rest hrest hends'
  rw [Tail.endsPipeline_iff] at hends'
  rw [List.append_assoc, List.cons_append,
    h _ (List.cons_ne_nil _ _) (by rw [Input.current_cons, hsign, hends]),
    goOnCondition_operator hop hsign (List.append_ne_nil_of_right_ne_nil _ hrest)]
  refine readCondition_stages ?_
  rw [h' rest hrest hends'.1]
  exact readPipeline_ends hends'.2

theorem Reads.condition (h : Reads inside fault tail ts (.condition tree)) :
    Reads inside fault tail ts (.sequence tree) := by
  intro rest hrest hends
  rw [Tail.endsCondition_iff] at hends
  refine readSequence_condition ?_
  rw [h rest hrest hends.1]
  exact goOnCondition_ends hends.2

theorem Reads.successive {sign : Token} (h : Reads inside fault tail ts (.sequence left))
    (hends : tail.endsCondition inside .semicolon = true) (hsign : sign.kind = .semicolon)
    (hwritten : Written inside (.condition right) tail' us)
    (h' : Reads inside fault tail' us (.condition right))
    (hbackquote : ∀ t ∈ us.head?, t.kind ≠ .backquote) :
    Reads inside fault tail' (ts ++ sign :: us) (.sequence (.binary .sequence left right)) := by
  intro rest hrest hends'
  rw [Tail.endsCondition_iff] at hends'
  -- the second condition begins neither with a backquote nor with the end of a line
  have hhead : Tail.semicolon.endsCommand inside (Input.current ⟨us ++ rest, fault⟩).kind = false := by
    cases us with
    | nil => exact absurd rfl (hwritten.ne_nil Phrase.noConfusion)
    | cons t others =>
      have hne := hbackquote t rfl
      have hbegins : t.kind.extendsWord inside = true ∨ t.kind = .openParen := hwritten.head t rfl
      rw [List.cons_append, Input.current_cons]
      revert hbegins hne
      generalize t.kind = k
      cases k <;> simp [TokenKind.extendsWord, TokenKind.isWordPart, Tail.endsCommand]
  rw [List.append_assoc, List.cons_append,
    h _ (List.cons_ne_nil _ _) (by rw [Input.current_cons, hsign, hends]),
    goOnSequence_successive hsign (List.append_ne_nil_of_right_ne_nil _ hrest) hhead]
  refine readSequence_condition ?_
  rw [h' rest hrest hends'.1]
  exact goOnCondition_ends hends'.2

/-- **The reader takes every phrase for what it is.** -/
theorem reads_of_written {phrase : Phrase} (h : Written inside phrase tail ts) :
    Reads inside fault tail ts phrase := by
  -- on the rules of the grammar; a part of a loop is read up to the tokens that its rule puts behind it
  induction h with
  | nothing =>
    intro before rest _
    rw [List.append_nil, List.nil_append]
  | part _ hpart hdouble ih =>
    intro before rest hrest
    rw [List.append_assoc, List.singleton_append, ih before _ (List.cons_ne_nil _ _),
      readWord_part hpart hdouble hrest, List.append_assoc]
  | quoted _ hdouble hexpanded ih =>
    intro before rest hrest
    rw [List.append_assoc, List.singleton_append, ih before _ (List.cons_ne_nil _ _),
      readWord_quoted hdouble hexpanded hrest, List.append_assoc]
  | backquoted _ hopening hspaces hinner hclosing ih ihline =>
    exact ih.backquoted hopening hspaces hinner ihline hclosing
  | first hwritten hword ih => exact ih.first hwritten hword
  | argument _ hspace hwritten hword ih ihword => exact ih.argument hspace hwritten ihword hword
  | descriptor _ hsign hparts ih =>
    intro rest hrest _
    rw [List.append_assoc, List.singleton_append,
      ih _ (List.cons_ne_nil _ _) fun _ => by rw [Input.current_cons, hsign]; rfl]
    exact readProcess_descriptor hsign hparts hrest
  | file _ hsign hparts _ hword ih ihword => exact ih.file hsign hparts ihword hword
  | capture _ hsign hliteral hname ih =>
    intro rest hrest _
    rw [List.append_assoc, List.cons_append, List.singleton_append,
      ih _ (List.cons_ne_nil _ _) fun _ => by rw [Input.current_cons, hsign]; rfl]
    exact readProcess_capture hsign hliteral hname hrest
  | process hwritten ih => exact ih.process hwritten
  | padded _ hspace ih =>
    intro rest hrest hends
    rw [List.append_assoc, List.singleton_append,
      ih _ (List.cons_ne_nil _ _) fun _ => by rw [Input.current_cons, hspace]; rfl]
    exact readProcess_padding hspace hrest (by simpa [Tail.endsCommand] using hends)
  | group hopening _ hends hclosing ih => exact .group hopening ih hends hclosing
  | command _ ih =>
    intro rest hrest hends
    rw [readStages, ih rest hrest hends, ok_bind]
  | pipe _ hends hsign _ ih ihright =>
    intro rest hrest hends'
    rw [List.append_assoc, List.cons_append,
      ih _ (List.cons_ne_nil _ _) (by rw [Input.current_cons, hsign, hends])]
    exact readPipeline_pipe hsign (List.append_ne_nil_of_right_ne_nil _ hrest)
      (ihright rest hrest hends')
  | store _ hends hsign hliteral hname ih =>
    intro rest hrest _
    rw [List.append_assoc, List.cons_append, List.singleton_append,
      ih _ (List.cons_ne_nil _ _) (by rw [Input.current_cons, hsign, hends])]
    exact readPipeline_store hsign hliteral hname hrest
  | pipeline _ ih => exact ih.pipeline
  | conditional _ hop hends hsign _ ih ihright => exact ih.conditional hop hends hsign ihright
  | condition _ ih => exact ih.condition
  | successive _ hends hsign hright hbackquote ih ihright =>
    exact ih.successive hends hsign hright ihright hbackquote
  | sequence _ ih =>
    intro rest hrest hends
    rw [Tail.endsLine_iff] at hends
    rw [ih rest hrest hends.1]
    exact goOnSequence_ends hends.2
  | terminated _ hends hsign ih =>
    intro rest hrest hends'
    have hcommand := (Tail.endsPipeline_iff.mp (Tail.endsCondition_iff.mp
      (Tail.endsLine_iff.mp hends').1).1).1
    rw [List.append_assoc, List.singleton_append,
      ih _ (List.cons_ne_nil _ _) (by rw [Input.current_cons, hsign, hends])]
    exact goOnSequence_terminated hsign hrest hcommand

/-! ## Whole readings -/

/-- **Exactly the lines of the grammar are read**, and what follows the line is left. -/
theorem ofReading_eq_ok_iff {r : Token.Reading} :
    ofReading r = .ok (tree, i) ↔
      ∃ tail ts, r.tokens = ts ++ i.tokens ∧ i.tokens ≠ [] ∧ i.fault = r.fault.getD .exhausted ∧
        Written false (.line tree) tail ts ∧ tail.endsLine false i.current.kind = true := by
  constructor
  · intro h
    have hne : r.tokens ≠ [] := by
      intro hnil
      rw [ofReading, hnil] at h
      cases h
    rw [ofReading_eq hne] at h
    obtain ⟨tail, ts, hpass, hwritten, hends⟩ :=
      (sound _).sequence h [] rfl fun hnone => absurd rfl hnone
    exact ⟨tail, ts, hpass.tokens, hpass.more (hwritten.ne_nil Phrase.noConfusion), hpass.fault.symm,
      hwritten, hends⟩
  · rintro ⟨tail, ts, htokens, hmore, hfault, hwritten, hends⟩
    obtain ⟨tokens, fault⟩ := i
    cases hfault
    have hne : r.tokens ≠ [] := by
      rw [htokens]
      exact List.append_ne_nil_of_right_ne_nil _ hmore
    rw [ofReading_eq hne, htokens]
    exact reads_of_written hwritten tokens hmore hends

end ValueShell.Tree
