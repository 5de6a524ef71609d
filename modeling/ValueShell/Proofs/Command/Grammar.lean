import ValueShell.Command.Parser

/-!
# The language of command lines

Which tokens write which command, as a grammar of its own: `Written inside phrase tail ts` says that the
tokens `ts` write `phrase`, between backquotes if `inside` holds. All operators group to the left, so the
rules for them are left-recursive. A phrase also has a `Tail`, the kind of place where its tokens end,
because it depends on this place alone which tokens cannot go on with the phrase.

The grammar does not look ahead, with one exception: what follows a semicolon must not begin with a
backquote.
-/

set_option autoImplicit false

namespace ValueShell

namespace TokenKind

/-- A token of this kind goes on with a word. Between backquotes another backquote is the closing one. -/
def extendsWord (inside : Bool) (k : TokenKind) : Bool := k.isWordPart || (k = .backquote && !inside)

/-- A token of this kind goes on with a process after a word or a redirection. -/
def extendsProcess (k : TokenKind) : Bool := k = .space || k = .redirect || k = .capture

/-- A token of this kind goes on with a pipeline. -/
def extendsPipeline (k : TokenKind) : Bool := k = .pipe || k = .arrow

/-- A token of this kind joins two commands by a condition. -/
def extendsCondition (k : TokenKind) : Bool := k = .andThen || k = .orElse

end TokenKind

/-- The kind of the token that writes an operator. -/
def Operator.kind : Operator → TokenKind
  | .sequence => .semicolon
  | .andThen => .andThen
  | .orElse => .orElse
  | .pipe => .pipe

/-- Where the tokens of a phrase end. -/
inductive Tail where
  /-- In a word. -/
  | word
  /-- In a redirection to a descriptor, or in the name of a capture. -/
  | mark
  /-- In a closing parenthesis, or in the name that a status is stored under. -/
  | closed
  /-- In a space before the closing backquote. -/
  | padding
  /-- In a semicolon. -/
  | semicolon
  deriving DecidableEq, Repr

namespace Tail

/-- A command with this tail ends before a token of kind `k`. -/
def endsCommand (inside : Bool) : Tail → TokenKind → Bool
  | .word, k => !k.extendsWord inside && !k.extendsProcess
  | .mark, k => !k.extendsProcess
  | .closed, _ => true
  | .padding, k => k = .backquote
  | .semicolon, k => k = .ending || k = .closeParen || k = .backquote

/-- A pipeline with this tail ends before a token of kind `k`. -/
def endsPipeline (inside : Bool) (tail : Tail) (k : TokenKind) : Bool :=
  tail.endsCommand inside k && !k.extendsPipeline

/-- Commands joined by conditions, with this tail, end before a token of kind `k`. -/
def endsCondition (inside : Bool) (tail : Tail) (k : TokenKind) : Bool :=
  tail.endsPipeline inside k && !k.extendsCondition

/-- A command line with this tail ends before a token of kind `k`. -/
def endsLine (inside : Bool) (tail : Tail) (k : TokenKind) : Bool :=
  tail.endsCondition inside k && k ≠ .semicolon

variable {inside : Bool} {tail : Tail} {k : TokenKind}

theorem endsPipeline_iff :
    tail.endsPipeline inside k = true ↔
      tail.endsCommand inside k = true ∧ k.extendsPipeline = false := by
  rw [endsPipeline, Bool.and_eq_true, Bool.not_eq_true']

theorem endsCondition_iff :
    tail.endsCondition inside k = true ↔
      tail.endsPipeline inside k = true ∧ k.extendsCondition = false := by
  rw [endsCondition, Bool.and_eq_true, Bool.not_eq_true']

theorem endsLine_iff :
    tail.endsLine inside k = true ↔ tail.endsCondition inside k = true ∧ k ≠ .semicolon := by
  rw [endsLine, Bool.and_eq_true, decide_eq_true_eq]

end Tail

/-- What tokens can write. -/
inductive Phrase where
  /-- The pieces of a word, or of the beginning of one. -/
  | word (pieces : List Piece)
  | process (words : List (List Piece)) (redirects : List Redirect)
  /-- A process, or commands between parentheses. -/
  | command (tree : Tree)
  /-- Commands joined by pipes, and the names that statuses are stored under. -/
  | pipeline (tree : Tree)
  /-- Pipelines joined by conditions. -/
  | condition (tree : Tree)
  /-- Conditions joined by semicolons. -/
  | sequence (tree : Tree)
  /-- A sequence with or without a semicolon at its end. -/
  | line (tree : Tree)

/-- A phrase may begin with a token of kind `k`. -/
def Phrase.BeginsWith (inside : Bool) (k : TokenKind) : Phrase → Prop
  | .word _ => k.extendsWord inside = true
  | .process _ _ => k.extendsWord inside = true
  | _ => k.extendsWord inside = true ∨ k = .openParen

/-- The tokens write the phrase. -/
inductive Written : Bool → Phrase → Tail → List Token → Prop
  -- words
  | nothing {inside} : Written inside (.word []) .word []
  | part {inside pieces ts} {t : Token} : Written inside (.word pieces) .word ts →
      t.kind.isWordPart = true → t.kind ≠ .doubleQuoted →
      Written inside (.word (pieces ++ [.token t])) .word (ts ++ [t])
  | quoted {inside pieces ts} {t : Token} {expanded} : Written inside (.word pieces) .word ts →
      t.kind = .doubleQuoted → Token.expandQuoted t.text = .ok expanded →
      Written inside (.word (pieces ++ expanded.map .token)) .word (ts ++ [t])
  | backquoted {pieces ts} {opening closing : Token} {spaces : List Token} {tree tail inner} :
      Written false (.word pieces) .word ts → opening.kind = .backquote →
      (∀ s ∈ spaces, s.kind = .space) → Written true (.line tree) tail inner →
      closing.kind = .backquote →
      Written false (.word (pieces ++ [.backquote tree])) .word
        (ts ++ opening :: (spaces ++ (inner ++ [closing])))
  -- processes
  | first {inside word ts} : Written inside (.word word) .word ts → word ≠ [] →
      Written inside (.process [word] []) .word ts
  | argument {inside words redirects tail ts} {space : Token} {word us} :
      Written inside (.process words redirects) tail ts → space.kind = .space →
      Written inside (.word word) .word us → word ≠ [] →
      Written inside (.process (words ++ [word]) redirects) .word (ts ++ space :: us)
  | descriptor {inside words redirects tail ts} {sign : Token} {append source target} :
      Written inside (.process words redirects) tail ts → sign.kind = .redirect →
      Tree.redirectParts sign.text = .ok (append, source, some target) →
      Written inside (.process words (redirects ++ [.descriptor append source target])) .mark
        (ts ++ [sign])
  | file {inside words redirects tail ts} {sign : Token} {append source word us} :
      Written inside (.process words redirects) tail ts → sign.kind = .redirect →
      Tree.redirectParts sign.text = .ok (append, source, none) →
      Written inside (.word word) .word us → word ≠ [] →
      Written inside (.process words (redirects ++ [.file append source word])) .word (ts ++ sign :: us)
  | capture {inside words redirects tail ts} {sign name : Token} :
      Written inside (.process words redirects) tail ts → sign.kind = .capture →
      name.kind = .literal → Tree.beginsLikeName name.text = true →
      Written inside (.process words (redirects ++ [.capture name.text])) .mark (ts ++ [sign, name])
  -- commands
  | process {inside words redirects tail ts} : Written inside (.process words redirects) tail ts →
      Written inside (.command (.process words redirects)) tail ts
  | padded {words redirects tail ts} {space : Token} : Written true (.process words redirects) tail ts →
      space.kind = .space → Written true (.command (.process words redirects)) .padding (ts ++ [space])
  | group {inside tree tail ts} {opening closing : Token} : opening.kind = .openParen →
      Written inside (.line tree) tail ts → tail.endsLine inside .closeParen = true →
      closing.kind = .closeParen → Written inside (.command tree) .closed (opening :: (ts ++ [closing]))
  -- pipelines
  | command {inside tree tail ts} : Written inside (.command tree) tail ts →
      Written inside (.pipeline tree) tail ts
  | pipe {inside left right tail tail' ts us} {sign : Token} : Written inside (.pipeline left) tail ts →
      tail.endsCommand inside .pipe = true → sign.kind = .pipe →
      Written inside (.command right) tail' us →
      Written inside (.pipeline (.binary .pipe left right)) tail' (ts ++ sign :: us)
  | store {inside tree tail ts} {sign name : Token} : Written inside (.pipeline tree) tail ts →
      tail.endsCommand inside .arrow = true → sign.kind = .arrow →
      name.kind = .literal → Tree.beginsLikeName name.text = true →
      Written inside (.pipeline (.assign tree name.text)) .closed (ts ++ [sign, name])
  -- conditions
  | pipeline {inside tree tail ts} : Written inside (.pipeline tree) tail ts →
      Written inside (.condition tree) tail ts
  | conditional {inside op left right tail tail' ts us} {sign : Token} :
      Written inside (.condition left) tail ts → op = .andThen ∨ op = .orElse →
      tail.endsPipeline inside op.kind = true → sign.kind = op.kind →
      Written inside (.pipeline right) tail' us →
      Written inside (.condition (.binary op left right)) tail' (ts ++ sign :: us)
  -- sequences
  | condition {inside tree tail ts} : Written inside (.condition tree) tail ts →
      Written inside (.sequence tree) tail ts
  | successive {inside left right tail tail' ts us} {sign : Token} :
      Written inside (.sequence left) tail ts → tail.endsCondition inside .semicolon = true →
      sign.kind = .semicolon → Written inside (.condition right) tail' us →
      (∀ t ∈ us.head?, t.kind ≠ .backquote) →
      Written inside (.sequence (.binary .sequence left right)) tail' (ts ++ sign :: us)
  -- lines
  | sequence {inside tree tail ts} : Written inside (.sequence tree) tail ts →
      Written inside (.line tree) tail ts
  | terminated {inside tree tail ts} {sign : Token} : Written inside (.sequence tree) tail ts →
      tail.endsCondition inside .semicolon = true → sign.kind = .semicolon →
      Written inside (.line tree) .semicolon (ts ++ [sign])

namespace Written

variable {inside : Bool} {phrase : Phrase} {tail : Tail} {ts : List Token}

/-- Only the beginning of a word can be written by no tokens. -/
theorem ne_nil (h : Written inside phrase tail ts) (hphrase : phrase ≠ .word []) : ts ≠ [] := by
  induction h with
  | nothing => exact absurd rfl hphrase
  | first _ hword ih => exact ih fun heq => hword (Phrase.word.inj heq)
  | process _ ih => exact ih Phrase.noConfusion
  | command _ ih => exact ih Phrase.noConfusion
  | pipeline _ ih => exact ih Phrase.noConfusion
  | condition _ ih => exact ih Phrase.noConfusion
  | sequence _ ih => exact ih Phrase.noConfusion
  | _ => simp

/-- A word grows at its end: a token that goes on with words is the first one if there was none. -/
theorem head_grown {us : List Token} {u : Token} {pieces : List Piece}
    (hts : ∀ t ∈ ts.head?, (Phrase.word pieces).BeginsWith inside t.kind)
    (hu : u.kind.extendsWord inside = true) :
    ∀ t ∈ (ts ++ u :: us).head?, t.kind.extendsWord inside = true := by
  intro t ht
  cases ts with
  | nil =>
    rw [List.nil_append, List.head?_cons, Option.mem_some] at ht
    exact ht ▸ hu
  | cons first others => exact hts t ht

/-- A phrase that is not empty keeps its first token, whatever is put behind it. -/
theorem mem_head? {us : List Token} {t : Token} (h : Written inside phrase tail ts)
    (hphrase : phrase ≠ .word []) (ht : t ∈ (ts ++ us).head?) : t ∈ ts.head? := by
  cases ts with
  | nil => exact absurd rfl (h.ne_nil hphrase)
  | cons first others => exact ht

/-- The first token of a phrase. -/
theorem head (h : Written inside phrase tail ts) : ∀ t ∈ ts.head?, phrase.BeginsWith inside t.kind := by
  induction h with
  | nothing => intro t ht; cases ht
  | part _ hpart _ ih => exact head_grown ih (by rw [TokenKind.extendsWord, hpart]; rfl)
  | quoted _ hquoted _ ih => exact head_grown ih (by rw [hquoted]; rfl)
  | backquoted _ hopening _ _ _ ih => exact head_grown ih (by rw [hopening]; rfl)
  | first _ _ ih => exact ih
  | argument h' _ _ _ ih => exact fun t ht => ih t (h'.mem_head? Phrase.noConfusion ht)
  | descriptor h' _ _ ih => exact fun t ht => ih t (h'.mem_head? Phrase.noConfusion ht)
  | file h' _ _ _ _ ih => exact fun t ht => ih t (h'.mem_head? Phrase.noConfusion ht)
  | capture h' _ _ _ ih => exact fun t ht => ih t (h'.mem_head? Phrase.noConfusion ht)
  | process _ ih => exact fun t ht => Or.inl (ih t ht)
  | padded h' _ ih => exact fun t ht => Or.inl (ih t (h'.mem_head? Phrase.noConfusion ht))
  | group hopening =>
    intro t ht
    rw [List.head?_cons, Option.mem_some] at ht
    exact Or.inr (ht ▸ hopening)
  | command _ ih => exact ih
  | pipe h' _ _ _ ih => exact fun t ht => ih t (h'.mem_head? Phrase.noConfusion ht)
  | store h' _ _ _ _ ih => exact fun t ht => ih t (h'.mem_head? Phrase.noConfusion ht)
  | pipeline _ ih => exact ih
  | conditional h' _ _ _ _ ih => exact fun t ht => ih t (h'.mem_head? Phrase.noConfusion ht)
  | condition _ ih => exact ih
  | successive h' _ _ _ _ ih => exact fun t ht => ih t (h'.mem_head? Phrase.noConfusion ht)
  | sequence _ ih => exact ih
  | terminated h' _ _ ih => exact fun t ht => ih t (h'.mem_head? Phrase.noConfusion ht)

/-- A process ends in a word or in a mark. -/
theorem tail_process {words : List (List Piece)} {redirects : List Redirect}
    (h : Written inside (.process words redirects) tail ts) : tail = .word ∨ tail = .mark := by
  cases h with
  | first => exact Or.inl rfl
  | argument => exact Or.inl rfl
  | descriptor => exact Or.inr rfl
  | file => exact Or.inl rfl
  | capture => exact Or.inr rfl

/-- Outside of backquotes, only a line ends in a semicolon, and nothing ends in a space. -/
theorem tail_ne (h : Written inside phrase tail ts) (hinside : inside = false) :
    tail ≠ .padding ∧ ((∀ tree, phrase ≠ .line tree) → tail ≠ .semicolon) := by
  induction h with
  | process hprocess => rcases hprocess.tail_process with rfl | rfl <;> exact ⟨nofun, nofun⟩
  | padded => cases hinside
  | command _ ih => exact ⟨(ih hinside).1, fun _ => (ih hinside).2 nofun⟩
  | pipe _ _ _ _ _ ih => exact ⟨(ih hinside).1, fun _ => (ih hinside).2 nofun⟩
  | pipeline _ ih => exact ⟨(ih hinside).1, fun _ => (ih hinside).2 nofun⟩
  | conditional _ _ _ _ _ _ ih => exact ⟨(ih hinside).1, fun _ => (ih hinside).2 nofun⟩
  | condition _ ih => exact ⟨(ih hinside).1, fun _ => (ih hinside).2 nofun⟩
  | successive _ _ _ _ _ _ ih => exact ⟨(ih hinside).1, fun _ => (ih hinside).2 nofun⟩
  | sequence _ ih => exact ⟨(ih hinside).1, fun hphrase => absurd rfl (hphrase _)⟩
  | terminated => exact ⟨nofun, fun hphrase => absurd rfl (hphrase _)⟩
  | _ => exact ⟨nofun, nofun⟩

end Written

end ValueShell
