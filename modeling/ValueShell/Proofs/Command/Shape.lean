import ValueShell.Proofs.Command.Expanding
import ValueShell.Proofs.Command.Printing

/-!
# What is read is well formed

Every tree that the reader returns has the shape that evaluation relies on, `Tree.wellFormed`: processes
have words, words have pieces, no double-quoted word is left, no backquote stands between backquotes, and
no output is appended to a descriptor. The grammar ensures this rule by rule (`Written.wellFormed`); the
flag that tells whether a rule is applied between backquotes is the one that `wellFormed` follows.
-/

set_option autoImplicit false

namespace ValueShell

namespace Token

open ValueShell.Plan (ok_of_bind)

/-- Nothing that an expansion gives is expanded again. -/
theorem StandsFor.kind {t : Token} {s : String} (h : StandsFor t s) :
    t.kind.isWordPart = true ∧ t.kind ≠ .doubleQuoted := by
  cases h with
  | literal => exact ⟨rfl, TokenKind.noConfusion⟩
  | substitution => exact ⟨rfl, TokenKind.noConfusion⟩
  | dollar => exact ⟨rfl, TokenKind.noConfusion⟩

theorem kind_of_standsFor {ts : List Token} {parts : List String} (h : List.Forall₂ StandsFor ts parts) :
    ∀ t ∈ ts, t.kind.isWordPart = true ∧ t.kind ≠ .doubleQuoted := by
  induction h with
  | nil => simp
  | cons hstands _ ih => exact List.forall_mem_cons.mpr ⟨hstands.kind, ih⟩

theorem kind_of_expandQuoted {word : String} {ts : List Token} (h : expandQuoted word = .ok ts) :
    ∀ t ∈ ts, t.kind.isWordPart = true ∧ t.kind ≠ .doubleQuoted := by
  obtain ⟨text, -, h⟩ := ok_of_bind h
  obtain ⟨parts, _, -, hparts, -⟩ := expanded_expandFrom (Nat.le_of_eq (String.length_toList (s := text)))
  dsimp only at h
  split at h
  · cases h
  · cases h
    exact kind_of_standsFor hparts

end Token

namespace Tree

variable {inside : Bool}

/-- A sign that appends names no descriptor. -/
theorem append_eq_false {text : String} {append : Bool} {source target : Nat}
    (h : redirectParts text = .ok (append, source, some target)) : append = false := by
  unfold redirectParts at h
  split at h
  · cases h
  · dsimp only at h
    split at h
    · cases h
    · rename_i hnot
      simp only [Except.ok.injEq, Prod.mk.injEq] at h
      obtain ⟨rfl, -, htarget⟩ := h
      rw [Bool.eq_false_iff]
      exact fun happend => hnot target happend htarget

theorem wellFormedPieces_append (pieces others : List Piece) :
    wellFormedPieces inside (pieces ++ others) =
      (wellFormedPieces inside pieces && wellFormedPieces inside others) := by
  induction pieces with
  | nil => rfl
  | cons piece pieces ih => rw [List.cons_append, wellFormedPieces, ih, wellFormedPieces, Bool.and_assoc]

theorem wellFormedWords_append (words others : List (List Piece)) :
    wellFormedWords inside (words ++ others) =
      (wellFormedWords inside words && wellFormedWords inside others) := by
  induction words with
  | nil => rfl
  | cons word words ih => simp only [List.cons_append, wellFormedWords, ih, Bool.and_assoc]

theorem wellFormedRedirects_append (redirects others : List Redirect) :
    wellFormedRedirects inside (redirects ++ others) =
      (wellFormedRedirects inside redirects && wellFormedRedirects inside others) := by
  induction redirects with
  | nil => rfl
  | cons redirect redirects ih => simp only [List.cons_append, wellFormedRedirects, ih, Bool.and_assoc]

theorem wellFormedPieces_tokens {ts : List Token}
    (h : ∀ t ∈ ts, t.kind.isWordPart = true ∧ t.kind ≠ .doubleQuoted) :
    wellFormedPieces inside (ts.map .token) = true := by
  induction ts with
  | nil => rfl
  | cons t ts ih =>
    obtain ⟨⟨hpart, hdouble⟩, hts⟩ := List.forall_mem_cons.mp h
    simp [wellFormedPieces, Piece.wellFormed, hpart, hdouble, ih hts]

end Tree

/-- What tokens write is well formed. A word may still be empty. -/
def Phrase.wellFormed (inside : Bool) : Phrase → Bool
  | .word pieces => Tree.wellFormedPieces inside pieces
  | .process words redirects => Tree.wellFormed inside (.process words redirects)
  | .command tree => tree.wellFormed inside
  | .pipeline tree => tree.wellFormed inside
  | .condition tree => tree.wellFormed inside
  | .sequence tree => tree.wellFormed inside
  | .line tree => tree.wellFormed inside

/-- **The rules of the grammar write well-formed phrases.** -/
theorem Written.wellFormed {inside : Bool} {phrase : Phrase} {tail : Tail} {ts : List Token}
    (h : Written inside phrase tail ts) : phrase.wellFormed inside = true := by
  -- a process with one more redirection
  have hmore : ∀ {inside : Bool} {words : List (List Piece)} {redirects : List Redirect}
      {redirect : Redirect}, (Phrase.process words redirects).wellFormed inside = true →
      redirect.wellFormed inside = true →
      (Phrase.process words (redirects ++ [redirect])).wellFormed inside = true := by
    intro inside words redirects redirect hprocess hredirect
    simp only [Phrase.wellFormed, Tree.wellFormed, Bool.and_eq_true] at hprocess ⊢
    refine ⟨hprocess.1, ?_⟩
    rw [Tree.wellFormedRedirects_append, hprocess.2, Tree.wellFormedRedirects, hredirect]
    rfl
  induction h with
  | nothing => rfl
  | @part _ _ _ t _ hpart hdouble ih =>
    have hkind : ∀ u ∈ [t], u.kind.isWordPart = true ∧ u.kind ≠ .doubleQuoted := by
      simp [hpart, hdouble]
    simp only [Phrase.wellFormed] at ih ⊢
    rw [Tree.wellFormedPieces_append, ih]
    exact Tree.wellFormedPieces_tokens hkind
  | quoted _ _ hexpanded ih =>
    simp only [Phrase.wellFormed] at ih ⊢
    rw [Tree.wellFormedPieces_append, ih]
    exact Tree.wellFormedPieces_tokens (Token.kind_of_expandQuoted hexpanded)
  | backquoted _ _ _ _ _ ih ihline =>
    simp only [Phrase.wellFormed] at ih ihline ⊢
    rw [Tree.wellFormedPieces_append, ih]
    simp [Tree.wellFormedPieces, Piece.wellFormed, ihline]
  | first _ hword ih =>
    simp only [Phrase.wellFormed] at ih ⊢
    simp [Tree.wellFormed, Tree.wellFormedWords, Tree.wellFormedRedirects, hword, ih]
  | argument _ _ _ hword ih ihword =>
    simp only [Phrase.wellFormed, Tree.wellFormed, Bool.and_eq_true] at ih ihword ⊢
    refine ⟨⟨by simp, ?_⟩, ih.2⟩
    rw [Tree.wellFormedWords_append, ih.1.2]
    simp [Tree.wellFormedWords, hword, ihword]
  | descriptor _ _ hparts ih =>
    refine hmore ih ?_
    rw [Redirect.wellFormed, Tree.append_eq_false hparts]
    rfl
  | file _ _ _ _ hword ih ihword =>
    refine hmore ih ?_
    simp only [Phrase.wellFormed] at ihword
    simp [Redirect.wellFormed, hword, ihword]
  | capture _ _ _ hname ih => exact hmore ih hname
  | process _ ih => exact ih
  | padded _ _ ih => exact ih
  | group _ _ _ _ ih => exact ih
  | command _ ih => exact ih
  | pipe _ _ _ _ ih ihright =>
    simp only [Phrase.wellFormed, Tree.wellFormed, Bool.and_eq_true] at ih ihright ⊢
    exact ⟨ih, ihright⟩
  | store _ _ _ _ hname ih =>
    simp only [Phrase.wellFormed, Tree.wellFormed, Bool.and_eq_true] at ih ⊢
    exact ⟨ih, hname⟩
  | pipeline _ ih => exact ih
  | conditional _ _ _ _ _ ih ihright =>
    simp only [Phrase.wellFormed, Tree.wellFormed, Bool.and_eq_true] at ih ihright ⊢
    exact ⟨ih, ihright⟩
  | condition _ ih => exact ih
  | successive _ _ _ _ _ ih ihright =>
    simp only [Phrase.wellFormed, Tree.wellFormed, Bool.and_eq_true] at ih ihright ⊢
    exact ⟨ih, ihright⟩
  | sequence _ ih => exact ih
  | terminated _ _ _ ih => exact ih

namespace Tree

/-- **What is read is well formed.** Whatever the text and the aliases, the tree that the reader returns
is made of processes with at least one word. Its words, and the targets of its redirections, are not
empty and hold no double-quoted words and no backquotes between backquotes, and no redirection appends to
a descriptor. -/
theorem wellFormed_of_parse {aliases : List Alias} {text : String} {tree : Tree} {left : Input}
    (h : parse aliases text = .ok (tree, left)) : tree.wellFormed false = true := by
  obtain ⟨_, _, -, -, -, hwritten, -⟩ := ofReading_eq_ok_iff.mp h
  exact hwritten.wellFormed

/-- A double-quoted word becomes a literal and a variable; a command is the target of a redirection. -/
theorem wellFormed_of_parse_expanded :
    let tree : Tree := .process
      [[.token ⟨.literal, "echo"⟩],
        [.token ⟨.singleQuoted, "\"it's \""⟩, .token ⟨.substitution, "$x"⟩]]
      [.file false 1 [.backquote (.process [[.token ⟨.literal, "pwd"⟩]] [])]]
    ∃ left, parse [] "echo \"it's $x\" > `pwd`" = .ok (tree, left) ∧ tree.wellFormed false = true := by
  intro tree
  have htokens : (Token.tokens [] false "echo \"it's $x\" > `pwd`").tokens =
      [⟨.literal, "echo"⟩, ⟨.space, " "⟩, ⟨.doubleQuoted, "\"it's $x\""⟩, ⟨.redirect, ">"⟩,
        ⟨.backquote, "`"⟩, ⟨.literal, "pwd"⟩, ⟨.backquote, "`"⟩, Token.eof] := by
    decide +kernel
  have hquoted : Token.expandQuoted "\"it's $x\"" =
      .ok [⟨.singleQuoted, "\"it's \""⟩, ⟨.substitution, "$x"⟩] := by
    have htext : Token.unquote "\"it's $x\"" = .ok "it's $x" := Token.unquote_quote "it's $x"
    rw [Token.expandQuoted, htext]
    rfl
  have hname : ∀ (inside : Bool) (s : String),
      Written inside (.process [[.token ⟨.literal, s⟩]] []) .word [⟨.literal, s⟩] := fun inside s =>
    .first (.part .nothing rfl TokenKind.noConfusion) (List.cons_ne_nil _ _)
  have hnothing : Written false (.word []) .word [] := .nothing
  have hword := Written.quoted hnothing
    (show (⟨.doubleQuoted, "\"it's $x\""⟩ : Token).kind = .doubleQuoted from rfl) hquoted
  rw [List.nil_append, List.nil_append, List.map_cons, List.map_cons, List.map_nil] at hword
  have htarget : Written false (.word [.backquote (.process [[.token ⟨.literal, "pwd"⟩]] [])]) .word
      [⟨.backquote, "`"⟩, ⟨.literal, "pwd"⟩, ⟨.backquote, "`"⟩] :=
    .backquoted .nothing rfl (fun s (hs : s ∈ []) => (List.not_mem_nil hs).elim)
      (.sequence (.condition (.pipeline (.command (.process (hname true "pwd")))))) rfl
  have hargument := Written.argument (hname false "echo")
    (show (⟨.space, " "⟩ : Token).kind = .space from rfl) hword (List.cons_ne_nil _ _)
  have hprocess := Written.file hargument (show (⟨.redirect, ">"⟩ : Token).kind = .redirect from rfl) rfl
    htarget (List.cons_ne_nil _ _)
  have hline := Written.sequence (.condition (.pipeline (.command (.process hprocess))))
  have hparse : ∃ left, parse [] "echo \"it's $x\" > `pwd`" = .ok (tree, left) := by
    rw [parse]
    -- what ended the reading does not matter
    revert htokens
    generalize Token.tokens [] false "echo \"it's $x\" > `pwd`" = r
    intro htokens
    exact ⟨⟨[Token.eof], _⟩,
      ofReading_eq_ok_iff.mpr ⟨_, _, htokens, List.cons_ne_nil _ _, rfl, hline, rfl⟩⟩
  obtain ⟨left, hparse⟩ := hparse
  exact ⟨left, hparse, wellFormed_of_parse hparse⟩

end Tree

end ValueShell
