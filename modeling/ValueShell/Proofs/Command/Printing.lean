import Mathlib.Data.List.Basic
import ValueShell.Proofs.Command.Completeness

/-!
# Reading undoes printing

A tree is printed as tokens with all the parentheses that it could need: around both operands of an
operator and around the command whose status is stored. Reading these tokens gives the tree back if it
is well formed (`ofReading_print`).
-/

set_option autoImplicit false

namespace ValueShell

open Text

/-! ## Signs of redirections -/

theorem digitValue?_of_isDigit {c : Char} (h : c.isDigit = true) :
    digitValue? c = some (c.toNat - 48) := by
  have hsmall : c.toNat < 128 := by
    rw [Char.isDigit, Bool.and_eq_true, decide_eq_true_eq, decide_eq_true_eq] at h
    exact Nat.lt_of_le_of_lt (UInt32.le_iff_toNat_le.mp h.2) (by decide)
  rw [digitValue?, if_pos hsmall, if_pos h]

theorem isDecimalDigit_of_mem_toDigits {n : Nat} {c : Char} (h : c ∈ Nat.toDigits 10 n) :
    isDecimalDigit c = true := by
  rw [isDecimalDigit, digitValue?_of_isDigit (Nat.isDigit_of_mem_toDigits (by decide) (by decide) h)]
  rfl

theorem numberOfDigits_toDigits (n : Nat) : numberOfDigits (Nat.toDigits 10 n) = n := by
  have hfold : numberOfDigits (Nat.toDigits 10 n) = Nat.ofDigitChars 10 (Nat.toDigits 10 n) 0 := by
    refine List.foldl_ext _ _ _ fun sofar c hc => ?_
    rw [digitValue?_of_isDigit (Nat.isDigit_of_mem_toDigits (by decide) (by decide) hc)]
    rfl
  rw [hfold, Nat.ofDigitChars_toDigits (by decide) (by decide)]

/-- The text of a sign is cut off whole, and its parts are found again. -/
theorem Token.cutRedirect_text {sign : Token.RedirectSign}
    (hsource : ∀ c ∈ sign.source, isDecimalDigit c = true)
    (htarget : ∀ ds ∈ sign.target, ds ≠ [] ∧ ∀ c ∈ ds, isDecimalDigit c = true) :
    Token.cutRedirect sign.text = some (sign, []) := by
  obtain ⟨source, append, target⟩ := sign
  have hmark : isDecimalDigit '>' = false := by decide
  -- the digits before the sign
  have htake : ∀ rest, (source ++ '>' :: rest).takeWhile isDecimalDigit = source := fun rest => by
    rw [List.takeWhile_append_of_pos hsource, List.takeWhile_cons, hmark, if_neg Bool.false_ne_true,
      List.append_nil]
  have hdrop : ∀ rest, (source ++ '>' :: rest).dropWhile isDecimalDigit = '>' :: rest := fun rest => by
    rw [List.dropWhile_append_of_pos hsource, List.dropWhile_cons, hmark, if_neg Bool.false_ne_true]
  rw [RedirectSign.text, cutRedirect, htake, hdrop]
  cases target with
  | none => cases append <;> rfl
  | some ds =>
    obtain ⟨hne, hds⟩ := htarget ds rfl
    -- the digits after an ampersand go to the end
    have hcut : cutWhile isDecimalDigit ds = some (ds, []) := by
      have hall : ds.takeWhile isDecimalDigit = ds := by
        rw [← List.append_nil ds, List.takeWhile_append_of_pos hds, List.takeWhile_nil]
      have hnone : ds.dropWhile isDecimalDigit = [] := by
        rw [← List.append_nil ds, List.dropWhile_append_of_pos hds, List.dropWhile_nil]
      rw [cutWhile, hall, hnone]
      cases ds with
      | nil => exact absurd rfl hne
      | cons d others => rfl
    cases append
    · simp [hcut]
    · simp [hcut]

/-- The sign of a redirection with its numbers in decimal digits. -/
def redirectToken (append : Bool) (source : Nat) (target : Option Nat) : Token :=
  ⟨.redirect, String.ofList
    (Token.RedirectSign.text ⟨Nat.toDigits 10 source, append, target.map (Nat.toDigits 10)⟩)⟩

theorem redirectParts_redirectToken {append : Bool} {target : Option Nat} (source : Nat)
    (h : append = false ∨ target = none) :
    Tree.redirectParts (redirectToken append source target).text = .ok (append, source, target) := by
  have hdigits : ∀ ds ∈ target.map (Nat.toDigits 10), ds ≠ [] ∧ ∀ c ∈ ds, isDecimalDigit c = true := by
    intro ds hds
    cases target with
    | none => cases hds
    | some n =>
      cases hds
      exact ⟨Nat.toDigits_ne_nil, fun c hc => isDecimalDigit_of_mem_toDigits hc⟩
  have hsource : (Nat.toDigits 10 source).isEmpty = false := by
    rw [List.isEmpty_eq_false_iff]
    exact Nat.toDigits_ne_nil
  rw [Tree.redirectParts, redirectToken, String.toList_ofList,
    Token.cutRedirect_text (fun c hc => isDecimalDigit_of_mem_toDigits hc) hdigits]
  simp only [hsource, numberOfDigits_toDigits]
  cases target with
  | none => cases append <;> rfl
  | some n =>
    obtain rfl : append = false := by simpa using h
    simp only [Option.map_some, numberOfDigits_toDigits]
    rfl

/-! ## Printing -/

namespace Token

def gap : Token := ⟨.space, " "⟩

def opening : Token := ⟨.openParen, "("⟩

def closing : Token := ⟨.closeParen, ")"⟩

def mark : Token := ⟨.backquote, "`"⟩

end Token

/-- Tokens between parentheses. -/
def parenthesized (ts : List Token) : List Token := Token.opening :: (ts ++ [Token.closing])

mutual

/-- The tokens that a tree is printed as. -/
def Tree.print : Tree → List Token
  | .process [] redirects => Tree.printRedirects redirects
  | .process (first :: others) redirects =>
    Tree.printPieces first ++ Tree.printArguments others ++ Tree.printRedirects redirects
  | .binary op left right => parenthesized left.print ++ ⟨op.kind, op.sign⟩ :: parenthesized right.print
  | .assign command name => parenthesized command.print ++ [⟨.arrow, "->"⟩, ⟨.literal, name⟩]

def Tree.printArguments : List (List Piece) → List Token
  | [] => []
  | word :: others => Token.gap :: (Tree.printPieces word ++ Tree.printArguments others)

def Tree.printPieces : List Piece → List Token
  | [] => []
  | piece :: others => piece.print ++ Tree.printPieces others

def Piece.print : Piece → List Token
  | .token t => [t]
  | .backquote command => Token.mark :: (command.print ++ [Token.mark])

def Tree.printRedirects : List Redirect → List Token
  | [] => []
  | redirect :: others => redirect.print ++ Tree.printRedirects others

def Redirect.print : Redirect → List Token
  | .descriptor append source target => [redirectToken append source (some target)]
  | .file append source target => redirectToken append source none :: Tree.printPieces target
  | .capture name => [⟨.capture, "=>"⟩, ⟨.literal, name⟩]

end

mutual

/-- The tree is well formed. Its words are not empty, and made of what stands for itself: no
double-quoted words, which are expanded when they are read, and no backquotes between backquotes. Output
is not appended to a descriptor. Names begin like names. -/
def Tree.wellFormed (inside : Bool) : Tree → Bool
  | .process words redirects =>
    !words.isEmpty && Tree.wellFormedWords inside words && Tree.wellFormedRedirects inside redirects
  | .binary _ left right => left.wellFormed inside && right.wellFormed inside
  | .assign command name => command.wellFormed inside && Tree.beginsLikeName name

def Tree.wellFormedWords (inside : Bool) : List (List Piece) → Bool
  | [] => true
  | word :: others =>
    !word.isEmpty && Tree.wellFormedPieces inside word && Tree.wellFormedWords inside others

def Tree.wellFormedPieces (inside : Bool) : List Piece → Bool
  | [] => true
  | piece :: others => piece.wellFormed inside && Tree.wellFormedPieces inside others

def Piece.wellFormed (inside : Bool) : Piece → Bool
  | .token t => t.kind.isWordPart && t.kind ≠ .doubleQuoted
  | .backquote command => !inside && command.wellFormed true

def Tree.wellFormedRedirects (inside : Bool) : List Redirect → Bool
  | [] => true
  | redirect :: others => redirect.wellFormed inside && Tree.wellFormedRedirects inside others

def Redirect.wellFormed (inside : Bool) : Redirect → Bool
  | .descriptor append _ _ => !append
  | .file _ _ target => !target.isEmpty && Tree.wellFormedPieces inside target
  | .capture name => Tree.beginsLikeName name

end

/-! ## What is printed is written -/

namespace Tree

section Groups

variable {inside : Bool}

/-- A line in parentheses is a command. Only a space at its end could not stand before the closing
parenthesis. -/
theorem written_parenthesized {tree : Tree} {tail : Tail} {ts : List Token} (htail : tail ≠ .padding)
    (h : Written inside (.line tree) tail ts) :
    Written inside (.command tree) .closed (parenthesized ts) := by
  refine .group rfl h ?_ rfl
  cases tail with
  | padding => exact absurd rfl htail
  | word => cases inside <;> rfl
  | _ => rfl

/-- An operator between groups. -/
theorem written_binary {op : Operator} {left right : Tree} {ts us : List Token}
    (hleft : Written inside (.command left) .closed (parenthesized ts))
    (hright : Written inside (.command right) .closed (parenthesized us)) :
    Written inside (.line (.binary op left right)) .closed
      (parenthesized ts ++ ⟨op.kind, op.sign⟩ :: parenthesized us) := by
  have hcommand := Written.command hleft
  cases op with
  | pipe => exact .sequence (.condition (.pipeline (.pipe hcommand rfl rfl hright)))
  | andThen =>
    exact .sequence (.condition
      (.conditional (.pipeline hcommand) (Or.inl rfl) rfl rfl (.command hright)))
  | orElse =>
    exact .sequence (.condition
      (.conditional (.pipeline hcommand) (Or.inr rfl) rfl rfl (.command hright)))
  | sequence =>
    refine .sequence (.successive (.condition (.pipeline hcommand)) rfl rfl
      (.pipeline (.command hright)) ?_)
    intro t ht
    cases ht
    exact TokenKind.noConfusion

end Groups

mutual

theorem written_print : ∀ (tree : Tree) {inside : Bool}, tree.wellFormed inside = true →
    ∃ tail, tail ≠ .padding ∧ Written inside (.line tree) tail tree.print
  | .process [] _, inside, h => by
    rw [wellFormed] at h
    cases h
  | .process (first :: others) redirects, inside, h => by
    simp only [wellFormed, wellFormedWords, Bool.and_eq_true, Bool.not_eq_true'] at h
    obtain ⟨⟨_, ⟨hne, hfirst⟩, hothers⟩, hredirects⟩ := h
    have hword := written_printPieces first hfirst .nothing
    have hwords := written_printArguments others hothers (.first hword (by simpa using hne))
    obtain ⟨tail, hprocess⟩ := written_printRedirects redirects hredirects hwords
    refine ⟨tail, ?_, .sequence (.condition (.pipeline (.command (.process hprocess))))⟩
    rcases hprocess.tail_process with rfl | rfl
    · exact Tail.noConfusion
    · exact Tail.noConfusion
  | .binary op left right, inside, h => by
    rw [wellFormed, Bool.and_eq_true] at h
    obtain ⟨tail, htail, hleft⟩ := written_print left h.1
    obtain ⟨tail', htail', hright⟩ := written_print right h.2
    exact ⟨.closed, Tail.noConfusion,
      written_binary (written_parenthesized htail hleft) (written_parenthesized htail' hright)⟩
  | .assign command name, inside, h => by
    rw [wellFormed, Bool.and_eq_true] at h
    obtain ⟨tail, htail, hcommand⟩ := written_print command h.1
    have hstored := Written.store (.command (written_parenthesized htail hcommand)) rfl
      (show (⟨.arrow, "->"⟩ : Token).kind = .arrow from rfl)
      (show (⟨.literal, name⟩ : Token).kind = .literal from rfl) h.2
    exact ⟨.closed, Tail.noConfusion, .sequence (.condition (.pipeline hstored))⟩

theorem written_printArguments : ∀ (words : List (List Piece)) {inside : Bool},
    wellFormedWords inside words = true → ∀ {before : List (List Piece)} {ts : List Token},
    Written inside (.process before []) .word ts →
    Written inside (.process (before ++ words) []) .word (ts ++ printArguments words)
  | [], inside, _, before, ts, hbefore => by
    rw [printArguments, List.append_nil, List.append_nil]
    exact hbefore
  | word :: others, inside, h, before, ts, hbefore => by
    simp only [wellFormedWords, Bool.and_eq_true, Bool.not_eq_true'] at h
    obtain ⟨⟨hne, hword⟩, hothers⟩ := h
    have hargument := hbefore.argument (show Token.gap.kind = .space from rfl)
      (written_printPieces word hword .nothing) (by simpa using hne)
    have hall := written_printArguments others hothers hargument
    simpa only [printArguments, List.append_assoc, List.cons_append, List.nil_append] using hall

theorem written_printPieces : ∀ (pieces : List Piece) {inside : Bool},
    wellFormedPieces inside pieces = true → ∀ {before : List Piece} {ts : List Token},
    Written inside (.word before) .word ts →
    Written inside (.word (before ++ pieces)) .word (ts ++ printPieces pieces)
  | [], inside, _, before, ts, hbefore => by
    rw [printPieces, List.append_nil, List.append_nil]
    exact hbefore
  | piece :: others, inside, h, before, ts, hbefore => by
    rw [wellFormedPieces, Bool.and_eq_true] at h
    have hall := written_printPieces others h.2 (written_printPiece piece h.1 hbefore)
    simpa only [printPieces, List.append_assoc, List.cons_append, List.nil_append] using hall

theorem written_printPiece : ∀ (piece : Piece) {inside : Bool}, piece.wellFormed inside = true →
    ∀ {before : List Piece} {ts : List Token}, Written inside (.word before) .word ts →
    Written inside (.word (before ++ [piece])) .word (ts ++ piece.print)
  | .token t, inside, h, before, ts, hbefore => by
    rw [Piece.wellFormed, Bool.and_eq_true, decide_eq_true_eq] at h
    exact .part hbefore h.1 h.2
  | .backquote command, inside, h, before, ts, hbefore => by
    rw [Piece.wellFormed, Bool.and_eq_true, Bool.not_eq_true'] at h
    obtain ⟨rfl, hcommand⟩ := h
    obtain ⟨tail, _, hline⟩ := written_print command hcommand
    exact .backquoted hbefore rfl (fun s (hs : s ∈ []) => (List.not_mem_nil hs).elim) hline rfl

theorem written_printRedirects : ∀ (redirects : List Redirect) {inside : Bool},
    wellFormedRedirects inside redirects = true → ∀ {words : List (List Piece)} {before : List Redirect}
    {tail : Tail} {ts : List Token}, Written inside (.process words before) tail ts →
    ∃ tail', Written inside (.process words (before ++ redirects)) tail' (ts ++ printRedirects redirects)
  | [], inside, _, words, before, tail, ts, hbefore => by
    rw [printRedirects, List.append_nil, List.append_nil]
    exact ⟨tail, hbefore⟩
  | redirect :: others, inside, h, words, before, tail, ts, hbefore => by
    rw [wellFormedRedirects, Bool.and_eq_true] at h
    obtain ⟨_, hfirst⟩ := written_printRedirect redirect h.1 hbefore
    obtain ⟨tail', hall⟩ := written_printRedirects others h.2 hfirst
    refine ⟨tail', ?_⟩
    simpa only [printRedirects, List.append_assoc, List.cons_append, List.nil_append] using hall

theorem written_printRedirect : ∀ (redirect : Redirect) {inside : Bool},
    redirect.wellFormed inside = true →
    ∀ {words : List (List Piece)} {before : List Redirect} {tail : Tail} {ts : List Token},
    Written inside (.process words before) tail ts →
    ∃ tail', Written inside (.process words (before ++ [redirect])) tail' (ts ++ redirect.print)
  | .descriptor append source target, inside, h, words, before, tail, ts, hbefore => by
    rw [Redirect.wellFormed, Bool.not_eq_true'] at h
    exact ⟨.mark, .descriptor hbefore rfl (redirectParts_redirectToken source (Or.inl h))⟩
  | .file append source target, inside, h, words, before, tail, ts, hbefore => by
    rw [Redirect.wellFormed, Bool.and_eq_true, Bool.not_eq_true'] at h
    exact ⟨.word, .file hbefore rfl (redirectParts_redirectToken source (Or.inr rfl))
      (written_printPieces target h.2 .nothing) (by simpa using h.1)⟩
  | .capture name, inside, h, words, before, tail, ts, hbefore => by
    have hcaptured := Written.capture hbefore (show (⟨.capture, "=>"⟩ : Token).kind = .capture from rfl)
      (show (⟨.literal, name⟩ : Token).kind = .literal from rfl) h
    exact ⟨.mark, hcaptured⟩

end

/-- **Reading undoes printing.** A well-formed tree is read from its printed tokens, up to the end of the
text. -/
theorem ofReading_print {tree : Tree} (h : tree.wellFormed false = true) (fault : Option Fault) :
    ofReading { tokens := tree.print ++ [Token.eof], fault } =
      .ok (tree, { tokens := [Token.eof], fault := fault.getD .exhausted }) := by
  obtain ⟨tail, htail, hline⟩ := written_print tree h
  have hends : tail.endsLine false Token.eof.kind = true := by
    cases tail with
    | padding => exact absurd rfl htail
    | _ => rfl
  exact ofReading_eq_ok_iff.mpr ⟨tail, tree.print, rfl, List.cons_ne_nil _ _, rfl, hline, hends⟩

/-- The command line ``((send 'a'`ls 2>&1` => x) -> y) ; ($f >> log)``. -/
theorem ofReading_print_sendThenLog :
    let send : Tree := .process
      [[.token ⟨.literal, "send"⟩],
        [.token ⟨.singleQuoted, "'a'"⟩,
          .backquote (.process [[.token ⟨.literal, "ls"⟩]] [.descriptor false 2 1])]]
      [.capture "x"]
    let log : Tree := .process [[.token ⟨.substitution, "$f"⟩]] [.file true 1 [.token ⟨.literal, "log"⟩]]
    let tree : Tree := .binary .sequence (.assign send "y") log
    tree.wellFormed false = true ∧
      ofReading { tokens := tree.print ++ [Token.eof], fault := some .exhausted } =
        .ok (tree, { tokens := [Token.eof], fault := .exhausted }) :=
  ⟨by decide, ofReading_print (by decide) _⟩

/-- A text whose tokens are those of a printed tree is read as this tree. -/
theorem exists_parse (aliases : List Alias) (text : String) {tree : Tree}
    (h : tree.wellFormed false = true)
    (htokens : (Token.tokens aliases false text).tokens = tree.print ++ [Token.eof]) :
    ∃ rest, parse aliases text = .ok (tree, rest) := by
  obtain ⟨tail, htail, hline⟩ := written_print tree h
  have hends : tail.endsLine false Token.eof.kind = true := by
    cases tail with
    | padding => exact absurd rfl htail
    | _ => rfl
  exact ⟨⟨[Token.eof], _⟩,
    ofReading_eq_ok_iff.mpr ⟨tail, tree.print, htokens, List.cons_ne_nil _ _, rfl, hline, hends⟩⟩

end Tree

end ValueShell
