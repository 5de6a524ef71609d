import Mathlib.Data.List.Forall2
import Mathlib.Data.List.TakeWhile
import ValueShell.Pipeline.Word
import ValueShell.Proofs.Command.Boundary
import ValueShell.Proofs.Command.Completeness
import ValueShell.Proofs.Command.Expanding

/-!
# Single and double quotes

A value without a dollar sign can be written between single or between double quotes. The two literals
are read in different ways: one is kept as it is written, the other is evaluated, expanded and written
anew. `Requoted` says of two tokens that they are such literals of one value, or the same token; aliases
and spaces treat them alike (`Reading.Requoted.settleAll`), and so does the grammar (`Written.requoted`).
The trees are the same but for how quoted words are written, which `Tree.canonical` hides.

The empty value is different. Between double quotes it expands to no token at all, and then there may be
no word where one is needed.
-/

set_option autoImplicit false

namespace ValueShell

variable {us ts : List Token}

namespace Token

open Text

/-- A quoted word is written as `quote` writes its value; any other token stays as it is. -/
def canonical (t : Token) : Token :=
  match t.kind, unquote t.text with
  | .singleQuoted, .ok s => ⟨.singleQuoted, quote s⟩
  | _, _ => t

end Token

/-! ## Trees with canonical words -/

mutual

/-- The tree with all its quoted words written in the same way. -/
def Tree.canonical : Tree → Tree
  | .process words redirects => .process (Tree.canonicalWords words) (Tree.canonicalRedirects redirects)
  | .binary op left right => .binary op left.canonical right.canonical
  | .assign command name => .assign command.canonical name

def Tree.canonicalWords : List (List Piece) → List (List Piece)
  | [] => []
  | word :: others => Tree.canonicalPieces word :: Tree.canonicalWords others

def Tree.canonicalPieces : List Piece → List Piece
  | [] => []
  | piece :: others => piece.canonical :: Tree.canonicalPieces others

def Piece.canonical : Piece → Piece
  | .token t => .token t.canonical
  | .backquote command => .backquote command.canonical

def Tree.canonicalRedirects : List Redirect → List Redirect
  | [] => []
  | redirect :: others => redirect.canonical :: Tree.canonicalRedirects others

def Redirect.canonical : Redirect → Redirect
  | .descriptor append source target => .descriptor append source target
  | .file append source target => .file append source (Tree.canonicalPieces target)
  | .capture name => .capture name

end

namespace Tree

theorem canonicalPieces_append (pieces others : List Piece) :
    canonicalPieces (pieces ++ others) = canonicalPieces pieces ++ canonicalPieces others := by
  induction pieces with
  | nil => rfl
  | cons piece pieces ih => simp [canonicalPieces, ih]

theorem canonicalWords_append (words others : List (List Piece)) :
    canonicalWords (words ++ others) = canonicalWords words ++ canonicalWords others := by
  induction words with
  | nil => rfl
  | cons word words ih => simp [canonicalWords, ih]

theorem canonicalRedirects_append (redirects others : List Redirect) :
    canonicalRedirects (redirects ++ others) =
      canonicalRedirects redirects ++ canonicalRedirects others := by
  induction redirects with
  | nil => rfl
  | cons redirect redirects ih => simp [canonicalRedirects, ih]

theorem canonicalPieces_eq_nil {pieces : List Piece} : canonicalPieces pieces = [] ↔ pieces = [] := by
  cases pieces <;> simp [canonicalPieces]

end Tree

/-! ## Values of canonical words -/

namespace Token

open Text

theorem kind_canonical (t : Token) : t.canonical.kind = t.kind := by
  unfold canonical
  split <;> simp_all

theorem canonical_eq_self {t : Token} (h : t.kind ≠ .singleQuoted) : t.canonical = t := by
  unfold canonical
  split <;> simp_all

theorem canonical_of_unquote {word s : String} (h : unquote word = .ok s) :
    canonical ⟨.singleQuoted, word⟩ = ⟨.singleQuoted, quote s⟩ := by
  simp [canonical, h]

theorem evalText_of_unquote {word s : String} (h : unquote word = .ok s) :
    Expr.evalText {} word = .ok (.text s) := by
  obtain ⟨v, hv, h⟩ := ValueShell.Plan.ok_of_bind h
  cases v <;> simp_all

end Token

namespace WordScope

variable (scope : WordScope)

theorem tokenValue_canonical (t : Token) : scope.tokenValue t.canonical = scope.tokenValue t := by
  by_cases hkind : t.kind = .singleQuoted
  · obtain ⟨kind, word⟩ := t
    obtain rfl : kind = .singleQuoted := hkind
    cases hword : Token.unquote word with
    | error e => simp [Token.canonical, hword]
    | ok s =>
      rw [Token.canonical_of_unquote hword]
      simp [tokenValue, Expr.evalText_quote, Token.evalText_of_unquote hword]
  · rw [Token.canonical_eq_self hkind]

theorem tokenPattern_canonical (t : Token) : scope.tokenPattern t.canonical = scope.tokenPattern t := by
  unfold tokenPattern
  rw [tokenValue_canonical, Token.kind_canonical]

theorem hasPattern_canonical (word : List Token) :
    hasPattern (word.map Token.canonical) = hasPattern word := by
  unfold hasPattern
  rw [List.any_map]
  congr 1
  funext t
  by_cases hkind : t.kind = .singleQuoted
  · simp [Token.kind_canonical, hkind]
  · simp [Token.canonical_eq_self hkind]

theorem mapM_canonical {α : Type} {f : Token → Except Fault α} (hf : ∀ t, f t.canonical = f t)
    (word : List Token) : (word.map Token.canonical).mapM f = word.mapM f := by
  induction word with
  | nil => rfl
  | cons t word ih => simp [List.mapM_cons, hf, ih]

/-- A word has the same values however its quoted parts are written. -/
theorem evalWord_canonical (word : List Token) :
    scope.evalWord (word.map Token.canonical) = scope.evalWord word := by
  unfold evalWord
  rw [hasPattern_canonical, mapM_canonical scope.tokenPattern_canonical,
    mapM_canonical scope.tokenValue_canonical, List.isEmpty_map]

end WordScope

/-! ## Tokens that can stand for each other -/

/-- The token is a quoted word. -/
def TokenKind.isQuoted : TokenKind → Bool
  | .singleQuoted => true
  | .doubleQuoted => true
  | _ => false

namespace Token

open Text
open ValueShell.Plan (ok_of_bind)

/-- The first token can be written in the place of the second: it is the same, or a double-quoted literal
that is expanded to the value of a single-quoted one. -/
inductive Requoted : Token → Token → Prop
  | same (t : Token) : Requoted t t
  | quotes {word word' s : String} (hvalue : unquote word = .ok s)
      (hexpand : expandQuoted word' = .ok [⟨.singleQuoted, quote s⟩]) :
      Requoted ⟨.doubleQuoted, word'⟩ ⟨.singleQuoted, word⟩

namespace Requoted

variable {t u : Token}

theorem isWordPart (h : Requoted u t) : u.kind.isWordPart = t.kind.isWordPart := by
  cases h <;> rfl

theorem map_isWordPart (h : Requoted u t) :
    ((some u).map fun b => b.kind.isWordPart) = (some t).map fun b => b.kind.isWordPart :=
  congrArg some h.isWordPart

theorem isSpaceSensitive (h : Requoted u t) : u.kind.isSpaceSensitive = t.kind.isSpaceSensitive := by
  cases h <;> rfl

/-- A token that is no quoted word is the same. -/
theorem eq_of_kind (h : Requoted u t) {k : TokenKind} (ht : t.kind = k)
    (hk : k ≠ .singleQuoted) : u = t := by
  cases h with
  | same => rfl
  | quotes => exact absurd ht.symm hk

theorem kind_iff (h : Requoted u t) {k : TokenKind} (hk : k.isQuoted = false) :
    u.kind = k ↔ t.kind = k := by
  cases h with
  | same => rfl
  | quotes =>
    constructor
    · rintro rfl
      cases hk
    · rintro rfl
      cases hk

end Requoted

theorem exists_append {ts' : List Token} (h : List.Forall₂ Requoted us (ts ++ ts')) :
    ∃ vs vs', us = vs ++ vs' ∧ List.Forall₂ Requoted vs ts ∧ List.Forall₂ Requoted vs' ts' :=
  ⟨_, _, (List.take_append_drop ts.length us).symm, List.forall₂_take_append _ _ _ h,
    List.forall₂_drop_append _ _ _ h⟩

/-! ### Aliases and spaces -/

/-- The tokens can be written in each other's places, and the readings end in the same way. -/
structure Reading.Requoted (r' r : Reading) : Prop where
  tokens : List.Forall₂ Token.Requoted r'.tokens r.tokens
  fault : r'.fault = r.fault

namespace Reading.Requoted

variable {r r' : Reading} {t u : Token}

theorem cons (ht : Token.Requoted u t) (h : Reading.Requoted r' r) :
    Reading.Requoted (r'.cons u) (r.cons t) :=
  ⟨.cons ht h.tokens, h.fault⟩

theorem expandWith {expand : Bool → String → Except Fault (List Token)} {fault : Option Fault}
    {before before' : Option Token} (h : List.Forall₂ Token.Requoted us ts)
    (hbefore : (before'.map fun b => b.kind.isWordPart) = before.map fun b => b.kind.isWordPart)
    (globalOnly : Bool) :
    Reading.Requoted (expandWith expand fault before' globalOnly us)
      (expandWith expand fault before globalOnly ts) := by
  -- only a literal is looked up, and a literal is the same
  have hliteral : ∀ {before : Option Token} {t : Token},
      ¬(t.kind ≠ .literal || (before.map fun b => b.kind.isWordPart).getD false) = true →
      t.kind = .literal := by
    intro before t hkeep
    simp only [ne_eq, Bool.or_eq_true, decide_eq_true_eq, not_or, not_not] at hkeep
    exact hkeep.1
  fun_induction Token.expandWith expand fault before globalOnly ts generalizing us before' with
  | case1 before globalOnly =>
    cases h
    exact ⟨.nil, rfl⟩
  | case2 before globalOnly t rest hkeep ih =>
    obtain _ | ⟨ht, hrest⟩ := h
    rw [← hbefore] at hkeep
    rw [Token.expandWith.eq_def]
    simp only [ht.kind_iff (k := .literal) rfl, ne_eq]
    rw [if_pos hkeep]
    exact (ih hrest ht.map_isWordPart).cons ht
  | case3 before globalOnly t hkeep =>
    obtain _ | ⟨ht, hrest⟩ := h
    obtain _ | _ := hrest
    obtain rfl := ht.eq_of_kind (hliteral hkeep) TokenKind.noConfusion
    rw [← hbefore] at hkeep
    rw [Token.expandWith.eq_def]
    simp only [if_neg hkeep]
    exact ⟨.nil, rfl⟩
  | case4 before globalOnly t hkeep n rest hn ih =>
    obtain _ | ⟨ht, hrest⟩ := h
    obtain _ | ⟨hnext, hrest⟩ := hrest
    obtain rfl := ht.eq_of_kind (hliteral hkeep) TokenKind.noConfusion
    rw [← hbefore] at hkeep
    rw [Token.expandWith.eq_def]
    simp only [if_neg hkeep, hnext.isWordPart, if_pos hn]
    exact ((ih hrest hnext.map_isWordPart).cons hnext).cons ht
  | case5 before globalOnly t hkeep n rest hn fault' hexpand =>
    obtain _ | ⟨ht, hrest⟩ := h
    obtain _ | ⟨hnext, hrest⟩ := hrest
    obtain rfl := ht.eq_of_kind (hliteral hkeep) TokenKind.noConfusion
    rw [← hbefore] at hkeep
    rw [Token.expandWith.eq_def]
    simp only [if_neg hkeep, hnext.isWordPart, if_neg hn, hexpand]
    exact ⟨.nil, rfl⟩
  | case6 before globalOnly t hkeep n rest hn replacement hexpand others =>
    rename_i ih
    obtain _ | ⟨ht, hrest⟩ := h
    obtain _ | ⟨hnext, hrest⟩ := hrest
    obtain rfl := ht.eq_of_kind (hliteral hkeep) TokenKind.noConfusion
    rw [← hbefore] at hkeep
    rw [Token.expandWith.eq_def]
    simp only [if_neg hkeep, hnext.isWordPart, if_neg hn, hexpand]
    have hothers := (ih hrest hnext.map_isWordPart).cons hnext
    refine ⟨List.rel_append ?_ hothers.tokens, hothers.fault⟩
    exact List.forall₂_same.mpr fun t _ => .same t

theorem settle {fault : Option Fault} (h : List.Forall₂ Token.Requoted us ts) (ht : Token.Requoted u t)
    (fresh : Bool) : Reading.Requoted (settle fault u fresh us) (settle fault t fresh ts) := by
  induction h generalizing t u fresh with
  | nil =>
    unfold Token.settle
    simp only [ht.kind_iff (k := .ending) rfl]
    split
    · exact ⟨.cons ht .nil, rfl⟩
    · exact ⟨.nil, rfl⟩
  | cons hnext hrest ih =>
    unfold Token.settle
    simp only [ht.kind_iff (k := .ending) rfl, ht.kind_iff (k := .space) rfl,
      hnext.kind_iff (k := .space) rfl, ht.isSpaceSensitive, hnext.isSpaceSensitive]
    split
    · exact ⟨.cons ht .nil, rfl⟩
    split
    · exact ih ht false
    split
    · exact ih hnext false
    · exact (ih hnext true).cons ht

theorem settleAll (h : Reading.Requoted r' r) : Reading.Requoted (settleAll r') (settleAll r) := by
  obtain ⟨tokens, fault⟩ := r
  obtain ⟨tokens', fault'⟩ := r'
  obtain ⟨htokens, rfl⟩ := h
  cases htokens with
  | nil => exact ⟨.nil, rfl⟩
  | cons ht hrest => exact settle hrest ht true

theorem tokens_of_raw {text text' : String} (aliases : List Alias) (globalOnly : Bool)
    (h : Reading.Requoted (raw text') (raw text)) :
    Reading.Requoted (Token.tokens aliases globalOnly text') (Token.tokens aliases globalOnly text) := by
  unfold Token.tokens tokensWith
  dsimp only
  rw [h.fault]
  exact settleAll (expandWith h.tokens rfl globalOnly)

end Reading.Requoted

end Token

/-! ## The grammar -/

/-- The tokens write the phrase, but for how its quoted words are written. -/
def Phrase.WrittenAlike (inside : Bool) (tail : Tail) (ts : List Token) : Phrase → Prop
  | .word pieces => ∃ pieces', Written inside (.word pieces') tail ts ∧
      Tree.canonicalPieces pieces' = Tree.canonicalPieces pieces
  | .process words redirects => ∃ words' redirects', Written inside (.process words' redirects') tail ts ∧
      Tree.canonicalWords words' = Tree.canonicalWords words ∧
      Tree.canonicalRedirects redirects' = Tree.canonicalRedirects redirects
  | .command tree => ∃ tree', Written inside (.command tree') tail ts ∧ tree'.canonical = tree.canonical
  | .pipeline tree => ∃ tree', Written inside (.pipeline tree') tail ts ∧ tree'.canonical = tree.canonical
  | .condition tree => ∃ tree', Written inside (.condition tree') tail ts ∧ tree'.canonical = tree.canonical
  | .sequence tree => ∃ tree', Written inside (.sequence tree') tail ts ∧ tree'.canonical = tree.canonical
  | .line tree => ∃ tree', Written inside (.line tree') tail ts ∧ tree'.canonical = tree.canonical

open Token (Requoted exists_append)

theorem Token.Requoted.spaces (h : List.Forall₂ Requoted us ts) (hts : ∀ t ∈ ts, t.kind = .space) :
    ∀ u ∈ us, u.kind = .space := by
  induction h with
  | nil => simp
  | cons ht _ ih =>
    rw [List.forall_mem_cons] at hts ⊢
    obtain rfl := ht.eq_of_kind hts.1 TokenKind.noConfusion
    exact ⟨hts.1, ih hts.2⟩

theorem Token.Requoted.head_ne_backquote (h : List.Forall₂ Requoted us ts)
    (hts : ∀ t ∈ ts.head?, t.kind ≠ .backquote) : ∀ u ∈ us.head?, u.kind ≠ .backquote := by
  cases h with
  | nil => simp
  | cons ht _ =>
    intro u hu hkind
    obtain rfl := Option.mem_some_iff.mp hu
    exact hts _ rfl ((ht.kind_iff (k := .backquote) rfl).mp hkind)

theorem Tree.ne_nil_of_canonical {word word' : List Piece}
    (h : canonicalPieces word' = canonicalPieces word) (hword : word ≠ []) : word' ≠ [] := by
  rintro rfl
  exact hword (canonicalPieces_eq_nil.mp h.symm)

/-- A word that goes on with a requoted token. -/
theorem Written.requoted_part {inside : Bool} {pieces pieces' : List Piece} {t u : Token}
    (h : Written inside (.word pieces') .word ts)
    (halike : Tree.canonicalPieces pieces' = Tree.canonicalPieces pieces) (hu : Requoted u t)
    (hpart : t.kind.isWordPart = true) (hdouble : t.kind ≠ .doubleQuoted) :
    (Phrase.word (pieces ++ [.token t])).WrittenAlike inside .word (ts ++ [u]) := by
  cases hu with
  | same =>
    refine ⟨_, .part h hpart hdouble, ?_⟩
    rw [Tree.canonicalPieces_append, Tree.canonicalPieces_append, halike]
  | quotes hvalue hexpand =>
    refine ⟨_, .quoted h rfl hexpand, ?_⟩
    rw [Tree.canonicalPieces_append, Tree.canonicalPieces_append, halike]
    simp [Tree.canonicalPieces, Piece.canonical, Token.canonical_of_unquote hvalue,
      Token.canonical_of_unquote (Token.unquote_quote _)]

/-- **The grammar treats the literals of a value alike.** Tokens that stand in the place of those of a
phrase write the same phrase, but for how quoted words are written. -/
theorem Written.requoted {inside : Bool} {phrase : Phrase} {tail : Tail} (h : Written inside phrase tail ts)
    (hus : List.Forall₂ Requoted us ts) : phrase.WrittenAlike inside tail us := by
  induction h generalizing us with
  | nothing =>
    cases hus
    exact ⟨_, .nothing, rfl⟩
  | part _ hpart hdouble ih =>
    obtain ⟨vs, vs', rfl, hvs, _ | ⟨hu, _ | _⟩⟩ := exists_append hus
    obtain ⟨_, hwritten, halike⟩ := ih hvs
    exact hwritten.requoted_part halike hu hpart hdouble
  | quoted _ hdouble hexpand ih =>
    obtain ⟨vs, vs', rfl, hvs, _ | ⟨hu, _ | _⟩⟩ := exists_append hus
    obtain ⟨_, hwritten, halike⟩ := ih hvs
    obtain rfl := hu.eq_of_kind hdouble TokenKind.noConfusion
    refine ⟨_, .quoted hwritten hdouble hexpand, ?_⟩
    rw [Tree.canonicalPieces_append, Tree.canonicalPieces_append, halike]
  | backquoted _ hopening hspaces _ hclosing ih ihline =>
    obtain ⟨vs, vs', rfl, hvs, _ | ⟨hu, hrest⟩⟩ := exists_append hus
    obtain ⟨spaces', rest, rfl, hspaces', hrest⟩ := exists_append hrest
    obtain ⟨inner', last, rfl, hinner, _ | ⟨hv, _ | _⟩⟩ := exists_append hrest
    obtain ⟨_, hwritten, halike⟩ := ih hvs
    obtain ⟨_, hline, htree⟩ := ihline hinner
    obtain rfl := hu.eq_of_kind hopening TokenKind.noConfusion
    obtain rfl := hv.eq_of_kind hclosing TokenKind.noConfusion
    refine ⟨_, .backquoted hwritten hopening (Requoted.spaces hspaces' hspaces) hline hclosing, ?_⟩
    rw [Tree.canonicalPieces_append, Tree.canonicalPieces_append, halike]
    simp [Tree.canonicalPieces, Piece.canonical, htree]
  | first _ hword ih =>
    obtain ⟨_, hwritten, halike⟩ := ih hus
    refine ⟨_, _, .first hwritten (Tree.ne_nil_of_canonical halike hword), ?_, rfl⟩
    simp [Tree.canonicalWords, halike]
  | argument _ hspace _ hword ih ihword =>
    obtain ⟨vs, vs', rfl, hvs, _ | ⟨hu, hrest⟩⟩ := exists_append hus
    obtain ⟨_, _, hwritten, hwords, hredirects⟩ := ih hvs
    obtain ⟨_, hlast, halike⟩ := ihword hrest
    obtain rfl := hu.eq_of_kind hspace TokenKind.noConfusion
    refine ⟨_, _, .argument hwritten hspace hlast (Tree.ne_nil_of_canonical halike hword), ?_,
      hredirects⟩
    simp [Tree.canonicalWords_append, Tree.canonicalWords, hwords, halike]
  | descriptor _ hsign hparts ih =>
    obtain ⟨vs, vs', rfl, hvs, _ | ⟨hu, _ | _⟩⟩ := exists_append hus
    obtain ⟨_, _, hwritten, hwords, hredirects⟩ := ih hvs
    obtain rfl := hu.eq_of_kind hsign TokenKind.noConfusion
    refine ⟨_, _, .descriptor hwritten hsign hparts, hwords, ?_⟩
    rw [Tree.canonicalRedirects_append, Tree.canonicalRedirects_append, hredirects]
  | file _ hsign hparts _ hword ih ihword =>
    obtain ⟨vs, vs', rfl, hvs, _ | ⟨hu, hrest⟩⟩ := exists_append hus
    obtain ⟨_, _, hwritten, hwords, hredirects⟩ := ih hvs
    obtain ⟨_, htarget, halike⟩ := ihword hrest
    obtain rfl := hu.eq_of_kind hsign TokenKind.noConfusion
    refine ⟨_, _, .file hwritten hsign hparts htarget (Tree.ne_nil_of_canonical halike hword),
      hwords, ?_⟩
    rw [Tree.canonicalRedirects_append, Tree.canonicalRedirects_append, hredirects]
    simp [Tree.canonicalRedirects, Redirect.canonical, halike]
  | capture _ hsign hname hbegins ih =>
    obtain ⟨vs, vs', rfl, hvs, _ | ⟨hu, _ | ⟨hv, _ | _⟩⟩⟩ := exists_append hus
    obtain ⟨_, _, hwritten, hwords, hredirects⟩ := ih hvs
    obtain rfl := hv.eq_of_kind hname TokenKind.noConfusion
    obtain rfl := hu.eq_of_kind hsign TokenKind.noConfusion
    refine ⟨_, _, .capture hwritten hsign hname hbegins, hwords, ?_⟩
    rw [Tree.canonicalRedirects_append, Tree.canonicalRedirects_append, hredirects]
  | process _ ih =>
    obtain ⟨_, _, hwritten, hwords, hredirects⟩ := ih hus
    refine ⟨_, .process hwritten, ?_⟩
    simp [Tree.canonical, hwords, hredirects]
  | padded _ hspace ih =>
    obtain ⟨vs, vs', rfl, hvs, _ | ⟨hu, _ | _⟩⟩ := exists_append hus
    obtain ⟨_, _, hwritten, hwords, hredirects⟩ := ih hvs
    obtain rfl := hu.eq_of_kind hspace TokenKind.noConfusion
    refine ⟨_, .padded hwritten hspace, ?_⟩
    simp [Tree.canonical, hwords, hredirects]
  | group hopening _ hends hclosing ih =>
    obtain _ | ⟨hu, hrest⟩ := hus
    obtain ⟨vs, vs', rfl, hvs, _ | ⟨hv, _ | _⟩⟩ := exists_append hrest
    obtain ⟨_, hwritten, htree⟩ := ih hvs
    obtain rfl := hu.eq_of_kind hopening TokenKind.noConfusion
    obtain rfl := hv.eq_of_kind hclosing TokenKind.noConfusion
    exact ⟨_, .group hopening hwritten hends hclosing, htree⟩
  | command _ ih =>
    obtain ⟨_, hwritten, htree⟩ := ih hus
    exact ⟨_, .command hwritten, htree⟩
  | pipe _ hends hsign _ ih ihright =>
    obtain ⟨vs, vs', rfl, hvs, _ | ⟨hu, hrest⟩⟩ := exists_append hus
    obtain ⟨_, hleft, hltree⟩ := ih hvs
    obtain ⟨_, hright, hrtree⟩ := ihright hrest
    obtain rfl := hu.eq_of_kind hsign TokenKind.noConfusion
    refine ⟨_, .pipe hleft hends hsign hright, ?_⟩
    simp [Tree.canonical, hltree, hrtree]
  | store _ hends hsign hname hbegins ih =>
    obtain ⟨vs, vs', rfl, hvs, _ | ⟨hu, _ | ⟨hv, _ | _⟩⟩⟩ := exists_append hus
    obtain ⟨_, hwritten, htree⟩ := ih hvs
    obtain rfl := hv.eq_of_kind hname TokenKind.noConfusion
    obtain rfl := hu.eq_of_kind hsign TokenKind.noConfusion
    refine ⟨_, .store hwritten hends hsign hname hbegins, ?_⟩
    simp [Tree.canonical, htree]
  | pipeline _ ih =>
    obtain ⟨_, hwritten, htree⟩ := ih hus
    exact ⟨_, .pipeline hwritten, htree⟩
  | conditional _ hop hends hsign _ ih ihright =>
    obtain ⟨vs, vs', rfl, hvs, _ | ⟨hu, hrest⟩⟩ := exists_append hus
    obtain ⟨_, hleft, hltree⟩ := ih hvs
    obtain ⟨_, hright, hrtree⟩ := ihright hrest
    obtain rfl := hu.eq_of_kind hsign (by rcases hop with rfl | rfl <;> exact TokenKind.noConfusion)
    refine ⟨_, .conditional hleft hop hends hsign hright, ?_⟩
    simp [Tree.canonical, hltree, hrtree]
  | condition _ ih =>
    obtain ⟨_, hwritten, htree⟩ := ih hus
    exact ⟨_, .condition hwritten, htree⟩
  | successive _ hends hsign _ hhead ih ihright =>
    obtain ⟨vs, vs', rfl, hvs, _ | ⟨hu, hrest⟩⟩ := exists_append hus
    obtain ⟨_, hleft, hltree⟩ := ih hvs
    obtain ⟨_, hright, hrtree⟩ := ihright hrest
    obtain rfl := hu.eq_of_kind hsign TokenKind.noConfusion
    refine ⟨_, .successive hleft hends hsign hright (Requoted.head_ne_backquote hrest hhead), ?_⟩
    simp [Tree.canonical, hltree, hrtree]
  | sequence _ ih =>
    obtain ⟨_, hwritten, htree⟩ := ih hus
    exact ⟨_, .sequence hwritten, htree⟩
  | terminated _ hends hsign ih =>
    obtain ⟨vs, vs', rfl, hvs, _ | ⟨hu, _ | _⟩⟩ := exists_append hus
    obtain ⟨_, hwritten, htree⟩ := ih hvs
    obtain rfl := hu.eq_of_kind hsign TokenKind.noConfusion
    exact ⟨_, .terminated hwritten hends hsign, htree⟩

namespace Token

open Text
open ValueShell.Plan (ok_of_bind)

variable {a b front back : List Char} {v : String}

/-- The characters are a literal of the value, in quotes of this kind. -/
def IsLiteral (kind : TokenKind) (word : List Char) (v : String) : Prop :=
  cutString word = .ok (some (kind, word, [])) ∧ unquote (String.ofList word) = .ok v

/-- Cutting tokens off `front ++ rest`, without the white space at its head, comes to `rest`, and the last
token before is no empty quoted word. -/
def Precedes (front rest : List Char) : Prop :=
  ∃ cuts, Cuts (front.dropWhile isBlank ++ rest) cuts rest ∧
    ∀ cut ∈ cuts.getLast?, ∀ q, IsQuote q → cut.2 ≠ [q, q]

/-- Two quotes are a literal of the empty value. -/
theorem unquote_quotes {q : Char} (hq : IsQuote q) : unquote (String.ofList [q, q]) = .ok "" := by
  apply eq_ok_of_toOption
  rcases hq with rfl | rfl <;> decide +kernel

namespace IsLiteral

variable {kind : TokenKind} {word : List Char}

theorem exists_quote (h : IsLiteral kind word v) :
    ∃ q body, IsQuote q ∧ word = q :: body ∧ word.getLast? = some q := by
  obtain ⟨q, rest, f, rfl, hkind, hfirst, hstring, hword, -⟩ := exists_first_of_cutString h.1
  have hquote : IsQuote q := hkind.imp And.left And.left
  refine ⟨q, rest, hquote, rfl, ?_⟩
  rw [hword]
  exact Fragment.getLast?_of_first hquote hfirst hstring

/-- A literal is cut off whatever follows, unless it is empty. -/
theorem next?_append (h : IsLiteral kind word v) (hv : v ≠ "") (rest : List Char) :
    next? (word ++ rest) = .ok (some (kind, word, rest)) := by
  have hcut : cutString (word ++ rest) = .ok (some (kind, word, rest)) := by
    apply cutString_append h.1
    rintro q hq rfl
    have hempty := h.2
    rw [unquote_quotes hq] at hempty
    exact absurd (Except.ok.inj hempty).symm hv
  obtain ⟨q, body, hq, rfl, -⟩ := h.exists_quote
  exact next?_quote hq hcut

/-- White space is removed only around a literal. -/
theorem strip_around (h : IsLiteral kind word v) (front back : List Char) :
    strip (front ++ (word ++ back)) = front.dropWhile isBlank ++ (word ++ trimEnd isBlank back) := by
  obtain ⟨q, body, hq, rfl, hlast⟩ := h.exists_quote
  have hblank : isBlank q = false := by rcases hq with rfl | rfl <;> rfl
  exact Text.strip_around rfl hlast hblank hblank front back

end IsLiteral

/-- A text without a dollar sign is expanded to one literal, or to nothing if it is empty. -/
theorem expandText_plain (hv : '$' ∉ v.toList) :
    expandText v = { tokens := if v = "" then [] else [⟨.singleQuoted, quote v⟩] } := by
  by_cases hempty : v = ""
  · subst hempty
    rfl
  obtain ⟨n, hn⟩ : ∃ n, v.length = n + 1 := by
    refine Nat.exists_eq_succ_of_ne_zero ?_
    simpa using hempty
  have hhead : ¬ (v.toList.head? == some '$') = true := by
    intro hdollar
    exact hv (List.mem_of_mem_head? (beq_iff_eq.mp hdollar))
  have hall : ∀ c ∈ v.toList, (c != '$') = true := by
    intro c hc
    rw [bne_iff_ne]
    rintro rfl
    exact hv hc
  have hstep : expandStep v.toList = .ok (⟨.singleQuoted, quote v⟩, []) := by
    unfold expandStep
    rw [if_neg hhead]
    dsimp only
    rw [List.takeWhile_eq_self_iff.mpr hall, List.dropWhile_eq_nil_iff.mpr hall]
    rfl
  have hrest : expandFrom n [] = { tokens := [] } := by cases n <;> rfl
  unfold expandText
  rw [hn, expandFrom, if_neg (by simpa using hempty), hstep, if_neg hempty]
  simp only [hrest]
  rfl

theorem expandQuoted_literal (hb : IsLiteral .doubleQuoted b v) (hplain : '$' ∉ v.toList) (hv : v ≠ "") :
    expandQuoted (String.ofList b) = .ok [⟨.singleQuoted, quote v⟩] := by
  unfold expandQuoted
  rw [hb.2]
  simp only [bind, Except.bind]
  rw [expandText_plain hplain, if_neg hv]

/-- **The tokens of the two texts** differ only in the literal. -/
theorem requoted_raw (ha : IsLiteral .singleQuoted a v) (hb : IsLiteral .doubleQuoted b v)
    (hplain : '$' ∉ v.toList) (hv : v ≠ "") (hfront : Precedes front (a ++ back)) :
    Reading.Requoted (raw (String.ofList (front ++ (b ++ back))))
      (raw (String.ofList (front ++ (a ++ back)))) := by
  obtain ⟨cuts, hcuts, hlast⟩ := hfront
  -- the tokens before a literal are the same before any literal
  have hread : ∀ {kind : TokenKind} {word : List Char}, IsLiteral kind word v →
      Cuts (strip (String.ofList (front ++ (word ++ back))).toList)
        (cuts ++ [(ofPiece kind word, word)]) (trimEnd isBlank back) := by
    intro kind word hword
    rw [String.toList_ofList, hword.strip_around]
    have hnext := hword.next?_append hv (trimEnd isBlank back)
    obtain ⟨q, body, hq, rfl, -⟩ := ha.exists_quote
    obtain ⟨d, body', hd, rfl, -⟩ := hword.exists_quote
    exact (hcuts.replace hq hd fun cut hcut => hlast cut hcut d hd).trans (.cons hnext (.nil _))
  rw [raw_of_cuts (hread ha), raw_of_cuts (hread hb)]
  refine ⟨?_, rfl⟩
  simp only [List.map_append]
  refine List.rel_append (List.rel_append ?_ ?_) ?_
  · exact List.forall₂_same.mpr fun t _ => .same t
  · exact .cons (.quotes ha.2 (expandQuoted_literal hb hplain hv)) .nil
  · exact List.forall₂_same.mpr fun t _ => .same t

theorem isLiteral_quotes :
    IsLiteral .singleQuoted [apostrophe, apostrophe] "" ∧
      IsLiteral .doubleQuoted [doubleQuote, doubleQuote] "" := by
  refine ⟨⟨?_, unquote_quotes (.inl rfl)⟩, ⟨?_, unquote_quotes (.inr rfl)⟩⟩
  · apply eq_ok_of_toOption
    decide +kernel
  · apply eq_ok_of_toOption
    decide +kernel

/-- Any quoted word can be the first argument of a process. -/
theorem precedes_argument {q : Char} (hq : IsQuote q) (rest : List Char) :
    Precedes "echo ".toList (q :: rest) := by
  have hname : next? ("echo ".toList ++ [apostrophe]) =
      .ok (some (.literal, "echo".toList, [' ', apostrophe])) := by
    apply eq_ok_of_toOption
    decide +kernel
  have hspace : next? [' ', apostrophe] = .ok (some (.space, [' '], [apostrophe])) := by
    apply eq_ok_of_toOption
    decide +kernel
  have hcuts := Cuts.cons hname (.cons hspace (.nil _))
  have hlast : ∀ cut ∈ [(ofPiece .literal "echo".toList, "echo".toList),
      (ofPiece .space [' '], [' '])].getLast?, ∀ q, cut.2 ≠ [q, q] := by
    simp
  exact ⟨_, hcuts.replace (.inl rfl) hq fun cut hcut => hlast cut hcut q,
    fun cut hcut q _ => hlast cut hcut q⟩

end Token

namespace Tree

open Token (Requoted exists_append)

theorem endsLine_requoted {tail : Tail} {t u : Token} (h : Requoted u t) :
    tail.endsLine false u.kind = tail.endsLine false t.kind := by
  cases h with
  | same => rfl
  | quotes => cases tail <;> rfl

/-- A line is read from requoted tokens if it is read from the tokens. -/
theorem ofReading_requoted {r r' : Token.Reading} {tree : Tree} {left : Input}
    (hr : Token.Reading.Requoted r' r) (h : ofReading r = .ok (tree, left)) :
    ∃ tree' left', ofReading r' = .ok (tree', left') ∧ tree'.canonical = tree.canonical := by
  obtain ⟨tail, ts, htokens, hne, hfault, hwritten, hends⟩ := ofReading_eq_ok_iff.mp h
  obtain ⟨tokens, fault⟩ := left
  have hus := hr.tokens
  rw [htokens] at hus
  obtain ⟨us, rest, hsplit, hus, hrest⟩ := exists_append hus
  obtain ⟨tree', hwritten', htree⟩ := hwritten.requoted hus
  cases hrest with
  | nil => exact absurd rfl hne
  | @cons u t rest tokens hu hrest =>
    have hends' : tail.endsLine false u.kind = true := by
      rw [endsLine_requoted hu]
      exact hends
    refine ⟨tree', ⟨u :: rest, fault⟩, ?_, htree⟩
    rw [ofReading_eq_ok_iff, hr.fault]
    exact ⟨tail, us, hsplit, List.cons_ne_nil _ _, hfault, hwritten', hends'⟩

/-- **Single and double quotes differ only in dollar signs**, but for the empty value. Let the value have no
dollar sign. A literal of it is one word with this value, and so is what a double-quoted one is expanded
to; in general, words that are canonically the same have the same values. The double-quoted literal can
be written wherever the single-quoted one can, whatever the aliases and the text around it, and gives the
same tree up to canonical words. This holds exactly if the value is not empty. -/
theorem parse_requoted_iff {v : String} (hplain : '$' ∉ v.toList) :
    (∀ (scope : WordScope) (word : List Token),
      scope.evalWord (word.map Token.canonical) = scope.evalWord word) ∧
    (∀ a, Token.IsLiteral .singleQuoted a v → ∀ scope : WordScope,
      scope.evalWord [⟨.singleQuoted, String.ofList a⟩] = .ok [.text (Files.expandHome scope.home v)]) ∧
    ((∀ (aliases : List Alias) (front a b back : List Char) (tree : Tree) (left : Input),
      Token.IsLiteral .singleQuoted a v → Token.IsLiteral .doubleQuoted b v →
      Token.Precedes front (a ++ back) →
      parse aliases (String.ofList (front ++ (a ++ back))) = .ok (tree, left) →
      ∃ tree' left', parse aliases (String.ofList (front ++ (b ++ back))) = .ok (tree', left') ∧
        tree'.canonical = tree.canonical) ↔ v ≠ "") := by
  refine ⟨WordScope.evalWord_canonical, fun a ha scope => ?_, ?_, ?_⟩
  · have hvalue := Token.evalText_of_unquote ha.2
    simp [WordScope.evalWord, WordScope.hasPattern, WordScope.tokenValue, hvalue, bind, Except.bind, pure,
      Except.pure]
  · -- at the end of a process, nothing is left of two double quotes
    rintro h rfl
    have hsingle : (parse [] (String.ofList ("echo ".toList ++ ([Text.apostrophe, Text.apostrophe] ++
        [])))).toOption.isSome = true := by
      decide +kernel
    have hdouble : (parse [] (String.ofList ("echo ".toList ++ ([Text.doubleQuote, Text.doubleQuote] ++
        [])))).toOption.isSome = false := by
      decide +kernel
    obtain ⟨⟨tree, left⟩, hparse⟩ := Token.exists_ok_of_isSome hsingle
    obtain ⟨tree', left', hparse', -⟩ := h [] _ _ _ [] tree left Token.isLiteral_quotes.1
      Token.isLiteral_quotes.2 (Token.precedes_argument (.inl rfl) _) hparse
    rw [hparse'] at hdouble
    cases hdouble
  · intro hv aliases front a b back tree left ha hb hfront h
    exact ofReading_requoted
      (Token.Reading.Requoted.tokens_of_raw aliases false (Token.requoted_raw ha hb hplain hv hfront)) h

/-- An apostrophe is escaped in one literal and stands for itself in the other. -/
theorem parse_requoted_apostrophe :
    '$' ∉ "it's".toList ∧ ∃ tree left tree' left', parse [] "echo 'it\\'s' | cat" = .ok (tree, left) ∧
      parse [] "echo \"it's\" | cat" = .ok (tree', left') ∧ tree'.canonical = tree.canonical := by
  have hplain : '$' ∉ "it's".toList := by decide
  have ha : Token.IsLiteral .singleQuoted "'it\\'s'".toList "it's" :=
    ⟨Token.eq_ok_of_toOption (by decide +kernel), Token.eq_ok_of_toOption (by decide +kernel)⟩
  have hb : Token.IsLiteral .doubleQuoted "\"it's\"".toList "it's" :=
    ⟨Token.eq_ok_of_toOption (by decide +kernel), Token.eq_ok_of_toOption (by decide +kernel)⟩
  have hsome : (parse [] "echo 'it\\'s' | cat").toOption.isSome = true := by decide +kernel
  obtain ⟨⟨tree, left⟩, hparse⟩ := Token.exists_ok_of_isSome hsome
  obtain ⟨tree', left', hparse', htree⟩ := (parse_requoted_iff hplain).2.2.mpr (by decide) []
    "echo ".toList _ _ " | cat".toList tree left ha hb (Token.precedes_argument (.inl rfl) _) hparse
  exact ⟨hplain, tree, left, tree', left', hparse, hparse', htree⟩

/-- An empty argument can be written between single quotes only. -/
theorem empty_argument_lost :
    (∃ tree left, parse [] "args ''" = .ok (tree, left)) ∧
      parse [] "args \"\"" = .error (.complaint (.unexpectedToken "eof" "")) := by
  have hsome : (parse [] "args ''").toOption.isSome = true := by decide +kernel
  obtain ⟨⟨tree, left⟩, hparse⟩ := Token.exists_ok_of_isSome hsome
  refine ⟨⟨tree, left, hparse⟩, ?_⟩
  have hcaught : (((parse [] "args \"\"").map fun _ => none).tryCatch fun e => .ok (some e)).toOption =
      some (some (.complaint (.unexpectedToken "eof" ""))) := by
    decide +kernel
  revert hcaught
  cases parse [] "args \"\"" with
  | error e =>
    intro hcaught
    exact congrArg Except.error (Option.some.inj (Option.some.inj hcaught))
  | ok found =>
    intro hcaught
    cases hcaught

end Tree

end ValueShell
