import ValueShell.Command.Token
import ValueShell.Proofs.Pipeline.Diagnosis
import ValueShell.Proofs.Text.FirstString

/-!
# Lexing loses nothing

Every token is cut off the head of a text: `next?_cutsOff` says so for one token, whichever class it is
of, and `Cuts` follows the cuts through a text. `raw_loses_nothing` puts this together for the text of
a command line: the pieces that were cut off and what is left make up the text, and nothing is left
unless a fault says why.
-/

set_option autoImplicit false

namespace ValueShell.Token

open Text
open ValueShell.Plan (ok_of_bind)

variable {cs piece left : List Char} {kind : TokenKind}

theorem eq_ok_of_toOption {α : Type} {x : Except Fault α} {y : α} (h : x.toOption = some y) :
    x = .ok y := by
  cases x with
  | error e => cases h
  | ok z => exact congrArg Except.ok (Option.some.inj h)

theorem exists_ok_of_isSome {α : Type} {x : Except Fault α} (h : x.toOption.isSome = true) :
    ∃ y, x = .ok y := by
  obtain ⟨y, hy⟩ := Option.isSome_iff_exists.mp h
  exact ⟨y, eq_ok_of_toOption hy⟩

/-! ## One token -/

/-- A token of some kind takes `piece` off the head of `cs`. Space is taken as far as it goes. -/
structure CutsOff (cs : List Char) (kind : TokenKind) (piece left : List Char) : Prop where
  ne_nil : piece ≠ []
  append : cs = piece ++ left
  gap : kind = .space → (∀ c ∈ piece, isGap c = true) ∧ ∀ c ∈ left.head?, isGap c = false

theorem CutsOff.of_ne (hkind : kind ≠ .space) (hne : piece ≠ []) (happend : cs = piece ++ left) :
    CutsOff cs kind piece left :=
  ⟨hne, happend, fun h => absurd h hkind⟩

theorem cutWhile_eq_some {p : Char → Bool} (h : cutWhile p cs = some (piece, left)) :
    piece ≠ [] ∧ piece = cs.takeWhile p ∧ left = cs.dropWhile p := by
  unfold cutWhile at h
  split at h
  · cases h
  · rename_i hne
    cases h
    exact ⟨hne, rfl, rfl⟩

theorem cutText_eq_some {text : List Char} (h : cutText text cs = some (piece, left)) :
    piece = text ∧ cs = piece ++ left := by
  unfold cutText at h
  split at h
  · rename_i hprefix
    cases h
    obtain ⟨rest, rfl⟩ := List.isPrefixOf_iff_prefix.mp hprefix
    simp
  · cases h

theorem cutRedirect_eq_some {sign : RedirectSign} (h : cutRedirect cs = some (sign, left)) :
    cs = sign.text ++ left := by
  have hcs := List.takeWhile_append_dropWhile (p := isDecimalDigit) (l := cs)
  unfold cutRedirect at h
  dsimp only at h
  split at h
  · rename_i rest hdrop
    rw [hdrop] at hcs
    rw [← hcs]
    split at h
    · -- an ampersand, after a sign that is doubled or not
      rename_i after hafter
      split at h
      · rename_i hdigits
        obtain ⟨-, rfl, rfl⟩ := cutWhile_eq_some hdigits
        split at h
        · cases h
          simp_all [RedirectSign.text]
        · cases h
          simp_all [RedirectSign.text]
      · split at h
        · cases h
          simp_all [RedirectSign.text]
        · cases h
          simp_all [RedirectSign.text]
    · split at h
      · cases h
        simp_all [RedirectSign.text]
      · cases h
        simp_all [RedirectSign.text]
  · cases h

theorem cutVariable_eq_some (h : cutVariable cs = some (piece, left)) :
    piece ≠ [] ∧ cs = piece ++ left := by
  unfold cutVariable at h
  split at h
  · split at h
    · cases h
      simp
    · cases h
  · cases h

theorem plainWord_append (cs : List Char) : (plainWord cs).1 ++ (plainWord cs).2 = cs := by
  induction cs with
  | nil => rfl
  | cons c rest ih =>
    rw [plainWord]
    split
    · simp [ih]
    · rfl

theorem cutLiteral_eq_some (h : cutLiteral cs = some (piece, left)) :
    piece ≠ [] ∧ cs = piece ++ left := by
  have happend := plainWord_append cs
  unfold cutLiteral at h
  split at h
  · cases h
  · rename_i hne
    simp at h
    rw [h] at happend
    refine ⟨?_, happend.symm⟩
    rintro rfl
    exact hne left h

theorem upToBrace_append {depth : Nat} {body : List Char} (h : upToBrace depth cs = some (body, left)) :
    cs = body ++ Char.ofNat 0x7D :: left := by
  have hmore : ∀ {depth : Nat} {c : Char} {rest body left : List Char},
      ((upToBrace depth rest).map fun cut => (c :: cut.1, cut.2)) = some (body, left) →
      (∀ body left, upToBrace depth rest = some (body, left) → rest = body ++ Char.ofNat 0x7D :: left) →
      c :: rest = body ++ Char.ofNat 0x7D :: left := by
    intro depth c rest body left h ih
    obtain ⟨⟨body', left'⟩, hread, heq⟩ := Option.map_eq_some_iff.mp h
    cases heq
    rw [ih _ _ hread, List.cons_append]
  fun_induction upToBrace depth cs generalizing body left with
  | case1 => cases h
  | case2 rest =>
    cases h
    rfl
  | case3 rest depth ih => exact hmore h fun _ _ => ih
  | case4 depth c rest hc ih => exact hmore h fun _ _ => ih

theorem cutExpression_eq_some (h : cutExpression cs = .ok (some (piece, left))) :
    piece ≠ [] ∧ cs = piece ++ left := by
  unfold cutExpression at h
  dsimp only at h
  split at h
  · rename_i hprefix
    obtain ⟨rest, rfl⟩ := List.isPrefixOf_iff_prefix.mp hprefix
    split at h
    · cases h
    · rename_i body after hbrace
      obtain ⟨_, _, h⟩ := ok_of_bind h
      cases h
      have hrest := upToBrace_append hbrace
      simp at hrest
      simp [hrest]
  · cases h

/-- A quoted word is the string that is read first. -/
theorem exists_first_of_cutString (h : cutString cs = .ok (some (kind, piece, left))) :
    ∃ q rest f, cs = q :: rest ∧
      (q = apostrophe ∧ kind = .singleQuoted ∨ q = doubleQuote ∧ kind = .doubleQuoted) ∧
      Fragment.first cs = .ok f ∧ f.kind = .string ∧ piece = f.text ∧ left = cs.drop f.text.length := by
  have hquoted : ∀ quotes : TokenKind, (do
      let f ← Fragment.first cs
      if f.kind = .string then .ok (some (quotes, f.text, cs.drop f.text.length))
      else .error (.complaint .brokenString)) = (.ok (some (kind, piece, left)) : Except Fault _) →
      kind = quotes ∧ ∃ f, Fragment.first cs = .ok f ∧ f.kind = .string ∧ piece = f.text ∧
        left = cs.drop f.text.length := by
    intro quotes hread
    obtain ⟨f, hfirst, hread⟩ := ok_of_bind hread
    split at hread
    · rename_i hstring
      cases hread
      exact ⟨rfl, f, hfirst, hstring, rfl, rfl⟩
    · cases hread
  unfold cutString at h
  split at h
  · rename_i c rest
    split at h
    · rename_i hdouble
      obtain ⟨hkind, f, hf⟩ := hquoted .doubleQuoted h
      exact ⟨c, rest, f, rfl, Or.inr ⟨hdouble, hkind⟩, hf⟩
    split at h
    · rename_i hsingle
      obtain ⟨hkind, f, hf⟩ := hquoted .singleQuoted h
      exact ⟨c, rest, f, rfl, Or.inl ⟨hsingle, hkind⟩, hf⟩
    · cases h
  · cases h

theorem cutString_eq_some (h : cutString cs = .ok (some (kind, piece, left))) :
    CutsOff cs kind piece left := by
  obtain ⟨q, rest, f, rfl, hq, hfirst, hstring, rfl, rfl⟩ := exists_first_of_cutString h
  obtain ⟨hne, hprefix⟩ := Fragment.first_isPrefix (hq.imp And.left And.left) hfirst hstring
  have hkind : kind ≠ .space := by
    rcases hq with ⟨-, rfl⟩ | ⟨-, rfl⟩ <;> decide
  exact .of_ne hkind hne (List.prefix_iff_eq_append.mp hprefix).symm

/-- What cuts `piece` off the head of `cs`, as a token of some kind. -/
inductive CutBy (cs piece left : List Char) : TokenKind → Prop
  | redirect {sign : RedirectSign} (h : cutRedirect cs = some (sign, left)) (hpiece : sign.text = piece) :
      CutBy cs piece left .redirect
  | sign {kind : TokenKind} (hmem : (piece, kind) ∈ signs) (happend : cs = piece ++ left) :
      CutBy cs piece left kind
  | string {kind : TokenKind} (h : cutString cs = .ok (some (kind, piece, left))) : CutBy cs piece left kind
  | name (h : cutVariable cs = some (piece, left)) : CutBy cs piece left .substitution
  | expression (h : cutExpression cs = .ok (some (piece, left))) : CutBy cs piece left .substitution
  | dollar (h : cutText ['$'] cs = some (piece, left)) : CutBy cs piece left .literal
  | space (h : cutWhile isGap cs = some (piece, left)) : CutBy cs piece left .space
  | word (h : cutLiteral cs = some (piece, left)) : CutBy cs piece left .literal

theorem cutBy_of_cutSign (h : cutSign cs = some (kind, piece, left)) : CutBy cs piece left kind := by
  obtain ⟨⟨text, kind'⟩, hmem, hcut⟩ := List.exists_of_findSome?_eq_some h
  obtain ⟨⟨piece', left'⟩, htext, heq⟩ := Option.map_eq_some_iff.mp hcut
  cases heq
  obtain ⟨rfl, happend⟩ := cutText_eq_some htext
  exact .sign hmem happend

theorem cutBy_of_next? (h : next? cs = .ok (some (kind, piece, left))) : CutBy cs piece left kind := by
  unfold next? at h
  split at h
  · rename_i hredirect
    cases h
    exact .redirect hredirect rfl
  split at h
  · rename_i hsign
    cases h
    exact cutBy_of_cutSign hsign
  obtain ⟨found, hstring, h⟩ := ok_of_bind h
  split at h
  · cases h
    exact .string hstring
  split at h
  · rename_i hvariable
    cases h
    exact .name hvariable
  obtain ⟨found, hexpression, h⟩ := ok_of_bind h
  split at h
  · cases h
    exact .expression hexpression
  · -- a dollar sign, space or an unquoted word
    simp only [Except.ok.injEq, Option.or_eq_some_iff, Option.map_eq_some_iff, Prod.mk.injEq] at h
    rcases h with ⟨_, hdollar, rfl, rfl⟩ | ⟨_, ⟨_, hspace, rfl, rfl⟩ | ⟨_, _, hword, rfl, rfl⟩⟩
    · exact .dollar hdollar
    · exact .space hspace
    · exact .word hword

theorem next?_cutsOff (h : next? cs = .ok (some (kind, piece, left))) : CutsOff cs kind piece left := by
  cases cutBy_of_next? h with
  | redirect hredirect hpiece =>
    subst hpiece
    refine .of_ne nofun ?_ (cutRedirect_eq_some hredirect)
    simp [RedirectSign.text]
  | sign hmem happend =>
    have hsigns : ∀ sign ∈ signs, sign.2 ≠ .space ∧ sign.1 ≠ [] := by decide
    obtain ⟨hkind, hne⟩ := hsigns _ hmem
    exact .of_ne hkind hne happend
  | string hstring => exact cutString_eq_some hstring
  | name hvariable =>
    obtain ⟨hne, happend⟩ := cutVariable_eq_some hvariable
    exact .of_ne nofun hne happend
  | expression hexpression =>
    obtain ⟨hne, happend⟩ := cutExpression_eq_some hexpression
    exact .of_ne nofun hne happend
  | dollar hdollar =>
    obtain ⟨rfl, happend⟩ := cutText_eq_some hdollar
    exact .of_ne nofun (List.cons_ne_nil _ _) happend
  | space hspace =>
    obtain ⟨hne, rfl, rfl⟩ := cutWhile_eq_some hspace
    refine ⟨hne, List.takeWhile_append_dropWhile.symm, fun _ => ⟨fun c hc => ?_, fun c hc => ?_⟩⟩
    · exact List.all_eq_true.mp List.all_takeWhile c hc
    · have hhead := List.head?_dropWhile_not isGap cs
      rw [hc] at hhead
      exact hhead
  | word hword =>
    obtain ⟨hne, happend⟩ := cutLiteral_eq_some hword
    exact .of_ne nofun hne happend

theorem error_of_bind {α β : Type} {x : Except Fault α} {f : α → Except Fault β} {fault : Fault}
    (h : x >>= f = .error fault) : x = .error fault ∨ ∃ a, x = .ok a ∧ f a = .error fault := by
  cases x with
  | error e =>
    cases h
    exact Or.inl rfl
  | ok a => exact Or.inr ⟨a, rfl, h⟩

theorem parse_ne_exhausted (text : String) : Expr.parse text ≠ .error .exhausted := by
  have hfault : ∀ ls, Expr.faultAt ls ≠ .exhausted := by
    intro ls
    unfold Expr.faultAt
    split <;> simp
  unfold Expr.parse
  split
  · simp
  dsimp only
  split
  · simp [hfault]
  · split
    · simp
    · simp [hfault]

theorem cutString_ne_exhausted (cs : List Char) : cutString cs ≠ .error .exhausted := by
  have hquoted : ∀ quotes : TokenKind, (do
      let f ← Fragment.first cs
      if f.kind = .string then .ok (some (quotes, f.text, cs.drop f.text.length))
      else .error (.complaint .brokenString)) ≠
        (.error .exhausted : Except Fault (Option (TokenKind × Cut))) := by
    intro quotes h
    rcases error_of_bind h with hfirst | ⟨f, -, hread⟩
    · exact Fragment.first_ne_exhausted cs hfirst
    · split at hread <;> cases hread
  unfold cutString
  split
  · split
    · exact hquoted .doubleQuoted
    split
    · exact hquoted .singleQuoted
    · simp
  · simp

theorem cutExpression_ne_exhausted (cs : List Char) : cutExpression cs ≠ .error .exhausted := by
  unfold cutExpression
  dsimp only
  split
  · split
    · simp
    · rename_i body left _
      intro h
      rcases error_of_bind h with hparse | ⟨e, -, h⟩
      · exact parse_ne_exhausted _ hparse
      · cases h
  · simp

/-- No token is mistaken for the end of the tokens. -/
theorem next?_ne_exhausted (cs : List Char) : next? cs ≠ .error .exhausted := by
  intro h
  unfold next? at h
  split at h
  · cases h
  split at h
  · cases h
  rcases error_of_bind h with hstring | ⟨found, -, h⟩
  · exact cutString_ne_exhausted cs hstring
  split at h
  · cases h
  split at h
  · cases h
  rcases error_of_bind h with hexpression | ⟨found, -, h⟩
  · exact cutExpression_ne_exhausted cs hexpression
  split at h <;> cases h

/-! ## All tokens -/

/-- Cutting tokens off `cs` one after the other gives the tokens with the pieces of text that they take,
and leaves `left`. -/
inductive Cuts : List Char → List (Token × List Char) → List Char → Prop where
  | nil (cs : List Char) : Cuts cs [] cs
  | cons {cs piece rest left : List Char} {kind : TokenKind} {cuts : List (Token × List Char)}
      (h : next? cs = .ok (some (kind, piece, rest))) (hcuts : Cuts rest cuts left) :
      Cuts cs ((ofPiece kind piece, piece) :: cuts) left

/-- The text that a token stands for: its own, or some blanks in the case of space. -/
def Spells (t : Token) (piece : List Char) : Prop :=
  piece ≠ [] ∧ if t.kind = .space then ∀ c ∈ piece, isGap c = true else piece = t.text.toList

theorem CutsOff.spells (h : CutsOff cs kind piece left) : (ofPiece kind piece).Spells piece := by
  refine ⟨h.ne_nil, ?_⟩
  split
  · rename_i hkind
    exact (h.gap hkind).1
  · rename_i hkind
    have hkind' : ¬ kind = .space := hkind
    simp [ofPiece, hkind']

theorem Cuts.spells {cuts : List (Token × List Char)} (h : Cuts cs cuts left) :
    ∀ cut ∈ cuts, cut.1.Spells cut.2 := by
  induction h with
  | nil => simp
  | cons h _ ih =>
    intro cut hcut
    rcases List.mem_cons.mp hcut with rfl | hcut
    · exact (next?_cutsOff h).spells
    · exact ih cut hcut

theorem Cuts.append {cuts : List (Token × List Char)} (h : Cuts cs cuts left) :
    cs = (cuts.map Prod.snd).flatten ++ left := by
  induction h with
  | nil => simp
  | cons h _ ih =>
    rw [(next?_cutsOff h).append, ih]
    simp

/-- No token begins here, for the reason that the fault gives. -/
def StopsAt (cs : List Char) (fault : Fault) : Prop :=
  cs ≠ [] ∧ (next? cs = .error fault ∨
    next? cs = .ok none ∧ fault = .complaint (.unreadable (String.ofList (cs.take shownLength))))

/-- Lexing comes to the end of the text, or to a place where no token begins. -/
theorem cuts_rawFrom {n : Nat} (hn : cs.length < n) :
    ∃ cuts left, Cuts cs cuts left ∧
      (left = [] ∧ rawFrom n cs = { tokens := cuts.map Prod.fst ++ [eof] } ∨
        ∃ fault, StopsAt left fault ∧ rawFrom n cs = { tokens := cuts.map Prod.fst, fault }) := by
  induction n generalizing cs with
  | zero => omega
  | succ n ih =>
    rw [rawFrom]
    split
    · rename_i hempty
      refine ⟨[], cs, .nil cs, Or.inl ⟨List.isEmpty_iff.mp hempty, rfl⟩⟩
    rename_i hne
    rw [List.isEmpty_iff] at hne
    split
    · rename_i fault hnext
      exact ⟨[], cs, .nil cs, Or.inr ⟨fault, ⟨hne, Or.inl hnext⟩, rfl⟩⟩
    · rename_i hnext
      exact ⟨[], cs, .nil cs, Or.inr ⟨_, ⟨hne, Or.inr ⟨hnext, rfl⟩⟩, rfl⟩⟩
    · rename_i kind piece rest hnext
      have hshorter : rest.length < n := by
        have hcut := next?_cutsOff hnext
        have hpos := List.length_pos_iff.mpr hcut.ne_nil
        rw [hcut.append, List.length_append] at hn
        omega
      obtain ⟨cuts, left, hcuts, hends⟩ := ih hshorter
      refine ⟨_, left, .cons hnext hcuts, ?_⟩
      rcases hends with ⟨hleft, hraw⟩ | ⟨fault, hstops, hraw⟩
      · exact Or.inl ⟨hleft, by rw [hraw]; rfl⟩
      · exact Or.inr ⟨fault, hstops, by rw [hraw]; rfl⟩

theorem cuts_raw (text : String) :
    ∃ cuts left, Cuts (strip text.toList) cuts left ∧
      (left = [] ∧ raw text = { tokens := cuts.map Prod.fst ++ [eof] } ∨
        ∃ fault, StopsAt left fault ∧ raw text = { tokens := cuts.map Prod.fst, fault }) :=
  cuts_rawFrom (Nat.lt_succ_self (strip text.toList).length)

/-- **Lexing loses nothing.** Each token takes a piece that is not empty off the head of the text. After
finitely many tokens lexing comes to the end of the text, and then the pieces make up all of it, or it
comes to a place where no token begins, and a fault says why. -/
theorem raw_loses_nothing :
    (∀ cs kind piece left, next? cs = .ok (some (kind, piece, left)) → piece ≠ [] ∧ cs = piece ++ left) ∧
    ∀ text : String, ∃ cuts left, Cuts (strip text.toList) cuts left ∧
      (∀ cut ∈ cuts, cut.1.Spells cut.2) ∧ strip text.toList = (cuts.map Prod.snd).flatten ++ left ∧
      (left = [] ∧ raw text = { tokens := cuts.map Prod.fst ++ [eof] } ∨
        ∃ fault, StopsAt left fault ∧ raw text = { tokens := cuts.map Prod.fst, fault }) := by
  constructor
  · intro cs kind piece left h
    exact ⟨(next?_cutsOff h).ne_nil, (next?_cutsOff h).append⟩
  · intro text
    obtain ⟨cuts, left, hcuts, hends⟩ := cuts_raw text
    exact ⟨cuts, left, hcuts, hcuts.spells, hcuts.append, hends⟩

end ValueShell.Token
