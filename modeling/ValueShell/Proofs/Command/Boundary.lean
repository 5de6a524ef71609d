import ValueShell.Proofs.Command.Braces
import ValueShell.Proofs.Command.Nesting
import ValueShell.Proofs.Text.StringEnd

/-!
# Tokens before a quote

A quote ends every token before it that is not a string: the patterns of tokens see a quote as they see
the end of the text. So what is cut off a text before a quote does not depend on which quote it is and on
what follows it (`next?_replace`), and neither do the tokens before it (`Cuts.replace`). An empty string
is the exception: with a quote of its own kind behind it, it begins a longer one.
-/

set_option autoImplicit false

namespace ValueShell

variable {rest left : List Char} {cuts : List (Token × List Char)}

namespace Text

variable {p : Char → Bool} {c : Char}

theorem takeWhile_append_stop (hc : p c = false) (x w : List Char) :
    (x ++ c :: w).takeWhile p = x.takeWhile p := by
  induction x with
  | nil => simp [hc]
  | cons d x ih => simp [List.takeWhile_cons, ih]

theorem dropWhile_append_stop (hc : p c = false) (x w : List Char) :
    (x ++ c :: w).dropWhile p = x.dropWhile p ++ c :: w := by
  induction x with
  | nil => simp [hc]
  | cons d x ih =>
    rw [List.cons_append, List.dropWhile_cons, List.dropWhile_cons, ih]
    split <;> rfl

theorem trimEnd_append_stop (hc : p c = false) (x w : List Char) :
    trimEnd p (x ++ c :: w) = x ++ c :: trimEnd p w := by
  unfold trimEnd
  rw [List.reverse_append, List.reverse_cons, List.append_assoc, List.singleton_append,
    dropWhile_append_stop hc]
  simp

/-- White space is removed around a text that has none at its ends. -/
theorem strip_around {word : List Char} {e : Char} (hhead : word.head? = some c) (hlast : word.getLast? = some e)
    (hc : isBlank c = false) (he : isBlank e = false) (x w : List Char) :
    strip (x ++ (word ++ w)) = x.dropWhile isBlank ++ (word ++ trimEnd isBlank w) := by
  obtain ⟨rest, hrest⟩ := List.head?_eq_some_iff.mp hhead
  obtain ⟨body, hbody⟩ := List.getLast?_eq_some_iff.mp hlast
  have hdrop : (x ++ (word ++ w)).dropWhile isBlank = x.dropWhile isBlank ++ (word ++ w) := by
    rw [hrest]
    exact dropWhile_append_stop hc x (rest ++ w)
  unfold strip trim
  rw [hdrop, hbody, List.append_assoc, List.singleton_append, ← List.append_assoc,
    trimEnd_append_stop he]
  simp

end Text

namespace Token

open Text
open ValueShell.Plan (ok_of_bind)

variable {c d : Char} {x x' w w' piece : List Char} {kind : TokenKind}

/-- A character that begins a quoted word. -/
def IsQuote (c : Char) : Prop := c = apostrophe ∨ c = doubleQuote

/-- Puts more text behind what is left. -/
def followedBy (more : List Char) (cut : Cut) : Cut := (cut.1, cut.2 ++ more)

/-! ## Patterns before a quote -/

theorem cutWhile_before {p : Char → Bool} (hc : p c = false) (x w : List Char) :
    cutWhile p (x ++ c :: w) = (cutWhile p x).map (followedBy (c :: w)) := by
  rw [cutWhile, cutWhile, takeWhile_append_stop hc, dropWhile_append_stop hc]
  cases x.takeWhile p <;> rfl

theorem prefix_of_not_mem {text : List Char} (hc : c ∉ text) (h : text <+: x ++ c :: w) : text <+: x := by
  rcases Nat.lt_or_ge x.length text.length with hlength | hlength
  · -- otherwise the text goes on after `x`, with `c`
    have hmore : x ++ [c] <+: text := by
      refine List.prefix_of_prefix_length_le ⟨w, by simp⟩ h ?_
      rw [List.length_append, List.length_singleton]
      omega
    exact absurd (hmore.subset (by simp)) hc
  · exact List.prefix_of_prefix_length_le h (List.prefix_append x _) hlength

theorem cutText_before {text : List Char} (hc : c ∉ text) (x w : List Char) :
    cutText text (x ++ c :: w) = (cutText text x).map (followedBy (c :: w)) := by
  unfold cutText
  by_cases h : text <+: x
  · have hlonger : text <+: x ++ c :: w := h.trans (List.prefix_append x _)
    simp [h, hlonger, followedBy, List.drop_append_of_le_length h.length_le]
  · have hlonger : ¬ text <+: x ++ c :: w := fun hprefix => h (prefix_of_not_mem hc hprefix)
    simp [h, hlonger]

section Quote

variable (hc : IsQuote c)

include hc

theorem cutSign_before (x w : List Char) :
    cutSign (x ++ c :: w) = (cutSign x).map fun found => (found.1, followedBy (c :: w) found.2) := by
  have hsigns : ∀ sign ∈ signs, c ∉ sign.1 := by
    rcases hc with rfl | rfl <;> decide
  unfold cutSign
  generalize signs = all at hsigns
  induction all with
  | nil => rfl
  | cons sign all ih =>
    obtain ⟨text, kind⟩ := sign
    rw [List.forall_mem_cons] at hsigns
    rw [List.findSome?_cons, List.findSome?_cons]
    dsimp only
    rw [cutText_before hsigns.1]
    cases cutText text x with
    | none => exact ih hsigns.2
    | some cut => rfl

theorem cutRedirect_before (x w : List Char) :
    cutRedirect (x ++ c :: w) = (cutRedirect x).map fun found => (found.1, found.2 ++ c :: w) := by
  have hdigit : isDecimalDigit c = false := by rcases hc with rfl | rfl <;> decide +kernel
  have hsign : c ≠ '>' ∧ c ≠ '&' := by rcases hc with rfl | rfl <;> decide
  unfold cutRedirect
  rw [takeWhile_append_stop hdigit, dropWhile_append_stop hdigit]
  generalize x.takeWhile isDecimalDigit = source
  -- the digits, the sign and the second sign are taken as far as `x` goes
  rcases x.dropWhile isDecimalDigit with _ | ⟨d, rest⟩
  · simp [hsign.1]
  by_cases hd : d = '>'
  · subst hd
    rcases rest with _ | ⟨e, rest⟩
    · simp [hsign]
    · by_cases he : e = '>'
      · subst he
        rcases rest with _ | ⟨f, rest⟩
        · simp [hsign]
        · by_cases hf : f = '&'
          · subst hf
            simp [cutWhile_before hdigit]
            cases cutWhile isDecimalDigit rest <;> rfl
          · simp [hf]
      · by_cases hf : e = '&'
        · subst hf
          simp [cutWhile_before hdigit]
          cases cutWhile isDecimalDigit rest <;> rfl
        · simp [he, hf]
  · simp [hd]

theorem cutVariable_before (x w : List Char) :
    cutVariable (x ++ c :: w) = (cutVariable x).map (followedBy (c :: w)) := by
  have hname : isAsciiNameChar c = false := by rcases hc with rfl | rfl <;> rfl
  have hstart : isAsciiNameStart c = false := by rcases hc with rfl | rfl <;> rfl
  have hdollar : c ≠ '$' := by rcases hc with rfl | rfl <;> decide
  rcases x with _ | ⟨d, _ | ⟨e, x⟩⟩
  · simp [cutVariable, hdollar]
  · by_cases hd : d = '$'
    · simp [cutVariable, hd, hstart]
    · simp [cutVariable, hd]
  · by_cases hd : d = '$'
    · subst hd
      simp only [List.cons_append, cutVariable]
      rw [takeWhile_append_stop hname, dropWhile_append_stop hname]
      split <;> rfl
    · simp [cutVariable, hd]

theorem plainWord_before (x w : List Char) :
    plainWord (x ++ c :: w) = followedBy (c :: w) (plainWord x) := by
  induction x with
  | nil => rcases hc with rfl | rfl <;> rfl
  | cons d x ih =>
    -- a sign at the end of `x` begins no arrow
    have harrow : ((x ++ c :: w).head? != some '>') = (x.head? != some '>') := by
      cases x with
      | nil => rcases hc with rfl | rfl <;> rfl
      | cons => rfl
    rw [List.cons_append, plainWord, plainWord, ih, harrow]
    split <;> rfl

theorem cutLiteral_before (x w : List Char) :
    cutLiteral (x ++ c :: w) = (cutLiteral x).map (followedBy (c :: w)) := by
  unfold cutLiteral
  rw [plainWord_before hc]
  rcases plainWord x with ⟨_ | ⟨d, word⟩, left⟩ <;> rfl

/-- A dollar sign, space or an unquoted word. -/
theorem plain_before (x w : List Char) :
    ((cutText ['$'] (x ++ c :: w)).map fun cut => (TokenKind.literal, cut)).or
        (((cutWhile isGap (x ++ c :: w)).map fun cut => (TokenKind.space, cut)).or
          ((cutLiteral (x ++ c :: w)).map fun cut => (TokenKind.literal, cut))) =
      (((cutText ['$'] x).map fun cut => (TokenKind.literal, cut)).or
        (((cutWhile isGap x).map fun cut => (TokenKind.space, cut)).or
          ((cutLiteral x).map fun cut => (TokenKind.literal, cut)))).map
            fun found => (found.1, followedBy (c :: w) found.2) := by
  have hdollar : c ∉ ['$'] := by rcases hc with rfl | rfl <;> decide
  have hgap : isGap c = false := by rcases hc with rfl | rfl <;> rfl
  rw [cutText_before hdollar, cutWhile_before hgap, cutLiteral_before hc]
  cases cutText ['$'] x <;> cases cutWhile isGap x <;> cases cutLiteral x <;> rfl

end Quote

/-! ## One token before a quote -/

theorem eq_of_followedBy {found : Option (TokenKind × Cut)} {more : List Char}
    (h : (found.map fun f => (f.1, followedBy more f.2)) = some (kind, piece, x' ++ more)) :
    found = some (kind, piece, x') := by
  obtain ⟨⟨kind', piece', left⟩, rfl, heq⟩ := Option.map_eq_some_iff.mp h
  simp only [followedBy, Prod.mk.injEq, List.append_cancel_right_eq] at heq
  obtain ⟨rfl, rfl, rfl⟩ := heq
  rfl

theorem cutString_quote (hd : IsQuote d) (rest : List Char) : cutString (d :: rest) ≠ .ok none := by
  intro h
  have hquoted : ∀ quotes : TokenKind, (do
      let f ← Fragment.first (d :: rest)
      if f.kind = .string then .ok (some (quotes, f.text, (d :: rest).drop f.text.length))
      else .error (.complaint .brokenString)) ≠ (.ok none : Except Fault (Option (TokenKind × Cut))) := by
    intro quotes hread
    obtain ⟨f, -, hread⟩ := ok_of_bind hread
    split at hread <;> cases hread
  unfold cutString at h
  dsimp only at h
  split at h
  · exact hquoted _ h
  · rename_i hdouble
    rw [if_pos (hd.resolve_right hdouble)] at h
    exact hquoted _ h

theorem cutString_other (hd : ¬ IsQuote d) (rest : List Char) : cutString (d :: rest) = .ok none := by
  unfold IsQuote at hd
  rw [not_or] at hd
  simp [cutString, hd]

theorem cutString_of_first {q : Char} {f : Fragment}
    (hkind : q = apostrophe ∧ kind = .singleQuoted ∨ q = doubleQuote ∧ kind = .doubleQuoted)
    (hfirst : Fragment.first (q :: rest) = .ok f) (hstring : f.kind = .string) :
    cutString (q :: rest) = .ok (some (kind, f.text, (q :: rest).drop f.text.length)) := by
  have hquotes : apostrophe ≠ doubleQuote := by decide
  rcases hkind with ⟨rfl, rfl⟩ | ⟨rfl, rfl⟩
  · simp [cutString, hfirst, hstring, hquotes, bind, Except.bind]
  · simp [cutString, hfirst, hstring, bind, Except.bind]

/-- No string begins at the head of `x`, whatever stands behind it. -/
theorem cutString_replace_none (hx : x ≠ []) (h : cutString (x ++ c :: w) = .ok none) :
    cutString (x ++ d :: w') = .ok none := by
  obtain ⟨e, x, rfl⟩ := List.exists_cons_of_ne_nil hx
  by_cases he : IsQuote e
  · exact absurd h (cutString_quote he _)
  · exact cutString_other he _

/-- A string is cut off whatever follows it, but for an empty one before a third quote. -/
theorem cutString_append {other : List Char} (h : cutString x = .ok (some (kind, piece, left)))
    (hother : ∀ q, IsQuote q → piece = [q, q] → ¬ [q] <+: other) :
    cutString (piece ++ other) = .ok (some (kind, piece, other)) := by
  obtain ⟨q, rest, f, rfl, hkind, hfirst, hstring, rfl, -⟩ := exists_first_of_cutString h
  have hquote : IsQuote q := hkind.imp And.left And.left
  obtain ⟨f', hfirst', hstring', htext⟩ := Fragment.first_append hquote hfirst hstring (hother q hquote)
  obtain ⟨body, hbody⟩ := Fragment.exists_cons_of_first hquote hfirst hstring
  have hcut : cutString (f.text ++ other) =
      .ok (some (kind, f'.text, (f.text ++ other).drop f'.text.length)) := by
    rw [hbody] at hfirst' ⊢
    exact cutString_of_first hkind hfirst' hstring'
  rw [hcut, htext, List.drop_left]

/-- A string before a quote is cut off whatever the quote is, but for an empty string before its own
quote. -/
theorem cutString_replace (h : cutString (x ++ c :: w) = .ok (some (kind, piece, x' ++ c :: w)))
    (hpiece : x' = [] → piece ≠ [d, d]) :
    cutString (x ++ d :: w') = .ok (some (kind, piece, x' ++ d :: w')) := by
  have hx : x = piece ++ x' := by
    have happend := (cutString_eq_some h).append
    rw [← List.append_assoc] at happend
    exact List.append_cancel_right happend
  rw [hx, List.append_assoc]
  apply cutString_append h
  rintro q hq rfl hbegins
  cases x' with
  | nil =>
    obtain rfl : q = d := (List.cons_prefix_cons.mp hbegins).1
    exact hpiece rfl rfl
  | cons e x' =>
    -- then three quotes stand at the head of `x`
    obtain rfl : q = e := (List.cons_prefix_cons.mp hbegins).1
    obtain ⟨_, _, f, -, -, hfirst, hstring, htext, -⟩ := exists_first_of_cutString h
    rw [hx] at hfirst
    have hlength := Fragment.three_le_of_first hq hfirst hstring
    rw [← htext] at hlength
    contradiction

theorem cutExpression_replace_none (hd : IsQuote d) (h : cutExpression (x ++ c :: w) = .ok none) :
    cutExpression (x ++ d :: w') = .ok none := by
  have hopening : d ∉ ['$', Char.ofNat 0x7B] := by rcases hd with rfl | rfl <;> decide
  unfold cutExpression at h ⊢
  dsimp only at h ⊢
  split at h
  · split at h
    · cases h
    · obtain ⟨_, -, h⟩ := ok_of_bind h
      cases h
  · rename_i hprefix
    rw [List.isPrefixOf_iff_prefix] at hprefix
    have hother : ¬ ['$', Char.ofNat 0x7B] <+: x ++ d :: w' := fun hbegins =>
      hprefix ((prefix_of_not_mem hopening hbegins).trans (List.prefix_append _ _))
    rw [if_neg (by simpa using hother)]

theorem cutExpression_replace (h : cutExpression (x ++ c :: w) = .ok (some (piece, x' ++ c :: w))) :
    cutExpression (x ++ d :: w') = .ok (some (piece, x' ++ d :: w')) := by
  obtain ⟨e, value, rfl, happend, hpaired, hparse⟩ := cutExpression_eq_ok_iff.mp h
  rw [← List.append_assoc] at happend
  rw [List.append_cancel_right happend, List.append_assoc]
  exact cutExpression_eq_ok_iff.mpr ⟨e, value, rfl, rfl, hpaired, hparse⟩

/-- **A token before a quote** is cut off whatever the quote is and whatever follows it. -/
theorem next?_replace (hc : IsQuote c) (hd : IsQuote d)
    (h : next? (x ++ c :: w) = .ok (some (kind, piece, x' ++ c :: w)))
    (hpiece : x' = [] → piece ≠ [d, d]) :
    next? (x ++ d :: w') = .ok (some (kind, piece, x' ++ d :: w')) := by
  have hx : x ≠ [] := by
    intro hnil
    have hcuts := next?_cutsOff h
    rw [hnil, List.nil_append] at hcuts
    have hlength := congrArg List.length hcuts.append
    have hpos := List.length_pos_iff.mpr hcuts.ne_nil
    simp only [List.length_append, List.length_cons] at hlength
    omega
  unfold next? at h ⊢
  rw [cutRedirect_before hc, cutSign_before hc] at h
  rw [cutRedirect_before hd, cutSign_before hd]
  cases hredirect : cutRedirect x with
  | some found =>
    rw [hredirect] at h
    simp at h
    simp [h]
  | none =>
    rw [hredirect] at h
    simp only [Option.map_none] at h ⊢
    cases hsign : cutSign x with
    | some found =>
      rw [hsign, Option.map_some] at h
      have hfound : some found = some (kind, piece, x') := eq_of_followedBy (Except.ok.inj h)
      cases hfound
      rfl
    | none =>
      rw [hsign] at h
      simp only [Option.map_none] at h ⊢
      obtain ⟨found, hstring, h⟩ := ok_of_bind h
      split at h
      · cases h
        rw [cutString_replace hstring hpiece]
        rfl
      rw [cutString_replace_none hx hstring]
      rw [cutVariable_before hc] at h
      simp only [bind, Except.bind]
      rw [cutVariable_before hd]
      cases hvariable : cutVariable x with
      | some cut =>
        rw [hvariable] at h
        simp [followedBy] at h
        simp [followedBy, h]
      | none =>
        rw [hvariable] at h
        simp only [Option.map_none] at h ⊢
        obtain ⟨found, hexpression, h⟩ := ok_of_bind h
        split at h
        · cases h
          rw [cutExpression_replace hexpression]
        · rw [cutExpression_replace_none hd hexpression]
          have hplain := plain_before hc x w
          rw [hplain] at h
          have hfound := eq_of_followedBy (Except.ok.inj h)
          simp only [plain_before hd, hfound]
          rfl

/-- Nothing but a quoted word begins with a quote. -/
theorem next?_quote {found : TokenKind × Cut} (hc : IsQuote c)
    (h : cutString (c :: rest) = .ok (some found)) : next? (c :: rest) = .ok (some found) := by
  have hredirect := cutRedirect_before hc [] rest
  have hsign := cutSign_before hc [] rest
  rw [List.nil_append] at hredirect hsign
  unfold next?
  rw [hredirect, hsign, h]
  rfl

/-! ## All tokens before a quote -/

/-- **The tokens before a quote** are cut off whatever the quote is and whatever follows it, unless the
last of them is an empty string in the same quotes. -/
theorem Cuts.replace (hc : IsQuote c) (hd : IsQuote d) (h : Cuts (x ++ c :: w) cuts (c :: w))
    (hlast : ∀ cut ∈ cuts.getLast?, cut.2 ≠ [d, d]) : Cuts (x ++ d :: w') cuts (d :: w') := by
  generalize hcs : x ++ c :: w = cs at h
  generalize hleft : c :: w = left at h
  induction h generalizing x with
  | nil cs =>
    subst hleft
    obtain rfl : x = [] := by simpa using hcs
    exact .nil _
  | @cons cs piece rest left kind cuts hnext hcuts ih =>
    subst hleft
    subst hcs
    obtain ⟨x', hx'⟩ : ∃ x', rest = x' ++ c :: w := ⟨_, hcuts.append⟩
    rw [hx'] at hnext
    have hpiece : x' = [] → piece ≠ [d, d] := by
      rintro rfl
      -- nothing is left to be cut off
      have hnil : cuts = [] := by
        cases cuts with
        | nil => rfl
        | cons cut cuts =>
          have hpos := List.length_pos_iff.mpr (hcuts.spells cut List.mem_cons_self).1
          have hlength := congrArg List.length hcuts.append
          rw [hx'] at hlength
          simp at hlength
          omega
      subst hnil
      exact hlast _ rfl
    have htail : ∀ cut ∈ cuts.getLast?, cut.2 ≠ [d, d] := by
      intro cut hcut
      cases cuts with
      | nil => cases hcut
      | cons first cuts => exact hlast cut (by rwa [List.getLast?_cons_cons])
    exact .cons (next?_replace hc hd hnext hpiece) (ih htail hx'.symm rfl)

theorem Cuts.trans {cs : List Char} {others : List (Token × List Char)} (h : Cuts cs cuts rest)
    (hrest : Cuts rest others left) : Cuts cs (cuts ++ others) left := by
  induction h with
  | nil => exact hrest
  | cons hnext _ ih => exact .cons hnext (ih hrest)

/-- Lexing goes on where the cuts end. -/
theorem raw_of_cuts {text : String} (h : Cuts (strip text.toList) cuts left) :
    raw text = { tokens := cuts.map Prod.fst ++ (rawFrom (left.length + 1) left).tokens
                 fault := (rawFrom (left.length + 1) left).fault } := by
  obtain ⟨others, rest, hothers, hends⟩ := cuts_rawFrom (Nat.lt_succ_self left.length)
  symm
  apply lexed_iff.mp
  refine ⟨_, rest, h.trans hothers, ?_⟩
  rcases hends with ⟨hrest, hraw⟩ | ⟨fault, hstops, hraw⟩
  · exact Or.inl ⟨hrest, by simp [hraw]⟩
  · exact Or.inr ⟨fault, hstops, by simp [hraw]⟩

end Token

end ValueShell
