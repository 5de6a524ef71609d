import ValueShell.Proofs.Command.Completeness
import ValueShell.Proofs.Command.Lexing

/-!
# What the reader leaves

The reader returns as soon as a line of the grammar ends, and does not ask whether the text ends there as
well. `parse_eq_ok_iff` says for which texts it returns, with which tree, and which tokens it leaves
unread without a word: after a line that ends in some way, those that begin with a token that its end
`passesOver`.
-/

set_option autoImplicit false

namespace ValueShell

variable {ts : List Token} {cs : List Char} {kind : TokenKind}

namespace Token

open ValueShell.Plan (ok_of_bind)

/-! ## The end of a text is the last token -/

/-- No token after the end of the text. -/
def EndsLast (ts : List Token) : Prop := ts.Pairwise fun t _ => t.kind ≠ .ending

theorem EndsLast.cons {t : Token} (h : EndsLast ts) (ht : t.kind = .ending → ts = []) :
    EndsLast (t :: ts) := by
  refine List.pairwise_cons.mpr ⟨fun u hu hkind => ?_, h⟩
  rw [ht hkind] at hu
  cases hu

theorem EndsLast.tail_eq_nil {t : Token} (h : EndsLast (t :: ts)) (ht : t.kind = .ending) : ts = [] := by
  cases ts with
  | nil => rfl
  | cons u others => exact absurd ht ((List.pairwise_cons.mp h).1 u List.mem_cons_self)

theorem EndsLast.dropLast (h : EndsLast ts) : ∀ t ∈ ts.dropLast, t.kind ≠ .ending := by
  intro t ht
  have hne : ts ≠ [] := by
    rintro rfl
    cases ht
  rw [EndsLast, ← List.dropLast_concat_getLast hne, List.pairwise_append] at h
  exact h.2.2 t ht _ (List.mem_singleton.mpr rfl)

/-- No token that is cut off a text stands for its end. -/
theorem kind_ne_of_next? {piece left : List Char} (h : next? cs = .ok (some (kind, piece, left))) :
    kind ≠ .ending := by
  cases cutBy_of_next? h with
  | sign hmem _ =>
    have hall : ∀ s ∈ signs, s.2 ≠ .ending := by decide
    exact hall _ hmem
  | string hstring =>
    obtain ⟨q, rest, f, -, ⟨-, rfl⟩ | ⟨-, rfl⟩, -⟩ := exists_first_of_cutString hstring
    all_goals decide
  | _ => exact nofun

theorem endsLast_rawFrom (n : Nat) (cs : List Char) : EndsLast (rawFrom n cs).tokens := by
  induction n generalizing cs with
  | zero => exact .nil
  | succ n ih =>
    rw [rawFrom]
    split
    · exact List.pairwise_singleton _ _
    split
    · exact .nil
    · exact .nil
    · rename_i hnext
      exact (ih _).cons fun hkind => absurd hkind (kind_ne_of_next? hnext)

variable {expand : Bool → String → Except Fault (List Token)}

/-- Nothing that stands in the place of a literal ends a text. -/
def Endless (expand : Bool → String → Except Fault (List Token)) : Prop :=
  ∀ globalOnly text replacement, expand globalOnly text = .ok replacement →
    ∀ t ∈ replacement, t.kind ≠ .ending

theorem endsLast_expandWith (h : Endless expand) (fault : Option Fault) (before : Option Token)
    (globalOnly : Bool) (ts : List Token) (hts : EndsLast ts) :
    EndsLast (expandWith expand fault before globalOnly ts).tokens := by
  -- a token that is kept in front of the expansion of what follows
  have hkept : ∀ {n : Token} {rest : List Token}, EndsLast (n :: rest) →
      (EndsLast rest → EndsLast (expandWith expand fault (some n) true rest).tokens) →
      EndsLast (n :: (expandWith expand fault (some n) true rest).tokens) := by
    intro n rest hlast hrest
    refine (hrest (List.pairwise_cons.mp hlast).2).cons fun hkind => ?_
    rw [hlast.tail_eq_nil hkind, expandWith]
  fun_induction expandWith expand fault before globalOnly ts with
  | case1 => exact .nil
  | case2 before globalOnly t rest _ ih => exact hkept hts ih
  | case3 => exact .nil
  | case4 before globalOnly t _ n rest _ ih =>
    refine (hkept (List.pairwise_cons.mp hts).2 ih).cons fun hkind => ?_
    exact absurd (hts.tail_eq_nil hkind) (List.cons_ne_nil _ _)
  | case5 => exact .nil
  | case6 before globalOnly t _ n rest _ replacement hreplacement _ ih =>
    have hendless := h _ _ _ hreplacement
    exact List.pairwise_append.mpr ⟨List.pairwise_of_forall_mem_list fun u hu _ _ => hendless u hu,
      hkept (List.pairwise_cons.mp hts).2 ih, fun u hu _ _ => hendless u hu⟩

theorem endsLast_settle (fault : Option Fault) (current : Token) (fresh : Bool) (ts : List Token)
    (h : EndsLast (current :: ts)) : EndsLast (settle fault current fresh ts).tokens := by
  induction ts generalizing current fresh with
  | nil =>
    rw [settle]
    split
    · exact List.pairwise_singleton _ _
    · exact .nil
  | cons next others ih =>
    rw [settle]
    split
    · exact List.pairwise_singleton _ _
    split
    · exact ih current false (h.sublist (.cons_cons _ (.cons _ (.refl _))))
    split
    · exact ih next false (h.sublist (.cons _ (.refl _)))
    · refine (ih next true (h.sublist (.cons _ (.refl _)))).cons fun hkind => ?_
      exact absurd (h.tail_eq_nil hkind) (List.cons_ne_nil _ _)

theorem endsLast_tokensWith (h : Endless expand) (globalOnly : Bool) (text : String) :
    EndsLast (tokensWith expand globalOnly text).tokens := by
  have hexpanded := endsLast_expandWith h (raw text).fault none globalOnly (raw text).tokens
    (endsLast_rawFrom _ _)
  rw [tokensWith, settleAll]
  split
  · exact .nil
  · rename_i heq
    refine endsLast_settle _ _ _ _ ?_
    rw [← heq]
    exact hexpanded

theorem endless_expandAlias (aliases : List Alias) (depth : Nat) (active : List String) :
    Endless (expandAlias aliases depth active) := by
  have hliteral : ∀ {text : String}, ∀ t ∈ [(⟨.literal, text⟩ : Token)], t.kind ≠ .ending := by
    intro text t ht
    rw [List.mem_singleton.mp ht]
    exact nofun
  induction depth generalizing active with
  | zero =>
    intro globalOnly text replacement h
    cases h
    exact hliteral
  | succ depth ih =>
    intro globalOnly text replacement h
    rw [expandAlias] at h
    split at h
    · cases h
      exact hliteral
    · rename_i a _
      split at h
      · cases h
        exact hliteral
      · have hlast := endsLast_tokensWith (ih (text :: active)) globalOnly a.text
        dsimp only at h
        split at h
        · cases h
          exact hlast.dropLast
        · cases h
          exact hlast.dropLast
        · cases h

theorem endsLast_tokens (aliases : List Alias) (globalOnly : Bool) (text : String) :
    EndsLast (tokens aliases globalOnly text).tokens :=
  endsLast_tokensWith (endless_expandAlias aliases _ _) globalOnly text

end Token

/-! ## Tokens that are passed over -/

/-- After a line with this tail, the reader leaves a token of kind `k`, and all that follow it, without a
complaint. -/
def Tail.passesOver : Tail → TokenKind → Bool
  | .word, k => k = .openParen || k = .closeParen
  | .mark, k => k.extendsWord false || k = .openParen || k = .closeParen
  | .closed, k => k.extendsWord false || k.extendsProcess || k = .openParen || k = .closeParen
  | .padding, _ => false
  | .semicolon, k => k = .closeParen || k = .backquote

theorem Tail.endsLine_false_iff {tail : Tail} {k : TokenKind} (h : tail ≠ .padding) :
    tail.endsLine false k = true ↔ k = .ending ∨ tail.passesOver k = true := by
  cases tail with
  | padding => exact absurd rfl h
  | _ => cases k <;> decide

namespace Tree

/-- **What the reader returns, and what it leaves.** It returns the tree of a line of the grammar that
stands at the beginning of the text, and either nothing but the end of the text is left then, or the
next token is one that the line passes over. -/
theorem parse_eq_ok_iff (aliases : List Alias) (text : String) (tree : Tree) (left : Input) :
    parse aliases text = .ok (tree, left) ↔
      left.fault = (Token.tokens aliases false text).fault.getD .exhausted ∧
      ∃ tail taken, (Token.tokens aliases false text).tokens = taken ++ left.tokens ∧
        Written false (.line tree) tail taken ∧
        (left.tokens = [left.current] ∧ left.current.kind = .ending ∨
          left.tokens ≠ [] ∧ tail.passesOver left.current.kind = true) := by
  rw [parse, ofReading_eq_ok_iff]
  constructor
  · rintro ⟨tail, taken, htokens, hmore, hfault, hwritten, hends⟩
    refine ⟨hfault, tail, taken, htokens, hwritten, ?_⟩
    rcases (Tail.endsLine_false_iff (hwritten.tail_ne rfl).1).mp hends with hending | hpassed
    · -- the end of the text is the last token
      have hlast := Token.endsLast_tokens aliases false text
      rw [htokens, Token.EndsLast, List.pairwise_append] at hlast
      obtain ⟨tokens, fault⟩ := left
      cases tokens with
      | nil => exact absurd rfl hmore
      | cons t others =>
        have hnil : others = [] := Token.EndsLast.tail_eq_nil hlast.2.1 hending
        exact Or.inl ⟨by rw [hnil]; rfl, hending⟩
    · exact Or.inr ⟨hmore, hpassed⟩
  · rintro ⟨hfault, tail, taken, htokens, hwritten, ⟨hall, hending⟩ | ⟨hmore, hpassed⟩⟩
    · refine ⟨tail, taken, htokens, ?_, hfault, hwritten,
        (Tail.endsLine_false_iff (hwritten.tail_ne rfl).1).mpr (Or.inl hending)⟩
      rw [hall]
      exact List.cons_ne_nil _ _
    · exact ⟨tail, taken, htokens, hmore, hfault, hwritten,
        (Tail.endsLine_false_iff (hwritten.tail_ne rfl).1).mpr (Or.inr hpassed)⟩

/-- A parenthesis that closes nothing hides the rest of the text. -/
theorem parse_unopened_parenthesis :
    ∃ left, parse [] "echo a ) echo b" =
        .ok (.process [[.token ⟨.literal, "echo"⟩], [.token ⟨.literal, "a"⟩]] [], left) ∧
      left.tokens =
        [⟨.closeParen, ")"⟩, ⟨.literal, "echo"⟩, ⟨.space, " "⟩, ⟨.literal, "b"⟩, Token.eof] := by
  have htokens : (Token.tokens [] false "echo a ) echo b").tokens =
      [⟨.literal, "echo"⟩, ⟨.space, " "⟩, ⟨.literal, "a"⟩, ⟨.closeParen, ")"⟩, ⟨.literal, "echo"⟩,
        ⟨.space, " "⟩, ⟨.literal, "b"⟩, Token.eof] := by
    decide +kernel
  rw [parse]
  -- what ended the reading does not matter
  revert htokens
  generalize Token.tokens [] false "echo a ) echo b" = r
  intro htokens
  obtain ⟨tokens, fault⟩ := r
  cases htokens
  exact ⟨_, rfl, rfl⟩

end Tree

end ValueShell
