import Mathlib.Data.List.Forall2
import ValueShell.Command.Expansion
import ValueShell.Proofs.Command.Lexing
import ValueShell.Proofs.Text.Quoting

/-!
# Expanding loses nothing

Expanding the text of a double-quoted word cuts one token after the other off its head. What a token
`StandsFor` is the piece that was cut off: the text of a variable, of an expression or of a lone dollar
sign, or the value of the literal that a plain piece is written as (`standsFor_of_expandStep`). So the
pieces make up the whole text, unless an expression stops the expansion (`expandText_loses_nothing`).
-/

set_option autoImplicit false

namespace ValueShell.Token

open Text
open ValueShell.Plan (ok_of_bind)

variable {cs left : List Char} {t : Token}

/-- The text that a token of an expansion stands for. The value of a literal holds no dollar sign. -/
inductive StandsFor : Token → String → Prop where
  | literal {word s : String} (h : unquote word = .ok s) (hplain : '$' ∉ s.toList) :
    StandsFor ⟨.singleQuoted, word⟩ s
  | substitution (text : String) : StandsFor ⟨.substitution, text⟩ text
  | dollar : StandsFor ⟨.literal, "$"⟩ "$"

/-- Cutting tokens off `cs` one after the other gives `ts` and leaves `left`. -/
inductive Expanded : List Char → List Token → List Char → Prop where
  | nil (cs : List Char) : Expanded cs [] cs
  | cons {cs rest left : List Char} {t : Token} {ts : List Token} (hne : cs ≠ [])
      (h : expandStep cs = .ok (t, rest)) (hrest : Expanded rest ts left) : Expanded cs (t :: ts) left

/-! ## One token -/

theorem unquote_quote (s : String) : unquote (quote s) = .ok s := by
  rw [unquote, Expr.evalText_quote]
  rfl

theorem standsFor_of_expandStep (hne : cs ≠ []) (h : expandStep cs = .ok (t, left)) :
    ∃ s, StandsFor t s ∧ s ≠ "" ∧ cs = s.toList ++ left := by
  -- a substitution takes its own text
  have hcut : ∀ {piece : List Char}, piece ≠ [] ∧ cs = piece ++ left →
      ∃ s, StandsFor (ofPiece .substitution piece) s ∧ s ≠ "" ∧ cs = s.toList ++ left := by
    intro piece hpiece
    refine ⟨String.ofList piece, .substitution _, ?_, ?_⟩
    · simpa using hpiece.1
    · rw [String.toList_ofList]
      exact hpiece.2
  unfold expandStep at h
  split at h
  · rename_i hdollar
    rw [beq_iff_eq] at hdollar
    obtain ⟨rest, rfl⟩ := List.head?_eq_some_iff.mp hdollar
    split at h
    · rename_i hvariable
      cases h
      exact hcut (cutVariable_eq_some hvariable)
    · obtain ⟨found, hexpression, h⟩ := ok_of_bind h
      split at h
      · cases h
        exact hcut (cutExpression_eq_some hexpression)
      · cases h
        exact ⟨"$", .dollar, by decide, rfl⟩
  · rename_i hplain
    dsimp only at h
    cases h
    refine ⟨String.ofList (cs.takeWhile fun c => c != '$'), .literal ?_ ?_, ?_, ?_⟩
    · have hquote := unquote_quote (String.ofList (cs.takeWhile fun c => c != '$'))
      rw [quote, String.toList_ofList] at hquote
      exact hquote
    · rw [String.toList_ofList]
      intro hmem
      have hall := List.all_eq_true.mp (List.all_takeWhile (l := cs) (p := fun c => c != '$')) _ hmem
      cases hall
    · obtain ⟨c, rest, rfl⟩ := List.exists_cons_of_ne_nil hne
      have hc : c ≠ '$' := by simpa using hplain
      simp [hc]
    · rw [String.toList_ofList, List.takeWhile_append_dropWhile]

/-! ## All tokens -/

/-- Expansion comes to the end of the text, or to an expression that is none. -/
theorem expanded_expandFrom {n : Nat} (hn : cs.length ≤ n) :
    ∃ parts left, Expanded cs (expandFrom n cs).tokens left ∧
      List.Forall₂ StandsFor (expandFrom n cs).tokens parts ∧
      cs = (String.join parts).toList ++ left ∧
      ((expandFrom n cs).fault = none ∧ left = [] ∨
        ∃ fault, (expandFrom n cs).fault = some fault ∧ left ≠ [] ∧ expandStep left = .error fault) := by
  induction n generalizing cs with
  | zero =>
    obtain rfl := List.eq_nil_of_length_eq_zero (Nat.le_zero.mp hn)
    exact ⟨[], [], .nil _, .nil, rfl, Or.inl ⟨rfl, rfl⟩⟩
  | succ n ih =>
    rw [expandFrom]
    split
    · rename_i hempty
      rw [List.isEmpty_iff] at hempty
      exact ⟨[], cs, .nil _, .nil, rfl, Or.inl ⟨rfl, hempty⟩⟩
    rename_i hne
    rw [List.isEmpty_iff] at hne
    split
    · rename_i fault hstep
      exact ⟨[], cs, .nil _, .nil, rfl, Or.inr ⟨fault, rfl, hne, hstep⟩⟩
    · rename_i t rest hstep
      obtain ⟨s, hstands, hs, hcs⟩ := standsFor_of_expandStep hne hstep
      have hshorter : rest.length ≤ n := by
        have hpos : s.toList.length ≠ 0 := by simpa using hs
        rw [hcs, List.length_append] at hn
        omega
      obtain ⟨parts, left, hexpanded, hparts, hrest, hends⟩ := ih hshorter
      refine ⟨s :: parts, left, .cons hne hstep hexpanded, .cons hstands hparts, ?_, hends⟩
      rw [hcs, String.join_cons, String.toList_append, List.append_assoc, ← hrest]

/-- **Expanding loses nothing.** If no fault stops the expansion, it comes to the end of the text after
finitely many tokens, and the pieces that the tokens stand for make up the text. Otherwise what is left
begins with an expression that is none. -/
theorem expandText_loses_nothing (text : String) :
    ∃ parts left, Expanded text.toList (expandText text).tokens left ∧
      List.Forall₂ StandsFor (expandText text).tokens parts ∧
      ((expandText text).fault = none ∧ left = [] ∧ String.join parts = text ∨
        ∃ fault, (expandText text).fault = some fault ∧ left ≠ [] ∧ expandStep left = .error fault ∧
          String.join parts ++ String.ofList left = text) := by
  obtain ⟨parts, left, hexpanded, hparts, htext, hends⟩ :=
    expanded_expandFrom (Nat.le_of_eq (String.length_toList (s := text)))
  refine ⟨parts, left, hexpanded, hparts, ?_⟩
  rcases hends with ⟨hfault, rfl⟩ | ⟨fault, hfault, hleft, hstep⟩
  · refine Or.inl ⟨hfault, rfl, ?_⟩
    rw [← String.toList_inj, htext, List.append_nil]
  · refine Or.inr ⟨fault, hfault, hleft, hstep, ?_⟩
    rw [← String.toList_inj, String.toList_append, String.toList_ofList, htext]

end ValueShell.Token
