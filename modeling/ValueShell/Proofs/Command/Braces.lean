import ValueShell.Proofs.Command.Lexing
import ValueShell.Proofs.Expr.Brackets

/-!
# Expressions in braces

The end of an expression in a command is found by counting braces, also those of its strings and comments.
So what is cut off is an expression with paired braces, whatever follows it (`cutExpression_eq_ok_iff`).
Outside its strings and comments the braces of an expression are always paired.
-/

set_option autoImplicit false

namespace ValueShell.Token

open Text
open ValueShell.Plan (ok_of_bind)

variable {depth : Nat} {cs left : List Char}

/-- An expression as it is written in a command. -/
def braced (e : List Char) : List Char := ['$', openBrace] ++ e ++ [closeBrace]

theorem upToBrace_open :
    upToBrace depth (openBrace :: cs) =
      (upToBrace (depth + 1) cs).map fun cut => (openBrace :: cut.1, cut.2) := by
  rw [upToBrace.eq_def]
  exact if_neg openBrace_ne_closeBrace

theorem upToBrace_close :
    upToBrace (depth + 1) (closeBrace :: cs) =
      (upToBrace depth cs).map fun cut => (closeBrace :: cut.1, cut.2) := by
  rw [upToBrace.eq_def]
  exact if_pos rfl

theorem upToBrace_end : upToBrace 0 (closeBrace :: cs) = some ([], cs) := by
  rw [upToBrace.eq_def]
  exact if_pos rfl

theorem upToBrace_cons {c : Char} (hc : isBrace c = false) :
    upToBrace depth (c :: cs) = (upToBrace depth cs).map fun cut => (c :: cut.1, cut.2) := by
  simp only [isBrace, Bool.or_eq_false_iff, decide_eq_false_iff_not] at hc
  rw [upToBrace.eq_def]
  simp only [if_neg (show c ≠ Char.ofNat 0x7D from hc.2), if_neg (show c ≠ Char.ofNat 0x7B from hc.1)]

theorem map_cons_eq_some_iff {c : Char} {e : List Char} {cut : Option Cut} :
    (cut.map fun cut => (c :: cut.1, cut.2)) = some (c :: e, left) ↔ cut = some (e, left) := by
  rw [Option.map_eq_some_iff]
  constructor
  · rintro ⟨⟨body, rest⟩, rfl, heq⟩
    cases heq
    rfl
  · rintro rfl
    exact ⟨(e, left), rfl, rfl⟩

/-- A text is all of what stands before the brace that closes it exactly if its braces are paired. -/
theorem upToBrace_iff {e : List Char} :
    upToBrace depth (e ++ closeBrace :: left) = some (e, left) ↔ PairedFrom depth e := by
  induction e generalizing depth with
  | nil =>
    rw [List.nil_append, pairedFrom_nil]
    cases depth with
    | zero => simp [upToBrace_end]
    | succ depth => simp [upToBrace_close]
  | cons c e ih =>
    rw [List.cons_append]
    rcases brace_cases c with rfl | rfl | hc
    · rw [upToBrace_open, map_cons_eq_some_iff, ih, pairedFrom_open]
    · rw [pairedFrom_close]
      cases depth with
      | zero => simp [upToBrace_end]
      | succ depth => simp [upToBrace_close, ih]
    · rw [upToBrace_cons hc, map_cons_eq_some_iff, ih, pairedFrom_cons hc]

theorem braced_append {e rest : List Char} :
    braced e ++ rest = '$' :: openBrace :: (e ++ closeBrace :: rest) := by
  simp [braced]

/-- **What is cut off** is an expression with paired braces, and it is cut off whatever follows it. -/
theorem cutExpression_eq_ok_iff {piece : List Char} :
    cutExpression cs = .ok (some (piece, left)) ↔
      ∃ e x, piece = braced e ∧ cs = braced e ++ left ∧ Paired e ∧ Expr.parse (String.ofList e) = .ok x := by
  have hopening : ∀ rest, ['$', Char.ofNat 0x7B].isPrefixOf ('$' :: openBrace :: rest) = true := by
    simp [openBrace]
  unfold cutExpression
  dsimp only
  constructor
  · intro h
    split at h
    · rename_i hbegins
      obtain ⟨rest, rfl⟩ := List.isPrefixOf_iff_prefix.mp hbegins
      split at h
      · cases h
      rename_i body after hbody
      obtain ⟨x, hparse, h⟩ := ok_of_bind h
      cases h
      have hdrop : (['$', Char.ofNat 0x7B] ++ rest).drop 2 = rest := rfl
      rw [hdrop] at hbody
      have hrest : rest = body ++ closeBrace :: left := upToBrace_append hbody
      rw [hrest] at hbody
      refine ⟨body, x, rfl, ?_, upToBrace_iff.mp hbody, hparse⟩
      rw [hrest, braced_append]
      rfl
    · cases h
  · rintro ⟨e, x, rfl, rfl, hpaired, hparse⟩
    have hdrop : ('$' :: openBrace :: (e ++ closeBrace :: left)).drop 2 = e ++ closeBrace :: left := rfl
    rw [braced_append, if_pos (hopening _), hdrop, upToBrace_iff.mpr hpaired]
    dsimp only
    rw [hparse]
    rfl

end ValueShell.Token
