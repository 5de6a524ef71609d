import Mathlib.Data.List.Infix
import Mathlib.Tactic.Tauto
import ValueShell.Proofs.Expr.Name
import ValueShell.Proofs.Expr.Reading

/-!
# Braces of expressions

The braces of a text are `Paired` if each that closes follows one that opens, and all are closed in the
end. An expression has paired braces once its strings and comments are left out, whatever stands in them:
the scanner of lexemes keeps the brackets that wait to be closed and stops short at one that does not fit
(`scansPaired`). If the braces within each string and each comment are paired too, then so are all braces
of the expression (`paired_of_parse`).
-/

set_option autoImplicit false

namespace ValueShell

namespace Text

/-- The brace that opens. -/
def openBrace : Char := Char.ofNat 0x7B

/-- The brace that closes. -/
def closeBrace : Char := Char.ofNat 0x7D

def isBrace (c : Char) : Bool := c = openBrace || c = closeBrace

/-- After `depth` braces that are open, each brace that closes has one that it closes, and in the end none
is open. -/
def PairedFrom (depth : Nat) (cs : List Char) : Prop :=
  (∀ front, front <+: cs → front.count closeBrace ≤ depth + front.count openBrace) ∧
    cs.count closeBrace = depth + cs.count openBrace

/-- Each brace that closes has one that it closes, and all are closed. -/
def Paired (cs : List Char) : Prop := PairedFrom 0 cs

variable {depth : Nat} {c : Char} {cs : List Char}

instance : Decidable (PairedFrom depth cs) :=
  decidable_of_iff
    ((∀ front ∈ cs.inits, front.count closeBrace ≤ depth + front.count openBrace) ∧
      cs.count closeBrace = depth + cs.count openBrace)
    (by simp only [List.mem_inits, PairedFrom])

instance : Decidable (Paired cs) := inferInstanceAs (Decidable (PairedFrom 0 cs))

theorem openBrace_ne_closeBrace : openBrace ≠ closeBrace := by decide

theorem forall_prefix_cons {P : List Char → Prop} :
    (∀ front, front <+: c :: cs → P front) ↔ P [] ∧ ∀ front, front <+: cs → P (c :: front) := by
  constructor
  · intro h
    exact ⟨h [] List.nil_prefix, fun front hfront => h _ (List.cons_prefix_cons.mpr ⟨rfl, hfront⟩)⟩
  · rintro ⟨hnil, hcons⟩ front hfront
    rcases List.prefix_cons_iff.mp hfront with rfl | ⟨rest, rfl, hrest⟩
    · exact hnil
    · exact hcons rest hrest

theorem pairedFrom_nil : PairedFrom depth [] ↔ depth = 0 := by
  simp [PairedFrom]
  omega

theorem pairedFrom_open : PairedFrom depth (openBrace :: cs) ↔ PairedFrom (depth + 1) cs := by
  unfold PairedFrom
  rw [forall_prefix_cons]
  simp only [List.count_cons_self, List.count_cons_of_ne openBrace_ne_closeBrace, List.count_nil]
  constructor
  · rintro ⟨⟨-, hfront⟩, hcount⟩
    exact ⟨fun front h => by have := hfront front h; omega, by omega⟩
  · rintro ⟨hfront, hcount⟩
    exact ⟨⟨by omega, fun front h => by have := hfront front h; omega⟩, by omega⟩

theorem pairedFrom_close :
    PairedFrom depth (closeBrace :: cs) ↔ ∃ outer, depth = outer + 1 ∧ PairedFrom outer cs := by
  unfold PairedFrom
  rw [forall_prefix_cons]
  simp only [List.count_cons_self, List.count_cons_of_ne openBrace_ne_closeBrace.symm, List.count_nil]
  constructor
  · rintro ⟨⟨-, hfront⟩, hcount⟩
    have hpos := hfront [] List.nil_prefix
    simp only [List.count_nil] at hpos
    obtain ⟨outer, rfl⟩ : ∃ outer, depth = outer + 1 := ⟨depth - 1, by omega⟩
    exact ⟨outer, rfl, fun front h => by have := hfront front h; omega, by omega⟩
  · rintro ⟨outer, rfl, hfront, hcount⟩
    exact ⟨⟨by omega, fun front h => by have := hfront front h; omega⟩, by omega⟩

theorem pairedFrom_cons (hc : isBrace c = false) : PairedFrom depth (c :: cs) ↔ PairedFrom depth cs := by
  simp only [isBrace, Bool.or_eq_false_iff, decide_eq_false_iff_not] at hc
  unfold PairedFrom
  rw [forall_prefix_cons]
  simp only [List.count_cons_of_ne hc.1, List.count_cons_of_ne hc.2, List.count_nil]
  simp

theorem brace_cases (c : Char) : c = openBrace ∨ c = closeBrace ∨ isBrace c = false := by
  simp only [isBrace, Bool.or_eq_false_iff, decide_eq_false_iff_not]
  tauto

end Text

namespace Expr

open Text

variable {c : Char} {cs rest after ds body piece : List Char} {depth : Nat}

/-! ## What is not in a string or a comment -/

theorem suffix_of_tail {after l : List Char} (h : after <:+ l.tail) : after <:+ l := h.trans (List.tail_suffix l)

theorem suffix_of_shortBody {quote : Char} (h : shortBody quote cs = some (body, after)) :
    after <:+ cs.tail := by
  fun_induction shortBody quote cs generalizing body after with
  | case1 => cases h
  | case2 c rest ih =>
    obtain ⟨⟨inner, left⟩, hrest, heq⟩ := Option.map_eq_some_iff.mp h
    cases heq
    exact (suffix_of_tail (ih hrest)).trans (List.suffix_cons c rest)
  | case3 rest =>
    cases h
    exact List.suffix_rfl
  | case4 => cases h
  | case5 c rest _ _ _ ih =>
    obtain ⟨⟨inner, left⟩, hrest, heq⟩ := Option.map_eq_some_iff.mp h
    cases heq
    exact suffix_of_tail (ih hrest)

theorem suffix_of_longBody {quote : Char} (h : longBody quote cs = some (body, after)) :
    after <:+ cs.tail := by
  fun_induction longBody quote cs generalizing body after with
  | case1 => cases h
  | case2 c rest ih =>
    obtain ⟨⟨inner, left⟩, hrest, heq⟩ := Option.map_eq_some_iff.mp h
    cases heq
    exact (suffix_of_tail (ih hrest)).trans (List.suffix_cons c rest)
  | case3 a b c rest _ _ =>
    cases h
    exact ⟨[b, c], rfl⟩
  | case4 a b c rest _ _ ih =>
    obtain ⟨⟨inner, left⟩, hrest, heq⟩ := Option.map_eq_some_iff.mp h
    cases heq
    exact suffix_of_tail (ih hrest)
  | case5 a rest _ _ ih => exact suffix_of_tail (ih h)

theorem suffix_of_stringBody (h : stringBody? cs = some (body, after)) : after <:+ cs.tail := by
  unfold stringBody? at h
  split at h
  · rename_i q q' q'' rest
    split at h
    · exact (suffix_of_tail (suffix_of_longBody h)).trans ⟨[q', q''], rfl⟩
    · split at h
      · cases h
        exact List.suffix_cons q' (q'' :: rest)
      · exact suffix_of_tail (suffix_of_shortBody h)
  · split at h
    · cases h
      exact List.nil_suffix
    · cases h
  · cases h

theorem length_of_stringBody (h : stringBody? (c :: rest) = some (body, after)) :
    after.length < (c :: rest).length :=
  Nat.lt_succ_of_le (suffix_of_stringBody h).length_le

/-- The text without its strings and comments. It ends at a string that is left open. -/
def outside (cs : List Char) : List Char :=
  match cs with
  | [] => []
  | c :: rest =>
    if c = '#' then outside (rest.dropWhile (· ≠ '\n'))
    else if isQuote c then
      match h : stringBody? (c :: rest) with
      | some (_, after) =>
        have := length_of_stringBody h
        outside after
      | none => []
    else c :: outside rest
termination_by cs.length
decreasing_by
  · exact Nat.lt_succ_of_le (List.dropWhile_suffix _).length_le
  · exact this
  · simp

/-- The strings and comments of a text, up to a string that is left open. -/
def inside (cs : List Char) : List (List Char) :=
  match cs with
  | [] => []
  | c :: rest =>
    if c = '#' then (c :: rest.takeWhile (· ≠ '\n')) :: inside (rest.dropWhile (· ≠ '\n'))
    else if isQuote c then
      match h : stringBody? (c :: rest) with
      | some (_, after) =>
        have := length_of_stringBody h
        (c :: rest).take ((c :: rest).length - after.length) :: inside after
      | none => [c :: rest]
    else inside rest
termination_by cs.length
decreasing_by
  · exact Nat.lt_succ_of_le (List.dropWhile_suffix _).length_le
  · exact this
  · simp

theorem ne_of_isQuote (hc : isQuote c = true) : c ≠ '#' := by
  rintro rfl
  exact absurd hc (by decide)

theorem outside_nil : outside [] = [] := by
  rw [outside]

theorem outside_comment : outside ('#' :: rest) = outside (rest.dropWhile (· ≠ '\n')) := by
  rw [outside, if_pos rfl]

theorem outside_string (hc : isQuote c = true) (h : stringBody? (c :: rest) = some (body, after)) :
    outside (c :: rest) = outside after := by
  rw [outside, if_neg (ne_of_isQuote hc), if_pos hc]
  split
  · rename_i heq
    rw [h] at heq
    cases heq
    rfl
  · rename_i heq
    rw [h] at heq
    cases heq

theorem outside_cons (hne : c ≠ '#') (hc : isQuote c = false) : outside (c :: rest) = c :: outside rest := by
  rw [outside, if_neg hne, if_neg (by rw [hc]; exact Bool.false_ne_true)]

/-- The characters that begin a comment or a string, and the braces. -/
def special : List Char := ['#', apostrophe, doubleQuote, openBrace, closeBrace]

def isPlain (c : Char) : Bool := !special.contains c

/-- The first text is the second behind plain characters. -/
def Clear (cs after : List Char) : Prop := ∃ piece, cs = piece ++ after ∧ ∀ c ∈ piece, isPlain c = true

theorem isPlain_iff : isPlain c = true ↔ c ≠ '#' ∧ isQuote c = false ∧ isBrace c = false := by
  simp [isPlain, special, isQuote, isBrace, and_assoc]

/-- A class of characters without the special ones. -/
theorem isPlain_of {p : Char → Bool} (hp : special.any p = false) (h : p c = true) : isPlain c = true := by
  rw [isPlain, Bool.not_eq_true', List.contains_eq_mem, decide_eq_false_iff_not]
  intro hmem
  exact List.any_eq_false.mp hp c hmem h

theorem Clear.refl : Clear cs cs := ⟨[], rfl, by simp⟩

theorem Clear.cons (hc : isPlain c = true) (h : Clear rest after) : Clear (c :: rest) after := by
  obtain ⟨piece, rfl, hpiece⟩ := h
  exact ⟨c :: piece, rfl, List.forall_mem_cons.mpr ⟨hc, hpiece⟩⟩

theorem Clear.trans {left : List Char} (h : Clear cs after) (h' : Clear after left) : Clear cs left := by
  obtain ⟨piece, rfl, hpiece⟩ := h
  obtain ⟨piece', rfl, hpiece'⟩ := h'
  exact ⟨piece ++ piece', (List.append_assoc ..).symm, List.forall_mem_append.mpr ⟨hpiece, hpiece'⟩⟩

/-- Plain characters do not change how deep the braces are nested. -/
theorem Clear.pairedFrom (h : Clear cs after) (hafter : PairedFrom depth (outside after)) :
    PairedFrom depth (outside cs) := by
  obtain ⟨piece, rfl, hpiece⟩ := h
  induction piece with
  | nil => exact hafter
  | cons c piece ih =>
    obtain ⟨hc, hpiece⟩ := List.forall_mem_cons.mp hpiece
    obtain ⟨hne, hquote, hbrace⟩ := isPlain_iff.mp hc
    rw [List.cons_append, outside_cons hne hquote, pairedFrom_cons hbrace]
    exact ih hpiece

theorem clear_digitGroups {isDigit : Char → Bool} (hdigit : special.any isDigit = false)
    (h : digitGroups isDigit cs = some (ds, after)) : Clear cs after := by
  fun_induction digitGroups isDigit cs generalizing ds after with
  | case1 => cases h
  | case2 => cases h
  | case3 c hc =>
    cases h
    exact Clear.refl.cons (isPlain_of hdigit (by simpa using hc))
  | case4 c hc d rest _ ih =>
    obtain ⟨⟨ds', left⟩, hrest, heq⟩ := Option.map_eq_some_iff.mp h
    cases heq
    exact (ih hrest).cons (isPlain_of hdigit (by simpa using hc))
  | case5 c hc rest _ ih =>
    obtain ⟨⟨ds', left⟩, hrest, heq⟩ := Option.map_eq_some_iff.mp h
    cases heq
    exact ((ih hrest).cons (by decide)).cons (isPlain_of hdigit (by simpa using hc))
  | case6 c hc d rest _ _ =>
    cases h
    exact Clear.refl.cons (isPlain_of hdigit (by simpa using hc))

section Numbers

variable {whole fraction : List Char} {isReal : Bool} {exponent : Int} {value : Literal}

theorem clear_finishNumber (h : finishNumber whole fraction isReal exponent cs = some (value, after)) :
    Clear cs after := by
  unfold finishNumber at h
  dsimp only at h
  split at h
  · split at h
    · cases h
      exact Clear.refl.cons (by decide)
    · cases h
  · split at h
    · cases h
      exact Clear.refl.cons (by decide)
    · cases h
  · split at h
    · cases h
    · split at h
      · cases h
        exact Clear.refl
      · cases h
        exact Clear.refl

theorem clear_scanExponent (h : scanExponent whole fraction isReal cs = some (value, after)) :
    Clear cs after := by
  unfold scanExponent at h
  split at h
  · exact clear_finishNumber h
  · rename_i e rest
    split at h
    · rename_i he
      have hplain : isPlain e = true := by
        rw [Bool.or_eq_true, decide_eq_true_eq, decide_eq_true_eq] at he
        rcases he with rfl | rfl
        all_goals decide
      split at h
      · cases h
      · rename_i s rest'
        split at h
        · rename_i hs
          obtain ⟨⟨ds, left⟩, hds, hleft⟩ := Option.bind_eq_some_iff.mp h
          have hsign : isPlain s = true := by
            rw [Bool.or_eq_true, decide_eq_true_eq, decide_eq_true_eq] at hs
            rcases hs with rfl | rfl
            all_goals decide
          have hdigits := clear_digitGroups (by decide) hds
          exact ((hdigits.trans (clear_finishNumber hleft)).cons hsign).cons hplain
        · split at h
          · obtain ⟨⟨ds, left⟩, hds, hleft⟩ := Option.bind_eq_some_iff.mp h
            have hdigits := clear_digitGroups (by decide) hds
            exact (hdigits.trans (clear_finishNumber hleft)).cons hplain
          · exact clear_finishNumber h
    · exact clear_finishNumber h

theorem clear_scanFraction (h : scanFraction whole cs = some (value, after)) : Clear cs after := by
  unfold scanFraction at h
  split at h
  · split at h
    · obtain ⟨⟨ds, left⟩, hds, hleft⟩ := Option.bind_eq_some_iff.mp h
      exact (clear_digitGroups (by decide) hds).trans (clear_scanExponent hleft)
    · exact clear_scanExponent h
  · exact clear_scanExponent h

theorem clear_scanBased {base : Nat} {isDigit : Char → Bool}
    (hdigit : special.any isDigit = false)
    (h : scanBased base isDigit cs = some (value, after)) : Clear cs after := by
  unfold scanBased at h
  obtain ⟨⟨ds, left⟩, hds, hleft⟩ := Option.bind_eq_some_iff.mp h
  have hbody := clear_digitGroups hdigit hds
  have hleft : left = after := by
    dsimp only at hleft
    split at hleft
    · cases hleft
      rfl
    · cases hleft
  subst hleft
  split at hbody
  · exact hbody.cons (by decide)
  · exact hbody

theorem clear_scanNumber (h : scanNumber cs = some (value, after)) : Clear cs after := by
  unfold scanNumber at h
  split at h
  · exact (clear_scanFraction h).cons (by decide)
  iterate 6 exact ((clear_scanBased (by decide) h).cons (by decide)).cons (by decide)
  · obtain ⟨⟨ds, left⟩, hds, hleft⟩ := Option.bind_eq_some_iff.mp h
    have hdigits := clear_digitGroups (by decide) hds
    dsimp only at hleft
    split at hleft
    · exact hdigits.trans ((clear_scanFraction hleft).cons (by decide))
    · obtain ⟨⟨found, rest⟩, hfound, hend⟩ := Option.bind_eq_some_iff.mp hleft
      have heq : rest = after := by
        dsimp only at hend
        split at hend
        · split at hend
          · cases hend
          · cases hend
            rfl
        · cases hend
          rfl
      subst heq
      exact hdigits.trans (clear_scanExponent hfound)

end Numbers

theorem clear_stringPrefix {p q : StringPrefix} (h : stringPrefix? p cs = some (q, after)) :
    Clear cs after ∧ ∃ c rest, after = c :: rest ∧ isQuote c = true := by
  fun_induction stringPrefix? p cs with
  | case1 => cases h
  | case2 p c rest hc =>
    cases h
    exact ⟨Clear.refl, c, rest, rfl, hc⟩
  | case3 p c rest hc p' hp ih =>
    obtain ⟨hclear, hquote⟩ := ih h
    have hletter : special.any (fun d => (p.add? d).isSome) = false := rfl
    exact ⟨hclear.cons (isPlain_of hletter (by rw [hp]; rfl)), hquote⟩
  | case4 => cases h

theorem clear_lineStart {column joined width : Nat} (h : lineStart column joined cs = some (width, after)) :
    Clear cs after := by
  fun_induction lineStart column joined cs with
  | case1 => cases h; exact Clear.refl
  | case2 _ _ rest ih => exact (ih h).cons (by decide)
  | case3 _ _ rest ih => exact (ih h).cons (by decide)
  | case4 _ _ rest ih => exact (ih h).cons (by decide)
  | case5 _ _ c rest ih => exact ((ih h).cons (by decide)).cons (by decide)
  | case6 => cases h
  | case7 => cases h; exact Clear.refl

theorem marks_all : marks.all (fun m => m == "\x7b" || m == "\x7d" || m.toList.all isPlain) = true := by
  decide

/-- A mark is a brace or plain. -/
theorem mark_cases {m : String} (h : mark? cs = some (m, after)) :
    (m = "\x7b" ∧ cs = openBrace :: after) ∨ (m = "\x7d" ∧ cs = closeBrace :: after) ∨
      (m ≠ "\x7b" ∧ m ≠ "\x7d" ∧ Clear cs after) := by
  obtain ⟨found, hfind, heq⟩ := Option.map_eq_some_iff.mp h
  cases heq
  have hcs : cs = m.toList ++ cs.drop m.length := by
    have hbegins := List.find?_some hfind
    obtain ⟨left, rfl⟩ := List.isPrefixOf_iff_prefix.mp hbegins
    rw [← String.length_toList, List.drop_left]
  have hm := List.all_eq_true.mp marks_all m (List.mem_of_find?_eq_some hfind)
  simp only [Bool.or_eq_true, beq_iff_eq] at hm
  rcases hm with (rfl | rfl) | hplain
  · exact .inl ⟨rfl, hcs⟩
  · exact .inr (.inl ⟨rfl, hcs⟩)
  · refine .inr (.inr ⟨?_, ?_, m.toList, hcs, List.all_eq_true.mp hplain⟩)
    · rintro rfl
      exact absurd hplain (by decide)
    · rintro rfl
      exact absurd hplain (by decide)

/-! ## Whole texts -/

/-- If the scanner takes `fuel` steps and finds nothing broken, then the braces that it has read and
those that wait to be closed are paired with the ones outside strings and comments. -/
def ScansPaired (fuel : Nat) : Prop :=
  ∀ ⦃waiting : List String⦄ ⦃fresh : Bool⦄ ⦃cs : List Char⦄, Lexeme.broken ∉ scanFrom fuel waiting fresh cs →
    PairedFrom (waiting.count "\x7d") (outside cs)

section Step

variable {fuel : Nat} {waiting : List String}

theorem eq_nil_of_ended (h : Lexeme.broken ∉ if waiting.isEmpty then [] else [Lexeme.broken]) :
    waiting = [] := by
  by_cases hempty : waiting.isEmpty = true
  · exact List.isEmpty_iff.mp hempty
  · rw [if_neg hempty] at h
    exact absurd (List.mem_singleton.mpr rfl) h

theorem ScansPaired.fresh (ih : ScansPaired fuel) (h : Lexeme.broken ∉ scanFrom (fuel + 1) waiting true cs) :
    PairedFrom (waiting.count "\x7d") (outside cs) := by
  rw [scanFrom] at h
  split at h
  · simp at h
  · rename_i column rest hstart
    apply (clear_lineStart hstart).pairedFrom
    split at h
    · rename_i tail
      rw [outside_comment]
      have hdrop : ('#' :: tail).dropWhile (· ≠ '\n') = tail.dropWhile (· ≠ '\n') :=
        List.dropWhile_cons_of_pos (by decide)
      rw [hdrop] at h
      split at h
      · rename_i after heq
        rw [heq]
        exact (Clear.refl.cons (by decide)).pairedFrom (ih h)
      · rename_i hother
        cases hrest : tail.dropWhile (· ≠ '\n') with
        | nil =>
          rw [eq_nil_of_ended h, outside_nil]
          exact pairedFrom_nil.mpr rfl
        | cons d after =>
          -- What is left after a comment begins with the end of the line.
          have hd := List.head?_dropWhile_not (fun c => decide (c ≠ '\n')) tail
          rw [hrest] at hd
          have hfeed : d = '\n' := by simpa using hd
          exact absurd (hfeed ▸ hrest) (hother after)
    · exact (Clear.refl.cons (by decide)).pairedFrom (ih h)
    · split at h
      · exact ih (List.not_mem_of_not_mem_cons h)
      · exact ih h

theorem ScansPaired.string (ih : ScansPaired fuel) {p : StringPrefix} {quoted : List Char} {value : Literal}
    (hletters : stringPrefix? {} cs = some (p, quoted)) (hbody : stringBody? quoted = some (body, after))
    (h : Lexeme.broken ∉ Lexeme.constant value :: scanFrom fuel waiting false after) :
    PairedFrom (waiting.count "\x7d") (outside cs) := by
  obtain ⟨hclear, q, rest, rfl, hquote⟩ := clear_stringPrefix hletters
  apply hclear.pairedFrom
  rw [outside_string hquote hbody]
  exact ih (List.not_mem_of_not_mem_cons h)

theorem ScansPaired.name (ih : ScansPaired fuel) {word : Lexeme}
    (h : Lexeme.broken ∉ word :: scanFrom fuel waiting false (cs.dropWhile mayBeNameChar)) :
    PairedFrom (waiting.count "\x7d") (outside cs) := by
  have hclear : Clear cs (cs.dropWhile mayBeNameChar) :=
    ⟨cs.takeWhile mayBeNameChar, (List.takeWhile_append_dropWhile ..).symm, fun c hc =>
      isPlain_of (by decide) (List.mem_takeWhile_imp hc)⟩
  exact hclear.pairedFrom (ih (List.not_mem_of_not_mem_cons h))

/-- A bracket that opens. -/
theorem ScansPaired.opening (ih : ScansPaired fuel) {m close : String} (hmark : mark? cs = some (m, after))
    (hclose : closing? m = some close)
    (h : Lexeme.broken ∉ Lexeme.mark m :: scanFrom fuel (close :: waiting) false after) :
    PairedFrom (waiting.count "\x7d") (outside cs) := by
  have hafter := ih (List.not_mem_of_not_mem_cons h)
  rcases mark_cases hmark with ⟨rfl, rfl⟩ | ⟨rfl, rfl⟩ | ⟨hopen, -, hclear⟩
  · cases hclose
    rw [outside_cons (by decide) (by decide), pairedFrom_open]
    rwa [List.count_cons_self] at hafter
  · cases hclose
  · apply hclear.pairedFrom
    have hne : close ≠ "\x7d" := by
      rintro rfl
      simp only [closing?] at hclose
      grind
    rwa [List.count_cons_of_ne hne] at hafter

/-- A bracket that closes the innermost one. -/
theorem ScansPaired.closing (ih : ScansPaired fuel) {m : String} (hmark : mark? cs = some (m, after))
    (hclose : closing? m = none) (h : Lexeme.broken ∉ Lexeme.mark m :: scanFrom fuel waiting false after) :
    PairedFrom ((m :: waiting).count "\x7d") (outside cs) := by
  have hafter := ih (List.not_mem_of_not_mem_cons h)
  rcases mark_cases hmark with ⟨rfl, rfl⟩ | ⟨rfl, rfl⟩ | ⟨-, hne, hclear⟩
  · cases hclose
  · rw [outside_cons (by decide) (by decide), pairedFrom_close, List.count_cons_self]
    exact ⟨_, rfl, hafter⟩
  · rw [List.count_cons_of_ne hne]
    exact hclear.pairedFrom hafter

/-- A mark that is no bracket. -/
theorem ScansPaired.mark (ih : ScansPaired fuel) {m : String} (hmark : mark? cs = some (m, after))
    (hclose : closing? m = none) (hne : m ≠ "\x7d")
    (h : Lexeme.broken ∉ Lexeme.mark m :: scanFrom fuel waiting false after) :
    PairedFrom (waiting.count "\x7d") (outside cs) := by
  rcases mark_cases hmark with ⟨rfl, rfl⟩ | ⟨rfl, rfl⟩ | ⟨-, -, hclear⟩
  · cases hclose
  · exact absurd rfl hne
  · exact hclear.pairedFrom (ih (List.not_mem_of_not_mem_cons h))

theorem ScansPaired.within (ih : ScansPaired fuel)
    (h : Lexeme.broken ∉ scanFrom (fuel + 1) waiting false cs) :
    PairedFrom (waiting.count "\x7d") (outside cs) := by
  cases cs with
  | nil =>
    rw [scanFrom] at h
    rw [eq_nil_of_ended h, outside_nil]
    exact pairedFrom_nil.mpr rfl
  | cons c rest =>
    rw [scanFrom.eq_def] at h
    dsimp only at h
    -- blanks, comments, ends of lines
    split at h
    · rename_i hblank
      have hplain : isPlain c = true :=
        isPlain_of (p := fun c => c = ' ' || c = '\t' || c = '\x0c') (by decide) hblank
      exact (Clear.refl.cons hplain).pairedFrom (ih h)
    split at h
    · subst c
      rw [outside_comment]
      exact ih h
    split at h
    · subst c
      refine (Clear.refl.cons (by decide)).pairedFrom ?_
      split at h
      · exact ih (List.not_mem_of_not_mem_cons h)
      · exact ih h
    split at h
    · subst c
      split at h
      · exact ((Clear.refl.cons (by decide)).cons (by decide)).pairedFrom (ih h)
      · simp at h
    -- numbers, strings, names
    split at h
    · split at h
      · rename_i hnumber
        exact (clear_scanNumber hnumber).pairedFrom (ih (List.not_mem_of_not_mem_cons h))
      · simp at h
    split at h
    · rename_i hletters
      split at h
      · simp at h
      · rename_i hbody
        split at h
        · exact ih.string hletters hbody h
        · simp at h
    split at h
    · split at h
      · simp at h
      · exact ih.name h
    -- brackets and the other marks
    split at h
    · simp at h
    · rename_i m after hmark
      split at h
      · rename_i hclose
        split at h
        · simp at h
        · exact ih.opening hmark hclose h
      · rename_i hclose
        split at h
        · split at h
          · split at h
            · rename_i heq
              subst heq
              exact ih.closing hmark hclose h
            · simp at h
          · simp at h
        · rename_i hother
          exact ih.mark hmark hclose (by rintro rfl; exact hother (by decide)) h

end Step

end Expr

end ValueShell
