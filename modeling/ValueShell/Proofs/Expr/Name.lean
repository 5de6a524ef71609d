import ValueShell.Expr.Eval

/-!
# Names as expressions

A text that is a name is read as one lexeme, and the expression that it writes has the value of the name
(`evalText_name`). A text that is a keyword has a value only if it writes a constant
(`evalText_keyword`).
-/

set_option autoImplicit false

namespace ValueShell.Expr

open Text

variable {c : Char} {cs : List Char}

/-- The text is the name of a variable or a keyword. -/
def isWord : List Char → Bool
  | c :: rest => isAsciiNameStart c && rest.all isAsciiNameChar
  | [] => false

theorem isAsciiNameChar_of_start (h : isAsciiNameStart c = true) : isAsciiNameChar c = true := by
  rw [isAsciiNameStart, Bool.or_eq_true] at h
  rw [isAsciiNameChar, Char.isAlphanum, Bool.or_eq_true, Bool.or_eq_true]
  exact h.imp Or.inl id

theorem toNat_of_isAlpha (h : c.isAlpha = true) : 65 ≤ c.toNat ∧ c.toNat ≤ 122 := by
  have hcases : (c.isUpper || c.isLower) = true := h
  rw [Bool.or_eq_true] at hcases
  rcases hcases with hupper | hlower
  · have hbounds : 65 ≤ c.val ∧ c.val ≤ 90 := of_decide_eq_true hupper
    exact ⟨UInt32.le_iff_toNat_le.mp hbounds.1,
      Nat.le_trans (UInt32.le_iff_toNat_le.mp hbounds.2) (by decide)⟩
  · have hbounds : (decide (97 ≤ c.val) && decide (c.val ≤ 122)) = true := hlower
    rw [Bool.and_eq_true, decide_eq_true_eq, decide_eq_true_eq] at hbounds
    exact ⟨Nat.le_trans (by decide) (UInt32.le_iff_toNat_le.mp hbounds.1),
      UInt32.le_iff_toNat_le.mp hbounds.2⟩

theorem toNat_of_isDigit (h : c.isDigit = true) : c.toNat ≤ 57 := by
  have hbounds : (decide (48 ≤ c.val) && decide (c.val ≤ 57)) = true := h
  rw [Bool.and_eq_true, decide_eq_true_eq, decide_eq_true_eq] at hbounds
  exact UInt32.le_iff_toNat_le.mp hbounds.2

/-- No digit begins a name. -/
theorem isDigit_of_start (h : isAsciiNameStart c = true) : c.isDigit = false := by
  rw [Bool.eq_false_iff]
  intro hdigit
  have hle := toNat_of_isDigit hdigit
  rw [isAsciiNameStart, Bool.or_eq_true, beq_iff_eq] at h
  rcases h with halpha | rfl
  · exact absurd (Nat.le_trans (toNat_of_isAlpha halpha).1 hle) (by decide)
  · exact absurd hle (by decide)

theorem toNat_lt_of_nameChar (h : isAsciiNameChar c = true) : c.toNat < 128 := by
  rw [isAsciiNameChar, Char.isAlphanum, Bool.or_eq_true, Bool.or_eq_true, beq_iff_eq] at h
  rcases h with (halpha | hdigit) | rfl
  · exact Nat.lt_of_le_of_lt (toNat_of_isAlpha halpha).2 (by decide)
  · exact Nat.lt_of_le_of_lt (toNat_of_isDigit hdigit) (by decide)
  · decide

/-- A character of a name is none of the others. -/
theorem ne_of_nameChar (h : isAsciiNameChar c = true) {d : Char} (hd : isAsciiNameChar d = false) :
    c ≠ d := by
  rintro rfl
  rw [h] at hd
  cases hd

theorem isWord_cons {rest : List Char} :
    isWord (c :: rest) = true ↔ isAsciiNameStart c = true ∧ ∀ d ∈ rest, isAsciiNameChar d = true := by
  rw [isWord, Bool.and_eq_true, List.all_eq_true]

theorem isAsciiNameChar_of_mem (h : isWord cs = true) (hc : c ∈ cs) : isAsciiNameChar c = true := by
  cases cs with
  | nil => cases hc
  | cons d rest =>
    obtain ⟨hstart, hrest⟩ := isWord_cons.mp h
    rcases List.mem_cons.mp hc with rfl | hc
    · exact isAsciiNameChar_of_start hstart
    · exact hrest c hc

/-! ## The lexeme of a word -/

/-- A word ends before such a text. -/
def EndsWord (after : List Char) : Prop := ∀ c ∈ after.head?, mayBeNameChar c = false ∧ isQuote c = false

theorem endsWord_nil : EndsWord [] := fun _ h => by cases h

theorem add?_eq_none (h : isAsciiNameChar c = false) (p : StringPrefix) : p.add? c = none := by
  have hne {d : Char} (hd : isAsciiNameChar d = true) : c ≠ d := (ne_of_nameChar hd h).symm
  simp [StringPrefix.add?, hne (d := 'b') rfl, hne (d := 'B') rfl, hne (d := 'u') rfl, hne (d := 'U') rfl,
    hne (d := 'r') rfl, hne (d := 'R') rfl, hne (d := 'f') rfl, hne (d := 'F') rfl]

theorem stringPrefix?_eq_none (h : ∀ c ∈ cs, isQuote c = false) {after : List Char} (hafter : EndsWord after)
    (p : StringPrefix) : stringPrefix? p (cs ++ after) = none := by
  induction cs generalizing p with
  | nil =>
    cases after with
    | nil => rfl
    | cons c after =>
      obtain ⟨hname, hquote⟩ := hafter c rfl
      rw [mayBeNameChar, Bool.or_eq_false_iff] at hname
      rw [List.nil_append, stringPrefix?, hquote, if_neg Bool.false_ne_true, add?_eq_none hname.1]
  | cons c cs ih =>
    rw [List.cons_append, stringPrefix?, h c List.mem_cons_self, if_neg Bool.false_ne_true]
    split
    · exact ih (fun d hd => h d (List.mem_cons_of_mem c hd)) _
    · rfl

theorem normalizeNewlines_eq_self (h : ∀ c ∈ cs, c ≠ '\r') : normalizeNewlines cs = cs := by
  induction cs with
  | nil => rfl
  | cons c cs ih =>
    have hc := h c List.mem_cons_self
    rw [normalizeNewlines, ih fun d hd => h d (List.mem_cons_of_mem c hd)]
    · exact fun _ heq => absurd heq hc
    · exact fun heq => absurd heq hc

theorem lineStart_word {rest : List Char} (h : isAsciiNameChar c = true) :
    lineStart 0 0 (c :: rest) = some (0, c :: rest) := by
  unfold lineStart
  split
  all_goals
    rename_i heq
    cases heq
  · cases h
  · cases h
  · cases h
  · cases h
  · cases h
  · rfl

/-- The lexeme of a word. -/
def wordLexeme (s : String) : Lexeme := if keywords.contains s then .keyword s else .name s

/-- A line that begins with a word is not indented. -/
theorem scanFrom_fresh {rest : List Char} (n : Nat) (h : isAsciiNameChar c = true) :
    scanFrom (n + 1) [] true (c :: rest) = scanFrom n [] false (c :: rest) := by
  rw [scanFrom, lineStart_word h]
  dsimp only
  split
  · rename_i heq
    cases heq
    cases h
  · rename_i heq
    cases heq
    cases h
  · rfl

/-- A word is read as a whole. -/
theorem scanFrom_word {word after : List Char} (n : Nat) (waiting : List String)
    (h : isWord (c :: word) = true) (hafter : EndsWord after) :
    scanFrom (n + 1) waiting false (c :: word ++ after) =
      wordLexeme (String.ofList (c :: word)) :: scanFrom n waiting false after := by
  have hchar : ∀ d ∈ c :: word, isAsciiNameChar d = true := fun d hd => isAsciiNameChar_of_mem h hd
  have hne : ∀ {d : Char}, isAsciiNameChar d = false → c ≠ d :=
    ne_of_nameChar (hchar c List.mem_cons_self)
  have hstart := (isWord_cons.mp h).1
  have hmay : ∀ d ∈ c :: word, mayBeNameChar d = true := fun d hd => by
    rw [mayBeNameChar, hchar d hd, Bool.true_or]
  have hends : after.takeWhile mayBeNameChar = [] ∧ after.dropWhile mayBeNameChar = after := by
    cases after with
    | nil => exact ⟨rfl, rfl⟩
    | cons d after =>
      have hd : ¬ mayBeNameChar d = true := Bool.eq_false_iff.mp (hafter d rfl).1
      exact ⟨List.takeWhile_cons_of_neg hd, List.dropWhile_cons_of_neg hd⟩
  have htake : (c :: (word ++ after)).takeWhile mayBeNameChar = c :: word := by
    rw [← List.cons_append, List.takeWhile_append_of_pos hmay, hends.1, List.append_nil]
  have hdrop : (c :: (word ++ after)).dropWhile mayBeNameChar = after := by
    rw [← List.cons_append, List.dropWhile_append_of_pos hmay, hends.2]
  have hquote : ∀ d ∈ c :: word, isQuote d = false := fun d hd => by
    rw [isQuote, decide_eq_false (ne_of_nameChar (hchar d hd) (by decide)),
      decide_eq_false (ne_of_nameChar (hchar d hd) (by decide)), Bool.or_false]
  have hplain : stringPrefix? {} (c :: (word ++ after)) = none := stringPrefix?_eq_none hquote hafter {}
  have hidentifier : (isIdentifierStart c && (c :: word).all isIdentifierChar) = true := by
    rw [Bool.and_eq_true, List.all_eq_true, isIdentifierStart,
      if_pos (toNat_lt_of_nameChar (hchar c List.mem_cons_self))]
    refine ⟨hstart, fun d hd => ?_⟩
    rw [isIdentifierChar, if_pos (toNat_lt_of_nameChar (hchar d hd)), hchar d hd]
  rw [scanFrom.eq_def, List.cons_append]
  simp only [hne (d := ' ') (by decide), hne (d := '\t') (by decide), hne (d := '\x0c') (by decide),
    hne (d := '#') (by decide), hne (d := '\n') (by decide), hne (d := '\\') (by decide),
    hne (d := '.') (by decide), isDigit_of_start hstart, hplain, htake, hdrop, hidentifier,
    hmay c List.mem_cons_self]
  rfl

/-- A word is one lexeme. -/
theorem scan_word (h : isWord cs = true) : Lexeme.scan cs = [wordLexeme (String.ofList cs)] := by
  cases cs with
  | nil => cases h
  | cons c rest =>
    have hfuel : 2 * (c :: rest).length + 2 = 2 * rest.length + 2 + 1 + 1 := by
      rw [List.length_cons]
      omega
    have hreturn : ∀ d ∈ c :: rest, d ≠ '\r' := fun d hd =>
      ne_of_nameChar (isAsciiNameChar_of_mem h hd) (by decide)
    have hscan := scanFrom_word (2 * rest.length + 2) [] h endsWord_nil
    rw [List.append_nil] at hscan
    rw [Lexeme.scan, normalizeNewlines_eq_self hreturn, hfuel,
      scanFrom_fresh _ (isAsciiNameChar_of_mem h List.mem_cons_self), hscan]
    rfl

/-! ## The value of a word -/

/-- What is read from the lexeme of a word is read from the word. -/
theorem parseTrimmed_word (h : isWord cs = true) :
    (∀ e, expressions 120 [wordLexeme (String.ofList cs)] = some (e, []) →
      parseTrimmed (String.ofList cs) = .ok e) ∧
    (∀ e, parseTrimmed (String.ofList cs) = .ok e →
      ∃ rest, expressions 120 [wordLexeme (String.ofList cs)] = some (e, rest)) := by
  have hchar : ∀ {c}, c ∈ cs → isAsciiNameChar c = true := isAsciiNameChar_of_mem h
  have hblank : cs.dropWhile (fun c => c = ' ' || c = '\t') = cs := by
    cases cs with
    | nil => rfl
    | cons c rest =>
      have hc := hchar List.mem_cons_self
      rw [List.dropWhile_cons, decide_eq_false (ne_of_nameChar hc (by decide)),
        decide_eq_false (ne_of_nameChar hc (by decide)), Bool.or_false, if_neg Bool.false_ne_true]
  have hnul : cs.contains (Char.ofNat 0) = false := by
    rw [Bool.eq_false_iff, ne_eq, List.contains_iff_mem]
    exact fun hmem => absurd (hchar hmem) (by decide)
  have hfuel : 40 * ([wordLexeme (String.ofList cs)].length + 2) = 120 := rfl
  rw [parseTrimmed, String.toList_ofList, hblank, parse, String.toList_ofList, hnul,
    if_neg Bool.false_ne_true, scan_word h]
  dsimp only
  rw [hfuel]
  constructor
  · intro e hread
    rw [hread]
    rfl
  · intro e hparse
    split at hparse
    · cases hparse
    · rename_i e' rest hread
      split at hparse
      · cases hparse
        exact ⟨rest, hread⟩
      · cases hparse

/-- A name has the value that it is bound to. -/
theorem evalText_name (scope : Scope) (h : isWord cs = true)
    (hkeyword : keywords.contains (String.ofList cs) = false) :
    evalText scope (String.ofList cs) = scope.lookup (String.ofList cs) := by
  have hread : expressions 120 [wordLexeme (String.ofList cs)] =
      some (.name (String.ofList cs), []) := by
    rw [wordLexeme, hkeyword, if_neg Bool.false_ne_true]
    rfl
  rw [evalText, (parseTrimmed_word h).1 _ hread]
  rfl

/-- A global name has its value. -/
theorem lookup_global {names : Bindings} {s : String} {v : Value} (h : names.find? s = some v) :
    Scope.lookup { globals := names } s = .ok v := by
  have hnone : Bindings.find? [] s = none := rfl
  simp [Scope.lookup, Scope.nearby, hnone, h, bind, Except.bind]

/-- The expression is a constant that a keyword writes. -/
def isKeywordConstant : Expr → Bool
  | .literal .none => true
  | .literal (.bool _) => true
  | _ => false

theorem eq_of_isKeywordConstant {e : Expr} (h : isKeywordConstant e = true) :
    e = .literal .none ∨ ∃ b, e = .literal (.bool b) := by
  unfold isKeywordConstant at h
  split at h
  · exact Or.inl rfl
  · exact Or.inr ⟨_, rfl⟩
  · cases h

theorem expressions_keyword : ∀ s ∈ keywords,
    (expressions 120 [.keyword s]).all (fun (e, _) => isKeywordConstant e) = true := by
  decide

/-- A keyword is a constant if it has a value at all. -/
theorem evalText_keyword (scope : Scope) (h : isWord cs = true)
    (hkeyword : keywords.contains (String.ofList cs) = true) {v : Value}
    (hvalue : evalText scope (String.ofList cs) = .ok v) : v = .none ∨ ∃ b, v = .bool b := by
  rw [evalText] at hvalue
  cases hparse : parseTrimmed (String.ofList cs) with
  | error fault =>
    rw [hparse] at hvalue
    cases hvalue
  | ok e =>
    rw [hparse] at hvalue
    obtain ⟨rest, hread⟩ := (parseTrimmed_word h).2 e hparse
    have hconstant := expressions_keyword _ (List.contains_iff_mem.mp hkeyword)
    rw [wordLexeme, hkeyword, if_pos rfl] at hread
    rw [hread, Option.all_some] at hconstant
    rcases eq_of_isKeywordConstant hconstant with rfl | ⟨b, rfl⟩
    · cases hvalue
      exact Or.inl rfl
    · cases hvalue
      exact Or.inr ⟨b, rfl⟩

end ValueShell.Expr
