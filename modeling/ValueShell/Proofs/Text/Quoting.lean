import Mathlib.Tactic.Ring
import ValueShell.Proofs.Expr.Name

/-!
# Quoted texts are read back

A text is written as a string literal by `quoteChars`. Reading the escapes of the literal's body undoes
this for every text (`unescape_escaped`), and the body goes up to the last quote, because every other
one is hidden by a backslash (`shortBody_escaped`). The literal is therefore one lexeme, and as an
expression it has the text as its value (`evalText_quote`).
-/

set_option autoImplicit false

namespace ValueShell

namespace Text

variable {q c : Char} {cs rest : List Char}

/-! ## Escapes by number -/

theorem hexValue?_hexDigit : ∀ n < 16, hexValue? (hexDigit n) = some n := by decide

theorem hexDigits_succ (width n : Nat) :
    hexDigits (width + 1) n = hexDigit (n / 16 ^ width % 16) :: hexDigits width n := by
  simp [hexDigits, List.range_succ]

/-- Hexadecimal digits are read from the left, each one place further. -/
theorem foldlM_hexDigits (width n sofar : Nat) :
    (hexDigits width n).foldlM (fun n c => (hexValue? c).map (16 * n + ·)) sofar =
      some (sofar * 16 ^ width + n % 16 ^ width) := by
  induction width generalizing sofar with
  | zero => simp [hexDigits, Nat.mod_one]
  | succ width ih =>
    have hdigit := hexValue?_hexDigit (n / 16 ^ width % 16) (Nat.mod_lt _ (by decide))
    rw [hexDigits_succ, List.foldlM_cons, hdigit, Option.map_some, Option.bind_eq_bind, Option.bind_some,
      ih, Nat.mod_pow_succ, Nat.pow_succ]
    congr 1
    ring

theorem hexNumber?_hexDigits {width n : Nat} (h : n < 16 ^ width) :
    hexNumber? (hexDigits width n) = some n := by
  rw [hexNumber?, foldlM_hexDigits, Nat.mod_eq_of_lt h, Nat.zero_mul, Nat.zero_add]

/-- No character is half of a pair, and none is beyond the last one. -/
theorem charOfCode?_toNat (c : Char) : charOfCode? c.toNat = some c := by
  have hvalid : c.toNat < 0xD800 ∨ 0xDFFF < c.toNat ∧ c.toNat < 0x110000 := c.valid
  rw [charOfCode?, if_neg (by omega), if_neg, Char.ofNat_toNat]
  simp
  omega

theorem unescape_codeEscape (c : Char) (rest : List Char) :
    unescape (codeEscape c ++ rest) = (unescape rest).map (c :: ·) := by
  have hread : ∀ width : Nat, c.toNat < 16 ^ width →
      (hexNumber? (hexDigits width c.toNat)).bind charOfCode? = some c := by
    intro width hwidth
    rw [hexNumber?_hexDigits hwidth, Option.bind_some, charOfCode?_toNat]
  unfold codeEscape
  dsimp only
  split
  · rename_i hsmall
    have hcode := hread 2 hsmall
    obtain ⟨d₁, d₀, hdigits⟩ : ∃ d₁ d₀, hexDigits 2 c.toNat = [d₁, d₀] := ⟨_, _, rfl⟩
    rw [hdigits] at hcode ⊢
    simp only [List.cons_append, List.nil_append, unescape, hcode]
    cases unescape rest <;> rfl
  split
  · rename_i hmedium
    have hcode := hread 4 hmedium
    obtain ⟨d₃, d₂, d₁, d₀, hdigits⟩ : ∃ d₃ d₂ d₁ d₀, hexDigits 4 c.toNat = [d₃, d₂, d₁, d₀] :=
      ⟨_, _, _, _, rfl⟩
    rw [hdigits] at hcode ⊢
    simp only [List.cons_append, List.nil_append, unescape, hcode]
    cases unescape rest <;> rfl
  · have hbound : c.toNat < 16 ^ 8 := by
      have hvalid : c.toNat < 0xD800 ∨ 0xDFFF < c.toNat ∧ c.toNat < 0x110000 := c.valid
      omega
    have hcode := hread 8 hbound
    obtain ⟨d₇, d₆, d₅, d₄, d₃, d₂, d₁, d₀, hdigits⟩ : ∃ d₇ d₆ d₅ d₄ d₃ d₂ d₁ d₀,
        hexDigits 8 c.toNat = [d₇, d₆, d₅, d₄, d₃, d₂, d₁, d₀] := ⟨_, _, _, _, _, _, _, _, rfl⟩
    rw [hdigits] at hcode ⊢
    simp only [List.cons_append, List.nil_append, unescape, hcode]
    cases unescape rest <;> rfl

/-! ## Escaped texts -/

theorem unescape_plain (h : c ≠ '\\') : unescape (c :: rest) = (unescape rest).map (c :: ·) := by
  rw [unescape]
  all_goals simp [h]

/-- The body of the literal that writes a text between `q` marks. -/
def escaped (q : Char) (cs : List Char) : List Char := cs.flatMap (escapeChar q)

theorem escaped_cons (q c : Char) (cs : List Char) :
    escaped q (c :: cs) = escapeChar q c ++ escaped q cs :=
  rfl

theorem quoteChars_eq (cs : List Char) :
    quoteChars cs = quoteFor cs :: (escaped (quoteFor cs) cs ++ [quoteFor cs]) :=
  rfl

theorem quoteFor_eq (cs : List Char) : quoteFor cs = apostrophe ∨ quoteFor cs = doubleQuote := by
  unfold quoteFor
  split
  · exact Or.inr rfl
  · exact Or.inl rfl

/-- A character stands for itself, or a backslash begins its escape. -/
inductive Escape (q c : Char) : List Char → Prop where
  | short {mark : Char} (h : simpleEscape? mark = some c) (hmark : isPrintable mark = true) :
    Escape q c ['\\', mark]
  | plain (hslash : c ≠ '\\') (hquote : c ≠ q) (h : isPrintable c = true) : Escape q c [c]
  | code : Escape q c (codeEscape c)

section Mark

variable (hq : q = apostrophe ∨ q = doubleQuote)

include hq

theorem escape_escapeChar (c : Char) : Escape q c (escapeChar q c) := by
  unfold escapeChar
  split
  · rename_i h
    simp only [Bool.or_eq_true, decide_eq_true_eq] at h
    rcases h with rfl | rfl
    · rcases hq with rfl | rfl
      · exact .short rfl rfl
      · exact .short rfl rfl
    · exact .short rfl rfl
  rename_i hself
  simp only [Bool.or_eq_true, decide_eq_true_eq, not_or] at hself
  split
  · rename_i h
    subst h
    exact .short rfl rfl
  split
  · rename_i h
    subst h
    exact .short rfl rfl
  split
  · rename_i h
    subst h
    exact .short rfl rfl
  split
  · rename_i h
    exact .plain hself.2 hself.1 h
  · exact .code

end Mark

theorem unescape_short {mark : Char} (h : simpleEscape? mark = some c) (rest : List Char) :
    unescape ('\\' :: mark :: rest) = (unescape rest).map (c :: ·) := by
  have hne : ∀ {d : Char}, simpleEscape? d = none → mark ≠ d := by
    rintro d hd rfl
    rw [hd] at h
    cases h
  have hx := hne (d := 'x') rfl
  have hu := hne (d := 'u') rfl
  have hU := hne (d := 'U') rfl
  rw [unescape]
  · simp [hx, hu, hU, hne (d := 'N') rfl, h]
  · exact hne rfl
  · exact fun _ _ _ heq => absurd heq hx
  · exact fun _ _ _ _ _ heq => absurd heq hu
  · exact fun _ _ _ _ _ _ _ _ _ heq => absurd heq hU

theorem Escape.unescape {written : List Char} (h : Escape q c written) (rest : List Char) :
    unescape (written ++ rest) = (Text.unescape rest).map (c :: ·) := by
  cases h with
  | short h _ => exact unescape_short h rest
  | plain hslash _ _ => exact unescape_plain hslash
  | code => exact unescape_codeEscape c rest

/-- Reading the escapes gives the text back. -/
theorem unescape_escaped (hq : q = apostrophe ∨ q = doubleQuote) (cs : List Char) :
    unescape (escaped q cs) = some cs := by
  induction cs with
  | nil => rfl
  | cons c cs ih => rw [escaped_cons, (escape_escapeChar hq c).unescape, ih, Option.map_some]

/-! ## Printable characters -/

theorem isPrintable_hexDigit : ∀ n < 16, isPrintable (hexDigit n) = true := by decide

theorem exists_hexDigit {width n : Nat} {d : Char} (h : d ∈ hexDigits width n) :
    ∃ m < 16, d = hexDigit m := by
  rw [hexDigits, List.mem_map] at h
  obtain ⟨i, -, rfl⟩ := h
  exact ⟨_, Nat.mod_lt _ (by decide), rfl⟩

/-- An escape by number is a backslash, a letter and hexadecimal digits. -/
theorem exists_codeEscape (c : Char) :
    ∃ mark digits, codeEscape c = '\\' :: mark :: digits ∧ isPrintable mark = true ∧
      ∀ d ∈ digits, ∃ n < 16, d = hexDigit n := by
  unfold codeEscape
  dsimp only
  split
  · exact ⟨_, _, rfl, rfl, fun _ => exists_hexDigit⟩
  split
  · exact ⟨_, _, rfl, rfl, fun _ => exists_hexDigit⟩
  · exact ⟨_, _, rfl, rfl, fun _ => exists_hexDigit⟩

theorem Escape.isPrintable {written : List Char} (h : Escape q c written) :
    ∀ d ∈ written, isPrintable d = true := by
  cases h with
  | short _ hmark => simpa using ⟨rfl, hmark⟩
  | plain _ _ h => simpa using h
  | code =>
    obtain ⟨mark, digits, heq, hmark, hdigits⟩ := exists_codeEscape c
    rw [heq]
    simp only [List.forall_mem_cons]
    refine ⟨rfl, hmark, fun d hd => ?_⟩
    obtain ⟨n, hn, rfl⟩ := hdigits d hd
    exact isPrintable_hexDigit n hn

/-- A literal is one line of printable characters. -/
theorem isPrintable_of_mem_quoteChars (h : c ∈ quoteChars cs) : isPrintable c = true := by
  have hq := quoteFor_eq cs
  have hmark : isPrintable (quoteFor cs) = true := by
    rcases hq with hq | hq <;> rw [hq] <;> rfl
  rw [quoteChars_eq, List.mem_cons, List.mem_append, List.mem_singleton, escaped, List.mem_flatMap] at h
  rcases h with rfl | ⟨d, -, hc⟩ | rfl
  · exact hmark
  · exact (escape_escapeChar hq d).isPrintable c hc
  · exact hmark

end Text

namespace Expr

open Text

variable {q c : Char} {cs rest : List Char}

/-! ## The lexeme of a literal -/

/-- Puts characters before the body that was read. -/
def withBody (front : List Char) (cut : List Char × List Char) : List Char × List Char :=
  (front ++ cut.1, cut.2)

theorem shortBody_plain (hslash : c ≠ '\\') (hquote : c ≠ q) (hfeed : c ≠ '\n') :
    shortBody q (c :: rest) = (shortBody q rest).map (withBody [c]) := by
  rw [shortBody]
  · rw [if_neg hquote, if_neg hfeed]
    rfl
  · exact fun _ _ heq => absurd heq hslash

theorem shortBody_digits (hq : q = apostrophe ∨ q = doubleQuote) {digits : List Char}
    (h : ∀ d ∈ digits, ∃ n < 16, d = hexDigit n) :
    shortBody q (digits ++ rest) = (shortBody q rest).map (withBody digits) := by
  have hdigit : ∀ n < 16, hexDigit n ≠ '\\' ∧ hexDigit n ≠ apostrophe ∧ hexDigit n ≠ doubleQuote ∧
      hexDigit n ≠ '\n' := by decide
  induction digits with
  | nil =>
    rw [List.nil_append]
    cases shortBody q rest <;> rfl
  | cons d digits ih =>
    obtain ⟨⟨n, hn, rfl⟩, hdigits⟩ := List.forall_mem_cons.mp h
    obtain ⟨hslash, hsingle, hdouble, hfeed⟩ := hdigit n hn
    have hquote : hexDigit n ≠ q := by
      rcases hq with rfl | rfl
      · exact hsingle
      · exact hdouble
    rw [List.cons_append, shortBody_plain hslash hquote hfeed, ih hdigits, Option.map_map]
    rfl

/-- The quote that ends a body is not in the escape of a character. -/
theorem shortBody_escape (hq : q = apostrophe ∨ q = doubleQuote) {written : List Char}
    (h : Escape q c written) (rest : List Char) :
    shortBody q (written ++ rest) = (shortBody q rest).map (withBody written) := by
  cases h with
  | short => rfl
  | plain hslash hquote h =>
    refine shortBody_plain hslash hquote ?_
    rintro rfl
    cases h
  | code =>
    obtain ⟨mark, digits, heq, -, hdigits⟩ := exists_codeEscape c
    rw [heq, List.cons_append, List.cons_append, shortBody, shortBody_digits hq hdigits, Option.map_map]
    rfl

theorem shortBody_escaped (hq : q = apostrophe ∨ q = doubleQuote) (cs rest : List Char) :
    shortBody q (escaped q cs ++ q :: rest) = some (escaped q cs, rest) := by
  induction cs with
  | nil =>
    have hslash : q ≠ '\\' := by rcases hq with rfl | rfl <;> decide
    rw [escaped, List.flatMap_nil, List.nil_append, shortBody, if_pos rfl]
    exact fun _ _ heq => absurd heq hslash
  | cons c cs ih =>
    rw [escaped_cons, List.append_assoc, shortBody_escape hq (escape_escapeChar hq c), ih]
    rfl

/-- The body of a literal, whatever follows it. The quotes of an empty one may be followed by no third. -/
theorem stringBody?_escaped (hq : q = apostrophe ∨ q = doubleQuote) (cs : List Char)
    (hrest : cs = [] → ∀ d ∈ rest.head?, q ≠ d) :
    stringBody? (q :: (escaped q cs ++ q :: rest)) = some (escaped q cs, rest) := by
  cases cs with
  | nil =>
    cases rest with
    | nil => simp [escaped, stringBody?]
    | cons d rest =>
      have hd : q ≠ d := hrest rfl d rfl
      simp [escaped, stringBody?, hd]
  | cons c cs =>
    have hbody := shortBody_escaped hq (c :: cs) rest
    -- the first character of an escape is not the quote
    obtain ⟨d, ds, hwritten, hd⟩ : ∃ d ds, escaped q (c :: cs) = d :: ds ∧ d ≠ q := by
      rw [escaped_cons]
      have hslash : '\\' ≠ q := by rcases hq with rfl | rfl <;> decide
      have hescape := escape_escapeChar hq c
      revert hescape
      generalize escapeChar q c = written
      intro hescape
      cases hescape with
      | short => exact ⟨_, _, rfl, hslash⟩
      | plain _ hquote => exact ⟨_, _, rfl, hquote⟩
      | code =>
        obtain ⟨mark, digits, heq, -⟩ := exists_codeEscape c
        rw [heq]
        exact ⟨_, _, rfl, hslash⟩
    rw [hwritten] at hbody ⊢
    cases ds with
    | nil =>
      rw [List.cons_append, List.nil_append] at hbody ⊢
      rw [stringBody?, if_neg (by simp [hd.symm]), if_neg hd.symm, hbody]
    | cons e es =>
      rw [List.cons_append, List.cons_append] at hbody ⊢
      rw [stringBody?, if_neg (by simp [hd.symm]), if_neg hd.symm, hbody]

theorem stringPrefix?_quote (hq : q = apostrophe ∨ q = doubleQuote) (rest : List Char) :
    stringPrefix? {} (q :: rest) = some ({}, q :: rest) := by
  have hquote : isQuote q = true := by rcases hq with rfl | rfl <;> rfl
  rw [stringPrefix?, if_pos hquote]

/-- A line that begins with a quote is not indented. -/
theorem scanFrom_fresh_quote (hq : q = apostrophe ∨ q = doubleQuote) (n : Nat) (rest : List Char) :
    scanFrom (n + 1) [] true (q :: rest) = scanFrom n [] false (q :: rest) := by
  rcases hq with rfl | rfl <;> rfl

theorem scanFrom_string (hq : q = apostrophe ∨ q = doubleQuote) (n : Nat) (waiting : List String)
    {after body : List Char} {value : Literal} (hbody : stringBody? (q :: rest) = some (body, after))
    (hvalue : StringPrefix.literal? {} body = some value) :
    scanFrom (n + 1) waiting false (q :: rest) = .constant value :: scanFrom n waiting false after := by
  have hother : q ≠ ' ' ∧ q ≠ '\t' ∧ q ≠ '\x0c' ∧ q ≠ '#' ∧ q ≠ '\n' ∧ q ≠ '\\' ∧ q ≠ '.' ∧
      q.isDigit = false := by
    rcases hq with rfl | rfl <;> decide
  obtain ⟨hspace, htab, hform, hcomment, hfeed, hslash, hpoint, hdigit⟩ := hother
  have hmark := stringPrefix?_quote hq rest
  rw [scanFrom.eq_def]
  simp [hspace, htab, hform, hcomment, hfeed, hslash, hpoint, hdigit, hmark, hbody, hvalue]

/-- The literal of a text is one lexeme, wherever it stands. -/
theorem scanFrom_quoteChars (n : Nat) (waiting : List String) (cs : List Char)
    (hrest : ∀ d ∈ rest.head?, d ≠ apostrophe ∧ d ≠ doubleQuote) :
    scanFrom (n + 1) waiting false (quoteChars cs ++ rest) =
      .constant (.text (String.ofList cs)) :: scanFrom n waiting false rest := by
  have hq := quoteFor_eq cs
  have hvalue : StringPrefix.literal? {} (escaped (quoteFor cs) cs) = some (.text (String.ofList cs)) := by
    simp [StringPrefix.literal?, unescape_escaped hq]
  have hother : cs = [] → ∀ d ∈ rest.head?, quoteFor cs ≠ d := by
    intro _ d hd
    obtain ⟨hsingle, hdouble⟩ := hrest d hd
    rcases hq with hq | hq <;> rw [hq]
    · exact hsingle.symm
    · exact hdouble.symm
  rw [quoteChars_eq, List.cons_append, List.append_assoc, List.singleton_append]
  exact scanFrom_string hq n waiting (stringBody?_escaped hq cs hother) hvalue

/-- The literal of a text is one lexeme. -/
theorem scan_quoteChars (cs : List Char) :
    Lexeme.scan (quoteChars cs) = [.constant (.text (String.ofList cs))] := by
  have hq := quoteFor_eq cs
  have hreturn : ∀ c ∈ quoteChars cs, c ≠ '\r' := by
    rintro c hc rfl
    cases isPrintable_of_mem_quoteChars hc
  obtain ⟨n, hfuel⟩ : ∃ n, 2 * (quoteChars cs).length + 2 = n + 3 := by
    rw [quoteChars_eq, List.length_cons]
    exact ⟨_, rfl⟩
  have hscan : scanFrom (n + 2) [] false (quoteChars cs ++ []) =
      .constant (.text (String.ofList cs)) :: scanFrom (n + 1) [] false [] :=
    scanFrom_quoteChars (n + 1) [] cs (by simp)
  rw [List.append_nil, quoteChars_eq] at hscan
  rw [Lexeme.scan, normalizeNewlines_eq_self hreturn, hfuel, quoteChars_eq, scanFrom_fresh_quote hq, hscan,
    scanFrom]
  rfl

/-! ## The value of a literal -/

theorem parseTrimmed_quoteChars (cs : List Char) :
    parseTrimmed (String.ofList (quoteChars cs)) = .ok (.literal (.text (String.ofList cs))) := by
  have hblank : (quoteChars cs).dropWhile (fun c => c = ' ' || c = '\t') = quoteChars cs := by
    rw [quoteChars_eq]
    rcases quoteFor_eq cs with hq | hq <;> rw [hq] <;> rfl
  have hnul : (quoteChars cs).contains (Char.ofNat 0) = false := by
    rw [Bool.eq_false_iff, ne_eq, List.contains_iff_mem]
    intro hmem
    cases isPrintable_of_mem_quoteChars hmem
  rw [parseTrimmed, String.toList_ofList, hblank, parse, String.toList_ofList, hnul,
    if_neg Bool.false_ne_true, scan_quoteChars]
  rfl

/-- The literal of a text has the text as its value. -/
theorem evalText_quote (scope : Scope) (s : String) : evalText scope (quote s) = .ok (.text s) := by
  rw [evalText, quote, parseTrimmed_quoteChars, String.ofList_toList]
  rfl

end Expr

end ValueShell
