import ValueShell.Proofs.Command.Boundary
import ValueShell.Proofs.Command.Nesting
import ValueShell.Proofs.Expr.Name

/-!
# Names after arrows

A name under which a command hands back a result is an unquoted word after an arrow. The reader looks only
at how the word begins, so the names that it lets through are those of `isResultName`: any characters of
unquoted words may follow the first one (`isResultName_of_parse`, `exists_parse_arrow`). The names of a tree
are words of the command line (`Written.names`), also where they stand inside of other words, and aliases add
no other characters to words (`unquoted_tokens`).
-/

set_option autoImplicit false

namespace ValueShell

namespace Token

open Text
open ValueShell.Plan (ok_of_bind)

variable {c : Char} {cs piece left : List Char} {kind : TokenKind}

/-! ## The characters of words -/

/-- The characters of unquoted words. -/
def isUnquotedChar (c : Char) : Bool := isPlainChar c || c = '-' || c = '='

/-- All of them are visible. -/
theorem toNat_of_unquotedChar (h : isUnquotedChar c = true) : 33 ≤ c.toNat ∧ c.toNat ≤ 126 := by
  have hsign : ∀ {signs : List Char}, signs.all (fun d => 33 ≤ d.toNat && d.toNat ≤ 126) = true →
      c ∈ signs → 33 ≤ c.toNat ∧ c.toNat ≤ 126 := by
    intro signs hall hmem
    simpa using List.all_eq_true.mp hall c hmem
  rw [isUnquotedChar, isPlainChar, Char.isAlphanum] at h
  simp only [Bool.or_eq_true, decide_eq_true_eq, List.contains_iff_mem] at h
  rcases h with (((halpha | hdigit) | hmem) | rfl) | rfl
  · have hbounds := Expr.toNat_of_isAlpha halpha
    omega
  · have hbounds : (decide (48 ≤ c.val) && decide (c.val ≤ 57)) = true := hdigit
    rw [Bool.and_eq_true, decide_eq_true_eq, decide_eq_true_eq] at hbounds
    exact ⟨Nat.le_trans (by decide) (UInt32.le_iff_toNat_le.mp hbounds.1),
      Nat.le_trans (UInt32.le_iff_toNat_le.mp hbounds.2) (by decide)⟩
  · exact hsign (by decide) hmem
  · decide
  · decide

theorem isBlank_of_unquotedChar (h : isUnquotedChar c = true) : isBlank c = false := by
  have hbounds := toNat_of_unquotedChar h
  simp [isBlank, blankRanges, Ranges.contains]
  omega

/-- The characters of unquoted words that names do not have. -/
def punctuation : List Char :=
  ['!', '#', '%', '*', '+', ',', '-', '.', '/', ':', '=', '?', '@', '[', '\\', ']', '^', Char.ofNat 0x7B,
    Char.ofNat 0x7D, '~']

theorem isUnquotedChar_iff : isUnquotedChar c = true ↔ isAsciiNameChar c = true ∨ c ∈ punctuation := by
  rw [isUnquotedChar, isPlainChar, isAsciiNameChar, punctuation]
  simp only [Bool.or_eq_true, decide_eq_true_eq, List.contains_iff_mem, List.mem_cons, List.not_mem_nil,
    beq_iff_eq, or_false]
  exact iff_of_eq (by ac_rfl)

theorem isAsciiNameChar_of_punctuation (h : c ∈ punctuation) : isAsciiNameChar c = false := by
  have hall : punctuation.all (fun d => !isAsciiNameChar d) = true := by decide
  simpa using List.all_eq_true.mp hall c h

theorem isUnquotedChar_of_mem_plainWord (h : c ∈ (plainWord cs).1) : isUnquotedChar c = true := by
  induction cs with
  | nil => cases h
  | cons d rest ih =>
    rw [plainWord] at h
    split at h
    · rename_i htaken
      rcases List.mem_cons.mp h with rfl | h
      · rw [isUnquotedChar]
        simp only [Bool.or_eq_true, Bool.and_eq_true] at htaken ⊢
        tauto
      · exact ih h
    · cases h

/-- A literal is an unquoted word or a dollar sign. -/
def Unquoted (t : Token) : Prop :=
  t.kind = .literal → t.text = "$" ∨ ∀ c ∈ t.text.toList, isUnquotedChar c = true

theorem Unquoted.of_ne {t : Token} (h : t.kind ≠ .literal) : t.Unquoted := fun hkind => absurd hkind h

/-! ## Through lexing, aliases and spaces -/

theorem unquoted_of_next? (h : next? cs = .ok (some (kind, piece, left))) :
    (ofPiece kind piece).Unquoted := by
  cases cutBy_of_next? h with
  | sign hmem _ =>
    have hall : ∀ s ∈ signs, s.2 ≠ .literal := by decide
    exact .of_ne (hall _ hmem)
  | string hstring =>
    obtain ⟨q, rest, f, -, ⟨-, rfl⟩ | ⟨-, rfl⟩, -⟩ := exists_first_of_cutString hstring
    all_goals exact .of_ne TokenKind.noConfusion
  | dollar hcut =>
    obtain ⟨rfl, -⟩ := cutText_eq_some hcut
    exact fun _ => .inl rfl
  | word hcut =>
    refine fun _ => .inr fun c hc => ?_
    have hpiece : c ∈ piece := by simpa [ofPiece] using hc
    unfold cutLiteral at hcut
    split at hcut
    · cases hcut
    · have hword : plainWord cs = (piece, left) := Option.some.inj hcut
      have hmem : c ∈ (plainWord cs).1 := by rwa [hword]
      exact isUnquotedChar_of_mem_plainWord hmem
  | _ => exact .of_ne TokenKind.noConfusion

theorem unquoted_raw (text : String) : ∀ t ∈ (raw text).tokens, t.Unquoted := by
  have hcuts : ∀ {cs left : List Char} {cuts : List (Token × List Char)}, Cuts cs cuts left →
      ∀ t ∈ cuts.map Prod.fst, t.Unquoted := by
    intro cs left cuts h
    induction h with
    | nil => simp
    | cons hnext _ ih => exact List.forall_mem_cons.mpr ⟨unquoted_of_next? hnext, ih⟩
  obtain ⟨cuts, left, h, ⟨-, hraw⟩ | ⟨_, -, hraw⟩⟩ := cuts_raw text
  · rw [hraw]
    exact List.forall_mem_append.mpr ⟨hcuts h, by simp [Unquoted, eof]⟩
  · rw [hraw]
    exact hcuts h

variable {expand : Bool → String → Except Fault (List Token)}

/-- What stands in the place of a literal has unquoted words for literals as well. -/
def KeepsUnquoted (expand : Bool → String → Except Fault (List Token)) : Prop :=
  ∀ globalOnly text replacement, Unquoted ⟨.literal, text⟩ → expand globalOnly text = .ok replacement →
    ∀ t ∈ replacement, t.Unquoted

theorem unquoted_expandWith (h : KeepsUnquoted expand) (fault : Option Fault) (before : Option Token)
    (globalOnly : Bool) (ts : List Token) (hts : ∀ t ∈ ts, t.Unquoted) :
    ∀ t ∈ (expandWith expand fault before globalOnly ts).tokens, t.Unquoted := by
  fun_induction expandWith expand fault before globalOnly ts with
  | case1 => simp
  | case2 before globalOnly t rest _ ih =>
    obtain ⟨ht, hrest⟩ := List.forall_mem_cons.mp hts
    exact List.forall_mem_cons.mpr ⟨ht, ih hrest⟩
  | case3 => simp
  | case4 before globalOnly t _ n rest _ ih =>
    obtain ⟨ht, hrest⟩ := List.forall_mem_cons.mp hts
    obtain ⟨hn, hrest⟩ := List.forall_mem_cons.mp hrest
    exact List.forall_mem_cons.mpr ⟨ht, List.forall_mem_cons.mpr ⟨hn, ih hrest⟩⟩
  | case5 => simp
  | case6 before globalOnly t hliteral n rest _ replacement hreplacement _ ih =>
    obtain ⟨ht, hrest⟩ := List.forall_mem_cons.mp hts
    obtain ⟨hn, hrest⟩ := List.forall_mem_cons.mp hrest
    have hkind : t.kind = .literal := by
      simp only [Bool.or_eq_true, decide_eq_true_eq, not_or, ne_eq, Decidable.not_not] at hliteral
      exact hliteral.1
    refine List.forall_mem_append.mpr ⟨h _ _ _ (fun _ => ht hkind) hreplacement, ?_⟩
    exact List.forall_mem_cons.mpr ⟨hn, ih hrest⟩

/-- Settling spaces adds no tokens. -/
theorem mem_of_mem_settle {fault : Option Fault} {current t : Token} {fresh : Bool} {ts : List Token}
    (h : t ∈ (settle fault current fresh ts).tokens) : t ∈ current :: ts := by
  induction ts generalizing current fresh with
  | nil =>
    rw [settle] at h
    split at h
    · exact h
    · cases h
  | cons next rest ih =>
    rw [settle] at h
    split at h
    · exact List.mem_singleton.mp h ▸ List.mem_cons_self
    split at h
    · have hmem := ih h
      simp only [List.mem_cons] at hmem ⊢
      tauto
    split at h
    · exact List.mem_cons_of_mem _ (ih h)
    · rcases List.mem_cons.mp h with rfl | h
      · exact List.mem_cons_self
      · exact List.mem_cons_of_mem _ (ih h)

theorem unquoted_tokensWith (h : KeepsUnquoted expand) (globalOnly : Bool) (text : String) :
    ∀ t ∈ (tokensWith expand globalOnly text).tokens, t.Unquoted := by
  have hexpanded := unquoted_expandWith h (raw text).fault none globalOnly _ (unquoted_raw text)
  intro t ht
  rw [tokensWith, settleAll] at ht
  split at ht
  · cases ht
  · rename_i heq
    rw [heq] at hexpanded
    exact hexpanded t (mem_of_mem_settle ht)

theorem keepsUnquoted_expandAlias (aliases : List Alias) (depth : Nat) (active : List String) :
    KeepsUnquoted (expandAlias aliases depth active) := by
  induction depth generalizing active with
  | zero =>
    intro globalOnly text replacement htext h
    cases h
    simpa using htext
  | succ depth ih =>
    intro globalOnly text replacement htext h
    rw [expandAlias] at h
    split at h
    · cases h
      simpa using htext
    · rename_i a _
      split at h
      · cases h
        simpa using htext
      · have hinner := unquoted_tokensWith (ih (text :: active)) globalOnly a.text
        dsimp only at h
        split at h
        · cases h
          exact fun t ht => hinner t (List.dropLast_subset _ ht)
        · cases h
          exact fun t ht => hinner t (List.dropLast_subset _ ht)
        · cases h

/-- The literals of a command line are unquoted words and dollar signs. -/
theorem unquoted_tokens (aliases : List Alias) (globalOnly : Bool) (text : String) :
    ∀ t ∈ (tokens aliases globalOnly text).tokens, t.Unquoted :=
  unquoted_tokensWith (keepsUnquoted_expandAlias aliases _ _) globalOnly text

/-! ## A word that begins like a name -/

theorem plainWord_eq (h : ∀ d ∈ cs, isUnquotedChar d = true) : plainWord cs = (cs, []) := by
  induction cs with
  | nil => rfl
  | cons c rest ih =>
    obtain ⟨hc, hrest⟩ := List.forall_mem_cons.mp h
    -- no arrow begins inside of the word
    have harrow : (rest.head? != some '>') = true := by
      cases rest with
      | nil => rfl
      | cons d rest =>
        have hd := hrest d List.mem_cons_self
        have hne : d ≠ '>' := by
          rintro rfl
          cases hd
        simpa using hne
    rw [isUnquotedChar] at hc
    rw [plainWord, ih hrest, harrow, Bool.and_true, ← Bool.or_assoc, if_pos hc]

/-- No sign begins like a name. -/
theorem cutSign_name (hc : isAsciiNameStart c = true) :
    cutSign (c :: cs) = none := by
  have hsigns : ∀ sign ∈ signs, ∃ d ds, sign.1 = d :: ds ∧ isAsciiNameStart d = false := by
    simp only [signs, List.forall_mem_cons]
    exact ⟨⟨_, _, rfl, rfl⟩, ⟨_, _, rfl, rfl⟩, ⟨_, _, rfl, rfl⟩, ⟨_, _, rfl, rfl⟩, ⟨_, _, rfl, rfl⟩,
      ⟨_, _, rfl, rfl⟩, ⟨_, _, rfl, rfl⟩, ⟨_, _, rfl, rfl⟩, ⟨_, _, rfl, rfl⟩, by simp⟩
  rw [cutSign, List.findSome?_eq_none_iff]
  intro sign hsign
  obtain ⟨d, ds, htext, hd⟩ := hsigns sign hsign
  have hne : d ≠ c := by
    rintro rfl
    rw [hc] at hd
    cases hd
  simp [cutText, htext, hne]

/-- A word that begins like a name is cut off as a whole. -/
theorem next?_name (hc : isAsciiNameStart c = true)
    (hcs : ∀ d ∈ c :: cs, isUnquotedChar d = true) :
    next? (c :: cs) = .ok (some (.literal, c :: cs, [])) := by
  have hne : ∀ {d : Char}, isAsciiNameStart d = false → c ≠ d := by
    rintro d hd rfl
    rw [hc] at hd
    cases hd
  have hword := hcs c List.mem_cons_self
  have hdigit : isDecimalDigit c = false := by
    have hbound := toNat_of_unquotedChar hword
    have hascii : c.toNat < 128 := by omega
    rw [isDecimalDigit, digitValue?, if_pos hascii, Expr.isDigit_of_start hc]
    rfl
  have hgap : isGap c = false := isGap_eq_false (isBlank_of_unquotedChar hword)
  have hdollar : c ≠ '$' := hne rfl
  have hredirect : cutRedirect (c :: cs) = none := by
    have hangle : c ≠ '>' := hne rfl
    simp [cutRedirect, hdigit, hangle]
  have hstring : cutString (c :: cs) = .ok none := by
    have hdouble : c ≠ doubleQuote := hne rfl
    have hsingle : c ≠ apostrophe := hne rfl
    simp [cutString, hdouble, hsingle]
  have hvariable : cutVariable (c :: cs) = none := by
    simp [cutVariable, hdollar]
  have hexpression : cutExpression (c :: cs) = .ok none := by
    simp [cutExpression, Ne.symm hdollar]
  have hliteral : cutLiteral (c :: cs) = some (c :: cs, []) := by
    rw [cutLiteral, plainWord_eq hcs]
  unfold next?
  rw [hredirect, cutSign_name hc, hstring]
  simp [bind, Except.bind, hvariable, hexpression, cutText, cutWhile, Ne.symm hdollar, hgap, hliteral]

end Token

/-! ## The names of a tree -/

mutual

/-- The names of all assignments and captures in a tree, also of those in commands inside of words and of
the targets of redirections. -/
def Tree.names : Tree → List String
  | .process words redirects => Tree.wordNames words ++ Tree.redirectNames redirects
  | .binary _ left right => left.names ++ right.names
  | .assign command name => command.names ++ [name]

def Tree.wordNames : List (List Piece) → List String
  | [] => []
  | word :: rest => Tree.pieceNames word ++ Tree.wordNames rest

def Tree.pieceNames : List Piece → List String
  | [] => []
  | piece :: rest => piece.names ++ Tree.pieceNames rest

def Piece.names : Piece → List String
  | .token _ => []
  | .backquote command => command.names

def Tree.redirectNames : List Redirect → List String
  | [] => []
  | redirect :: rest => redirect.names ++ Tree.redirectNames rest

def Redirect.names : Redirect → List String
  | .descriptor _ _ _ => []
  | .file _ _ target => Tree.pieceNames target
  | .capture name => [name]

end

namespace Tree

@[simp] theorem pieceNames_append (pieces others : List Piece) :
    pieceNames (pieces ++ others) = pieceNames pieces ++ pieceNames others := by
  induction pieces with
  | nil => rfl
  | cons piece pieces ih => simp [pieceNames, ih]

@[simp] theorem wordNames_append (words others : List (List Piece)) :
    wordNames (words ++ others) = wordNames words ++ wordNames others := by
  induction words with
  | nil => rfl
  | cons word words ih => simp [wordNames, ih]

@[simp] theorem redirectNames_append (redirects others : List Redirect) :
    redirectNames (redirects ++ others) = redirectNames redirects ++ redirectNames others := by
  induction redirects with
  | nil => rfl
  | cons redirect redirects ih => simp [redirectNames, ih]

@[simp] theorem pieceNames_tokens (ts : List Token) : pieceNames (ts.map .token) = [] := by
  induction ts with
  | nil => rfl
  | cons t ts ih => simp [pieceNames, Piece.names, ih]

theorem captured_subset (redirects : List Redirect) :
    Redirect.captured redirects ⊆ redirectNames redirects := by
  induction redirects with
  | nil => simp [Redirect.captured]
  | cons redirect rest ih =>
    cases redirect with
    | descriptor => exact ih
    | file => exact List.subset_append_of_subset_right _ ih
    | capture name => exact List.cons_subset_cons name ih

/-- The names that are handed back are among them. -/
theorem resultNames_subset (tree : Tree) : tree.resultNames ⊆ tree.names := by
  fun_induction resultNames tree with
  | case1 words redirects => exact List.subset_append_of_subset_right _ (captured_subset redirects)
  | case2 op left right ihl ihr =>
    exact List.append_subset.mpr ⟨List.subset_append_of_subset_left _ ihl,
      List.subset_append_of_subset_right _ ihr⟩
  | case3 command name ih =>
    exact List.append_subset.mpr ⟨List.subset_append_of_subset_left _ ih, List.subset_append_right _ _⟩

end Tree

/-- The names in what tokens write. -/
def Phrase.names : Phrase → List String
  | .word pieces => Tree.pieceNames pieces
  | .process words redirects => Tree.names (.process words redirects)
  | .command tree => tree.names
  | .pipeline tree => tree.names
  | .condition tree => tree.names
  | .sequence tree => tree.names
  | .line tree => tree.names

/-- Each name is a literal among the tokens, and begins like a name. -/
def NamedBy (ts : List Token) (names : List String) : Prop :=
  ∀ name ∈ names, Tree.beginsLikeName name = true ∧ ⟨.literal, name⟩ ∈ ts

namespace NamedBy

variable {ts us : List Token} {names others : List String}

theorem nil : NamedBy ts [] := by simp [NamedBy]

theorem mono (h : NamedBy ts names) (hts : ts ⊆ us) : NamedBy us names :=
  fun name hname => (h name hname).imp_right fun hmem => hts hmem

theorem append (h : NamedBy ts names) (h' : NamedBy us others) : NamedBy (ts ++ us) (names ++ others) :=
  List.forall_mem_append.mpr
    ⟨h.mono (List.subset_append_left ts us), h'.mono (List.subset_append_right ts us)⟩

theorem cons (h : NamedBy ts names) (t : Token) : NamedBy (t :: ts) names :=
  h.mono (List.subset_cons_self t ts)

theorem between (h : NamedBy ts names) (front back : List Token) : NamedBy (front ++ (ts ++ back)) names :=
  h.mono (List.subset_append_of_subset_right front (List.subset_append_left ts back))

theorem of_subset (h : NamedBy ts names) (hnames : others ⊆ names) : NamedBy ts others :=
  fun name hname => h name (hnames hname)

theorem single {t : Token} (hkind : t.kind = .literal) (hname : Tree.beginsLikeName t.text = true) :
    NamedBy [t] [t.text] := by
  simp [NamedBy, hname, ← hkind]

end NamedBy

/-- The names in what tokens write are among the tokens. -/
theorem Written.names {inside : Bool} {phrase : Phrase} {tail : Tail} {ts : List Token}
    (h : Written inside phrase tail ts) : NamedBy ts phrase.names := by
  -- a process with one more redirection
  have hmore : ∀ {words : List (List Piece)} {redirects : List Redirect} {redirect : Redirect}
      {ts us : List Token}, NamedBy ts (Phrase.process words redirects).names → NamedBy us redirect.names →
      NamedBy (ts ++ us) (Phrase.process words (redirects ++ [redirect])).names := by
    intro words redirects redirect ts us hprocess hredirect
    simpa [Phrase.names, Tree.names, Tree.redirectNames] using hprocess.append hredirect
  induction h with
  | nothing => exact .nil
  | part _ _ _ ih =>
    simpa [Phrase.names, Tree.pieceNames, Piece.names] using ih.append .nil
  | quoted _ _ _ ih => simpa [Phrase.names] using ih.append .nil
  | backquoted _ _ _ _ _ ih ihline =>
    simpa [Phrase.names, Tree.pieceNames, Piece.names] using ih.append ((ihline.between _ _).cons _)
  | first _ _ ih => simpa [Phrase.names, Tree.names, Tree.wordNames, Tree.redirectNames] using ih
  | argument _ _ _ _ ih ihword =>
    refine (ih.append (ihword.cons _)).of_subset ?_
    simp [Phrase.names, Tree.names, Tree.wordNames]
  | descriptor _ _ _ ih => exact hmore ih .nil
  | file _ _ _ _ _ ih ihword => exact hmore ih (ihword.cons _)
  | capture _ _ hkind hname ih => exact hmore ih ((NamedBy.single hkind hname).cons _)
  | process _ ih => exact ih
  | padded _ _ ih => simpa [Phrase.names] using ih.append .nil
  | group _ _ _ _ ih => simpa [Phrase.names] using (ih.append .nil).cons _
  | command _ ih => exact ih
  | pipe _ _ _ _ ih ihright => exact ih.append (ihright.cons _)
  | store _ _ _ hkind hname ih => exact ih.append ((NamedBy.single hkind hname).cons _)
  | pipeline _ ih => exact ih
  | conditional _ _ _ _ _ ih ihright => exact ih.append (ihright.cons _)
  | condition _ ih => exact ih
  | successive _ _ _ _ _ ih ihright => exact ih.append (ihright.cons _)
  | sequence _ ih => exact ih
  | terminated _ _ _ ih => simpa [Phrase.names] using ih.append .nil

/-! ## Which names are let through -/

namespace Tree

open Text Token

/-- A word that begins like a name. -/
def isResultName (name : String) : Bool := beginsLikeName name && name.toList.all isUnquotedChar

theorem isResultName_iff {name : String} :
    isResultName name = true ↔
      ∃ c cs, name.toList = c :: cs ∧ isAsciiNameStart c = true ∧ ∀ d ∈ c :: cs, isUnquotedChar d = true := by
  rw [isResultName, beginsLikeName, Bool.and_eq_true, List.all_eq_true]
  cases name.toList with
  | nil => simp
  | cons c cs => simp

/-- A name that is let through is the name of a variable unless it holds punctuation. -/
theorem isWord_iff {name : String} (h : isResultName name = true) :
    Expr.isWord name.toList = true ↔ ∀ c ∈ name.toList, c ∉ punctuation := by
  obtain ⟨c, cs, hname, hc, hchars⟩ := isResultName_iff.mp h
  rw [hname]
  constructor
  · intro hword d hd hmem
    have hfalse := isAsciiNameChar_of_punctuation hmem
    rw [Expr.isAsciiNameChar_of_mem hword hd] at hfalse
    cases hfalse
  · intro hnone
    refine Expr.isWord_cons.mpr ⟨hc, fun d hd => ?_⟩
    have hmem := List.mem_cons_of_mem c hd
    exact (isUnquotedChar_iff.mp (hchars d hmem)).resolve_right (hnone d hmem)

theorem isResultName_of_parse {aliases : List Alias} {text : String} {tree : Tree} {left : Input}
    (h : parse aliases text = .ok (tree, left)) : ∀ name ∈ tree.names, isResultName name = true := by
  obtain ⟨tail, taken, htokens, -, -, hwritten, -⟩ := ofReading_eq_ok_iff.mp h
  intro name hname
  obtain ⟨hbegins, hmem⟩ := hwritten.names name hname
  have htaken : ⟨.literal, name⟩ ∈ (tokens aliases false text).tokens := by
    rw [htokens]
    exact List.mem_append_left _ hmem
  rcases unquoted_tokens aliases false text _ htaken rfl with rfl | hchars
  · cases hbegins
  · rw [isResultName, hbegins, Bool.true_and, List.all_eq_true]
    exact hchars

/-- The tokens of a command line without blanks that stores a status. -/
theorem tokens_arrow {name : String} (h : isResultName name = true) :
    (tokens [] false ("x->" ++ name)).tokens =
      [⟨.literal, "x"⟩, ⟨.arrow, "->"⟩, ⟨.literal, name⟩, eof] := by
  obtain ⟨c, cs, hname, hc, hchars⟩ := isResultName_iff.mp h
  have htext : ("x->" ++ name).toList = 'x' :: '-' :: '>' :: c :: cs := by
    rw [String.toList_append, hname]
    rfl
  have hstrip : strip ("x->" ++ name).toList = 'x' :: '-' :: '>' :: c :: cs := by
    have hblank : isBlank ((c :: cs).getLast (List.cons_ne_nil c cs)) = false :=
      isBlank_of_unquotedChar (hchars _ (List.getLast_mem _))
    have hlast : ('x' :: '-' :: '>' :: c :: cs).getLast? = some _ :=
      List.getLast?_eq_some_getLast (List.cons_ne_nil c cs)
    rw [htext]
    simpa [trimEnd] using strip_around rfl hlast rfl hblank [] []
  have hcuts : Cuts ('x' :: '-' :: '>' :: c :: cs)
      [(ofPiece .literal ['x'], ['x']), (ofPiece .arrow ['-', '>'], ['-', '>']),
        (ofPiece .literal (c :: cs), c :: cs)] [] :=
    .cons rfl (.cons rfl (.cons (next?_name hc hchars) (.nil [])))
  have hlast : ofPiece .literal (c :: cs) = ⟨.literal, name⟩ := by
    rw [ofPiece, if_neg TokenKind.noConfusion, ← hname, String.ofList_toList]
  have hraw : raw ("x->" ++ name) =
      { tokens := [⟨.literal, "x"⟩, ⟨.arrow, "->"⟩, ⟨.literal, name⟩, eof] } := by
    rw [raw, hstrip, (rawFrom_of_cuts hcuts (Nat.lt_succ_self _)).1 rfl, ← hlast]
    rfl
  rw [tokens, tokensWith, hraw]
  rfl

/-- Every such word is let through. -/
theorem exists_parse_arrow {name : String} (h : isResultName name = true) :
    ∃ left, parse [] ("x->" ++ name) = .ok (.assign (.process [[.token ⟨.literal, "x"⟩]] []) name, left) := by
  obtain ⟨hbegins, -⟩ := (Bool.and_eq_true _ _).mp h
  have hword : Written false (.word ([] ++ [.token ⟨.literal, "x"⟩])) .word [⟨.literal, "x"⟩] :=
    .part .nothing rfl TokenKind.noConfusion
  have hsign : (⟨.arrow, "->"⟩ : Token).kind = .arrow := rfl
  have hkind : (⟨.literal, name⟩ : Token).kind = .literal := rfl
  have hpipeline := Written.store (.command (.process (.first hword (List.cons_ne_nil _ _)))) rfl hsign hkind
    hbegins
  have hline := Written.sequence (.condition (.pipeline hpipeline))
  exact ⟨⟨[eof], _⟩, ofReading_eq_ok_iff.mpr ⟨_, _, tokens_arrow h, List.cons_ne_nil _ _, rfl, hline, rfl⟩⟩

end Tree

end ValueShell
