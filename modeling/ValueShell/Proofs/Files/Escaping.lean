import ValueShell.Pipeline.Word
import ValueShell.Proofs.Files.Patterns
import ValueShell.Proofs.Pipeline.Diagnosis
import ValueShell.Proofs.Text.Quoting

/-!
# Quoted text in patterns

What is quoted or substituted in a word with stars or question marks is written into the pattern such that its own
stars and question marks stand for themselves: each becomes a set of one member. Opening brackets are left as they
are. So a text stands only for itself if none of its brackets opens a set, and else the pattern has fewer
parts than the text has characters and does not match the text at all (`length_glyphs_escapeChars`).

In a word other parts can close a bracket of the text. Therefore a text stands for itself in all words exactly if
it has no opening bracket (`quoted_exact_iff`).
-/

set_option autoImplicit false

namespace ValueShell.Files

variable {c : Char} {cs : List Char}

/-! ## Escaped characters -/

/-- The characters as they are written in a pattern. -/
def escapeChars (cs : List Char) : List Char := (escapePattern (String.ofList cs)).toList

/-- The character has a meaning of its own in a pattern and is escaped. -/
def isWild (c : Char) : Bool := c = '*' || c = '?'

/-- The part of a pattern that stands for one character. -/
def exactGlyph (c : Char) : Glyph := if isWild c then .set false [(c, c)] else .char c

theorem isWild_iff : isWild c = true ↔ c = '*' ∨ c = '?' := by
  simp [isWild]

theorem toList_escapePattern (s : String) : (escapePattern s).toList = escapeChars s.toList := by
  rw [escapeChars, String.ofList_toList]

theorem escapeChars_append (cs ds : List Char) : escapeChars (cs ++ ds) = escapeChars cs ++ escapeChars ds := by
  simp [escapeChars, escapePattern]

theorem escapeChars_wild (h : isWild c = true) (cs : List Char) :
    escapeChars (c :: cs) = '[' :: c :: ']' :: escapeChars cs := by
  rcases isWild_iff.mp h with rfl | rfl <;> simp [escapeChars, escapePattern]

theorem escapeChars_plain (h : isWild c = false) (cs : List Char) :
    escapeChars (c :: cs) = c :: escapeChars cs := by
  simp only [isWild, Bool.or_eq_false_iff, decide_eq_false_iff_not] at h
  simp [escapeChars, escapePattern, h]

/-- An escaped character is read as the part that stands for it. -/
theorem glyphs_wild (h : isWild c = true) (cs : List Char) :
    glyphs ('[' :: c :: ']' :: cs) = exactGlyph c :: glyphs cs := by
  have hset : setMembers? (c :: ']' :: cs) = some ([c], cs) := by
    rcases isWild_iff.mp h with rfl | rfl <;> rfl
  rw [glyphs_set hset]
  rcases isWild_iff.mp h with rfl | rfl <;> rfl

theorem glyphs_plain (hbracket : c ≠ '[') (hc : isWild c = false) (cs : List Char) :
    glyphs (c :: cs) = exactGlyph c :: glyphs cs := by
  have hplain : c ≠ '*' ∧ c ≠ '?' := by simpa [isWild] using hc
  rw [glyphs_char hbracket hplain.1 hplain.2, exactGlyph, hc]
  rfl

theorem exactGlyph_ne_star (c : Char) : exactGlyph c ≠ .star := by
  unfold exactGlyph
  split <;> simp

theorem accepts_exactGlyph {d : Char} : (exactGlyph c).accepts d = true ↔ d = c := by
  unfold exactGlyph
  split
  · simp only [Glyph.accepts, List.any_cons, List.any_nil, Bool.or_false, Bool.false_bne, Bool.and_eq_true,
      decide_eq_true_eq]
    constructor
    · rintro ⟨hcd, hdc⟩
      exact Char.le_antisymm hdc hcd
    · rintro rfl
      exact ⟨Char.le_refl _, Char.le_refl _⟩
  · simp [Glyph.accepts]

/-- The parts that stand for the characters of a text match this text only. -/
theorem matchGlyphs_exact {ds : List Char} : matchGlyphs (cs.map exactGlyph) ds = true ↔ ds = cs := by
  induction cs generalizing ds with
  | nil => simp [matchGlyphs]
  | cons c cs ih =>
    rw [List.map_cons, matchGlyphs_cons (exactGlyph_ne_star c)]
    constructor
    · rintro ⟨d, rest, rfl, hd, hrest⟩
      rw [accepts_exactGlyph.mp hd, ih.mp hrest]
    · rintro rfl
      exact ⟨c, cs, rfl, accepts_exactGlyph.mpr rfl, ih.mpr rfl⟩

/-- A text without opening brackets is read as the parts that stand for its characters, whatever follows. -/
theorem glyphs_escapeChars_append (h : '[' ∉ cs) (rest : List Char) :
    glyphs (escapeChars cs ++ rest) = cs.map exactGlyph ++ glyphs rest := by
  induction cs with
  | nil => rfl
  | cons c cs ih =>
    rw [List.mem_cons, not_or] at h
    by_cases hc : isWild c = true
    · simp only [escapeChars_wild hc, List.cons_append, glyphs_wild hc, ih h.2, List.map_cons]
    · rw [Bool.not_eq_true] at hc
      rw [escapeChars_plain hc, List.cons_append, glyphs_plain (Ne.symm h.1) hc, ih h.2, List.map_cons,
        List.cons_append]

/-! ## Brackets that open sets -/

/-- The character ends a set as it is written in a pattern: it is a closing bracket, or one is written behind
it. -/
def endsSet (c : Char) : Bool := c = ']' || isWild c

/-- A bracket of the text opens a set when the text is written in a pattern. -/
def opensSet : List Char → Bool
  | [] => false
  | c :: rest => (c = '[' && (setBody rest).any endsSet) || opensSet rest

theorem escapeChars_eq_self (h : ∀ c ∈ cs, isWild c = false) : escapeChars cs = cs := by
  induction cs with
  | nil => rfl
  | cons c cs ih =>
    rw [List.forall_mem_cons] at h
    rw [escapeChars_plain h.1, ih h.2]

theorem head?_escapeChars (cs : List Char) : (escapeChars cs).head? = some ']' ↔ cs.head? = some ']' := by
  cases cs with
  | nil => rfl
  | cons c cs =>
    by_cases hc : isWild c = true
    · have hne : c ≠ ']' := by
        rintro rfl
        cases hc
      simp [escapeChars_wild hc, hne]
    · rw [escapeChars_plain (Bool.eq_false_iff.mpr hc), List.head?_cons, List.head?_cons]

/-- A set begins alike in a text and in the text as it is written in a pattern. -/
theorem setLead_escapeChars (cs : List Char) : setLead (escapeChars cs) = setLead cs := by
  cases cs with
  | nil => rfl
  | cons c cs =>
    by_cases hc : isWild c = true
    · rw [escapeChars_wild hc]
      rcases isWild_iff.mp hc with rfl | rfl <;> rfl
    · rw [escapeChars_plain (Bool.eq_false_iff.mpr hc)]
      simp only [setLead, head?_escapeChars]

theorem setBody_escapeChars (cs : List Char) : setBody (escapeChars cs) = escapeChars (setBody cs) := by
  have hlead : escapeChars (setLead cs) = setLead cs := by
    apply escapeChars_eq_self
    intro c hc
    rcases mem_setLead hc with rfl | rfl <;> rfl
  have hcs : escapeChars cs = setLead cs ++ escapeChars (setBody cs) := by
    rw [← hlead, ← escapeChars_append, setLead_append_setBody]
  rw [setBody, setLead_escapeChars, hcs, List.drop_left]

/-- A text that can end a set is cut behind the first character that ends it. -/
theorem exists_end (h : cs.any endsSet = true) :
    ∃ body rest, ']' ∉ body ∧ escapeChars cs = body ++ ']' :: escapeChars rest ∧ rest.length < cs.length := by
  induction cs with
  | nil => cases h
  | cons c cs ih =>
    by_cases hc : isWild c = true
    · refine ⟨['[', c], cs, ?_, escapeChars_wild hc cs, Nat.lt_succ_self _⟩
      rcases isWild_iff.mp hc with rfl | rfl <;> decide
    · rw [Bool.not_eq_true] at hc
      rw [escapeChars_plain hc]
      by_cases hend : c = ']'
      · exact ⟨[], cs, by simp, by simp [hend], Nat.lt_succ_self _⟩
      · obtain ⟨body, rest, hbody, hcs, hlength⟩ := ih (by simpa [endsSet, hc, hend] using h)
        refine ⟨c :: body, rest, ?_, by rw [hcs, List.cons_append], Nat.lt_succ_of_lt hlength⟩
        simpa [hbody] using Ne.symm hend

theorem not_mem_escapeChars (h : cs.any endsSet = false) : ']' ∉ escapeChars cs := by
  induction cs with
  | nil => simp [escapeChars, escapePattern]
  | cons c cs ih =>
    simp only [List.any_cons, Bool.or_eq_false_iff, endsSet, decide_eq_false_iff_not] at h
    rw [escapeChars_plain h.1.2, List.mem_cons, not_or]
    exact ⟨Ne.symm h.1.1, ih h.2⟩

theorem setMembers?_escapeChars (h : (setBody cs).any endsSet = true) :
    ∃ members rest, setMembers? (escapeChars cs) = some (members, escapeChars rest) ∧
      rest.length < cs.length := by
  obtain ⟨body, rest, hbody, hend, hlength⟩ := exists_end h
  rw [← setBody_escapeChars] at hend
  refine ⟨_, rest, setMembers?_of_append hbody hend, Nat.lt_of_lt_of_le hlength ?_⟩
  simp [setBody]

theorem setMembers?_escapeChars_none (h : (setBody cs).any endsSet = false) :
    setMembers? (escapeChars cs) = none := by
  apply setMembers?_eq_none
  rw [setBody_escapeChars]
  exact not_mem_escapeChars h

theorem setOf_ne_star (members : List Char) : setOf members ≠ .star := by
  unfold setOf
  dsimp only
  split
  · split <;> simp
  · simp
  · simp

/-! ## Texts that stand for themselves -/

/-- The first character of a text is read as the part that stands for it, or it opens a set. -/
theorem glyphs_escapeChars_cons (c : Char) (cs : List Char) :
    glyphs (escapeChars (c :: cs)) = exactGlyph c :: glyphs (escapeChars cs) ∧
        opensSet (c :: cs) = opensSet cs ∨
      opensSet (c :: cs) = true ∧ ∃ members rest,
        glyphs (escapeChars (c :: cs)) = setOf members :: glyphs (escapeChars rest) ∧
          rest.length < cs.length := by
  by_cases hc : isWild c = true
  · have hbracket : c ≠ '[' := by
      rintro rfl
      cases hc
    exact .inl ⟨by rw [escapeChars_wild hc, glyphs_wild hc], by simp [opensSet, hbracket]⟩
  · rw [Bool.not_eq_true] at hc
    rw [escapeChars_plain hc]
    by_cases hbracket : c = '['
    · subst hbracket
      cases hends : (setBody cs).any endsSet with
      | true =>
        obtain ⟨members, rest, hset, hlength⟩ := setMembers?_escapeChars hends
        exact .inr ⟨by simp [opensSet, hends], members, rest, glyphs_set hset, hlength⟩
      | false =>
        exact .inl ⟨glyphs_bracket (setMembers?_escapeChars_none hends), by simp [opensSet, hends]⟩
    · exact .inl ⟨glyphs_plain hbracket hc _, by simp [opensSet, hbracket]⟩

/-- Without a bracket that opens a set, the parts of the pattern stand for the characters of the text. -/
theorem glyphs_escapeChars (h : opensSet cs = false) : glyphs (escapeChars cs) = cs.map exactGlyph := by
  induction cs with
  | nil => rfl
  | cons c cs ih =>
    rcases glyphs_escapeChars_cons c cs with ⟨hglyphs, hopens⟩ | ⟨hopens, -⟩
    · rw [hglyphs, ih (hopens.symm.trans h), List.map_cons]
    · rw [hopens] at h
      cases h

theorem star_not_mem_glyphs (cs : List Char) : Glyph.star ∉ glyphs (escapeChars cs) := by
  induction hlength : cs.length using Nat.strongRecOn generalizing cs with
  | ind n ih =>
    cases cs with
    | nil => simp [escapeChars, escapePattern, glyphs, glyphsFrom]
    | cons c cs =>
      rw [List.length_cons] at hlength
      rcases glyphs_escapeChars_cons c cs with ⟨hglyphs, -⟩ | ⟨-, members, rest, hglyphs, hrest⟩
      · rw [hglyphs, List.mem_cons, not_or]
        exact ⟨Ne.symm (exactGlyph_ne_star c), ih cs.length (by omega) cs rfl⟩
      · rw [hglyphs, List.mem_cons, not_or]
        exact ⟨Ne.symm (setOf_ne_star members), ih rest.length (by omega) rest rfl⟩

/-- A set that a bracket of the text opens takes the place of several characters. -/
theorem length_glyphs_escapeChars (cs : List Char) :
    (glyphs (escapeChars cs)).length + (if opensSet cs then 1 else 0) ≤ cs.length := by
  induction hlength : cs.length using Nat.strongRecOn generalizing cs with
  | ind n ih =>
    cases cs with
    | nil => simp [escapeChars, escapePattern, glyphs, glyphsFrom, opensSet]
    | cons c cs =>
      rw [List.length_cons] at hlength
      rcases glyphs_escapeChars_cons c cs with ⟨hglyphs, hopens⟩ | ⟨hopens, members, rest, hglyphs, hrest⟩
      · have hcs := ih cs.length (by omega) cs rfl
        rw [hglyphs, hopens, List.length_cons]
        omega
      · have hrest' := ih rest.length (by omega) rest rfl
        rw [hglyphs, hopens, List.length_cons, if_pos rfl]
        omega

/-- The pattern of a text in which a bracket opens a set does not match the text. -/
theorem not_match_of_opensSet (h : opensSet cs = true) :
    ¬ matchGlyphs (glyphs (escapeChars cs)) cs = true := by
  intro hmatch
  have hlength := length_of_matchGlyphs (star_not_mem_glyphs cs) hmatch
  have hfewer := length_glyphs_escapeChars cs
  rw [h, if_pos rfl] at hfewer
  omega

/-- A text that is written in a pattern stands for itself alone if and only if none of its brackets opens a
set. -/
theorem match_escapeChars_iff :
    (∀ ds, matchGlyphs (glyphs (escapeChars cs)) ds = true ↔ ds = cs) ↔ opensSet cs = false := by
  constructor
  · intro h
    rw [← Bool.not_eq_true]
    intro hopens
    exact not_match_of_opensSet hopens ((h cs).mpr rfl)
  · intro h ds
    rw [glyphs_escapeChars h]
    exact matchGlyphs_exact

/-- Behind an opening bracket two closing ones always close a set. -/
theorem opensSet_of_mem (h : '[' ∈ cs) : opensSet (cs ++ [']', ']']) = true := by
  induction cs with
  | nil => cases h
  | cons c cs ih =>
    rw [List.cons_append, opensSet, Bool.or_eq_true]
    rcases List.mem_cons.mp h with rfl | hmem
    · left
      rcases cs with _ | ⟨d, _ | ⟨e, cs⟩⟩
      · rfl
      · by_cases hmark : d = '!' <;> by_cases hfirst : d = ']' <;>
          simp [setBody, setLead, endsSet, hmark, hfirst]
      · by_cases hmark : d = '!' <;> by_cases hfirst : d = ']' <;> by_cases hsecond : e = ']' <;>
          simp [setBody, setLead, endsSet, hmark, hfirst, hsecond]
    · exact .inr (ih hmem)

end ValueShell.Files

namespace ValueShell.WordScope

open Files

variable {scope : WordScope} {t : Token} {s : String}

/-! ## Words -/

/-- The pattern that a word with stars or question marks stands for, before a leading tilde is replaced. -/
def patternText (scope : WordScope) (word : List Token) : Except Fault String := do
  let parts ← word.mapM scope.tokenPattern
  .ok (String.join parts)

theorem evalWord_of_hasPattern {word : List Token} (h : hasPattern word = true) :
    scope.evalWord word = (scope.patternText word).map fun p =>
      (glob scope.files (expandHome scope.home p)).map .text := by
  have hne : word.isEmpty = false := by
    cases word with
    | nil => cases h
    | cons t word => rfl
  rw [evalWord, hne, h, patternText]
  cases word.mapM scope.tokenPattern <;> rfl

theorem tokenPattern_quoted (hquoted : t.kind = .singleQuoted ∨ t.kind = .substitution)
    (hvalue : scope.tokenValue t = .ok (.text s)) : scope.tokenPattern t = .ok (escapePattern s) := by
  rcases hquoted with hkind | hkind <;> simp [tokenPattern, hvalue, hkind, bind, Except.bind]

/-- The pattern of a word is made of the patterns of its parts. -/
theorem patternText_around {left right : List Token} {before part after : String}
    (hbefore : scope.patternText left = .ok before) (hpart : scope.tokenPattern t = .ok part)
    (hafter : scope.patternText right = .ok after) :
    scope.patternText (left ++ t :: right) = .ok (before ++ part ++ after) := by
  obtain ⟨ls, hls, hbefore⟩ := Plan.ok_of_bind hbefore
  obtain ⟨rs, hrs, hafter⟩ := Plan.ok_of_bind hafter
  obtain rfl := Except.ok.inj hbefore
  obtain rfl := Except.ok.inj hafter
  simp [patternText, List.mapM_append, List.mapM_cons, hls, hpart, hrs, bind, Except.bind, pure, Except.pure,
    String.join_append, String.join_cons, String.append_assoc]

/-- In every word that the token is a part of, it stands for a text alone: a name matches the pattern of the word
if the text stands in it between what the parts before the token match and what those behind it match. The parts
before the token leave no bracket open. -/
def StandsAlone (scope : WordScope) (t : Token) (s : String) : Prop :=
  ∀ left right before after, hasPattern (left ++ t :: right) = true →
    scope.patternText left = .ok before → scope.patternText right = .ok after →
    Glyph.char '[' ∉ glyphs before.toList →
    ∃ p, scope.patternText (left ++ t :: right) = .ok p ∧
      scope.evalWord (left ++ t :: right) =
        .ok ((glob scope.files (expandHome scope.home p)).map .text) ∧
      ∀ name, nameMatches p name = true ↔
        ∃ a b, name = a ++ s ++ b ∧ nameMatches before a = true ∧ nameMatches after b = true

theorem standsAlone_of_not_mem (hpart : scope.tokenPattern t = .ok (escapePattern s)) (h : '[' ∉ s.toList) :
    scope.StandsAlone t s := by
  intro left right before after hpattern hbefore hafter hwhole
  have htext := patternText_around hbefore hpart hafter
  refine ⟨_, htext, by rw [evalWord_of_hasPattern hpattern, htext]; rfl, ?_⟩
  intro name
  simp only [nameMatches, String.toList_append, toList_escapePattern, List.append_assoc]
  rw [glyphs_append hwhole, glyphs_escapeChars_append h, matchGlyphs_append]
  simp only [matchGlyphs_append, matchGlyphs_exact]
  constructor
  · rintro ⟨a, rest, hname, ha, m, b, rfl, rfl, hb⟩
    refine ⟨.ofList a, .ofList b, ?_, by simpa using ha, by simpa using hb⟩
    rw [← String.toList_inj]
    simpa using hname
  · rintro ⟨a, b, rfl, ha, hb⟩
    exact ⟨a.toList, s.toList ++ b.toList, by simp, ha, s.toList, b.toList, rfl, rfl, hb⟩

/-- A word in which a bracket of the text opens a set: a question mark before it, two closing brackets behind. -/
theorem not_mem_of_standsAlone (hpart : scope.tokenPattern t = .ok (escapePattern s))
    (h : scope.StandsAlone t s) : '[' ∉ s.toList := by
  intro hmem
  obtain ⟨p, hp, -, hmatch⟩ := h [⟨.literal, "?"⟩] [⟨.literal, "]]"⟩] "?" "]]" rfl rfl rfl (by decide)
  have htext : scope.patternText ([⟨.literal, "?"⟩] ++ t :: [⟨.literal, "]]"⟩]) =
      .ok ("?" ++ escapePattern s ++ "]]") := patternText_around rfl hpart rfl
  obtain rfl := Except.ok.inj (hp.symm.trans htext)
  have hname := (hmatch ("?" ++ s ++ "]]")).mpr ⟨"?", "]]", rfl, by decide, by decide⟩
  have hclosed : escapeChars s.toList ++ [']', ']'] = escapeChars (s.toList ++ [']', ']']) := by
    rw [escapeChars_append, escapeChars_plain rfl, escapeChars_plain rfl]
    rfl
  simp only [nameMatches, String.toList_append, toList_escapePattern] at hname
  change matchGlyphs (glyphs ('?' :: (escapeChars s.toList ++ [']', ']']))) ('?' :: (s.toList ++ [']', ']'])) = true
    at hname
  rw [hclosed, glyphs_any, matchGlyphs_cons (by simp)] at hname
  obtain ⟨_, rest, hcons, -, hrest⟩ := hname
  obtain ⟨-, rfl⟩ := List.cons.inj hcons
  exact not_match_of_opensSet (opensSet_of_mem hmem) hrest

/-- A quoted or substituted text stands for itself alone in its part of a pattern if and only if none of its
brackets opens a set, and in all words if and only if it has no opening bracket. -/
theorem quoted_exact_iff (scope : WordScope) (t : Token) (s : String)
    (hquoted : t.kind = .singleQuoted ∨ t.kind = .substitution)
    (hvalue : scope.tokenValue t = .ok (.text s)) :
    (∃ part, scope.tokenPattern t = .ok part ∧
      ((∀ piece, nameMatches part piece = true ↔ piece = s) ↔ opensSet s.toList = false)) ∧
    (scope.StandsAlone t s ↔ '[' ∉ s.toList) := by
  have hpart := tokenPattern_quoted hquoted hvalue
  refine ⟨⟨_, hpart, ?_⟩, not_mem_of_standsAlone hpart, standsAlone_of_not_mem hpart⟩
  rw [← match_escapeChars_iff]
  simp only [nameMatches, toList_escapePattern]
  constructor
  · intro h ds
    rw [← String.toList_ofList (l := ds), h, ← String.toList_inj]
  · intro h piece
    rw [h, String.toList_inj]

/-- A quoted star stands for a star, in whatever word it is. -/
theorem quoted_exact_iff_star :
    WordScope.tokenValue {} ⟨.singleQuoted, "'a*b'"⟩ = .ok (.text "a*b") ∧
    (∃ part, WordScope.tokenPattern {} ⟨.singleQuoted, "'a*b'"⟩ = .ok part ∧
      ∀ piece, nameMatches part piece = true ↔ piece = "a*b") ∧
    StandsAlone {} ⟨.singleQuoted, "'a*b'"⟩ "a*b" := by
  have hvalue : WordScope.tokenValue {} ⟨.singleQuoted, "'a*b'"⟩ = .ok (.text "a*b") :=
    Expr.evalText_quote {} "a*b"
  obtain ⟨⟨part, hpart, hpiece⟩, hwords⟩ := quoted_exact_iff {} ⟨.singleQuoted, "'a*b'"⟩ "a*b" (.inl rfl) hvalue
  exact ⟨hvalue, ⟨part, hpart, hpiece.mpr (by decide)⟩, hwords.mpr (by decide)⟩

/-- A quoted set in a word stands for its members. -/
theorem not_quoted_exact : ¬ ∀ (scope : WordScope) (t : Token) (s part : String),
    t.kind = .singleQuoted ∨ t.kind = .substitution → scope.tokenValue t = .ok (.text s) →
      scope.tokenPattern t = .ok part → ∀ piece, nameMatches part piece = true ↔ piece = s := by
  intro h
  have hvalue : WordScope.tokenValue {} ⟨.singleQuoted, "'[x]'"⟩ = .ok (.text "[x]") :=
    Expr.evalText_quote {} "[x]"
  have hpart := tokenPattern_quoted (.inl rfl) hvalue
  exact absurd ((h _ _ _ _ (.inl rfl) hvalue hpart "x").mp (by decide)) (by decide)

end ValueShell.WordScope
