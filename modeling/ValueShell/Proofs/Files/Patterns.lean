import ValueShell.Files.Pattern

/-!
# Reading and matching patterns

`glyphs` reads a pattern from left to right; its equations are stated here without the bound on its steps. Two
patterns can be read one after the other if the first leaves no bracket open (`glyphs_append`), and a name matches
both together if it can be cut in two such that each part matches its pattern (`matchGlyphs_append`).
-/

set_option autoImplicit false

namespace ValueShell.Files

variable {cs after members : List Char}

/-! ## Sets -/

/-- What a set begins with that cannot end it: the mark of a negated set, and a bracket as its first member. -/
def setLead : List Char → List Char
  | [] => []
  | c :: rest =>
    if c = '!' then '!' :: (if rest.head? = some ']' then [']'] else [])
    else if c = ']' then [']']
    else []

/-- What can end the set that begins here. -/
def setBody (cs : List Char) : List Char := cs.drop (setLead cs).length

theorem setLead_append_setBody (cs : List Char) : setLead cs ++ setBody cs = cs := by
  rcases cs with _ | ⟨c, _ | ⟨d, rest⟩⟩
  · rfl
  · by_cases hmark : c = '!' <;> by_cases hfirst : c = ']' <;> simp [setBody, setLead, hmark, hfirst]
  · by_cases hmark : c = '!' <;> by_cases hfirst : c = ']' <;> by_cases hsecond : d = ']' <;>
      simp [setBody, setLead, hmark, hfirst, hsecond]

theorem mem_setLead {c : Char} (h : c ∈ setLead cs) : c = '!' ∨ c = ']' := by
  cases cs with
  | nil => cases h
  | cons d cs => grind [setLead]

theorem setMembers?_eq (cs : List Char) :
    setMembers? cs = ((setBody cs).dropWhile (· ≠ ']')).tail?.map fun after =>
      (setLead cs ++ (setBody cs).takeWhile (· ≠ ']'), after) := by
  rcases cs with _ | ⟨c, rest⟩
  · rfl
  · by_cases hmark : c = '!'
    · subst hmark
      rcases rest with _ | ⟨d, rest⟩
      · rfl
      · by_cases hfirst : d = ']' <;>
          cases hend : rest.dropWhile (fun x => !decide (x = ']')) <;>
            simp [setMembers?, setBody, setLead, hfirst, hend]
    · by_cases hfirst : c = ']' <;>
        cases hend : rest.dropWhile (fun x => !decide (x = ']')) <;>
          simp [setMembers?, setBody, setLead, hmark, hfirst, hend]

theorem forall_ne_of_not_mem {body : List Char} (h : ']' ∉ body) : ∀ c ∈ body, decide (c ≠ ']') = true := by
  intro c hc
  simp only [decide_eq_true_eq]
  rintro rfl
  exact h hc

/-- A set goes up to the first closing bracket that can end it. -/
theorem setMembers?_of_append {body : List Char} (hbody : ']' ∉ body)
    (h : setBody cs = body ++ ']' :: after) : setMembers? cs = some (setLead cs ++ body, after) := by
  have hall := forall_ne_of_not_mem hbody
  rw [setMembers?_eq, h, List.takeWhile_append_of_pos hall, List.dropWhile_append_of_pos hall]
  simp

theorem setMembers?_eq_none (h : ']' ∉ setBody cs) : setMembers? cs = none := by
  have hdrop : (setBody cs ++ []).dropWhile (· ≠ ']') = [] :=
    List.dropWhile_append_of_pos (forall_ne_of_not_mem h)
  rw [List.append_nil] at hdrop
  rw [setMembers?_eq, hdrop]
  rfl

theorem setBody_of_setMembers? (h : setMembers? cs = some (members, after)) :
    ∃ body, ']' ∉ body ∧ setBody cs = body ++ ']' :: after ∧ members = setLead cs ++ body := by
  by_cases hend : ']' ∈ setBody cs
  · obtain ⟨body, after', hbody, hfirst⟩ := List.eq_append_cons_of_mem hend
    rw [setMembers?_of_append hfirst hbody] at h
    obtain ⟨rfl, rfl⟩ := Prod.mk.inj (Option.some.inj h)
    exact ⟨body, hfirst, hbody, rfl⟩
  · rw [setMembers?_eq_none hend] at h
    cases h

/-- What begins a set is the same whatever stands behind the set. -/
theorem setLead_append (h : setBody cs ≠ []) (rest : List Char) : setLead (cs ++ rest) = setLead cs := by
  rcases cs with _ | ⟨c, cs⟩
  · exact absurd rfl h
  · by_cases hmark : c = '!'
    · subst hmark
      rcases cs with _ | ⟨d, cs⟩
      · exact absurd rfl h
      · simp [setLead]
    · by_cases hfirst : c = ']' <;> simp [setLead, hmark, hfirst]

theorem setBody_append (h : setBody cs ≠ []) (rest : List Char) :
    setBody (cs ++ rest) = setBody cs ++ rest := by
  have hlength : (setLead cs).length ≤ cs.length := by
    rw [setBody, ne_eq, List.drop_eq_nil_iff] at h
    omega
  rw [setBody, setLead_append h, List.drop_append_of_le_length hlength]
  rfl

/-- A set that is closed is the same whatever stands behind it. -/
theorem setMembers?_append (h : setMembers? cs = some (members, after)) (rest : List Char) :
    setMembers? (cs ++ rest) = some (members, after ++ rest) := by
  obtain ⟨body, hbody, hcs, rfl⟩ := setBody_of_setMembers? h
  have hne : setBody cs ≠ [] := by simp [hcs]
  rw [← setLead_append hne rest]
  exact setMembers?_of_append hbody (by rw [setBody_append hne, hcs, List.append_assoc, List.cons_append])

theorem length_lt_of_setMembers? (h : setMembers? cs = some (members, after)) : after.length < cs.length := by
  obtain ⟨body, -, hcs, -⟩ := setBody_of_setMembers? h
  have hlength := congrArg List.length hcs
  simp only [setBody, List.length_drop, List.length_append, List.length_cons] at hlength
  omega

/-! ## Reading a pattern -/

theorem glyphsFrom_eq_of_lt {n m : Nat} (hn : cs.length < n) (hm : cs.length < m) :
    glyphsFrom n cs = glyphsFrom m cs := by
  induction n generalizing m cs with
  | zero => omega
  | succ n ih =>
    cases m with
    | zero => omega
    | succ m =>
      cases cs with
      | nil => rfl
      | cons c cs =>
        simp only [List.length_cons] at hn hm
        have hrest : glyphsFrom n cs = glyphsFrom m cs := ih (by omega) (by omega)
        by_cases hbracket : c = '['
        · subst hbracket
          simp only [glyphsFrom]
          split
          · rename_i members after hset
            have hlt := length_lt_of_setMembers? hset
            exact congrArg _ (ih (by omega) (by omega))
          · rw [hrest]
        · by_cases hstar : c = '*'
          · simp [hstar, glyphsFrom, hrest]
          · by_cases hany : c = '?'
            · simp [hany, glyphsFrom, hrest]
            · simp [glyphsFrom, hrest]

theorem glyphs_star (cs : List Char) : glyphs ('*' :: cs) = .star :: glyphs cs := rfl

theorem glyphs_any (cs : List Char) : glyphs ('?' :: cs) = .any :: glyphs cs := rfl

theorem glyphs_set (h : setMembers? cs = some (members, after)) :
    glyphs ('[' :: cs) = setOf members :: glyphs after := by
  have hlt := length_lt_of_setMembers? h
  rw [glyphs, List.length_cons, glyphsFrom, h]
  exact congrArg _ (glyphsFrom_eq_of_lt (by omega) (by omega))

theorem glyphs_bracket (h : setMembers? cs = none) : glyphs ('[' :: cs) = .char '[' :: glyphs cs := by
  rw [glyphs, List.length_cons, glyphsFrom, h]
  rfl

theorem glyphs_char {c : Char} (hbracket : c ≠ '[') (hstar : c ≠ '*') (hany : c ≠ '?') (cs : List Char) :
    glyphs (c :: cs) = .char c :: glyphs cs := by
  simp [glyphs, glyphsFrom]

/-- A pattern that leaves no bracket open can be read before any other. -/
theorem glyphs_append {p : List Char} (h : Glyph.char '[' ∉ glyphs p) (q : List Char) :
    glyphs (p ++ q) = glyphs p ++ glyphs q := by
  induction hlength : p.length using Nat.strongRecOn generalizing p with
  | ind n ih =>
    cases p with
    | nil => rfl
    | cons c p =>
      have hrest (hp : Glyph.char '[' ∉ glyphs p) : glyphs (p ++ q) = glyphs p ++ glyphs q :=
        ih p.length (by simp [← hlength]) hp rfl
      rw [List.cons_append]
      by_cases hbracket : c = '['
      · subst hbracket
        cases hset : setMembers? p with
        | none => simp [glyphs_bracket hset] at h
        | some r =>
          obtain ⟨members, after⟩ := r
          rw [glyphs_set hset] at h ⊢
          have hlt := length_lt_of_setMembers? hset
          rw [glyphs_set (setMembers?_append hset q), List.cons_append,
            ih after.length (by simp [← hlength]; omega) (List.not_mem_of_not_mem_cons h) rfl]
      · by_cases hstar : c = '*'
        · subst hstar
          rw [glyphs_star] at h ⊢
          rw [glyphs_star, hrest (List.not_mem_of_not_mem_cons h), List.cons_append]
        · by_cases hany : c = '?'
          · subst hany
            rw [glyphs_any] at h ⊢
            rw [glyphs_any, hrest (List.not_mem_of_not_mem_cons h), List.cons_append]
          · rw [glyphs_char hbracket hstar hany] at h ⊢
            rw [glyphs_char hbracket hstar hany, hrest (List.not_mem_of_not_mem_cons h), List.cons_append]

/-! ## Matching -/

theorem someTail_eq_true_iff {p : List Char → Bool} :
    someTail p cs = true ↔ ∃ a b, cs = a ++ b ∧ p b = true := by
  induction cs with
  | nil =>
    constructor
    · intro h
      exact ⟨[], [], rfl, h⟩
    · rintro ⟨a, b, hab, h⟩
      obtain ⟨-, rfl⟩ := List.append_eq_nil_iff.mp hab.symm
      exact h
  | cons c cs ih =>
    rw [someTail, Bool.or_eq_true, ih]
    constructor
    · rintro (h | ⟨a, b, rfl, h⟩)
      · exact ⟨[], c :: cs, rfl, h⟩
      · exact ⟨c :: a, b, rfl, h⟩
    · rintro ⟨a, b, hcs, h⟩
      cases a with
      | nil => exact .inl (by rwa [hcs])
      | cons d a =>
        obtain ⟨-, rfl⟩ := List.cons.inj hcs
        exact .inr ⟨a, b, rfl, h⟩

theorem matchGlyphs_cons {g : Glyph} (hg : g ≠ .star) (gs : List Glyph) (cs : List Char) :
    matchGlyphs (g :: gs) cs = true ↔
      ∃ c rest, cs = c :: rest ∧ g.accepts c = true ∧ matchGlyphs gs rest = true := by
  cases cs with
  | nil =>
    cases g with
    | star => exact absurd rfl hg
    | _ => simp [matchGlyphs]
  | cons c cs =>
    have hstep : matchGlyphs (g :: gs) (c :: cs) = (g.accepts c && matchGlyphs gs cs) := by
      cases g with
      | star => exact absurd rfl hg
      | _ => rfl
    rw [hstep, Bool.and_eq_true]
    constructor
    · intro h
      exact ⟨c, cs, rfl, h⟩
    · rintro ⟨d, rest, heq, h⟩
      obtain ⟨rfl, rfl⟩ := List.cons.inj heq
      exact h

/-- A name matches two patterns, one after the other, if it can be cut such that each part matches one. -/
theorem matchGlyphs_append {gs hs : List Glyph} :
    matchGlyphs (gs ++ hs) cs = true ↔
      ∃ a b, cs = a ++ b ∧ matchGlyphs gs a = true ∧ matchGlyphs hs b = true := by
  induction gs generalizing cs with
  | nil =>
    constructor
    · intro h
      exact ⟨[], cs, rfl, rfl, h⟩
    · rintro ⟨a, b, rfl, ha, hb⟩
      rw [matchGlyphs, List.isEmpty_iff] at ha
      subst ha
      exact hb
  | cons g gs ih =>
    by_cases hg : g = .star
    · subst hg
      simp only [List.cons_append, matchGlyphs, someTail_eq_true_iff, ih]
      constructor
      · rintro ⟨a, b, rfl, c, d, rfl, hc, hd⟩
        exact ⟨a ++ c, d, (List.append_assoc ..).symm, ⟨a, c, rfl, hc⟩, hd⟩
      · rintro ⟨a, b, rfl, ⟨c, d, rfl, hd⟩, hb⟩
        exact ⟨c, d ++ b, List.append_assoc .., d, b, rfl, hd, hb⟩
    · simp only [List.cons_append, matchGlyphs_cons hg, ih]
      constructor
      · rintro ⟨c, rest, rfl, hc, a, b, rfl, ha, hb⟩
        exact ⟨c :: a, b, rfl, ⟨c, a, rfl, hc, ha⟩, hb⟩
      · rintro ⟨a, b, rfl, ⟨c, rest, rfl, hc, hrest⟩, hb⟩
        exact ⟨c, rest ++ b, rfl, hc, rest, b, rfl, hrest, hb⟩

/-- Parts of a pattern that are no stars match one character each. -/
theorem length_of_matchGlyphs {gs : List Glyph} (hgs : Glyph.star ∉ gs) (h : matchGlyphs gs cs = true) :
    cs.length = gs.length := by
  induction gs generalizing cs with
  | nil =>
    rw [matchGlyphs, List.isEmpty_iff] at h
    simp [h]
  | cons g gs ih =>
    rw [List.mem_cons, not_or] at hgs
    obtain ⟨c, rest, rfl, -, hrest⟩ := (matchGlyphs_cons (Ne.symm hgs.1) gs cs).mp h
    simp [ih hgs.2 hrest]

end ValueShell.Files
