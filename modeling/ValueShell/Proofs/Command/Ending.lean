import ValueShell.Proofs.Command.Separation

/-!
# The end of a line

The end of the text is the last token of a line after its aliases are replaced. Settling the spaces then
keeps it as the last token, unless the line `trailsOff`: a space stands before the end, and nothing before
that space or a token that is sensitive to it. Then the end is read past, and the line ends without it
(`settle_ending`).

`endsOnce_iff` says when this happens. It takes an alias whose text is blank, because a line as it is lexed
ends in no space, and neither does the text of an alias that is not blank (`sealed_expandWith`).
-/

set_option autoImplicit false

namespace ValueShell.Token

open Text

/-- The end of the text is the last of the tokens and none of the others. -/
def EndsOnce (ts : List Token) : Prop := ∃ body, ts = body ++ [eof] ∧ Unended body

/-- The last token that is no space. -/
def lastSolid (ts : List Token) : Option Token := (ts.filter (·.kind ≠ .space)).getLast?

/-- The last token is a space, and the last one before it that is no space, if there is one, is sensitive
to it. -/
def trailsOff (ts : List Token) : Bool :=
  ts.getLast?.any (·.kind = .space) && (lastSolid ts).all (·.kind.isSpaceSensitive)

/-! ## Settling spaces before the end -/

section Settling

variable {current t : Token} {ts front : List Token}

theorem lastSolid_cons_space (h : t.kind = .space) : lastSolid (t :: ts) = lastSolid ts := by
  simp [lastSolid, h]

theorem lastSolid_cons (h : t.kind ≠ .space) : lastSolid (t :: ts) = some ((lastSolid ts).getD t) := by
  simp [lastSolid, h, List.getLast?_cons]

/-- A space after a token that is not sensitive to it makes no difference. -/
theorem trailsOff_skip (hcurrent : current.kind.isSpaceSensitive = false) (ht : t.kind = .space) :
    trailsOff (current :: t :: ts) = trailsOff (current :: ts) := by
  have hsolid : lastSolid (current :: t :: ts) = lastSolid (current :: ts) := by
    simp [lastSolid, List.filter_cons, ht]
  cases ts with
  | cons u others => simp [trailsOff, hsolid]
  | nil =>
    by_cases hspace : current.kind = .space
    · simp [trailsOff, lastSolid, hspace, ht]
    · simp [trailsOff, lastSolid, hspace, ht, hcurrent]

/-- Only the last tokens count: a token in front makes no difference, unless it is not sensitive to a space
after it. -/
theorem trailsOff_cons (hcurrent : t.kind = .space → current.kind.isSpaceSensitive = true) :
    trailsOff (current :: t :: ts) = trailsOff (t :: ts) := by
  have hall : (lastSolid (current :: t :: ts)).all (·.kind.isSpaceSensitive) =
      (lastSolid (t :: ts)).all (·.kind.isSpaceSensitive) := by
    by_cases hspace : current.kind = .space
    · rw [lastSolid_cons_space hspace]
    · rw [lastSolid_cons hspace]
      cases hlast : lastSolid (t :: ts) with
      | some last => rfl
      | none =>
        by_cases ht : t.kind = .space
        · simp [hcurrent ht]
        · simp [lastSolid_cons ht] at hlast
  simp only [trailsOff, List.getLast?_cons_cons, hall]

/-- What is settled before the end of the text. -/
theorem settle_ending (fresh : Bool) (h : Unended (current :: front)) :
    ∃ body, Unended body ∧ body.getLast? = lastSolid (current :: front) ∧
      settle none current fresh (front ++ [eof]) =
        { tokens := body ++ (if trailsOff (current :: front) then [] else [eof])
          fault := some .exhausted } := by
  induction front generalizing current fresh with
  | nil =>
    -- only the end follows: a space gives way to it, and nothing after it brings it out
    have hcurrent : current.kind ≠ .ending := h current List.mem_cons_self
    by_cases hspace : current.kind = .space
    · refine ⟨[], by simp [Unended], by simp [lastSolid, hspace], ?_⟩
      simp [settle, trailsOff, lastSolid, hspace, eof, TokenKind.isSpaceSensitive]
    · refine ⟨[current], by simpa [Unended] using hcurrent, by simp [lastSolid, hspace], ?_⟩
      simp [settle, trailsOff, hspace, hcurrent, eof, Reading.cons]
  | cons next rest ih =>
    obtain ⟨hcurrent, hts⟩ := List.forall_mem_cons.mp h
    obtain ⟨-, hrest⟩ := List.forall_mem_cons.mp hts
    rw [List.cons_append, settle, if_neg (by simp [hcurrent])]
    split
    · rename_i hskip
      simp at hskip
      obtain ⟨body, hbody, hlast, hsettle⟩ := ih false (.cons hcurrent hrest)
      refine ⟨body, hbody, ?_, ?_⟩
      · rw [hlast]
        simp [lastSolid, List.filter_cons, hskip.1]
      · rw [hsettle, trailsOff_skip hskip.2 hskip.1]
    rename_i hskip
    simp at hskip
    split
    · rename_i hdrop
      simp at hdrop
      obtain ⟨body, hbody, hlast, hsettle⟩ := ih false hts
      refine ⟨body, hbody, ?_, ?_⟩
      · rw [hlast, lastSolid_cons_space hdrop.1]
      · rw [hsettle, trailsOff_cons hskip]
    · rename_i hkept
      simp at hkept
      obtain ⟨body, hbody, hlast, hsettle⟩ := ih true hts
      refine ⟨current :: body, hbody.cons hcurrent, ?_, ?_⟩
      · rw [List.getLast?_cons, hlast]
        by_cases hspace : current.kind = .space
        · have hsolid : next.kind ≠ .space := by
            intro hnext
            have hsensitive := hkept hspace
            rw [hnext] at hsensitive
            cases hsensitive
          rw [lastSolid_cons_space hspace, lastSolid_cons hsolid]
          rfl
        · rw [lastSolid_cons hspace]
      · rw [hsettle, trailsOff_cons hskip]
        rfl

end Settling

/-! ## Replacing aliases before the end -/

/-- No space stands before the end. -/
def Sealed (t u : Token) : Prop := t.kind = .space → u.kind ≠ .ending

/-- What stands in the place of a literal ends in a token that is no space. -/
def SolidEnds (expand : Bool → String → Except Fault (List Token)) : Prop :=
  ∀ globalOnly text replacement, expand globalOnly text = .ok replacement →
    ∃ t ∈ replacement.getLast?, t.kind ≠ .space

section Expansion

variable {expand : Bool → String → Except Fault (List Token)} {fault : Option Fault} {ts : List Token}

theorem Unended.sealed (h : Unended ts) : List.IsChain Sealed ts := by
  induction ts with
  | nil => exact .nil
  | cons t ts ih =>
    obtain ⟨-, hts⟩ := List.forall_mem_cons.mp h
    exact (ih hts).cons fun u hu _ => hts u (List.mem_of_mem_head? hu)

/-- Only the end of the text itself comes out as the end. -/
theorem head?_expandWith (hendless : Endless expand) (hsolid : SolidEnds expand) {before : Option Token}
    {globalOnly : Bool} {t : Token} (h : t ∈ (expandWith expand fault before globalOnly ts).tokens.head?)
    (ht : t.kind = .ending) : ∃ u ∈ ts.head?, u.kind = .ending := by
  cases ts with
  | nil => simp [expandWith] at h
  | cons u rest =>
    unfold expandWith at h
    split at h
    · obtain rfl := Option.some.inj h
      exact ⟨u, rfl, ht⟩
    split at h
    · cases h
    split at h
    · obtain rfl := Option.some.inj h
      exact ⟨u, rfl, ht⟩
    split at h
    · cases h
    · rename_i replacement hreplacement
      obtain ⟨last, hlast, -⟩ := hsolid _ _ _ hreplacement
      cases replacement with
      | nil => cases hlast
      | cons first others =>
        obtain rfl := Option.some.inj h
        exact absurd ht (hendless _ _ _ hreplacement first List.mem_cons_self)

theorem sealed_expandWith (hendless : Endless expand) (hsolid : SolidEnds expand) (fault : Option Fault)
    (before : Option Token) (globalOnly : Bool) (h : List.IsChain Sealed ts) :
    List.IsChain Sealed (expandWith expand fault before globalOnly ts).tokens := by
  -- a token that is passed on before what follows it
  have hkept : ∀ {n : Token} {rest : List Token}, List.IsChain Sealed (n :: rest) →
      (List.IsChain Sealed rest →
        List.IsChain Sealed (expandWith expand fault (some n) true rest).tokens) →
      List.IsChain Sealed (n :: (expandWith expand fault (some n) true rest).tokens) := by
    intro n rest hn hrest
    refine (hrest hn.tail).cons fun t ht hspace hending => ?_
    obtain ⟨u, hu, hkind⟩ := head?_expandWith hendless hsolid ht hending
    exact hn.rel_head? hu hspace hkind
  fun_induction expandWith expand fault before globalOnly ts with
  | case1 => exact .nil
  | case2 before globalOnly t rest _ ih => exact hkept h ih
  | case3 => exact .nil
  | case4 before globalOnly t hliteral n rest _ ih =>
    refine (hkept h.tail ih).cons fun u hu hspace => ?_
    simp [hspace] at hliteral
  | case5 => exact .nil
  | case6 before globalOnly t _ n rest _ replacement hreplacement _ ih =>
    obtain ⟨last, hlast, hkind⟩ := hsolid _ _ _ hreplacement
    refine List.isChain_append.mpr ⟨Unended.sealed (hendless _ _ _ hreplacement), hkept h.tail ih, ?_⟩
    intro u hu v hv hspace
    obtain rfl := Option.some.inj (hlast.symm.trans hu)
    exact absurd hspace hkind

end Expansion

/-! ## Lines of tokens -/

section Lines

variable {expand : Bool → String → Except Fault (List Token)} {globalOnly : Bool} {text : String}

/-- The tokens of a line that is read without a fault, by what stands in the line after its aliases are
replaced. -/
theorem tokensWith_ending (hendless : Endless expand)
    (hexpand : ∀ globalOnly text, expand globalOnly text ≠ .error .exhausted)
    (h : (tokensWith expand globalOnly text).fault = some .exhausted) :
    ∃ front body, expandWith expand (raw text).fault none globalOnly (raw text).tokens =
        { tokens := front ++ [eof] } ∧ Unended front ∧ Unended body ∧ body.getLast? = lastSolid front ∧
      (tokensWith expand globalOnly text).tokens = body ++ (if trailsOff front then [] else [eof]) := by
  have hwhole := whole_replaced hendless hexpand globalOnly text
  rw [tokensWith] at h ⊢
  generalize expandWith expand (raw text).fault none globalOnly (raw text).tokens = r at h hwhole ⊢
  cases hwhole with
  | @ended front hunended =>
    cases front with
    | nil => exact ⟨[], [], rfl, hunended, hunended, rfl, rfl⟩
    | cons first rest =>
      obtain ⟨body, hbody, hlast, hsettle⟩ := settle_ending true hunended
      exact ⟨first :: rest, body, rfl, hunended, hbody, hlast, congrArg Reading.tokens hsettle⟩
  | failed hunended hne =>
    obtain ⟨-, hfault⟩ := (Reading.Whole.failed hunended hne).settleAll_fault rfl
    rw [hfault] at h
    cases h
    exact absurd rfl hne

end Lines

/-! ## Aliases whose texts are not blank -/

theorem sealed_raw (text : String) : List.IsChain Sealed (raw text).tokens := by
  obtain ⟨cuts, left, hcuts, hends⟩ := cuts_raw text
  rcases hends with ⟨hleft, hraw⟩ | ⟨fault, -, hraw⟩
  · rw [hraw]
    exact (tight_of_cuts hcuts hleft fun c hc => isGap_eq_false (getLast?_strip hc)).imp
      fun t u htight hspace => (htight hspace).2
  · rw [hraw]
    exact hcuts.unended.sealed

/-- A text that is not blank does not begin with its end. -/
theorem head?_raw {text : String} (h : strip text.toList ≠ []) :
    ∀ t ∈ (raw text).tokens.head?, t.kind ≠ .ending := by
  obtain ⟨cuts, left, hcuts, hends⟩ := cuts_raw text
  have hunended := hcuts.unended
  rcases hends with ⟨hleft, hraw⟩ | ⟨fault, -, hraw⟩
  · cases cuts with
    | nil =>
      have happend := hcuts.append
      rw [hleft] at happend
      exact absurd happend h
    | cons cut cuts =>
      rw [hraw]
      intro t ht
      obtain rfl := Option.some.inj ht
      exact hunended _ List.mem_cons_self
  · rw [hraw]
    exact fun t ht => hunended t (List.mem_of_mem_head? ht)

theorem trailsOff_of_sealed {front : List Token} (h : List.IsChain Sealed (front ++ [eof])) :
    trailsOff front = false := by
  obtain ⟨-, -, hlast⟩ := List.isChain_append.mp h
  cases hfront : front.getLast? with
  | none => simp [trailsOff, hfront]
  | some last =>
    have hsolid : last.kind ≠ .space := fun hspace => hlast last hfront eof rfl hspace rfl
    simp [trailsOff, hfront, hsolid]

theorem lastSolid_of_sealed {front : List Token} (h : List.IsChain Sealed (front ++ [eof]))
    (hne : front ≠ []) : ∃ t ∈ lastSolid front, t.kind ≠ .space := by
  obtain ⟨-, -, hlast⟩ := List.isChain_append.mp h
  have hsolid : (front.getLast hne).kind ≠ .space := fun hspace =>
    hlast _ (List.getLast?_eq_some_getLast hne) eof rfl hspace rfl
  have hmem : front.getLast hne ∈ front.filter (·.kind ≠ .space) :=
    List.mem_filter.mpr ⟨List.getLast_mem hne, by simpa using hsolid⟩
  have hfilter : front.filter (·.kind ≠ .space) ≠ [] := List.ne_nil_of_mem hmem
  refine ⟨_, List.getLast?_eq_some_getLast hfilter, ?_⟩
  simpa using (List.mem_filter.mp (List.getLast_mem hfilter)).2

theorem settleAll_isSome (r : Reading) : (settleAll r).fault.isSome = true := by
  have hsettle : ∀ fault current fresh ts, (settle fault current fresh ts).fault.isSome = true := by
    intro fault current fresh ts
    fun_induction settle fault current fresh ts with
    | case1 => rfl
    | case2 => simp
    | case3 => rfl
    | case4 _ _ _ _ _ _ ih => exact ih
    | case5 _ _ _ _ _ _ _ ih => exact ih
    | case6 _ _ _ _ _ _ _ ih => exact ih
  unfold settleAll
  split
  · simp
  · exact hsettle _ _ _ _

/-- What stands in the place of a literal: the literal itself, or the tokens of an alias's text without the
last. -/
theorem expandAlias_eq_ok {aliases : List Alias} {depth : Nat} {active : List String} {globalOnly : Bool}
    {text : String} {replacement : List Token}
    (h : expandAlias aliases (depth + 1) active globalOnly text = .ok replacement) :
    replacement = [⟨.literal, text⟩] ∨
      ∃ a ∈ aliases,
        (tokensWith (expandAlias aliases depth (text :: active)) globalOnly a.text).fault = some .exhausted ∧
        replacement =
          (tokensWith (expandAlias aliases depth (text :: active)) globalOnly a.text).tokens.dropLast := by
  rw [expandAlias] at h
  split at h
  · cases h
    exact Or.inl rfl
  rename_i a hfind
  split at h
  · cases h
    exact Or.inl rfl
  refine Or.inr ⟨a, List.mem_of_find?_eq_some hfind, ?_⟩
  dsimp only at h
  split at h
  · rename_i hnone
    have hsome := settleAll_isSome (expandWith (expandAlias aliases depth (text :: active))
      (raw a.text).fault none globalOnly (raw a.text).tokens)
    rw [tokensWith] at hnone
    rw [hnone] at hsome
    cases hsome
  · rename_i hfault
    cases h
    exact ⟨hfault, rfl⟩
  · cases h

theorem solidEnds_expandAlias {aliases : List Alias} (h : ∀ a ∈ aliases, strip a.text.toList ≠ [])
    (depth : Nat) (active : List String) : SolidEnds (expandAlias aliases depth active) := by
  induction depth generalizing active with
  | zero =>
    intro globalOnly text replacement hreplacement
    cases hreplacement
    exact ⟨_, rfl, nofun⟩
  | succ depth ih =>
    intro globalOnly text replacement hreplacement
    rcases expandAlias_eq_ok hreplacement with rfl | ⟨a, ha, hfault, rfl⟩
    · exact ⟨_, rfl, nofun⟩
    have hendless := endless_expandAlias aliases depth (text :: active)
    have hsolid := ih (text :: active)
    obtain ⟨front, body, hfront, -, -, hlast, htokens⟩ :=
      tokensWith_ending hendless (expandAlias_ne_exhausted aliases depth (text :: active)) hfault
    have hsealed := sealed_expandWith hendless hsolid (raw a.text).fault none globalOnly (sealed_raw a.text)
    rw [hfront] at hsealed
    -- the text of the alias is not blank, so its end is not all that is left of it
    have hne : front ≠ [] := by
      rintro rfl
      obtain ⟨u, hu, hkind⟩ := head?_expandWith (t := eof) hendless hsolid (by rw [hfront]; rfl) rfl
      exact head?_raw (h a ha) u hu hkind
    rw [htokens, trailsOff_of_sealed hsealed]
    simp only [Bool.false_eq_true, if_false, List.dropLast_concat, hlast]
    exact lastSolid_of_sealed hsealed hne

/-! ## The end of the text -/

/-- **When a line ends with its end.** The line is any text, that of an alias included, and is read without
a fault of lexing. It ends with the end of the text, once, if and only if it does not trail off after its
aliases are replaced. If it does, the end is nowhere, and the last of its tokens is the last that is no
space, so that leaving out the last one loses it. No line trails off if no alias has a blank text. -/
theorem endsOnce_iff (aliases : List Alias) (depth : Nat) (active : List String) (globalOnly : Bool)
    (text : String)
    (h : (tokensWith (expandAlias aliases depth active) globalOnly text).fault = some .exhausted) :
    (∃ front, expandWith (expandAlias aliases depth active) (raw text).fault none globalOnly
          (raw text).tokens = { tokens := front ++ [eof] } ∧ Unended front ∧
        (EndsOnce (tokensWith (expandAlias aliases depth active) globalOnly text).tokens ↔
          trailsOff front = false) ∧
        (trailsOff front = true →
          Unended (tokensWith (expandAlias aliases depth active) globalOnly text).tokens ∧
          (tokensWith (expandAlias aliases depth active) globalOnly text).tokens.getLast? =
            lastSolid front)) ∧
    ((∀ a ∈ aliases, strip a.text.toList ≠ []) →
      EndsOnce (tokensWith (expandAlias aliases depth active) globalOnly text).tokens) := by
  have hendless := endless_expandAlias aliases depth active
  obtain ⟨front, body, hfront, hunended, hbody, hlast, htokens⟩ :=
    tokensWith_ending hendless (expandAlias_ne_exhausted aliases depth active) h
  rw [htokens]
  have hiff : EndsOnce (body ++ if trailsOff front then [] else [eof]) ↔ trailsOff front = false := by
    cases htrails : trailsOff front with
    | false => simpa [EndsOnce] using hbody
    | true =>
      simp only [if_true, List.append_nil, Bool.true_eq_false, iff_false]
      rintro ⟨others, rfl, -⟩
      exact hbody eof (by simp) rfl
  constructor
  · refine ⟨front, hfront, hunended, hiff, fun htrails => ?_⟩
    simp [htrails, hbody, hlast]
  · intro hblank
    have hsealed := sealed_expandWith hendless (solidEnds_expandAlias hblank depth active)
      (raw text).fault none globalOnly (sealed_raw text)
    rw [hfront] at hsealed
    exact hiff.mpr (trailsOff_of_sealed hsealed)

/-- An alias with a text in front of a pipe. -/
theorem endsOnce_listing :
    (tokensWith (expandAlias [⟨"ll", "ls -l", true⟩] 2 []) false "ll | cat").fault = some .exhausted ∧
    (∀ a ∈ [(⟨"ll", "ls -l", true⟩ : Alias)], strip a.text.toList ≠ []) ∧
    EndsOnce (tokensWith (expandAlias [⟨"ll", "ls -l", true⟩] 2 []) false "ll | cat").tokens := by
  have hfault :
      (tokensWith (expandAlias [⟨"ll", "ls -l", true⟩] 2 []) false "ll | cat").fault = some .exhausted := by
    decide +kernel
  have hblank : ∀ a ∈ [(⟨"ll", "ls -l", true⟩ : Alias)], strip a.text.toList ≠ [] := by decide +kernel
  exact ⟨hfault, hblank, (endsOnce_iff _ 2 [] false _ hfault).2 hblank⟩

/-- A word before an alias with an empty text: the line has no end, and where it is the text of an alias
itself, the word is lost. -/
theorem endless_after_empty_alias :
    (tokens [⟨"e", "", true⟩] false "a e").tokens = [⟨.literal, "a"⟩] ∧
    (tokens [⟨"e", "", true⟩] false "a e").fault = some .exhausted ∧
    (tokens [⟨"e", "", true⟩, ⟨"both", "a e", true⟩] false "both").tokens = [eof] := by
  decide +kernel

end ValueShell.Token
