import Mathlib.Data.List.Chain
import ValueShell.Proofs.Command.Leftover
import ValueShell.Proofs.Command.Lexing

/-!
# Spaces between words

Settling the spaces of a line works with the current token and the one after it. Here it is compared
with a plain filter: `separated` keeps a space if and only if the tokens on both sides of it are
sensitive to space. The two agree on the tokens that lexing gives (`settle_separated`), because no space
stands at an end of the line or next to another space (`neat_of_cuts`).

A line whose literals are no aliases is passed on as it was lexed, so `tokens_separated` follows. A fault
of lexing goes through both stages as it is (`Reading.Whole`).
-/

set_option autoImplicit false

namespace ValueShell

namespace Text

variable {cs : List Char} {p : Char → Bool}

theorem getLast?_strip {c : Char} (h : c ∈ (strip cs).getLast?) : isBlank c = false := by
  rw [strip, trim, trimEnd, List.getLast?_reverse] at h
  have hhead := List.head?_dropWhile_not isBlank (cs.dropWhile isBlank).reverse
  rw [h] at hhead
  exact hhead

theorem head?_strip {c : Char} (h : c ∈ (strip cs).head?) : isBlank c = false := by
  obtain ⟨rest, hrest⟩ := trimEnd_isPrefix isBlank (cs.dropWhile isBlank)
  have hhead := List.head?_dropWhile_not isBlank cs
  rw [← hrest, List.head?_append, ← trim, ← strip, h] at hhead
  exact hhead

end Text

namespace Token

open Text

theorem isBlank_of_isGap {c : Char} (h : isGap c = true) : isBlank c = true := by
  simp only [isGap, Bool.or_eq_true, decide_eq_true_eq] at h
  rcases h with rfl | rfl <;> rfl

/-! ## Readings that are whole -/

/-- None of the tokens is the end of the text. -/
def Unended (ts : List Token) : Prop := ∀ t ∈ ts, t.kind ≠ .ending

theorem Unended.cons {t : Token} {ts : List Token} (ht : t.kind ≠ .ending) (hts : Unended ts) :
    Unended (t :: ts) :=
  List.forall_mem_cons.mpr ⟨ht, hts⟩

/-- The reading comes to the end of the text, which is its last token, or it fails before the end. -/
inductive Reading.Whole : Reading → Prop where
  | ended {front : List Token} (h : Unended front) : Whole { tokens := front ++ [eof] }
  | failed {front : List Token} {fault : Fault} (h : Unended front) (hfault : fault ≠ .exhausted) :
    Whole { tokens := front, fault := some fault }

theorem Cuts.unended {cs left : List Char} {cuts : List (Token × List Char)} (h : Cuts cs cuts left) :
    Unended (cuts.map Prod.fst) := by
  induction h with
  | nil => simp [Unended]
  | cons h _ ih => exact ih.cons (kind_ne_of_next? h)

theorem whole_raw (text : String) : (raw text).Whole := by
  obtain ⟨cuts, left, hcuts, hends⟩ := cuts_raw text
  rcases hends with ⟨-, hraw⟩ | ⟨fault, ⟨-, hstops⟩, hraw⟩
  · rw [hraw]
    exact .ended hcuts.unended
  · rw [hraw]
    refine .failed hcuts.unended ?_
    rintro rfl
    rcases hstops with hnext | ⟨-, hfault⟩
    · exact next?_ne_exhausted left hnext
    · cases hfault

/-! ## Replacing aliases -/

section Expansion

variable {expand : Bool → String → Except Fault (List Token)} {fault : Option Fault} {t : Token}
  {ts : List Token} {r : Reading}

theorem Reading.Whole.cons (ht : t.kind ≠ .ending) (hr : r.Whole) : (r.cons t).Whole := by
  cases hr with
  | ended h => exact .ended (h.cons ht)
  | failed h hfault => exact .failed (h.cons ht) hfault

theorem Reading.Whole.append (hts : Unended ts) (hr : r.Whole) :
    Reading.Whole { r with tokens := ts ++ r.tokens } := by
  induction ts with
  | nil => exact hr
  | cons t ts ih =>
    obtain ⟨ht, hts⟩ := List.forall_mem_cons.mp hts
    exact (ih hts).cons ht

/-- The first token of a whole reading is its end, or the others are a whole reading. -/
theorem Reading.Whole.uncons (h : Reading.Whole ⟨t :: ts, fault⟩) :
    t = eof ∧ ts = [] ∧ fault = none ∨ t.kind ≠ .ending ∧ Reading.Whole ⟨ts, fault⟩ := by
  generalize hr : (⟨t :: ts, fault⟩ : Reading) = r at h
  cases h with
  | @ended front h =>
    cases front with
    | nil =>
      cases hr
      exact Or.inl ⟨rfl, rfl, rfl⟩
    | cons u front =>
      cases hr
      obtain ⟨ht, hfront⟩ := List.forall_mem_cons.mp h
      exact Or.inr ⟨ht, .ended hfront⟩
  | failed h hfault =>
    cases hr
    obtain ⟨ht, hfront⟩ := List.forall_mem_cons.mp h
    exact Or.inr ⟨ht, .failed hfront hfault⟩

theorem whole_expandWith (hendless : Endless expand)
    (hexpand : ∀ globalOnly text, expand globalOnly text ≠ .error .exhausted) (before : Option Token)
    (globalOnly : Bool) (h : Reading.Whole ⟨ts, fault⟩) :
    (expandWith expand fault before globalOnly ts).Whole := by
  -- a token that is passed on before what follows it
  have hkept : ∀ {n : Token} {rest : List Token}, Reading.Whole ⟨n :: rest, fault⟩ →
      (Reading.Whole ⟨rest, fault⟩ → (expandWith expand fault (some n) true rest).Whole) →
      ((expandWith expand fault (some n) true rest).cons n).Whole := by
    intro n rest hn hrest
    rcases hn.uncons with ⟨rfl, rfl, rfl⟩ | ⟨hkind, hwhole⟩
    · have hnil : Unended [] := by simp [Unended]
      exact .ended hnil
    · exact (hrest hwhole).cons hkind
  fun_induction expandWith expand fault before globalOnly ts with
  | case1 => exact h
  | case2 before globalOnly t rest _ ih => exact hkept h ih
  | case3 before globalOnly t hliteral =>
    rcases h.uncons with ⟨rfl, -, -⟩ | ⟨-, hwhole⟩
    · simp [eof] at hliteral
    · exact hwhole
  | case4 before globalOnly t hliteral n rest hpart ih =>
    rcases h.uncons with ⟨-, hnil, -⟩ | ⟨hkind, hwhole⟩
    · cases hnil
    · exact (hkept hwhole ih).cons hkind
  | case5 before globalOnly t _ n rest _ fault' hfault =>
    refine .failed (by simp [Unended]) ?_
    rintro rfl
    exact hexpand _ _ hfault
  | case6 before globalOnly t _ n rest _ replacement hreplacement _ ih =>
    rcases h.uncons with ⟨-, hnil, -⟩ | ⟨-, hwhole⟩
    · cases hnil
    · exact (hkept hwhole ih).append (hendless _ _ _ hreplacement)

theorem whole_replaced (hendless : Endless expand)
    (hexpand : ∀ globalOnly text, expand globalOnly text ≠ .error .exhausted) (globalOnly : Bool)
    (text : String) : (expandWith expand (raw text).fault none globalOnly (raw text).tokens).Whole :=
  whole_expandWith hendless hexpand none globalOnly (whole_raw text)

theorem expandAlias_ne_exhausted (aliases : List Alias) (depth : Nat) (active : List String)
    (globalOnly : Bool) (text : String) :
    expandAlias aliases depth active globalOnly text ≠ .error .exhausted := by
  cases depth with
  | zero => simp [expandAlias]
  | succ depth =>
    rw [expandAlias]
    split
    · simp
    split
    · simp
    dsimp only
    split
    · simp
    · simp
    · rename_i hne _
      simpa using hne

/-- Nothing is replaced if every literal stands for itself. A literal at the end of the tokens waits for
the token after it, and is passed on only if there is one. -/
theorem expandWith_eq_self (fault : Option Fault) (before : Option Token) (globalOnly : Bool)
    (hexpand : ∀ t ∈ ts, t.kind = .literal → ∀ globalOnly, expand globalOnly t.text = .ok [t]) :
    (expandWith expand fault before globalOnly ts).fault = fault ∧
      ((∀ t ∈ ts.getLast?, t.kind ≠ .literal) →
        (expandWith expand fault before globalOnly ts).tokens = ts) := by
  have hmem : ∀ {t : Token} {rest : List Token},
      (∀ u ∈ t :: rest, u.kind = .literal → ∀ globalOnly, expand globalOnly u.text = .ok [u]) →
      ∀ u ∈ rest, u.kind = .literal → ∀ globalOnly, expand globalOnly u.text = .ok [u] :=
    fun h u hu => h u (List.mem_cons_of_mem _ hu)
  have hlast : ∀ {t : Token} {rest : List Token}, (∀ u ∈ (t :: rest).getLast?, u.kind ≠ .literal) →
      ∀ u ∈ rest.getLast?, u.kind ≠ .literal :=
    fun h u hu => h u (List.mem_getLast?_cons hu)
  fun_induction expandWith expand fault before globalOnly ts with
  | case1 => simp
  | case2 before globalOnly t rest _ ih =>
    obtain ⟨hfault, htokens⟩ := ih (hmem hexpand)
    exact ⟨hfault, fun h => congrArg (List.cons t) (htokens (hlast h))⟩
  | case3 before globalOnly t hliteral => simp_all
  | case4 before globalOnly t _ n rest _ ih =>
    obtain ⟨hfault, htokens⟩ := ih (hmem (hmem hexpand))
    exact ⟨hfault, fun h => congrArg (fun others => t :: n :: others) (htokens (hlast (hlast h)))⟩
  | case5 before globalOnly t hliteral n rest _ fault' hfault =>
    simp at hliteral
    rw [hexpand t List.mem_cons_self hliteral.1] at hfault
    cases hfault
  | case6 before globalOnly t hliteral n rest _ replacement hreplacement _ ih =>
    obtain ⟨hfault, htokens⟩ := ih (hmem (hmem hexpand))
    simp at hliteral
    rw [hexpand t List.mem_cons_self hliteral.1] at hreplacement
    cases hreplacement
    exact ⟨hfault, fun h => congrArg (fun others => t :: n :: others) (htokens (hlast (hlast h)))⟩

theorem find?_eq_none {aliases : List Alias} {name : String} (h : ∀ a ∈ aliases, name ≠ a.name) :
    Alias.find? aliases name = none := by
  rw [Alias.find?, List.find?_eq_none]
  intro a ha
  simp [(h a ha).symm]

theorem expandAlias_of_unknown {aliases : List Alias} {text : String} (h : ∀ a ∈ aliases, text ≠ a.name)
    (depth : Nat) (active : List String) (globalOnly : Bool) :
    expandAlias aliases depth active globalOnly text = .ok [⟨.literal, text⟩] := by
  cases depth with
  | zero => rfl
  | succ depth => rw [expandAlias, find?_eq_none h]

end Expansion

/-! ## Settling spaces -/

/-- The tokens without the spaces that separate nothing: a space is kept if and only if the tokens before
and after it are sensitive to space. The first argument is the token before. -/
def separated : Option Token → List Token → List Token
  | _, [] => []
  | before, t :: rest =>
    if t.kind = .space && !(before.any (·.kind.isSpaceSensitive) && rest.head?.any (·.kind.isSpaceSensitive))
    then separated (some t) rest
    else t :: separated (some t) rest

/-- After a space comes a token that is neither a space nor the end. -/
def Tight (t u : Token) : Prop := t.kind = .space → u.kind ≠ .space ∧ u.kind ≠ .ending

section Settling

variable {current : Token} {ts front : List Token}

theorem separated_keep {t : Token} {before : Option Token}
    (h : t.kind = .space → before.any (·.kind.isSpaceSensitive) = true ∧
      ts.head?.any (·.kind.isSpaceSensitive) = true) :
    separated before (t :: ts) = t :: separated (some t) ts := by
  rw [separated, if_neg]
  intro hdrop
  simp only [Bool.and_eq_true, decide_eq_true_eq] at hdrop
  obtain ⟨hbefore, hafter⟩ := h hdrop.1
  simp [hbefore, hafter] at hdrop

theorem separated_drop {t : Token} {before : Option Token} (ht : t.kind = .space)
    (h : before.any (·.kind.isSpaceSensitive) = false ∨ ts.head?.any (·.kind.isSpaceSensitive) = false) :
    separated before (t :: ts) = separated (some t) ts := by
  rw [separated, if_pos]
  rcases h with h | h <;> simp [ht, h]

theorem separated_congr (before before' : Option Token) (h : ∀ t ∈ ts.head?, t.kind ≠ .space) :
    separated before ts = separated before' ts := by
  cases ts with
  | nil => rfl
  | cons t rest =>
    have ht : t.kind ≠ .space := h t rfl
    rw [separated_keep fun hspace => absurd hspace ht, separated_keep fun hspace => absurd hspace ht]

/-- A fault before the end of the text is passed on. -/
theorem settle_fault (fault : Option Fault) (fresh : Bool) (h : Unended (current :: ts)) :
    (settle fault current fresh ts).fault = fault.or (some .exhausted) := by
  induction ts generalizing current fresh with
  | nil =>
    have hcurrent : current.kind ≠ .ending := h current List.mem_cons_self
    simp [settle, hcurrent]
  | cons next rest ih =>
    obtain ⟨hcurrent, hts⟩ := List.forall_mem_cons.mp h
    obtain ⟨-, hrest⟩ := List.forall_mem_cons.mp hts
    rw [settle, if_neg (by simp [hcurrent])]
    split
    · exact ih _ (.cons hcurrent hrest)
    split
    · exact ih _ hts
    · exact ih _ hts

/-- Settling is the filter, where spaces stand alone between other tokens. A space is current only after a
token that is sensitive to it. -/
theorem settle_separated (before : Option Token) (fresh : Bool) (hunended : Unended (current :: front))
    (htight : List.IsChain Tight (current :: (front ++ [eof])))
    (hspace : current.kind = .space → before.any (·.kind.isSpaceSensitive) = true) :
    settle none current fresh (front ++ [eof]) =
      { tokens := separated before (current :: front) ++ [eof], fault := some .exhausted } := by
  induction front generalizing current before fresh with
  | nil =>
    have hcurrent : current.kind ≠ .ending := hunended current List.mem_cons_self
    have hsolid : current.kind ≠ .space := fun h =>
      ((List.isChain_cons_cons.mp htight).1 h).2 rfl
    simp [settle, separated, hcurrent, hsolid, eof, Reading.cons]
  | cons next rest ih =>
    obtain ⟨hcurrent, hts⟩ := List.forall_mem_cons.mp hunended
    obtain ⟨-, hrest⟩ := List.forall_mem_cons.mp hts
    obtain ⟨hnext, hchain⟩ := List.isChain_cons_cons.mp htight
    rw [List.cons_append, settle, if_neg (by simp [hcurrent])]
    split
    · -- a space after a token that is not sensitive to it
      rename_i h
      simp at h
      have hsolid : current.kind ≠ .space := fun hspace => (hnext hspace).1 h.1
      have hhead : ∀ t ∈ rest.head?, t.kind ≠ .space := by
        intro t ht
        obtain ⟨others, rfl⟩ := List.head?_eq_some_iff.mp ht
        exact ((List.isChain_cons_cons.mp hchain).1 h.1).1
      have hchain' : List.IsChain Tight (current :: (rest ++ [eof])) :=
        hchain.tail.cons fun _ _ hspace => absurd hspace hsolid
      have hdrop : separated (some current) (next :: rest) = separated (some next) rest :=
        separated_drop h.1 (Or.inl h.2)
      rw [ih before false (.cons hcurrent hrest) hchain' fun hspace => absurd hspace hsolid,
        separated_keep fun hspace => absurd hspace hsolid, separated_keep fun hspace => absurd hspace hsolid,
        hdrop, separated_congr (some next) (some current) hhead]
    rename_i hdropped
    split
    · -- a space before a token that is not sensitive to it
      rename_i h
      simp at h
      have hsolid : next.kind ≠ .space := (hnext h.1).1
      have hdrop : separated before (current :: next :: rest) = separated (some current) (next :: rest) :=
        separated_drop h.1 (Or.inr h.2)
      rw [ih (some current) false hts hchain fun hspace => absurd hspace hsolid, hdrop]
    · rename_i hkept
      simp at hdropped hkept
      have hkeep : separated before (current :: next :: rest) =
          current :: separated (some current) (next :: rest) :=
        separated_keep fun h => ⟨hspace h, hkept h⟩
      rw [ih (some current) true hts hchain hdropped, hkeep]
      rfl

end Settling

/-! ## Lines as they are lexed -/

section Lexed

variable {cs left piece : List Char} {kind : TokenKind} {cuts : List (Token × List Char)}

theorem CutsOff.head?_gap (h : CutsOff cs kind piece left) (hkind : kind = .space) :
    ∃ c ∈ cs.head?, isGap c = true := by
  obtain ⟨c, others, hpiece⟩ := List.exists_cons_of_ne_nil h.ne_nil
  refine ⟨c, ?_, (h.gap hkind).1 c (hpiece ▸ List.mem_cons_self)⟩
  rw [h.append, hpiece]
  rfl

theorem CutsOff.getLast?_gap (h : CutsOff cs kind piece []) (hkind : kind = .space) :
    ∃ c ∈ cs.getLast?, isGap c = true := by
  rw [h.append, List.append_nil]
  refine ⟨_, List.getLast?_eq_some_getLast h.ne_nil, ?_⟩
  exact (h.gap hkind).1 _ (List.getLast_mem h.ne_nil)

/-- Spaces stand alone in a line that does not end in one. -/
theorem tight_of_cuts (h : Cuts cs cuts left) (hleft : left = [])
    (hlast : ∀ c ∈ cs.getLast?, isGap c = false) : List.IsChain Tight (cuts.map Prod.fst ++ [eof]) := by
  induction h with
  | nil => exact .singleton _
  | @cons cs piece rest left kind cuts hnext hcuts ih =>
    have hcut := next?_cutsOff hnext
    have hrest : ∀ c ∈ rest.getLast?, isGap c = false := by
      intro c hc
      apply hlast c
      rw [hcut.append]
      exact List.mem_getLast?_append_of_mem_getLast? hc
    refine (ih hleft hrest).cons fun u hu hkind => ?_
    cases hcuts with
    | nil =>
      subst hleft
      obtain ⟨c, hc, hgap⟩ := hcut.getLast?_gap hkind
      rw [hlast c hc] at hgap
      cases hgap
    | cons hnext' _ =>
      obtain rfl := Option.some.inj hu
      refine ⟨fun hkind' => ?_, kind_ne_of_next? hnext'⟩
      obtain ⟨c, hc, hgap⟩ := (next?_cutsOff hnext').head?_gap hkind'
      rw [(hcut.gap hkind).2 c hc] at hgap
      cases hgap

theorem head?_of_cuts (h : Cuts cs cuts left) (hhead : ∀ c ∈ cs.head?, isGap c = false) :
    ∀ t ∈ (cuts.map Prod.fst).head?, t.kind ≠ .space := by
  cases h with
  | nil => simp
  | cons hnext _ =>
    intro t ht hkind
    obtain rfl := Option.some.inj ht
    obtain ⟨c, hc, hgap⟩ := (next?_cutsOff hnext).head?_gap hkind
    rw [hhead c hc] at hgap
    cases hgap

end Lexed

theorem isGap_eq_false {c : Char} (h : isBlank c = false) : isGap c = false := by
  rw [Bool.eq_false_iff]
  intro hgap
  rw [isBlank_of_isGap hgap] at h
  cases h

/-- Settling the spaces of a line as it is lexed. -/
theorem settleAll_raw {text : String} (h : (raw text).fault = none) :
    ∃ front, (raw text).tokens = front ++ [eof] ∧ Unended front ∧
      settleAll (raw text) = { tokens := separated none front ++ [eof], fault := some .exhausted } := by
  obtain ⟨cuts, left, hcuts, hends⟩ := cuts_raw text
  rcases hends with ⟨hleft, hraw⟩ | ⟨fault, -, hraw⟩
  · have htight := tight_of_cuts hcuts hleft fun c hc => isGap_eq_false (getLast?_strip hc)
    have hhead := head?_of_cuts hcuts fun c hc => isGap_eq_false (head?_strip hc)
    have hunended := hcuts.unended
    rw [hraw]
    revert htight hhead hunended
    generalize cuts.map Prod.fst = front
    intro htight hhead hunended
    refine ⟨front, rfl, hunended, ?_⟩
    cases front with
    | nil => rfl
    | cons first rest =>
      exact settle_separated none true hunended htight fun hspace => absurd hspace (hhead first rfl)
  · rw [hraw] at h
    cases h

/-- A fault before the end of the text comes through. -/
theorem Reading.Whole.settleAll_fault {r : Reading} {fault : Fault} (h : r.Whole)
    (hfault : r.fault = some fault) : fault ≠ .exhausted ∧ (settleAll r).fault = some fault := by
  cases h with
  | ended _ => cases hfault
  | @failed front _ hunended hne =>
    cases hfault
    refine ⟨hne, ?_⟩
    cases front with
    | nil => rfl
    | cons first rest => exact settle_fault (some fault) true hunended

/-- **The tokens of a line that names no alias.** They are the tokens that lexing gives, with a space kept
if and only if both its neighbours are sensitive to space, and the end after them. A fault of lexing is
the only one there can be, and it comes through. -/
theorem tokens_separated (aliases : List Alias) (globalOnly : Bool) (text : String)
    (h : ∀ a ∈ aliases, ∀ t ∈ (raw text).tokens, t.kind = .literal → t.text ≠ a.name) :
    ((raw text).fault = none → ∃ front, (raw text).tokens = front ++ [eof] ∧ Unended front ∧
      tokens aliases globalOnly text =
        { tokens := separated none front ++ [eof], fault := some .exhausted }) ∧
    (∀ fault, (raw text).fault = some fault →
      fault ≠ .exhausted ∧ (tokens aliases globalOnly text).fault = some fault) := by
  have hexpand : ∀ t ∈ (raw text).tokens, t.kind = .literal → ∀ globalOnly,
      expandAlias aliases (aliases.length + 1) [] globalOnly t.text = .ok [t] := by
    intro t ht hkind globalOnly
    rw [expandAlias_of_unknown fun a ha => h a ha t ht hkind, ← hkind]
  obtain ⟨hfault, htokens⟩ :=
    expandWith_eq_self (raw text).fault none globalOnly hexpand
  have hwhole := whole_replaced (endless_expandAlias aliases (aliases.length + 1) [])
    (expandAlias_ne_exhausted aliases (aliases.length + 1) []) globalOnly text
  rw [tokens, tokensWith]
  constructor
  · intro hnone
    obtain ⟨front, hraw, hunended, hsettled⟩ := settleAll_raw hnone
    have hlast : ∀ t ∈ (raw text).tokens.getLast?, t.kind ≠ .literal := by
      rw [hraw]
      simp [eof]
    have hsame : expandWith (expandAlias aliases (aliases.length + 1) []) (raw text).fault none globalOnly
        (raw text).tokens = raw text := congrArg₂ Reading.mk (htokens hlast) hfault
    exact ⟨front, hraw, hunended, by rw [hsame, hsettled]⟩
  · intro fault hsome
    exact hwhole.settleAll_fault (hfault.trans hsome)

/-- Two words around two blanks keep one space, and the spaces around a pipe are dropped. -/
theorem tokens_separated_pipeline :
    (∀ a ∈ [(⟨"ll", "ls -l", true⟩ : Alias), ⟨"none", "", true⟩],
      ∀ t ∈ (raw "echo  'a b' | cat;").tokens, t.kind = .literal → t.text ≠ a.name) ∧
    (raw "echo  'a b' | cat;").fault = none ∧
    ∃ front, (raw "echo  'a b' | cat;").tokens = front ++ [eof] ∧ Unended front ∧
      tokens [⟨"ll", "ls -l", true⟩, ⟨"none", "", true⟩] false "echo  'a b' | cat;" =
        { tokens := separated none front ++ [eof], fault := some .exhausted } := by
  have hnames : ∀ a ∈ [(⟨"ll", "ls -l", true⟩ : Alias), ⟨"none", "", true⟩],
      ∀ t ∈ (raw "echo  'a b' | cat;").tokens, t.kind = .literal → t.text ≠ a.name := by
    decide +kernel
  have hfault : (raw "echo  'a b' | cat;").fault = none := by decide +kernel
  exact ⟨hnames, hfault, (tokens_separated _ false _ hnames).1 hfault⟩

end Token

end ValueShell
