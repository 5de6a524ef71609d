import ValueShell.Proofs.Command.Ending
import Mathlib.Data.Finset.Card
import Mathlib.Data.Finset.SDiff

/-!
# The expansion of aliases ends

`Tokenizes` says how a text is cut into tokens and its aliases are expanded, with no bound on the nesting.
While the text of an alias is read, its name stands in a history that all texts share: it is put in before
and taken out after. A name that is in the history stands for itself. What is expanded inside of what is
kept as a tree (`Nest`).

A step into the text of an alias takes one name away from those that are not in the history, so every text
comes to its end, and the bound by which `tokens` is computed is never reached. Along a chain of nested
expansions the history grows, so no name comes twice.
-/

set_option autoImplicit false

namespace ValueShell.Token

open Text

/-! ## Expansion without a bound -/

/-- An expansion of an alias, and the expansions that are made while its text is read. -/
inductive Nest where
  | mk (name : String) (inner : List Nest)

/-- The names of expansions each of which is made inside of the one before it. -/
inductive Chain : List Nest → List String → Prop
  | single {name : String} {inner nests : List Nest} (h : .mk name inner ∈ nests) : Chain nests [name]
  | cons {name : String} {inner nests : List Nest} {names : List String} (h : .mk name inner ∈ nests)
      (hinner : Chain inner names) : Chain nests (name :: names)

/-- The names of the aliases whose texts are being read. -/
abbrev History := Finset String

/-- What stands in the place of a word, by the history before, whether only global aliases count, and the
word: the expansions that are made, the tokens or a fault, and the history after. -/
abbrev WordRule := History → Bool → String → List Nest → Except Fault (List Token) → History → Prop

/-- The token may be the name of an alias: a literal with no part of a word before it. -/
def Stands (before : Option Token) (t : Token) : Prop :=
  t.kind = .literal ∧ (before.map fun b => b.kind.isWordPart).getD false = false

/-- The text is cut into tokens, one after the other, up to its end or to a fault. -/
def Lexed (text : String) (r : Reading) : Prop :=
  ∃ cuts left, Cuts (strip text.toList) cuts left ∧
    (left = [] ∧ r = { tokens := cuts.map Prod.fst ++ [eof] } ∨
      ∃ fault, StopsAt left fault ∧ r = { tokens := cuts.map Prod.fst, fault })

/-- The tokens with what stands in the place of the words among them. -/
inductive Replaces (word : WordRule) :
    History → Option Fault → Option Token → Bool → List Token → List Nest → Reading → History → Prop
  | nil {history : History} {fault : Option Fault} {before : Option Token} {globalOnly : Bool} :
      Replaces word history fault before globalOnly [] [] { tokens := [], fault } history
  | keep {history history' : History} {fault : Option Fault} {before : Option Token} {globalOnly : Bool}
      {t : Token} {rest : List Token} {nests : List Nest} {r : Reading} (ht : ¬ Stands before t)
      (hrest : Replaces word history fault (some t) true rest nests r history') :
      Replaces word history fault before globalOnly (t :: rest) nests (r.cons t) history'
  /-- What follows the literal cannot be read. -/
  | last {history : History} {fault : Option Fault} {before : Option Token} {globalOnly : Bool} {t : Token}
      (ht : Stands before t) :
      Replaces word history fault before globalOnly [t] [] { tokens := [], fault } history
  | joined {history history' : History} {fault : Option Fault} {before : Option Token} {globalOnly : Bool}
      {t next : Token} {rest : List Token} {nests : List Nest} {r : Reading} (ht : Stands before t)
      (hnext : next.kind.isWordPart = true)
      (hrest : Replaces word history fault (some next) true rest nests r history') :
      Replaces word history fault before globalOnly (t :: next :: rest) nests ((r.cons next).cons t) history'
  | fails {history history' : History} {fault : Option Fault} {before : Option Token} {globalOnly : Bool}
      {t next : Token} {rest : List Token} {nests : List Nest} {found : Fault} (ht : Stands before t)
      (hnext : next.kind.isWordPart = false)
      (hword : word history globalOnly t.text nests (.error found) history') :
      Replaces word history fault before globalOnly (t :: next :: rest) nests
        { tokens := [], fault := some found } history'
  | replace {history history₁ history₂ : History} {fault : Option Fault} {before : Option Token}
      {globalOnly : Bool} {t next : Token} {rest replacement : List Token} {nests₁ nests₂ : List Nest}
      {r : Reading} (ht : Stands before t) (hnext : next.kind.isWordPart = false)
      (hword : word history globalOnly t.text nests₁ (.ok replacement) history₁)
      (hrest : Replaces word history₁ fault (some next) true rest nests₂ r history₂) :
      Replaces word history fault before globalOnly (t :: next :: rest) (nests₁ ++ nests₂)
        { r with tokens := replacement ++ next :: r.tokens } history₂

/-- The text of the alias is read in the place of the word: the alias has this name, its text is not being
read, and it applies in this place. -/
def Opens (aliases : List Alias) (history : History) (globalOnly : Bool) (text : String) (a : Alias) : Prop :=
  Alias.find? aliases text = some a ∧ text ∉ history ∧ (globalOnly = true → a.everywhere = true)

/-- What stands in the place of a word: the word itself, or the tokens of an alias's text without the
last. -/
inductive Expands (aliases : List Alias) :
    History → Bool → String → List Nest → Except Fault (List Token) → History → Prop
  | itself {history : History} {globalOnly : Bool} {text : String}
      (h : ∀ a, ¬ Opens aliases history globalOnly text a) :
      Expands aliases history globalOnly text [] (.ok [⟨.literal, text⟩]) history
  | text {history history' : History} {globalOnly : Bool} {text : String} {a : Alias} {lexed r : Reading}
      {inner : List Nest} (h : Opens aliases history globalOnly text a) (hlexed : Lexed a.text lexed)
      (hreplaced : Replaces (Expands aliases) (insert text history) lexed.fault none globalOnly lexed.tokens
        inner r history')
      (hend : (settleAll r).fault = some .exhausted) :
      Expands aliases history globalOnly text [.mk text inner] (.ok (settleAll r).tokens.dropLast)
        (history'.erase text)
  /-- Nothing takes the name out of the history when reading the alias's text fails. -/
  | fails {history history' : History} {globalOnly : Bool} {text : String} {a : Alias} {lexed r : Reading}
      {inner : List Nest} {fault : Fault} (h : Opens aliases history globalOnly text a)
      (hlexed : Lexed a.text lexed)
      (hreplaced : Replaces (Expands aliases) (insert text history) lexed.fault none globalOnly lexed.tokens
        inner r history')
      (hfault : (settleAll r).fault = some fault) (hne : fault ≠ .exhausted) :
      Expands aliases history globalOnly text [.mk text inner] (.error fault) history'

/-- The tokens of a text: it is cut into tokens, aliases are expanded, and spaces are settled. -/
def Tokenizes (aliases : List Alias) (history : History) (globalOnly : Bool) (text : String)
    (nests : List Nest) (r : Reading) (history' : History) : Prop :=
  ∃ lexed replaced, Lexed text lexed ∧
    Replaces (Expands aliases) history lexed.fault none globalOnly lexed.tokens nests replaced history' ∧
    r = settleAll replaced

/-! ## Lexing -/

/-- Cutting tokens off a text one after the other comes to the same end as lexing. -/
theorem rawFrom_of_cuts {cs left : List Char} {cuts : List (Token × List Char)} (h : Cuts cs cuts left)
    {n : Nat} (hn : cs.length < n) :
    (left = [] → rawFrom n cs = { tokens := cuts.map Prod.fst ++ [eof] }) ∧
      ∀ fault, StopsAt left fault → rawFrom n cs = { tokens := cuts.map Prod.fst, fault } := by
  induction h generalizing n with
  | nil cs =>
    obtain ⟨n, rfl⟩ := Nat.exists_eq_succ_of_ne_zero (Nat.ne_of_gt (Nat.zero_lt_of_lt hn))
    constructor
    · rintro rfl
      rfl
    · rintro fault ⟨hne, hstops⟩
      rw [rawFrom, if_neg (by simpa using hne)]
      rcases hstops with hnext | ⟨hnext, rfl⟩
      · simp [hnext]
      · simp [hnext]
  | @cons cs piece rest left kind cuts hnext hcuts ih =>
    obtain ⟨n, rfl⟩ := Nat.exists_eq_succ_of_ne_zero (Nat.ne_of_gt (Nat.zero_lt_of_lt hn))
    have hcut := next?_cutsOff hnext
    have hne : cs ≠ [] := by
      rw [hcut.append]
      exact List.append_ne_nil_of_left_ne_nil hcut.ne_nil rest
    have hshorter : rest.length < n := by
      have hpos := List.length_pos_iff.mpr hcut.ne_nil
      rw [hcut.append, List.length_append] at hn
      omega
    have hraw : rawFrom (n + 1) cs = (rawFrom n rest).cons (ofPiece kind piece) := by
      rw [rawFrom, if_neg (by simpa using hne)]
      simp only [hnext]
    obtain ⟨hends, hstops⟩ := ih hshorter
    constructor
    · intro hleft
      rw [hraw, hends hleft]
      rfl
    · intro fault hfault
      rw [hraw, hstops fault hfault]
      rfl

theorem lexed_iff {text : String} {r : Reading} : Lexed text r ↔ r = raw text := by
  constructor
  · rintro ⟨cuts, left, hcuts, hr⟩
    obtain ⟨hends, hstops⟩ := rawFrom_of_cuts hcuts (Nat.lt_succ_self (strip text.toList).length)
    rcases hr with ⟨hleft, rfl⟩ | ⟨fault, hfault, rfl⟩
    · exact (hends hleft).symm
    · exact (hstops fault hfault).symm
  · rintro rfl
    exact cuts_raw text

/-! ## Words in their places -/

section Replacing

variable {word : WordRule} {expand : Bool → String → Except Fault (List Token)} {history history' : History}
  {fault : Option Fault} {before : Option Token} {globalOnly : Bool} {ts : List Token} {nests : List Nest}
  {r : Reading}

/-- In this history, `expand` computes what stands in the place of every word, and the history is afterwards
what it was unless there is a fault. -/
structure Computes (word : WordRule) (history : History)
    (expand : Bool → String → Except Fault (List Token)) : Prop where
  ends : ∀ globalOnly text, ∃ nests history', word history globalOnly text nests (expand globalOnly text) history'
  unique : ∀ globalOnly text nests result history',
    word history globalOnly text nests result history' → result = expand globalOnly text
  restored : ∀ globalOnly text nests replacement history',
    word history globalOnly text nests (.ok replacement) history' → history' = history

theorem stands_iff {t : Token} :
    Stands before t ↔
      ¬ (t.kind ≠ .literal || (before.map fun b => b.kind.isWordPart).getD false) = true := by
  simp [Stands]

theorem exists_replaces (h : Computes word history expand) (fault : Option Fault) (before : Option Token)
    (globalOnly : Bool) (ts : List Token) :
    ∃ nests history', Replaces word history fault before globalOnly ts nests
      (expandWith expand fault before globalOnly ts) history' := by
  fun_induction expandWith expand fault before globalOnly ts with
  | case1 => exact ⟨[], history, .nil⟩
  | case2 before globalOnly t rest ht ih =>
    obtain ⟨nests, history', hrest⟩ := ih
    exact ⟨nests, history', .keep (fun hstands => stands_iff.mp hstands ht) hrest⟩
  | case3 before globalOnly t ht => exact ⟨[], history, .last (stands_iff.mpr ht)⟩
  | case4 before globalOnly t ht next rest hnext ih =>
    obtain ⟨nests, history', hrest⟩ := ih
    exact ⟨nests, history', .joined (stands_iff.mpr ht) hnext hrest⟩
  | case5 before globalOnly t ht next rest hnext found hfound =>
    obtain ⟨nests, history', hword⟩ := h.ends globalOnly t.text
    rw [hfound] at hword
    exact ⟨nests, history', .fails (stands_iff.mpr ht) (by simpa using hnext) hword⟩
  | case6 before globalOnly t ht next rest hnext replacement hfound others ih =>
    obtain ⟨nests₁, history₁, hword⟩ := h.ends globalOnly t.text
    rw [hfound] at hword
    obtain rfl := h.restored _ _ _ _ _ hword
    obtain ⟨nests₂, history₂, hrest⟩ := ih
    exact ⟨nests₁ ++ nests₂, history₂, .replace (stands_iff.mpr ht) (by simpa using hnext) hword hrest⟩

theorem eq_expandWith (h : Computes word history expand)
    (hreplaces : Replaces word history fault before globalOnly ts nests r history') :
    r = expandWith expand fault before globalOnly ts ∧ (r.fault = none → history' = history) := by
  induction hreplaces with
  | nil => exact ⟨rfl, fun _ => rfl⟩
  | keep ht _ ih =>
    obtain ⟨rfl, hhistory⟩ := ih h
    rw [stands_iff, not_not] at ht
    refine ⟨?_, hhistory⟩
    conv_rhs => rw [expandWith.eq_def]
    simp only [ht, if_true]
  | last ht =>
    rw [stands_iff] at ht
    refine ⟨?_, fun _ => rfl⟩
    rw [expandWith, if_neg ht]
  | joined ht hnext _ ih =>
    obtain ⟨rfl, hhistory⟩ := ih h
    rw [stands_iff] at ht
    refine ⟨?_, hhistory⟩
    rw [expandWith, if_neg ht]
    simp only [hnext, if_true]
  | fails ht hnext hword =>
    rw [stands_iff] at ht
    have hfound := h.unique _ _ _ _ _ hword
    constructor
    · rw [expandWith, if_neg ht]
      simp only [hnext, ← hfound, Bool.false_eq_true, if_false]
    · intro hnone
      cases hnone
  | replace ht hnext hword _ ih =>
    rw [stands_iff] at ht
    have hfound := h.unique _ _ _ _ _ hword
    obtain rfl := h.restored _ _ _ _ _ hword
    obtain ⟨rfl, hhistory⟩ := ih h
    refine ⟨?_, hhistory⟩
    rw [expandWith, if_neg ht]
    simp only [hnext, ← hfound, Bool.false_eq_true, if_false]
    rfl

theorem chain_append {nests₁ nests₂ : List Nest} {names : List String} :
    Chain (nests₁ ++ nests₂) names ↔ Chain nests₁ names ∨ Chain nests₂ names := by
  constructor
  · intro h
    cases h with
    | single h => exact (List.mem_append.mp h).imp .single .single
    | cons h hinner => exact (List.mem_append.mp h).imp (.cons · hinner) (.cons · hinner)
  · rintro (h | h)
    · cases h with
      | single h => exact .single (List.mem_append_left _ h)
      | cons h hinner => exact .cons (List.mem_append_left _ h) hinner
    · cases h with
      | single h => exact .single (List.mem_append_right _ h)
      | cons h hinner => exact .cons (List.mem_append_right _ h) hinner

/-- The expansions among tokens are those of the words. -/
theorem chain_of_replaces (h : Computes word history expand) {P : List String → Prop}
    (hword : ∀ globalOnly text nests result history', word history globalOnly text nests result history' →
      ∀ names, Chain nests names → P names)
    (hreplaces : Replaces word history fault before globalOnly ts nests r history') :
    ∀ names, Chain nests names → P names := by
  induction hreplaces with
  | nil => nofun
  | keep _ _ ih => exact ih h hword
  | last _ => nofun
  | joined _ _ _ ih => exact ih h hword
  | fails _ _ hfails => exact hword _ _ _ _ _ hfails
  | replace _ _ hreplaced _ ih =>
    intro names hnames
    rcases chain_append.mp hnames with hfirst | hlater
    · exact hword _ _ _ _ _ hreplaced names hfirst
    · obtain rfl := h.restored _ _ _ _ _ hreplaced
      exact ih h hword names hlater

end Replacing

/-! ## The measure -/

section Aliases

variable {aliases : List Alias} {history history' : History} {globalOnly : Bool} {text : String} {a : Alias}

/-- The names of the aliases. -/
def aliasNames (aliases : List Alias) : Finset String := (aliases.map Alias.name).toFinset

theorem mem_aliasNames (h : Alias.find? aliases text = some a) : text ∈ aliasNames aliases := by
  have hname : a.name = text := by simpa using List.find?_some h
  rw [aliasNames, List.mem_toFinset, ← hname]
  exact List.mem_map_of_mem (List.mem_of_find?_eq_some h)

/-- An expansion takes one name away from those that can still be expanded. -/
theorem Opens.card_lt (h : Opens aliases history globalOnly text a) :
    (aliasNames aliases \ insert text history).card < (aliasNames aliases \ history).card := by
  obtain ⟨hfind, hnew, -⟩ := h
  apply Finset.card_lt_card
  rw [Finset.ssubset_iff_of_subset (Finset.sdiff_subset_sdiff subset_rfl (Finset.subset_insert text history))]
  refine ⟨text, ?_, ?_⟩
  · exact Finset.mem_sdiff.mpr ⟨mem_aliasNames hfind, hnew⟩
  · simp

variable {depth : Nat} {active : List String}

theorem expandAlias_itself (hactive : ∀ name, name ∈ active ↔ name ∈ history)
    (h : ∀ a, ¬ Opens aliases history globalOnly text a) :
    expandAlias aliases (depth + 1) active globalOnly text = .ok [⟨.literal, text⟩] := by
  rw [expandAlias]
  split
  · rfl
  · rename_i a hfind
    have hclosed : text ∈ history ∨ globalOnly = true ∧ a.everywhere = false := by
      by_contra hopen
      rw [not_or, not_and, Bool.not_eq_false] at hopen
      exact h a ⟨hfind, hopen⟩
    rw [if_pos (by simpa [hactive] using hclosed)]

/-- The text of an alias is read for its tokens. -/
theorem Opens.expandAlias_eq (h : Opens aliases history globalOnly text a)
    (hactive : ∀ name, name ∈ active ↔ name ∈ history) {r : Reading}
    (hr : r = tokensWith (expandAlias aliases depth (text :: active)) globalOnly a.text) :
    (r.fault = some .exhausted →
        expandAlias aliases (depth + 1) active globalOnly text = .ok r.tokens.dropLast) ∧
      ∀ fault, r.fault = some fault → fault ≠ .exhausted →
        expandAlias aliases (depth + 1) active globalOnly text = .error fault := by
  obtain ⟨hfind, hnew, hplace⟩ := h
  have hopen : (active.contains text || (globalOnly && !a.everywhere)) = false := by
    simpa [hactive] using ⟨hnew, hplace⟩
  constructor
  · intro hfault
    rw [expandAlias, hfind]
    simp only [hopen, ← hr, hfault, Bool.false_eq_true, if_false]
  · intro fault hfault hne
    rw [expandAlias, hfind]
    simp only [hopen, ← hr, hfault, Bool.false_eq_true, if_false]

/-- The tokens of a text that is read in this history, by the function that computes the words. -/
theorem eq_tokensWith {lexed r : Reading} {nests : List Nest}
    (h : Computes (Expands aliases) history (expandAlias aliases depth active)) (hlexed : Lexed text lexed)
    (hreplaced : Replaces (Expands aliases) history lexed.fault none globalOnly lexed.tokens nests r history') :
    settleAll r = tokensWith (expandAlias aliases depth active) globalOnly text ∧
      ((settleAll r).fault = some .exhausted → history' = history) := by
  obtain rfl := lexed_iff.mp hlexed
  obtain ⟨rfl, hhistory⟩ := eq_expandWith h hreplaced
  refine ⟨rfl, fun hend => hhistory ?_⟩
  have hwhole := whole_replaced (endless_expandAlias aliases depth active)
    (expandAlias_ne_exhausted aliases depth active) globalOnly text
  by_contra hfault
  obtain ⟨fault, hfault⟩ := Option.ne_none_iff_exists'.mp hfault
  obtain ⟨hne, hsettled⟩ := hwhole.settleAll_fault hfault
  rw [hsettled] at hend
  exact hne (Option.some.inj hend)

/-- The expansion of an alias ends if the words of its text are computed. -/
theorem Opens.ends (h : Opens aliases history globalOnly text a)
    (hactive : ∀ name, name ∈ active ↔ name ∈ history)
    (hinner : Computes (Expands aliases) (insert text history) (expandAlias aliases depth (text :: active))) :
    ∃ nests history', Expands aliases history globalOnly text nests
      (expandAlias aliases (depth + 1) active globalOnly text) history' := by
  have hlexed : Lexed a.text (raw a.text) := lexed_iff.mpr rfl
  obtain ⟨inner, history', hreplaced⟩ :=
    exists_replaces hinner (raw a.text).fault none globalOnly (raw a.text).tokens
  obtain ⟨hends, hfails⟩ := h.expandAlias_eq hactive (eq_tokensWith hinner hlexed hreplaced).1
  obtain ⟨fault, hfault⟩ := Option.isSome_iff_exists.mp (settleAll_isSome _)
  by_cases hend : fault = .exhausted
  · rw [hend] at hfault
    rw [hends hfault]
    exact ⟨[.mk text inner], history'.erase text, .text h hlexed hreplaced hfault⟩
  · rw [hfails fault hfault hend]
    exact ⟨[.mk text inner], history', .fails h hlexed hreplaced hfault hend⟩

/-- An expansion gives what is computed, and takes the name out of the history that it has put in. -/
theorem eq_expandAlias (hactive : ∀ name, name ∈ active ↔ name ∈ history)
    (hinner : ∀ a, Opens aliases history globalOnly text a →
      Computes (Expands aliases) (insert text history) (expandAlias aliases depth (text :: active)))
    {nests : List Nest} {result : Except Fault (List Token)}
    (h : Expands aliases history globalOnly text nests result history') :
    result = expandAlias aliases (depth + 1) active globalOnly text ∧
      ∀ replacement, result = .ok replacement → history' = history := by
  cases h with
  | itself hitself => exact ⟨(expandAlias_itself hactive hitself).symm, fun _ _ => rfl⟩
  | text hopens hlexed hreplaced hend =>
    obtain ⟨htokens, hhistory⟩ := eq_tokensWith (hinner _ hopens) hlexed hreplaced
    refine ⟨((hopens.expandAlias_eq hactive htokens).1 hend).symm, fun _ _ => ?_⟩
    rw [hhistory hend]
    exact Finset.erase_insert hopens.2.1
  | fails hopens hlexed hreplaced hfault hne =>
    obtain ⟨htokens, -⟩ := eq_tokensWith (hinner _ hopens) hlexed hreplaced
    exact ⟨((hopens.expandAlias_eq hactive htokens).2 _ hfault hne).symm, nofun⟩

/-- With more depth than there are names to expand, what stands in the place of a word is computed. -/
theorem computes_expandAlias (aliases : List Alias) (depth : Nat) (history : History) (active : List String)
    (hactive : ∀ name, name ∈ active ↔ name ∈ history)
    (hdepth : (aliasNames aliases \ history).card < depth) :
    Computes (Expands aliases) history (expandAlias aliases depth active) := by
  induction depth generalizing history active with
  | zero => omega
  | succ depth ih =>
    have hinner (globalOnly : Bool) (text : String) (a : Alias)
        (h : Opens aliases history globalOnly text a) :
        Computes (Expands aliases) (insert text history) (expandAlias aliases depth (text :: active)) := by
      apply ih
      · simp [hactive]
      · have := h.card_lt
        omega
    constructor
    · intro globalOnly text
      by_cases hitself : ∀ a, ¬ Opens aliases history globalOnly text a
      · rw [expandAlias_itself hactive hitself]
        exact ⟨[], history, .itself hitself⟩
      · obtain ⟨a, h⟩ := not_forall_not.mp hitself
        exact h.ends hactive (hinner globalOnly text a h)
    · intro globalOnly text nests result history' h
      exact (eq_expandAlias hactive (hinner globalOnly text) h).1
    · intro globalOnly text nests replacement history' h
      exact (eq_expandAlias hactive (hinner globalOnly text) h).2 replacement rfl

/-! ## Chains of expansions -/

/-- Names of aliases that are not in the history, none of them twice. -/
def Fresh (aliases : List Alias) (history : History) (names : List String) : Prop :=
  names.Nodup ∧ ∀ name ∈ names, name ∈ aliasNames aliases ∧ name ∉ history

theorem Opens.fresh (h : Opens aliases history globalOnly text a) {inner : List Nest} {names : List String}
    (hinner : ∀ names, Chain inner names → Fresh aliases (insert text history) names)
    (hchain : Chain [.mk text inner] names) : Fresh aliases history names := by
  obtain ⟨hfind, hnew, -⟩ := h
  have hname := mem_aliasNames hfind
  cases hchain with
  | single hmem =>
    obtain ⟨rfl, rfl⟩ := Nest.mk.inj (List.mem_singleton.mp hmem)
    refine ⟨List.nodup_singleton _, ?_⟩
    simpa using ⟨hname, hnew⟩
  | cons hmem hdeeper =>
    obtain ⟨rfl, rfl⟩ := Nest.mk.inj (List.mem_singleton.mp hmem)
    obtain ⟨hnodup, hfresh⟩ := hinner _ hdeeper
    refine ⟨List.nodup_cons.mpr ⟨?_, hnodup⟩, ?_⟩
    · intro htwice
      exact (hfresh _ htwice).2 (Finset.mem_insert_self _ _)
    · rw [List.forall_mem_cons]
      refine ⟨⟨hname, hnew⟩, ?_⟩
      intro name hmem
      obtain ⟨halias, hnot⟩ := hfresh name hmem
      exact ⟨halias, fun hin => hnot (Finset.mem_insert_of_mem hin)⟩

/-- Deeper and deeper inside of expansions, the history only grows. -/
theorem fresh_of_expands {nests : List Nest} {result : Except Fault (List Token)} {names : List String}
    (h : Expands aliases history globalOnly text nests result history') (hchain : Chain nests names) :
    Fresh aliases history names := by
  induction hn : (aliasNames aliases \ history).card using Nat.strongRecOn
    generalizing history globalOnly text nests result history' names with
  | _ n ih =>
    have hinner {a : Alias} {fault : Option Fault} {ts : List Token} {inner : List Nest} {r : Reading}
        {history' : History} (hopens : Opens aliases history globalOnly text a)
        (hreplaced : Replaces (Expands aliases) (insert text history) fault none globalOnly ts inner r
          history') :
        ∀ names, Chain inner names → Fresh aliases (insert text history) names := by
      have hlt := hopens.card_lt
      have hcomputes := computes_expandAlias aliases n (insert text history) (insert text history).toList
        (by simp) (by omega)
      refine chain_of_replaces hcomputes ?_ hreplaced
      intro globalOnly' text' nests' result' history'' h' names' hchain'
      exact ih _ (by omega) h' hchain' rfl
    cases h with
    | itself _ => cases hchain <;> contradiction
    | text hopens _ hreplaced _ => exact hopens.fresh (hinner hopens hreplaced) hchain
    | fails hopens _ hreplaced _ _ => exact hopens.fresh (hinner hopens hreplaced) hchain

theorem Fresh.length_le {names : List String} (h : Fresh aliases history names) :
    names.length ≤ (aliasNames aliases).card := by
  obtain ⟨hnodup, hfresh⟩ := h
  rw [← List.toFinset_card_of_nodup hnodup]
  apply Finset.card_le_card
  intro name hmem
  exact (hfresh name (List.mem_toFinset.mp hmem)).1

end Aliases

/-- **The expansion of aliases ends.** Every text with any aliases, also ones that name themselves or each
other, is read to its end or to a fault without a bound on the nesting of expansions, in one way only, and
what comes of it is what is computed. Along a chain of nested expansions the names are names of aliases and
none comes twice, so there are at most as many of them as there are aliases. The history is empty again at
the end. -/
theorem expansion_ends (aliases : List Alias) (globalOnly : Bool) (text : String) :
    (∃ nests history, Tokenizes aliases ∅ globalOnly text nests (tokens aliases globalOnly text) history) ∧
      ∀ nests r history, Tokenizes aliases ∅ globalOnly text nests r history →
        r = tokens aliases globalOnly text ∧ (r.fault = some .exhausted → history = ∅) ∧
          ∀ names, Chain nests names →
            names.Nodup ∧ (∀ name ∈ names, ∃ a ∈ aliases, a.name = name) ∧
              names.length ≤ (aliasNames aliases).card := by
  have hdepth : (aliasNames aliases \ ∅).card < aliases.length + 1 := by
    rw [Finset.sdiff_empty, Nat.lt_succ_iff, ← List.length_map Alias.name]
    exact List.toFinset_card_le _
  have hcomputes := computes_expandAlias aliases (aliases.length + 1) ∅ [] (by simp) hdepth
  constructor
  · obtain ⟨nests, history, hreplaced⟩ :=
      exists_replaces hcomputes (raw text).fault none globalOnly (raw text).tokens
    exact ⟨nests, history, raw text, _, lexed_iff.mpr rfl, hreplaced, rfl⟩
  · rintro nests r history ⟨lexed, replaced, hlexed, hreplaced, rfl⟩
    obtain ⟨htokens, hhistory⟩ := eq_tokensWith hcomputes hlexed hreplaced
    refine ⟨htokens, hhistory, ?_⟩
    intro names hchain
    have hfresh : Fresh aliases ∅ names := by
      refine chain_of_replaces hcomputes ?_ hreplaced names hchain
      intro globalOnly' text' nests' result history' h names' hchain'
      exact fresh_of_expands h hchain'
    refine ⟨hfresh.1, ?_, hfresh.length_le⟩
    intro name hmem
    simpa [aliasNames] using (hfresh.2 name hmem).1

example :
    (tokens [⟨"ls", "dir -a", true⟩, ⟨"dir", "ls -l", true⟩] false "ls | dir").tokens =
      [⟨.literal, "ls"⟩, ⟨.space, " "⟩, ⟨.literal, "-l"⟩, ⟨.space, " "⟩, ⟨.literal, "-a"⟩, ⟨.pipe, "|"⟩,
        ⟨.literal, "dir"⟩, ⟨.space, " "⟩, ⟨.literal, "-a"⟩, ⟨.space, " "⟩, ⟨.literal, "-l"⟩, eof] := by
  decide +kernel

end ValueShell.Token
