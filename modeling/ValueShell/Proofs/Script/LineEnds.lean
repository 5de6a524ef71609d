import ValueShell.Proofs.Script.Literal
import ValueShell.Script.Indent

/-!
# Line ends of scripts

A line may end in a line feed, or in a carriage return and a line feed. Line ends are met after the content
of a line, at the end of a comment, after a backslash, and in literals of both kinds. In each of these
places the two are read alike, so that a script is read into the same lines whichever of them it is written
with (`lines_withReturns`): for each of the nested readers one lemma compares its results on the two texts.
The line ends inside of literals between three quotes stay in the lines as they are written, and no other
line feed gets into a line (`Body.Leaves.parts`).
-/

set_option autoImplicit false

namespace ValueShell.Script

open ValueShell.Text

variable {q c : Char} {cs rest piece left : List Char} {n m : Nat}

/-! ## Line feeds in lines -/

theorem withHead_eq_ok {head : List Char} {r : Except Complaint Taken}
    (h : withHead head r = .ok (piece, left)) : ∃ body, r = .ok (body, left) ∧ piece = head ++ body := by
  cases r with
  | error e => cases h
  | ok taken =>
    cases h
    exact ⟨taken.1, rfl, rfl⟩

/-- A literal on one line holds no line feed. -/
theorem suffix_of_shortLiteral (h : shortLiteral q cs = .ok (piece, left)) :
    left <:+ cs ∧ '\n' ∉ piece := by
  have hother : ∀ {d : Char}, ¬ shortLiteral.isLineEnd d = true → '\n' ≠ d := by
    rintro d hd rfl
    exact hd rfl
  fun_induction shortLiteral q cs generalizing piece with
  | case1 => cases h
  | case2 rest ih =>
    obtain ⟨hleft, hfeed⟩ := ih h
    exact ⟨hleft.trans ⟨['\\', '\n'], rfl⟩, hfeed⟩
  | case3 rest ih =>
    obtain ⟨hleft, hfeed⟩ := ih h
    exact ⟨hleft.trans ⟨['\\', '\r', '\n'], rfl⟩, hfeed⟩
  | case4 rest _ ih =>
    obtain ⟨hleft, hfeed⟩ := ih h
    exact ⟨hleft.trans ⟨['\\', '\r'], rfl⟩, hfeed⟩
  | case5 c rest hc _ _ ih =>
    obtain ⟨body, hbody, rfl⟩ := withHead_eq_ok h
    obtain ⟨hleft, hfeed⟩ := ih hbody
    have hc : c ≠ '\n' := hc
    exact ⟨hleft.trans ⟨['\\', c], rfl⟩, by simp [hc.symm, hfeed]⟩
  | case6 => cases h
  | case7 => cases h
  | case8 rest _ _ _ _ hend =>
    cases h
    exact ⟨⟨[q], rfl⟩, by simpa using hother hend⟩
  | case9 c rest _ _ _ _ hend _ _ ih =>
    obtain ⟨body, hbody, rfl⟩ := withHead_eq_ok h
    obtain ⟨hleft, hfeed⟩ := ih hbody
    exact ⟨hleft.trans ⟨[c], rfl⟩, by simp [hother hend, hfeed]⟩

theorem suffix_of_longLiteral {count : Nat} (h : longLiteral q count cs = .ok (piece, left)) :
    left <:+ cs := by
  fun_induction longLiteral q count cs generalizing piece with
  | case1 => cases h
  | case2 count rest ih => exact (ih h).trans ⟨['\\', '\n'], rfl⟩
  | case3 count rest ih => exact (ih h).trans ⟨['\\', '\r', '\n'], rfl⟩
  | case4 count rest _ ih => exact (ih h).trans ⟨['\\', '\r'], rfl⟩
  | case5 count c rest _ _ _ ih =>
    obtain ⟨body, hbody, -⟩ := withHead_eq_ok h
    exact (ih hbody).trans ⟨['\\', c], rfl⟩
  | case6 =>
    cases h
    exact ⟨[q], rfl⟩
  | case7 _ _ _ _ _ _ _ ih =>
    obtain ⟨body, hbody, -⟩ := withHead_eq_ok h
    exact (ih hbody).trans ⟨[q], rfl⟩
  | case8 => cases h
  | case9 _ c _ _ _ _ _ _ _ ih =>
    obtain ⟨body, hbody, -⟩ := withHead_eq_ok h
    exact (ih hbody).trans ⟨[c], rfl⟩

/-- A part of the content of a line: a character outside of literals, or a literal. Line feeds stand only in
literals between three quotes. -/
inductive Part : List Char → Prop
  | char {c : Char} : ¬ (c = apostrophe ∨ c = doubleQuote) → c ≠ '\n' → Part [c]
  | literal {q : Char} {source piece left : List Char} : q = apostrophe ∨ q = doubleQuote →
      literal q source = .ok (piece, left) → ('\n' ∈ piece → [q, q, q] <+: piece) → Part piece

/-- The content consists of parts. -/
def MadeOfParts (content : List Char) : Prop :=
  ∃ parts : List (List Char), content = parts.flatten ∧ ∀ part ∈ parts, Part part

theorem MadeOfParts.nil : MadeOfParts [] := ⟨[], rfl, by simp⟩

theorem MadeOfParts.append (h : MadeOfParts cs) (hpart : Part piece) : MadeOfParts (piece ++ cs) := by
  obtain ⟨parts, rfl, hparts⟩ := h
  exact ⟨piece :: parts, rfl, List.forall_mem_cons.mpr ⟨hpart, hparts⟩⟩

/-- A literal leaves the end of the text, and only one between three quotes holds a line feed. -/
theorem suffix_of_literal (hq : q = apostrophe ∨ q = doubleQuote)
    (h : literal q rest = .ok (piece, left)) : left <:+ rest ∧ ('\n' ∈ piece → [q, q, q] <+: piece) := by
  have hfeed : '\n' ≠ q := by rcases hq with rfl | rfl <;> decide
  unfold literal at h
  split at h
  · rename_i c after
    split at h
    · obtain ⟨body, hbody, rfl⟩ := withHead_eq_ok h
      obtain ⟨hleft, hnone⟩ := suffix_of_shortLiteral hbody
      exact ⟨hleft, fun hmem => absurd hmem (by simp [hfeed, hnone])⟩
    · split at h
      · rename_i d after
        split at h
        · obtain ⟨body, hbody, rfl⟩ := withHead_eq_ok h
          exact ⟨(suffix_of_longLiteral hbody).trans ⟨[c, d], rfl⟩, fun _ => List.prefix_append _ body⟩
        · cases h
          exact ⟨⟨[c], rfl⟩, fun hmem => absurd hmem (by simp [hfeed])⟩
      · cases h
        exact ⟨List.nil_suffix, fun hmem => absurd hmem (by simp [hfeed])⟩
  · obtain ⟨body, hbody, -⟩ := withHead_eq_ok h
    cases hbody

/-- What the content of a line is made of, and what it leaves. -/
structure Body.Leaves (cs : List Char) (b : Body) : Prop where
  suffix : b.left <:+ cs
  shorter : (b.ended && b.content.isEmpty) = false → b.left.length < cs.length
  parts : MadeOfParts b.content

theorem Body.Leaves.grow {b : Body} (h : b.Leaves cs) (hcs : cs <:+ rest) : b.Leaves (c :: rest) where
  suffix := h.suffix.trans (hcs.trans (List.suffix_cons c rest))
  shorter _ := Nat.lt_succ_of_le (h.suffix.trans hcs).length_le
  parts := h.parts

theorem Body.Leaves.cons {b : Body} (h : b.Leaves cs) (hcs : cs <:+ rest) (hpart : Part piece) :
    (b.cons piece).Leaves (c :: rest) where
  suffix := (h.grow hcs).suffix
  shorter _ := Nat.lt_succ_of_le (h.suffix.trans hcs).length_le
  parts := h.parts.append hpart

theorem Body.Leaves.of_empty {b : Body} (hleft : b.left <:+ rest) (hcontent : b.content = []) :
    b.Leaves (c :: rest) where
  suffix := hleft.trans (List.suffix_cons c rest)
  shorter _ := Nat.lt_succ_of_le hleft.length_le
  parts := by
    rw [hcontent]
    exact .nil

theorem ok_of_map {f : Body → Body} {r : Except Complaint Body} {b : Body} (h : r.map f = .ok b) :
    ∃ b', r = .ok b' ∧ b = f b' := by
  cases r with
  | error e => cases h
  | ok b' =>
    cases h
    exact ⟨b', rfl, rfl⟩

theorem body_literal (hq : c = apostrophe ∨ c = doubleQuote) :
    body (n + 1) (c :: rest) =
      (literal c rest).bind fun taken => (body n taken.2).map (Body.cons taken.1) := by
  have hquote : (c = apostrophe || c = doubleQuote) = true := by simpa using hq
  conv_lhs => unfold body
  rw [if_pos hquote]
  cases literal c rest with
  | error e => rfl
  | ok taken =>
    simp only [bind, Except.bind]
    cases body n taken.2 <;> rfl

theorem leaves_body {b : Body} (hn : cs.length < n) (h : body n cs = .ok b) : b.Leaves cs := by
  induction n generalizing cs b with
  | zero => omega
  | succ n ih =>
    cases cs with
    | nil =>
      cases h
      exact ⟨List.suffix_refl _, Bool.noConfusion, .nil⟩
    | cons c rest =>
      have hrest : ∀ {left : List Char}, left <:+ rest → left.length < n := fun hleft =>
        Nat.lt_of_le_of_lt hleft.length_le (Nat.lt_of_succ_lt_succ hn)
      have hjoined : ∀ {left : List Char}, left <:+ rest → body n left = .ok b →
          b.Leaves (c :: rest) := fun hleft hbody => (ih (hrest hleft) hbody).grow hleft
      by_cases hq : c = apostrophe ∨ c = doubleQuote
      · rw [body_literal hq] at h
        cases hliteral : literal c rest with
        | error e =>
          rw [hliteral] at h
          cases h
        | ok taken =>
          rw [hliteral] at h
          obtain ⟨others, hothers, rfl⟩ := ok_of_map h
          obtain ⟨hleft, hfeed⟩ := suffix_of_literal hq hliteral
          exact (ih (hrest hleft) hothers).cons hleft (.literal hq hliteral hfeed)
      have hplain : c ≠ '\n' → (body n rest).map (Body.cons [c]) = .ok b → b.Leaves (c :: rest) := by
        intro hc hbody
        obtain ⟨others, hothers, rfl⟩ := ok_of_map hbody
        have hsuffix := List.suffix_refl rest
        exact (ih (hrest hsuffix) hothers).cons hsuffix (.char hq hc)
      unfold body at h
      rw [if_neg (by simpa using hq)] at h
      split at h
      · cases h
        exact .of_empty ((List.drop_suffix 1 _).trans (List.dropWhile_suffix _)) rfl
      split at h
      · split at h
        · cases h
          exact .of_empty (List.suffix_cons _ _) rfl
        · cases h
          exact .of_empty (List.suffix_refl _) rfl
      split at h
      · cases h
        exact .of_empty (List.suffix_refl _) rfl
      rename_i hfeed
      split at h
      · split at h
        · exact hjoined (List.suffix_cons _ _) h
        · exact hjoined ⟨['\r', '\n'], rfl⟩ h
        · exact hjoined (List.suffix_cons _ _) h
        · exact hplain hfeed h
      · exact hplain hfeed h

/-! ## Carriage returns before line feeds -/

/-- A text with a carriage return before each line feed. -/
def withReturns (cs : List Char) : List Char := cs.flatMap fun c => if c = '\n' then ['\r', '\n'] else [c]

@[simp] theorem withReturns_nil : withReturns [] = [] := rfl

@[simp] theorem withReturns_feed (cs : List Char) :
    withReturns ('\n' :: cs) = '\r' :: '\n' :: withReturns cs := rfl

@[simp] theorem withReturns_cons (hc : c ≠ '\n') (cs : List Char) :
    withReturns (c :: cs) = c :: withReturns cs := by
  simp [withReturns, hc]

theorem withReturns_append (cs rest : List Char) :
    withReturns (cs ++ rest) = withReturns cs ++ withReturns rest :=
  List.flatMap_append

@[simp] theorem withReturns_isEmpty (cs : List Char) : (withReturns cs).isEmpty = cs.isEmpty := by
  cases cs with
  | nil => rfl
  | cons c cs =>
    by_cases hc : c = '\n'
    · subst hc
      rfl
    · rw [withReturns_cons hc]
      rfl

/-- What was taken from the head of a script, and what is left, in the other script. -/
def returned (taken : Taken) : Taken := (withReturns taken.1, withReturns taken.2)

theorem withHead_returned (head : List Char) (r : Except Complaint Taken) :
    withHead (withReturns head) (r.map returned) = (withHead head r).map returned := by
  cases r with
  | error e => rfl
  | ok taken => simp [withHead, Except.map, returned, withReturns_append]

theorem withReturns_eq_self (h : '\n' ∉ cs) : withReturns cs = cs := by
  induction cs with
  | nil => rfl
  | cons c cs ih =>
    rw [List.mem_cons, not_or] at h
    rw [withReturns_cons (Ne.symm h.1), ih h.2]

theorem withHead_unbroken {head : List Char} (h : '\n' ∉ head) (r : Except Complaint Taken) :
    withHead head (r.map returned) = (withHead head r).map returned := by
  rw [← withHead_returned, withReturns_eq_self h]

theorem shortLiteral_withReturns (hreturn : '\r' ∉ cs) :
    shortLiteral q (withReturns cs) = (shortLiteral q cs).map returned := by
  fun_induction shortLiteral q cs with
  | case1 => rfl
  | case2 rest ih =>
    rw [withReturns_cons (by decide), withReturns_feed, shortLiteral, ih (by simp_all)]
  | case3 => simp at hreturn
  | case4 => simp at hreturn
  | case5 c rest hfeed _ hc ih =>
    have hfeed : c ≠ '\n' := hfeed
    have hc : c ≠ '\r' := hc
    rw [withReturns_cons (by decide), withReturns_cons hfeed, shortLiteral_escape hfeed hc,
      ih (by simp_all), withHead_unbroken (by simp [hfeed.symm])]
  | case6 c rest _ _ _ _ hend =>
    have hc : c = '\n' := by
      simp only [shortLiteral.isLineEnd, Bool.or_eq_true, decide_eq_true_eq] at hend
      exact hend.resolve_left fun heq => hreturn (heq ▸ List.mem_cons_self)
    subst hc
    rw [withReturns_feed]
    simp [shortLiteral, shortLiteral.isLineEnd, Except.map]
  | case7 rest _ _ _ hmore _ =>
    cases rest with
    | nil => rfl
    | cons c rest => exact absurd rfl (hmore c rest rfl)
  | case8 rest _ _ _ _ hend hslash =>
    simp only [shortLiteral.isLineEnd, Bool.or_eq_true, decide_eq_true_eq, not_or] at hend
    rw [withReturns_cons hend.2, shortLiteral_plain hslash hend.2 hend.1, if_pos rfl]
    simp [Except.map, returned, hend.2]
  | case9 c rest _ _ _ _ hend hslash hquote ih =>
    simp only [shortLiteral.isLineEnd, Bool.or_eq_true, decide_eq_true_eq, not_or] at hend
    rw [withReturns_cons hend.2, shortLiteral_plain hslash hend.2 hend.1, if_neg hquote,
      ih (by simp_all), withHead_unbroken (by simpa using Ne.symm hend.2)]

theorem longLiteral_withReturns (hq : q = apostrophe ∨ q = doubleQuote) (count : Nat)
    (hreturn : '\r' ∉ cs) :
    longLiteral q count (withReturns cs) = (longLiteral q count cs).map returned := by
  have hfeed : '\n' ≠ q ∧ '\r' ≠ q := by rcases hq with rfl | rfl <;> decide
  have hslash : q ≠ '\\' := by rcases hq with rfl | rfl <;> decide
  fun_induction longLiteral q count cs with
  | case1 => rfl
  | case2 count rest ih =>
    rw [withReturns_cons (by decide), withReturns_feed, longLiteral, ih (by simp_all)]
  | case3 => simp at hreturn
  | case4 => simp at hreturn
  | case5 count c rest hfeed _ hc ih =>
    have hfeed : c ≠ '\n' := hfeed
    have hc : c ≠ '\r' := hc
    rw [withReturns_cons (by decide), withReturns_cons hfeed, longLiteral_escape count hfeed hc,
      ih (by simp_all), withHead_unbroken (by simp [hfeed.symm])]
  | case6 count rest hcount =>
    rw [withReturns_cons hfeed.1.symm, longLiteral_quote count hslash, if_pos hcount]
    simp [Except.map, returned, hfeed.1.symm]
  | case7 count rest hcount _ _ _ _ ih =>
    rw [withReturns_cons hfeed.1.symm, longLiteral_quote count hslash, if_neg hcount, ih (by simp_all),
      withHead_unbroken (by simpa using hfeed.1)]
  | case8 count rest _ _ _ hmore hquote =>
    cases rest with
    | nil => simp [longLiteral, hquote, Except.map]
    | cons c rest => exact absurd rfl (hmore c rest rfl)
  | case9 count c rest _ _ _ _ hquote hslash ih =>
    have ih := ih (by simp_all)
    by_cases hc : c = '\n'
    · subst hc
      rw [withReturns_feed, longLiteral_plain count (by decide) hfeed.2,
        longLiteral_plain 0 (by decide) hfeed.1, ih, ← withHead_returned, withReturns_feed]
      cases longLiteral q 0 rest <;> rfl
    · rw [withReturns_cons hc, longLiteral_plain count hslash hquote, ih,
        withHead_unbroken (by simpa using Ne.symm hc)]

/-- A literal that does not begin with two quotes ends on its line. -/
theorem literal_other (hc : c ≠ q) (rest : List Char) :
    literal q (c :: rest) = withHead [q] (shortLiteral q (c :: rest)) := by
  simp [literal, hc]

theorem literal_withReturns (hq : q = apostrophe ∨ q = doubleQuote) (hreturn : '\r' ∉ rest) :
    literal q (withReturns rest) = (literal q rest).map returned := by
  have hfeed : '\n' ≠ q ∧ '\r' ≠ q := by rcases hq with rfl | rfl <;> decide
  cases rest with
  | nil => rfl
  | cons c after =>
    by_cases hc : c = q
    · subst hc
      rw [withReturns_cons hfeed.1.symm]
      cases after with
      | nil => simp [literal, Except.map, returned, hfeed.1.symm]
      | cons d after =>
        by_cases hd : d = c
        · subst hd
          have hafter : '\r' ∉ after := by simp_all
          rw [withReturns_cons hfeed.1.symm]
          simp only [literal, ne_eq, not_true_eq_false, if_false, if_true]
          rw [longLiteral_withReturns hq 0 hafter, withHead_unbroken (by simp [hfeed.1])]
        · by_cases hdfeed : d = '\n'
          · subst hdfeed
            simp [literal, hfeed.1, hfeed.2, Except.map, returned, hfeed.1.symm]
          · simp [literal, hd, hdfeed, Except.map, returned, hfeed.1.symm]
    · rw [literal_other hc after, ← withHead_unbroken (by simp [hfeed.1]),
        ← shortLiteral_withReturns hreturn]
      by_cases hcfeed : c = '\n'
      · subst hcfeed
        exact literal_other hfeed.2 _
      · rw [withReturns_cons hcfeed]
        exact literal_other hc _

/-! ### Contents -/

/-- What a line says, in the other script. -/
def Body.returned (b : Body) : Body := { b with content := withReturns b.content, left := withReturns b.left }

theorem map_cons_returned (piece : List Char) (r : Except Complaint Body) :
    (r.map Body.returned).map (Body.cons (withReturns piece)) =
      (r.map (Body.cons piece)).map Body.returned := by
  cases r with
  | error e => rfl
  | ok b => simp [Except.map, Body.returned, Body.cons, withReturns_append]

/-- A comment ends with its line. -/
theorem comment_withReturns (cs : List Char) :
    ((withReturns cs).dropWhile (· ≠ '\n')).drop 1 = withReturns ((cs.dropWhile (· ≠ '\n')).drop 1) := by
  induction cs with
  | nil => rfl
  | cons c cs ih =>
    by_cases hc : c = '\n'
    · subst hc
      simp
    · simpa [hc] using ih

theorem body_comment (n : Nat) (rest : List Char) :
    body (n + 1) ('#' :: rest) =
      .ok ⟨[], (rest.dropWhile (· ≠ '\n')).drop 1, ((rest.dropWhile (· ≠ '\n')).drop 1).isEmpty⟩ :=
  rfl

/-- A character that stands for itself. -/
theorem body_plain (hq : ¬ (c = apostrophe ∨ c = doubleQuote)) (hc : c ≠ '#' ∧ c ≠ '\r' ∧ c ≠ '\n')
    (hslash : c = '\\' → ∀ d ∈ rest.head?, d ≠ '\n' ∧ d ≠ '\r') :
    body (n + 1) (c :: rest) = (body n rest).map (Body.cons [c]) := by
  conv_lhs => unfold body
  rw [if_neg (by simpa using hq), if_neg hc.1, if_neg hc.2.1, if_neg hc.2.2]
  split
  · rename_i heq
    have hslash := hslash heq
    split
    · exact absurd rfl (hslash '\n' (by simp)).1
    · exact absurd rfl (hslash '\r' (by simp)).2
    · exact absurd rfl (hslash '\r' (by simp)).2
    · rfl
  · rfl

theorem length_le_withReturns (cs : List Char) : cs.length ≤ (withReturns cs).length := by
  induction cs with
  | nil => rfl
  | cons c cs ih =>
    by_cases hc : c = '\n'
    · subst hc
      rw [withReturns_feed, List.length_cons, List.length_cons, List.length_cons]
      omega
    · rw [withReturns_cons hc]
      exact Nat.succ_le_succ ih

theorem length_withReturns_lt (h : left <:+ rest) (hlt : left.length < rest.length) :
    (withReturns left).length < (withReturns rest).length := by
  obtain ⟨front, rfl⟩ := h
  have hfront := length_le_withReturns front
  rw [List.length_append] at hlt
  rw [withReturns_append, List.length_append]
  omega

/-- A text that begins with no line end still does not with carriage returns. -/
theorem head_withReturns (h : ∀ d ∈ cs.head?, d ≠ '\n' ∧ d ≠ '\r') :
    ∀ d ∈ (withReturns cs).head?, d ≠ '\n' ∧ d ≠ '\r' := by
  cases cs with
  | nil => exact h
  | cons d left =>
    rw [withReturns_cons (h d rfl).1]
    exact h

theorem body_withReturns (hn : cs.length < n) (hm : (withReturns cs).length < m) (hreturn : '\r' ∉ cs) :
    body m (withReturns cs) = (body n cs).map Body.returned := by
  induction n generalizing cs m with
  | zero => omega
  | succ n ih =>
    obtain ⟨m, rfl⟩ : ∃ k, m = k + 1 := ⟨m - 1, by omega⟩
    cases cs with
    | nil => rfl
    | cons c rest =>
      -- both readings go on with what is left, and both have steps enough for it
      have hleft : ∀ {left : List Char}, left <:+ rest →
          body m (withReturns left) = (body n left).map Body.returned := by
        intro left hleft
        have hshort : left.length < (c :: rest).length := Nat.lt_succ_of_le hleft.length_le
        have hlong := length_withReturns_lt (hleft.trans (List.suffix_cons c rest)) hshort
        exact ih (by omega) (by omega) fun hmem => hreturn (List.mem_cons_of_mem c (hleft.mem hmem))
      have hrest := hleft (List.suffix_refl rest)
      by_cases hq : c = apostrophe ∨ c = doubleQuote
      · have hfeed : c ≠ '\n' := by rcases hq with rfl | rfl <;> decide
        rw [withReturns_cons hfeed, body_literal hq, body_literal hq,
          literal_withReturns hq fun hmem => hreturn (List.mem_cons_of_mem c hmem)]
        cases hliteral : literal c rest with
        | error e => rfl
        | ok taken =>
          have hbody := hleft (suffix_of_literal hq hliteral).1
          calc (body m (withReturns taken.2)).map (Body.cons (withReturns taken.1))
              = ((body n taken.2).map Body.returned).map (Body.cons (withReturns taken.1)) := by rw [hbody]
            _ = ((body n taken.2).map (Body.cons taken.1)).map Body.returned := map_cons_returned _ _
      by_cases hhash : c = '#'
      · subst hhash
        have hcomment := comment_withReturns rest
        rw [withReturns_cons (by decide), body_comment, body_comment, hcomment, withReturns_isEmpty]
        rfl
      by_cases hfeed : c = '\n'
      · subst hfeed
        rfl
      have hplain : c ≠ '#' ∧ c ≠ '\r' ∧ c ≠ '\n' := by
        refine ⟨hhash, ?_, hfeed⟩
        rintro rfl
        exact hreturn List.mem_cons_self
      by_cases hjoined : c = '\\' ∧ ∃ left, rest = '\n' :: left
      · obtain ⟨rfl, left, rfl⟩ := hjoined
        exact hleft (List.suffix_cons '\n' left)
      · have hhead : c = '\\' → ∀ d ∈ rest.head?, d ≠ '\n' ∧ d ≠ '\r' := by
          intro hslash d hd
          obtain ⟨left, rfl⟩ := List.head?_eq_some_iff.mp hd
          refine ⟨?_, ?_⟩
          · rintro rfl
            exact hjoined ⟨hslash, left, rfl⟩
          · rintro rfl
            exact hreturn (by simp)
        rw [withReturns_cons hfeed, body_plain hq hplain fun hslash => head_withReturns (hhead hslash),
          body_plain hq hplain hhead, hrest, ← map_cons_returned, withReturns_cons hfeed, withReturns_nil]

/-! ### Lines -/

theorem takeWhile_withReturns (cs : List Char) :
    (withReturns cs).takeWhile isIndent = cs.takeWhile isIndent ∧
      (withReturns cs).dropWhile isIndent = withReturns (cs.dropWhile isIndent) := by
  induction cs with
  | nil => exact ⟨rfl, rfl⟩
  | cons c cs ih =>
    by_cases hc : c = '\n'
    · subst hc
      exact ⟨rfl, rfl⟩
    · rw [withReturns_cons hc]
      cases hindent : isIndent c with
      | true => simp [hindent, ih]
      | false => simp [hindent, hc]

/-- A line of the other script. -/
def Line.returned (line : Line) : Line := { line with content := withReturns line.content }

/-- The mode of a line, and where its content begins. -/
def unmarked : List Char → Mode × List Char
  | '>' :: after => (.shell, after.dropWhile isIndent)
  | rest => (.host, rest)

theorem unmarked_host (h : ∀ after, rest = '>' :: after → False) : unmarked rest = (.host, rest) := by
  rw [unmarked]
  exact h

theorem unmarked_suffix (rest : List Char) : (unmarked rest).2 <:+ rest := by
  unfold unmarked
  split
  · exact (List.dropWhile_suffix _).trans (List.suffix_cons _ _)
  · exact List.suffix_refl _

/-- The line with a content, and what is left; nothing at the end of the script. -/
def Body.line? (indent : List Char) (mode : Mode) (b : Body) : Option (Line × List Char) :=
  if b.ended && b.content.isEmpty then none else some (⟨indent, mode, b.content⟩, b.left)

theorem nextLine_eq (cs : List Char) :
    nextLine cs =
      (body ((unmarked (cs.dropWhile isIndent)).2.length + 1) (unmarked (cs.dropWhile isIndent)).2).map
        (Body.line? (cs.takeWhile isIndent) (unmarked (cs.dropWhile isIndent)).1) := by
  have hbody : ∀ {indent : List Char} {mode : Mode} {rest : List Char}, (do
      let b ← body (rest.length + 1) rest
      if b.ended && b.content.isEmpty then .ok none
      else .ok (some (⟨indent, mode, b.content⟩, b.left))) =
      (body (rest.length + 1) rest).map (Body.line? indent mode) := by
    intro indent mode rest
    cases body (rest.length + 1) rest with
    | error e => rfl
    | ok b =>
      simp only [bind, Except.bind, Except.map, Body.line?]
      split <;> rfl
  unfold nextLine
  dsimp only
  split
  · rename_i after hafter
    rw [hafter]
    exact hbody
  · rename_i hhost
    rw [unmarked_host hhost]
    exact hbody

theorem unmarked_withReturns (rest : List Char) :
    unmarked (withReturns rest) = ((unmarked rest).1, withReturns (unmarked rest).2) := by
  cases rest with
  | nil => rfl
  | cons c rest =>
    by_cases hmark : c = '>'
    · subst hmark
      simp [unmarked, takeWhile_withReturns]
    · have hhost : ∀ after, c :: rest = '>' :: after → False := by simp [hmark]
      rw [unmarked_host hhost, unmarked_host]
      intro after heq
      by_cases hfeed : c = '\n'
      · subst hfeed
        cases heq
      · rw [withReturns_cons hfeed, List.cons.injEq] at heq
        exact hmark heq.1

/-- What is read next, in the other script. -/
def nextReturned (next : Option (Line × List Char)) : Option (Line × List Char) :=
  next.map fun r => (r.1.returned, withReturns r.2)

theorem line?_returned (indent : List Char) (mode : Mode) (b : Body) :
    b.returned.line? indent mode = nextReturned (b.line? indent mode) := by
  unfold Body.line? Body.returned
  dsimp only
  rw [withReturns_isEmpty]
  split <;> rfl

theorem suffix_unmarked (cs : List Char) : (unmarked (cs.dropWhile isIndent)).2 <:+ cs :=
  (unmarked_suffix _).trans (List.dropWhile_suffix _)

theorem nextLine_withReturns (hreturn : '\r' ∉ cs) :
    nextLine (withReturns cs) = (nextLine cs).map nextReturned := by
  obtain ⟨hindent, hrest⟩ := takeWhile_withReturns cs
  have hcontent : '\r' ∉ (unmarked (cs.dropWhile isIndent)).2 := fun hmem =>
    hreturn ((suffix_unmarked cs).mem hmem)
  rw [nextLine_eq, nextLine_eq, hindent, hrest, unmarked_withReturns]
  dsimp only
  rw [body_withReturns (Nat.lt_succ_self _) (Nat.lt_succ_self _) hcontent]
  cases body _ (unmarked (cs.dropWhile isIndent)).2 with
  | error e => rfl
  | ok b => exact congrArg Except.ok (line?_returned _ _ b)

theorem leaves_of_nextLine {line : Line} (h : nextLine cs = .ok (some (line, left))) :
    left <:+ cs ∧ left.length < cs.length ∧ MadeOfParts line.content := by
  rw [nextLine_eq] at h
  cases hbody : body ((unmarked (cs.dropWhile isIndent)).2.length + 1) (unmarked (cs.dropWhile isIndent)).2 with
  | error e =>
    rw [hbody] at h
    cases h
  | ok b =>
    have hleaves := leaves_body (Nat.lt_succ_self _) hbody
    rw [hbody] at h
    simp only [Except.map, Body.line?, Except.ok.injEq] at h
    split at h
    · cases h
    · rename_i hmore
      cases h
      refine ⟨hleaves.suffix.trans (suffix_unmarked cs), ?_, hleaves.parts⟩
      exact Nat.lt_of_lt_of_le (hleaves.shorter (by simpa using hmore)) (suffix_unmarked cs).length_le

/-- The reading of the other script. -/
def Reading.returned (r : Reading) : Reading := { r with lines := r.lines.map Line.returned }

theorem linesFrom_withReturns (hn : cs.length < n) (hm : (withReturns cs).length < m)
    (hreturn : '\r' ∉ cs) : linesFrom m (withReturns cs) = (linesFrom n cs).returned := by
  induction n generalizing cs m with
  | zero => omega
  | succ n ih =>
    obtain ⟨m, rfl⟩ : ∃ k, m = k + 1 := ⟨m - 1, by omega⟩
    rw [linesFrom, linesFrom, nextLine_withReturns hreturn]
    cases hnext : nextLine cs with
    | error e => rfl
    | ok next =>
      cases next with
      | none => rfl
      | some r =>
        obtain ⟨line, left⟩ := r
        obtain ⟨hleft, hshort, -⟩ := leaves_of_nextLine hnext
        have hlong := length_withReturns_lt hleft hshort
        have hothers := ih (m := m) (by omega) (by omega) fun hmem => hreturn (hleft.mem hmem)
        simp only [Except.map, nextReturned, Option.map_some, hothers]
        rfl

theorem parts_of_mem_linesFrom {line : Line} (h : line ∈ (linesFrom n cs).lines) :
    MadeOfParts line.content := by
  induction n generalizing cs with
  | zero => cases h
  | succ n ih =>
    rw [linesFrom] at h
    split at h
    · cases h
    · cases h
    · rename_i hnext
      rcases List.mem_cons.mp h with rfl | h
      · exact (leaves_of_nextLine hnext).2.2
      · exact ih h

/-! ### Predictions -/

theorem getLast?_withReturns (cs : List Char) : (withReturns cs).getLast? = cs.getLast? := by
  rcases List.eq_nil_or_concat cs with rfl | ⟨init, last, rfl⟩
  · rfl
  · rw [List.concat_eq_append, withReturns_append, List.getLast?_append, List.getLast?_append]
    by_cases hlast : last = '\n'
    · subst hlast
      rfl
    · rw [withReturns_cons hlast]
      rfl

theorem isPrefixOf_withReturns (word : List Char) (hfeed : '\n' ∉ word) (hreturn : '\r' ∉ word)
    (cs : List Char) : word.isPrefixOf (withReturns cs) = word.isPrefixOf cs := by
  induction word generalizing cs with
  | nil => simp
  | cons d word ih =>
    rw [List.mem_cons, not_or] at hfeed hreturn
    have hdfeed : (d == '\n') = false := by simpa using Ne.symm hfeed.1
    have hdreturn : (d == '\r') = false := by simpa using Ne.symm hreturn.1
    cases cs with
    | nil => rfl
    | cons c cs =>
      by_cases hc : c = '\n'
      · subst hc
        rw [withReturns_feed, List.isPrefixOf_cons_cons, List.isPrefixOf_cons_cons, hdfeed, hdreturn]
        rfl
      · rw [withReturns_cons hc, List.isPrefixOf_cons_cons, List.isPrefixOf_cons_cons, ih hfeed.2 hreturn.2]

theorem after_returned (s : IndentStack) (line : Line) : s.after line.returned = s.after line := by
  have hpass := isPrefixOf_withReturns "pass".toList (by decide) (by decide) line.content
  have hend := isPrefixOf_withReturns "return".toList (by decide) (by decide) line.content
  unfold IndentStack.after Line.returned
  dsimp only
  rw [withReturns_isEmpty, getLast?_withReturns, hpass, hend]

theorem predictions_returned (s : IndentStack) (ls : List Line) :
    predictions s (ls.map Line.returned) = predictions s ls := by
  induction ls generalizing s with
  | nil => rfl
  | cons line ls ih => rw [List.map_cons, predictions, predictions, after_returned, ih]

/-- **Line ends do not change a script.** Written with a carriage return before each line feed, a script
without carriage returns is read into the same lines, with the same indentations and modes, the same
predictions, and the same complaint if reading fails. Only the line ends inside of lines are written
otherwise, and they all stand in literals between three quotes. -/
theorem lines_withReturns {cs : List Char} (hreturn : '\r' ∉ cs) :
    (lines (withReturns cs)).complaint = (lines cs).complaint ∧
    (lines (withReturns cs)).lines = (lines cs).lines.map Line.returned ∧
    predictions [] (lines (withReturns cs)).lines = predictions [] (lines cs).lines ∧
    ∀ line ∈ (lines cs).lines, MadeOfParts line.content := by
  have hlines : lines (withReturns cs) = (lines cs).returned :=
    linesFrom_withReturns (Nat.lt_succ_self _) (Nat.lt_succ_self _) hreturn
  rw [hlines]
  exact ⟨rfl, rfl, predictions_returned [] _, fun line h => parts_of_mem_linesFrom h⟩

/-- A comment, a literal over two lines, two lines that are joined, one of them inside of a literal, and a
literal that its line breaks. -/
theorem lines_withReturns_broken :
    let script := "if a: # b\n  f(\"\"\"c\nd\"\"\", \\\n\"e\\\nf\")\n> echo \"g\n".toList
    let unbroken : Line := ⟨[], .host, "if a: ".toList⟩
    '\r' ∉ script ∧
      (lines script).lines = [unbroken, ⟨"  ".toList, .host, "f(\"\"\"c\nd\"\"\", \"ef\")".toList⟩] ∧
      (lines (withReturns script)).lines =
        [unbroken, ⟨"  ".toList, .host, "f(\"\"\"c\r\nd\"\"\", \"ef\")".toList⟩] ∧
      (lines (withReturns script)).complaint = some .literalAtLineEnd := by
  intro script unbroken
  have hreturn : '\r' ∉ script := by decide
  have hlines : (lines script).lines =
      [unbroken, ⟨"  ".toList, .host, "f(\"\"\"c\nd\"\"\", \"ef\")".toList⟩] := by decide +kernel
  obtain ⟨hcomplaint, hother, -⟩ := lines_withReturns hreturn
  refine ⟨hreturn, hlines, ?_, ?_⟩
  · rw [hother, hlines]
    decide +kernel
  · rw [hcomplaint]
    decide +kernel

end ValueShell.Script
