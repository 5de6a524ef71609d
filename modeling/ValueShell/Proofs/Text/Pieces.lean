import Mathlib.Algebra.Ring.Int.Defs
import ValueShell.Proofs.Text.FirstString

/-!
# The pieces of a line

`piece?` takes a piece off the head of a text (`takes_piece?`). So a fragment that begins with a comma or
a bracket is that operator, and a line has no others (`tidy_scanLine`).
-/

set_option autoImplicit false

namespace ValueShell.Fragment

open Text

variable {cs piece left : List Char}

/-! ## Numbers -/

theorem append_of_moreDigits (isDigit : Char → Bool) (cs : List Char) :
    (moreDigits isDigit cs).1 ++ (moreDigits isDigit cs).2 = cs := by
  fun_induction moreDigits isDigit cs with
  | case1 d rest _ ds left hrest ih => simpa [hrest] using ih
  | case2 => rfl
  | case3 c rest _ _ ds left hrest ih => simpa [hrest] using ih
  | case4 => rfl
  | case5 => rfl

/-- A piece that a reader takes off the head of a text. -/
def Takes (cs : List Char) (read : Option Cut) : Prop := ∀ cut ∈ read, cut.1 ≠ [] ∧ cut.1 ++ cut.2 = cs

theorem takes_none (cs : List Char) : Takes cs none := by simp [Takes]

theorem Takes.or {read read' : Option Cut} (h : Takes cs read) (h' : Takes cs read') : Takes cs (read.or read') := by
  cases read with
  | none => exact h'
  | some cut => exact h

theorem Takes.map_after {read : Option Cut} (h : Takes cs read) (front : List Char) :
    Takes (front ++ cs) (read.map (after front)) := by
  intro cut hcut
  obtain ⟨cut', hcut', rfl⟩ := Option.map_eq_some_iff.mp hcut
  obtain ⟨hne, happend⟩ := h cut' hcut'
  simp [after, hne, happend]

theorem takes_digits? (isDigit : Char → Bool) (cs : List Char) : Takes cs (digits? isDigit cs) := by
  unfold digits?
  split
  · exact takes_none _
  · split
    · rename_i c rest _
      have happend := append_of_moreDigits isDigit rest
      simpa [Takes] using happend
    · exact takes_none _

theorem takes_exponent? (cs : List Char) : Takes cs (exponent? cs) := by
  unfold exponent?
  split
  · rename_i e rest
    split
    · split
      · rename_i s rest'
        split
        · exact (takes_digits? _ rest').map_after [e, s]
        · exact (takes_digits? _ (s :: rest')).map_after [e]
      · exact takes_none _
    · exact takes_none _
  · exact takes_none _

theorem takes_withExponent (front : List Char) (hne : front ≠ []) (rest : List Char) :
    Takes (front ++ rest) (some (withExponent (front, rest))) := by
  intro cut hcut
  cases hcut
  unfold withExponent
  split
  · rename_i e he
    obtain ⟨-, happend⟩ := takes_exponent? rest e he
    simp [after, hne, happend]
  · exact ⟨hne, rfl⟩

theorem takes_real? (cs : List Char) : Takes cs (real? cs) := by
  have hdigits := takes_digits? Char.isDigit cs
  unfold real?
  split
  · rename_i whole rest hwhole
    obtain ⟨hne, rfl⟩ := hdigits _ hwhole
    split
    · rename_i fraction rest' hfraction
      obtain ⟨-, rfl⟩ := takes_digits? Char.isDigit rest _ hfraction
      have htakes := takes_withExponent (whole ++ '.' :: fraction) (by simp) rest'
      simpa using htakes
    · have htakes := takes_withExponent (whole ++ ['.']) (by simp) rest
      simpa using htakes
  · rename_i whole rest _ hwhole
    obtain ⟨hne, rfl⟩ := hdigits _ hwhole
    exact (takes_exponent? rest).map_after whole
  · split
    · rename_i rest _
      intro cut hcut
      obtain ⟨⟨ds, rest'⟩, hds, rfl⟩ := Option.map_eq_some_iff.mp hcut
      obtain ⟨-, rfl⟩ := takes_digits? Char.isDigit rest _ hds
      exact takes_withExponent ('.' :: ds) (List.cons_ne_nil _ _) rest' _ rfl
    · exact takes_none _

theorem takes_imaginary? (cut : Cut) : Takes (cut.1 ++ cut.2) (imaginary? cut) := by
  unfold imaginary?
  split <;> simp [Takes]

theorem Takes.bind {read : Option Cut} {f : Cut → Option Cut} (h : Takes cs read)
    (hf : ∀ cut, Takes (cut.1 ++ cut.2) (f cut)) : Takes cs (read.bind f) := by
  intro cut hcut
  obtain ⟨cut', hcut', hread⟩ := Option.bind_eq_some_iff.mp hcut
  have htakes := hf cut' cut hread
  rwa [(h cut' hcut').2] at htakes

theorem takes_based? (isDigit : Char → Bool) (mark cs : List Char) :
    Takes (mark ++ cs) (based? isDigit mark cs) := by
  unfold based?
  split
  · rename_i rest
    have htakes := (takes_digits? isDigit rest).map_after (mark ++ ['_'])
    simpa using htakes
  · exact (takes_digits? isDigit cs).map_after mark

theorem takes_whole? (cs : List Char) : Takes cs (whole? cs) := by
  unfold whole?
  split
  · rename_i x rest
    refine Takes.or ?_ (takes_digits? _ _)
    split
    · exact takes_based? _ _ _
    split
    · exact takes_based? _ _ _
    split
    · exact takes_based? _ _ _
    · exact takes_none _
  · simp [Takes]
  · exact takes_digits? _ _

theorem takes_number? (cs : List Char) : Takes cs (number? cs) :=
  (((takes_digits? _ cs).bind takes_imaginary?).or ((takes_real? cs).bind takes_imaginary?)).or
    ((takes_real? cs).or (takes_whole? cs))

/-! ## Pieces -/

theorem drop_length_takeWhile (p : Char → Bool) (cs : List Char) :
    cs.drop (cs.takeWhile p).length = cs.dropWhile p := by
  conv => lhs; arg 2; rw [← List.takeWhile_append_dropWhile (p := p) (l := cs)]
  exact List.drop_left

theorem takes_operator? (cs : List Char) : Takes cs (operator? cs) := by
  intro cut hcut
  obtain ⟨op, hop, rfl⟩ := Option.map_eq_some_iff.mp hcut
  have hsome : ∀ op ∈ operators, op ≠ [] := by decide +kernel
  have hstarts : op.isPrefixOf cs = true := by simpa using List.find?_some hop
  obtain ⟨rest, rfl⟩ := List.isPrefixOf_iff_prefix.mp hstarts
  exact ⟨hsome op (List.mem_of_find?_eq_some hop), by simp⟩

theorem append_of_opening? {mark rest : List Char} {q : Char} (h : opening? cs = some (mark, q, rest)) :
    mark ++ q :: rest = cs := by
  unfold opening? at h
  dsimp only at h
  rw [drop_length_takeWhile] at h
  split at h
  · rename_i q' rest' hrest
    split at h
    · cases h
      rw [← hrest]
      exact List.takeWhile_append_dropWhile
    · cases h
  · cases h

/-- The text of a piece and what follows it. -/
def Piece.cut? : Piece → Option Cut
  | .fragment _ cut => some cut
  | .join cut => some cut
  | _ => none

theorem takes_plain? (cs : List Char) : Takes cs ((piece?.plain? cs).bind Piece.cut?) := by
  unfold piece?.plain?
  split
  · rename_i cut hcut
    exact fun cut' h => takes_number? cs cut' (by rw [hcut]; exact h)
  split
  · simp [Takes, Piece.cut?]
  · simp [Takes, Piece.cut?]
  split
  · rename_i cut hcut
    exact fun cut' h => takes_operator? cs cut' (by rw [hcut]; exact h)
  split
  · exact takes_none _
  · rename_i c word hword
    have hcs : (c :: word) ++ cs.drop (word.length + 1) = cs := by
      have hdrop := drop_length_takeWhile isWordChar cs
      rw [hword, List.length_cons] at hdrop
      rw [hdrop, ← hword]
      exact List.takeWhile_append_dropWhile
    simpa [Takes, Piece.cut?] using hcs

theorem takes_piece? (cs : List Char) : Takes cs ((piece? cs).bind Piece.cut?) := by
  unfold piece?
  split
  · simp [Takes, Piece.cut?]
  · simp [Takes, Piece.cut?]
  · simp [Takes, Piece.cut?]
  · rename_i rest
    have hmark : isLineEnd '#' = false := rfl
    simp [Takes, Piece.cut?, hmark]
  · split
    · rename_i mark q rest hopening
      have hcs := append_of_opening? hopening
      split
      · rename_i hlong
        obtain ⟨rest, rfl⟩ := List.isPrefixOf_iff_prefix.mp hlong
        split
        · rename_i cut hcut
          obtain ⟨-, hrest⟩ := append_of_close? hcut
          simp only [List.cons_append, List.nil_append, List.drop_succ_cons, List.drop_zero] at hrest
          simp [Takes, Piece.cut?, after, ← hcs, hrest]
        · simp [Takes, Piece.cut?]
      · split
        · rename_i cut hcut
          obtain ⟨-, rfl⟩ := append_of_shortBody? hcut
          split
          · simp [Takes, Piece.cut?]
          · simp [Takes, Piece.cut?, after, ← hcs]
        · exact takes_plain? cs
    · exact takes_plain? cs

/-- A comma or a bracket. -/
def isDelimiter (c : Char) : Bool := [',', '(', '[', Char.ofNat 0x7B, ')', ']', Char.ofNat 0x7D].contains c

theorem isGap_of_isDelimiter {d : Char} (hd : isDelimiter d = true) : isGap d = false := by
  simp only [isDelimiter, List.contains_eq_mem, List.mem_cons, List.not_mem_nil, or_false, decide_eq_true_eq] at hd
  rcases hd with rfl | rfl | rfl | rfl | rfl | rfl | rfl <;> rfl

theorem piece?_delimiter {d : Char} (hd : isDelimiter d = true) (rest : List Char) :
    piece? (d :: rest) = some (.fragment .operator ([d], rest)) := by
  simp only [isDelimiter, List.contains_eq_mem, List.mem_cons, List.not_mem_nil, or_false, decide_eq_true_eq] at hd
  rcases hd with rfl | rfl | rfl | rfl | rfl | rfl | rfl <;> rfl

theorem kind_of_plain? {kind : Kind} {cut : Cut} (h : piece?.plain? cs = some (.fragment kind cut)) :
    kind ≠ .ending := by
  unfold piece?.plain? at h
  split at h
  · cases h
    simp
  split at h
  · cases h
    simp
  · cases h
    simp
  split at h
  · cases h
    simp
  split at h
  · cases h
  · rename_i c word _
    cases h
    split <;> simp

theorem kind_of_piece? {kind : Kind} {cut : Cut} (h : piece? cs = some (.fragment kind cut)) : kind ≠ .ending := by
  unfold piece? at h
  split at h
  · cases h
  · cases h
  · cases h
  · cases h
    simp
  · split at h
    · split at h
      · split at h
        · cases h
          simp
        · cases h
      · split at h
        · split at h
          · cases h
          · cases h
            simp
        · exact kind_of_plain? h
    · exact kind_of_plain? h

/-! ## Lines -/

/-- A fragment that begins with a comma or bracket is that operator, and it is not the end of the text. -/
def Tidy (f : Fragment) : Prop :=
  f.kind ≠ .ending ∧ ∀ d, f.text.head? = some d → isDelimiter d = true → f.kind = .operator ∧ f.text = [d]

theorem tidy_of_head? {f : Fragment} {c : Char} (hkind : f.kind ≠ .ending) (hc : f.text.head? = some c)
    (hdelimiter : isDelimiter c = false) : f.Tidy := by
  refine ⟨hkind, fun d hd hd' => ?_⟩
  rw [hc, Option.some.injEq] at hd
  rw [← hd, hdelimiter] at hd'
  cases hd'

theorem tidy_of_nil {f : Fragment} (hkind : f.kind ≠ .ending) (htext : f.text = []) : f.Tidy :=
  ⟨hkind, fun d hd => by rw [htext] at hd; cases hd⟩

/-- A string that goes on begins with no comma or bracket. -/
def State.Tidy (s : State) : Prop := ∀ o ∈ s.open?, ∃ c, o.text.head? = some c ∧ isDelimiter c = false

theorem tidy_piece {piece rest : List Char} {kind kind' : Kind} {start stop : Nat × Nat}
    (hpiece : piece? cs = some (.fragment kind (piece, rest))) (hkind : kind' ≠ .ending)
    (hoperator : kind = .operator → kind' = .operator) : Tidy ⟨kind', piece, start, stop⟩ := by
  refine ⟨hkind, fun d hd hdelimiter => ?_⟩
  obtain ⟨-, happend⟩ := takes_piece? cs (piece, rest) (by rw [hpiece]; rfl)
  obtain ⟨front, rfl⟩ := List.head?_eq_some_iff.mp hd
  rw [← happend, List.cons_append, piece?_delimiter hdelimiter] at hpiece
  cases hpiece
  exact ⟨hoperator rfl, rfl⟩

theorem tidy_opens {s : State} {start : Nat × Nat} {quote : Char} {long : Bool}
    (hpiece : piece? cs = some (.opens quote long)) (hs : s.open? = some ⟨cs, start, quote, long⟩) : s.Tidy := by
  intro o ho
  cases hs.symm.trans ho
  cases cs with
  | nil => cases hpiece
  | cons c rest =>
    refine ⟨c, rfl, Bool.eq_false_iff.mpr fun hdelimiter => ?_⟩
    rw [piece?_delimiter hdelimiter] at hpiece
    cases hpiece

/-- The fragments of a line are tidy, and so is what it leaves. -/
theorem tidy_scanLine (line n column : Nat) (cs : List Char) {s : State} (hs : s.Tidy) :
    (∀ f ∈ (scanLine line n column cs s).1, f.Tidy) ∧ (scanLine line n column cs s).2.Tidy := by
  induction n generalizing column cs s with
  | zero => exact ⟨by simp [scanLine], hs⟩
  | succ n ih =>
    rw [scanLine.eq_def]
    dsimp only
    rw [drop_length_takeWhile]
    split
    · rename_i hpiece
      split
      · exact ⟨by simp, hs⟩
      · rename_i c rest
        obtain ⟨hrest, hs'⟩ := ih (column + 1) rest hs
        refine ⟨List.forall_mem_cons.mpr ⟨⟨by simp, fun d hd hdelimiter => ?_⟩, hrest⟩, hs'⟩
        cases hd
        have hgap := isGap_of_isDelimiter hdelimiter
        rw [List.dropWhile_cons_of_neg (by simp [hgap]), piece?_delimiter hdelimiter] at hpiece
        cases hpiece
    · exact ⟨by simp, hs⟩
    · exact ih _ _ hs
    · rename_i quote long hpiece
      exact ⟨by simp, tidy_opens hpiece rfl⟩
    · rename_i kind piece rest hpiece
      have hcount {p q : Prop} [Decidable p] [Decidable q] (m n : Int) :
          State.Tidy (if p then { s with brackets := m } else if q then { s with brackets := n } else s) := by
        split
        · exact hs
        · split <;> exact hs
      refine (ih _ rest (hcount _ _)).imp_left fun hrest => List.forall_mem_cons.mpr ⟨tidy_piece hpiece ?_ ?_, hrest⟩
      · split
        · simp
        · exact kind_of_piece? hpiece
      · rintro rfl
        rfl

/-! ### Brackets -/

/-- What an opening bracket, a closing one and any other fragment count. -/
def bracket (f : Fragment) : Int :=
  if f.kind = .operator && (f.text == ['('] || f.text == ['['] || f.text == [Char.ofNat 0x7B]) then 1
  else if f.kind = .operator && (f.text == [')'] || f.text == [']'] || f.text == [Char.ofNat 0x7D]) then -1
  else 0

/-- The opening brackets less the closing ones. -/
def level (fs : List Fragment) : Int := (fs.map bracket).sum

theorem bracket_of_ne {f : Fragment} (hkind : f.kind ≠ .operator) : bracket f = 0 := by
  simp [bracket, hkind]

end ValueShell.Fragment
