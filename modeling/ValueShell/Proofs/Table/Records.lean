import Mathlib.Data.List.Infix
import ValueShell.Proofs.Table.Piping

/-!
# Writing a table as records and reading it again

The text of a table is cut into lines wherever a carriage return and a line feed stand in it, in a quoted
field as well as at the end of a record, and the reader puts the pieces of a quoted field together without
them. What is read is therefore the table with each text `joined`, and it is the table that was written
exactly if no text holds such a break and none is too long for the reader (`reread_eq_iff`).

`Reads` follows the reader through a text with its breaks, character by character. That a written table is
read goes from the characters of a field (`Reads.quoted`, `Reads.plain`) over fields and records to tables
(`reads_table`); what a command makes of the lines is then an induction on the reading
(`feed_of_reads`).
-/

set_option autoImplicit false

namespace ValueShell.Csv

open Stage (markRows)

/-! ## Line breaks -/

/-- A text without its line breaks, each a carriage return and a line feed. -/
def unbroken : List Char → List Char
  | '\r' :: '\n' :: rest => unbroken rest
  | c :: rest => c :: unbroken rest
  | [] => []

theorem length_unbroken_le (cs : List Char) : (unbroken cs).length ≤ cs.length := by
  induction cs using unbroken.induct with
  | case1 rest ih =>
    simp only [unbroken, List.length_cons]
    omega
  | case2 c rest hbreak ih =>
    rw [unbroken.eq_2 c rest hbreak]
    simpa using ih
  | case3 => exact Nat.le_refl 0

/-- A break at the start of a text, in the form in which the definitions look for it. -/
theorem break_prefix_iff {c : Char} {rest : List Char} :
    ['\r', '\n'] <+: c :: rest ↔ ∃ tail, c = '\r' ∧ rest = '\n' :: tail := by
  constructor
  · rintro ⟨tail, h⟩
    cases h
    exact ⟨tail, rfl, rfl⟩
  · rintro ⟨tail, rfl, rfl⟩
    exact ⟨tail, rfl⟩

theorem unbroken_eq_self_iff {cs : List Char} : unbroken cs = cs ↔ ¬ ['\r', '\n'] <:+: cs := by
  induction cs using unbroken.induct with
  | case1 rest ih =>
    have hlength := length_unbroken_le rest
    constructor
    · intro h
      rw [unbroken] at h
      rw [h] at hlength
      simp only [List.length_cons] at hlength
      omega
    · intro h
      exact absurd ⟨[], rest, rfl⟩ h
  | case2 c rest hbreak ih =>
    have hahead : ¬ ['\r', '\n'] <+: c :: rest := by
      rw [break_prefix_iff]
      rintro ⟨tail, hc, hrest⟩
      exact hbreak tail hc hrest
    rw [unbroken.eq_2 c rest hbreak, List.infix_cons_iff, List.cons_inj_right, ih]
    simp [hahead]
  | case3 => simp [unbroken]

theorem isSpecial_eq_false_iff {c : Char} :
    isSpecial c = false ↔ c ≠ ',' ∧ c ≠ '"' ∧ c ≠ '\r' ∧ c ≠ '\n' := by
  simp [isSpecial, and_assoc]

theorem unbroken_of_plain {cs : List Char} (hplain : ∀ c ∈ cs, isSpecial c = false) : unbroken cs = cs := by
  rw [unbroken_eq_self_iff]
  intro hbreak
  exact absurd (hplain '\r' (hbreak.subset (by simp))) (by decide)

/-! ## Reading a text with its breaks -/

/-- The reader goes from a state through a text and finds records in it. -/
inductive Reads : State → List Char → List (List (List Char)) → Prop where
  | done : Reads {} [] []
  | char {s s' : State} {c : Char} {rest : List Char} {records : List (List (List Char))}
    (hbreak : ¬ ['\r', '\n'] <+: c :: rest) (hchar : s.char c = .ok s') (h : Reads s' rest records) :
    Reads s (c :: rest) records
  /-- A break in quotes is passed over. -/
  | wraps {s : State} {rest : List Char} {records : List (List (List Char))}
    (hfits : s.fits = true) (hplace : s.place = .inQuotes) (h : Reads s rest records) :
    Reads s ('\r' :: '\n' :: rest) records
  /-- Any other break ends a record. -/
  | ends {s : State} {rest : List Char} {records : List (List (List Char))}
    (hfits : s.fits = true) (hplace : s.lineEnd.place = .recordStart) (h : Reads {} rest records) :
    Reads s ('\r' :: '\n' :: rest) (s.lineEnd.fields.reverse :: records)

theorem fits_iff {s : State} :
    s.fits = true ↔ s.field.length ≤ fieldLimit ∧ ∀ f ∈ s.fields, f.length ≤ fieldLimit := by
  simp [State.fits]

/-- A place where a comma or the end of a line ends a field. -/
def Place.closes : Place → Bool
  | .inQuotes => false
  | .afterLine => false
  | _ => true

namespace Reads

variable {fields : List (List Char)} {field cs rest : List Char} {records : List (List (List Char))}

/-- A character that begins no break. -/
theorem char_of_ne {s s' : State} {c : Char} (hc : c ≠ '\r') (hchar : s.char c = .ok s')
    (h : Reads s' rest records) : Reads s (c :: rest) records := by
  refine .char ?_ hchar h
  rw [break_prefix_iff]
  rintro ⟨tail, rfl, -⟩
  exact hc rfl

/-- What is quoted is read up to the closing quote, without its breaks. -/
theorem quoted (hfields : ∀ f ∈ fields, f.length ≤ fieldLimit)
    (hfield : field.length + (unbroken cs).length ≤ fieldLimit)
    (h : Reads ⟨.afterQuote, fields, (unbroken cs).reverse ++ field⟩ rest records) :
    Reads ⟨.inQuotes, fields, field⟩
      ((cs.flatMap fun c => if c = '"' then ['"', '"'] else [c]) ++ '"' :: rest) records := by
  induction cs using unbroken.induct generalizing field with
  | case1 tail ih =>
    have hheld : field.length ≤ fieldLimit := by omega
    refine .wraps (fits_iff.mpr ⟨hheld, hfields⟩) rfl ?_
    exact ih hfield h
  | case2 c tail hbreak ih =>
    rw [unbroken.eq_2 c tail hbreak] at hfield h
    have hlater := @ih (c :: field) (by simpa [Nat.add_assoc, Nat.add_comm 1] using hfield)
      (by simpa using h)
    by_cases hc : c = '"'
    · subst hc
      exact char_of_ne (by decide) rfl (char_of_ne (by decide) rfl hlater)
    · rw [List.flatMap_cons, if_neg hc]
      refine .char ?_ (by simp [State.char, hc, State.add]) hlater
      rw [break_prefix_iff]
      rintro ⟨others, rfl, hothers⟩
      cases tail with
      | nil => simp at hothers
      | cons d tail =>
        rw [List.flatMap_cons] at hothers
        split at hothers <;> simp at hothers
        exact hbreak tail rfl (by rw [hothers.1])
  | case3 => exact char_of_ne (by decide) rfl (by simpa [unbroken] using h)

/-- What needs no quotes is read as it stands. -/
theorem plain (hplain : ∀ c ∈ cs, isSpecial c = false)
    (h : Reads ⟨.inField, fields, cs.reverse ++ field⟩ rest records) :
    Reads ⟨.inField, fields, field⟩ (cs ++ rest) records := by
  induction cs generalizing field with
  | nil => exact h
  | cons c cs ih =>
    obtain ⟨hc, hcs⟩ := List.forall_mem_cons.mp hplain
    obtain ⟨hcomma, -, hreturn, hfeed⟩ := isSpecial_eq_false_iff.mp hc
    refine char_of_ne hreturn (by simp [State.char, hcomma, hreturn, hfeed, State.add]; rfl) ?_
    exact ih hcs (by simpa using h)

variable {start : Place}

theorem quotedField (hstart : start = .recordStart ∨ start = .fieldStart)
    (hfields : ∀ f ∈ fields, f.length ≤ fieldLimit) (hfit : (unbroken cs).length ≤ fieldLimit)
    (h : Reads ⟨.afterQuote, fields, (unbroken cs).reverse⟩ rest records) :
    Reads ⟨start, fields, []⟩ (quoteField cs ++ rest) records := by
  have hquoted := @quoted fields [] cs rest records hfields (by simpa using hfit) (by simpa using h)
  simp only [quoteField, List.cons_append, List.append_assoc, List.nil_append]
  rcases hstart with rfl | rfl
  · exact char_of_ne (by decide) rfl hquoted
  · exact char_of_ne (by decide) rfl hquoted

/-- A written field is read up to a place that closes it. -/
theorem writtenField (hstart : start = .recordStart ∨ start = .fieldStart)
    (hfields : ∀ f ∈ fields, f.length ≤ fieldLimit) (hfit : (unbroken cs).length ≤ fieldLimit)
    (h : ∀ place : Place, place.closes = true → (place = .recordStart → start = .recordStart ∧ cs = []) →
      Reads ⟨place, fields, (unbroken cs).reverse⟩ rest records) :
    Reads ⟨start, fields, []⟩ (writeField cs ++ rest) records := by
  unfold writeField
  split
  · exact quotedField hstart hfields hfit (h .afterQuote rfl (by simp))
  · rename_i hplain
    simp only [List.any_eq_true, not_exists, not_and, Bool.not_eq_true] at hplain
    rw [unbroken_of_plain hplain] at h
    cases cs with
    | nil => exact h start (by rcases hstart with rfl | rfl <;> rfl) fun hplace => ⟨hplace, rfl⟩
    | cons c cs =>
      obtain ⟨hc, hcs⟩ := List.forall_mem_cons.mp hplain
      obtain ⟨hcomma, hquote, hreturn, hfeed⟩ := isSpecial_eq_false_iff.mp hc
      have hrest := @plain fields [c] cs rest records hcs (by simpa using h .inField rfl (by simp))
      refine char_of_ne hreturn ?_ hrest
      rcases hstart with rfl | rfl <;>
        simp [State.char, State.atField, hcomma, hquote, hreturn, hfeed, State.add]

theorem comma {place : Place} (hplace : place.closes = true)
    (h : Reads ⟨.fieldStart, cs :: fields, []⟩ rest records) :
    Reads ⟨place, fields, cs.reverse⟩ (',' :: rest) records := by
  refine char_of_ne (by decide) ?_ h
  cases place <;> simp [Place.closes] at hplace <;> simp [State.char, State.atField, State.save]

theorem lineBreak {place : Place} (hplace : place.closes = true) (hstart : place ≠ .recordStart)
    (hfields : ∀ f ∈ fields, f.length ≤ fieldLimit) (hfit : cs.length ≤ fieldLimit)
    (h : Reads {} rest records) :
    Reads ⟨place, fields, cs.reverse⟩ ('\r' :: '\n' :: rest) ((fields.reverse ++ [cs]) :: records) := by
  have hfits : State.fits ⟨place, fields, cs.reverse⟩ = true := fits_iff.mpr ⟨by simpa using hfit, hfields⟩
  have hend : State.lineEnd ⟨place, fields, cs.reverse⟩ = ⟨.recordStart, cs :: fields, []⟩ := by
    cases place <;> simp [Place.closes] at hplace hstart <;> simp [State.lineEnd, State.save]
  have hends := Reads.ends hfits (by rw [hend]) h
  rw [hend] at hends
  simpa using hends

/-- Written fields are read up to the break after them. -/
theorem writtenFields {fs : List (List Char)} (hstart : start = .recordStart ∨ start = .fieldStart)
    (hne : fs ≠ []) (hempty : start = .recordStart → fs ≠ [[]])
    (hfields : ∀ f ∈ fields, f.length ≤ fieldLimit) (hfit : ∀ f ∈ fs, (unbroken f).length ≤ fieldLimit)
    (h : Reads {} rest records) :
    Reads ⟨start, fields, []⟩ ([','].intercalate (fs.map writeField) ++ '\r' :: '\n' :: rest)
      ((fields.reverse ++ fs.map unbroken) :: records) := by
  induction fs generalizing start fields with
  | nil => exact absurd rfl hne
  | cons cs fs ih =>
    obtain ⟨hcs, hfs⟩ := List.forall_mem_cons.mp hfit
    cases fs with
    | nil =>
      simp only [List.map_cons, List.map_nil, List.intercalate_singleton]
      refine writtenField hstart hfields hcs ?_
      intro place hplace hopen
      refine lineBreak hplace ?_ hfields hcs h
      intro hrecord
      obtain ⟨hstart, rfl⟩ := hopen hrecord
      exact hempty hstart rfl
    | cons next fs =>
      simp only [List.map_cons, List.intercalate_cons_cons, List.append_assoc, List.cons_append,
        List.nil_append]
      refine writtenField hstart hfields hcs ?_
      intro place hplace _
      refine comma hplace ?_
      have hsaved : ∀ f ∈ unbroken cs :: fields, f.length ≤ fieldLimit :=
        List.forall_mem_cons.mpr ⟨hcs, hfields⟩
      have hlater := @ih (unbroken cs :: fields) .fieldStart (.inr rfl) (by simp) (by simp) hsaved hfs
      simpa using hlater

/-- A written record is read. -/
theorem writtenRecord {fs : List (List Char)} (hfit : ∀ f ∈ fs, (unbroken f).length ≤ fieldLimit)
    (h : Reads {} rest records) :
    Reads {} (writeRecord fs ++ '\r' :: '\n' :: rest) (fs.map unbroken :: records) := by
  unfold writeRecord
  split
  · have hnone : ∀ f ∈ ([] : List (List Char)), f.length ≤ fieldLimit := by simp
    have hbreak := @lineBreak [] [] rest records .afterQuote rfl (by decide) hnone (Nat.zero_le _) h
    exact @quotedField [] [] _ _ .recordStart (.inl rfl) hnone (Nat.zero_le _) hbreak
  · rename_i hempty
    by_cases hne : fs = []
    · subst hne
      exact .ends rfl rfl h
    · exact @writtenFields [] rest records .recordStart fs (.inl rfl) hne (fun _ => hempty) (by simp) hfit h

end Reads

/-- The text of a table is read. -/
theorem reads_table {rs : List (List (List Char))}
    (hfit : ∀ r ∈ rs, ∀ f ∈ r, (unbroken f).length ≤ fieldLimit) :
    Reads {} (rs.flatMap fun r => writeRecord r ++ ['\r', '\n']) (rs.map fun r => r.map unbroken) := by
  induction rs with
  | nil => exact .done
  | cons r rs ih =>
    obtain ⟨hr, hrs⟩ := List.forall_mem_cons.mp hfit
    have hread := Reads.writtenRecord hr (ih hrs)
    simpa using hread

/-! ## Reading lines -/

/-- A row of texts. -/
def textRow (texts : List String) : Value := .list (texts.map .text)

theorem record_eq (s : State) : s.record = textRow (s.fields.reverse.map String.ofList) := by
  simp [State.record, textRow]

theorem textRow_injective {us vs : List String} (h : textRow us = textRow vs) : us = vs := by
  simpa [textRow, List.map_inj_right] using h

theorem names_textRow (texts : List String) : Stage.receive.names (textRow texts) = texts := by
  have hdisplay : Value.display ∘ Value.text = id := funext fun _ => rfl
  simp [textRow, Stage.receive.names, hdisplay]

theorem place_char {s s' : State} {c : Char} (h : s.char c = .ok s') : s'.place ≠ .recordStart := by
  obtain ⟨place, fields, field⟩ := s
  cases place <;> simp only [State.char, State.atField, State.add, State.save] at h
  all_goals (repeat' split at h) <;> cases h <;> simp

/-- The lines of a text as values; `line` holds what stands before the text in its first line, last
character first. -/
def lineValues (line text : List Char) : List Value :=
  ((splitLines line text).map String.ofList).map .text

theorem lineValues_break (line rest : List Char) :
    lineValues line ('\r' :: '\n' :: rest) = .text (String.ofList line.reverse) :: lineValues [] rest := by
  simp [lineValues, splitLines]

theorem lineValues_char {c : Char} {rest : List Char} (line : List Char)
    (h : ¬ ['\r', '\n'] <+: c :: rest) : lineValues line (c :: rest) = lineValues (c :: line) rest := by
  unfold lineValues
  rw [splitLines.eq_3]
  intro tail hc hrest
  exact h (break_prefix_iff.mpr ⟨tail, hc, hrest⟩)

section Line

variable {s₀ s : State} {line : List Char}

theorem line_wraps (hline : line.reverse.foldlM State.char s₀ = .ok s) (hfits : s.fits = true)
    (hplace : s.place = .inQuotes) : s₀.line (.text (String.ofList line.reverse)) = .ok (none, s) := by
  have hend : s.lineEnd = s := by simp [State.lineEnd, hplace]
  simp [State.line, hline, hfits, hend, hplace, bind, Except.bind]

theorem line_ends (hline : line.reverse.foldlM State.char s₀ = .ok s) (hfits : s.fits = true)
    (hplace : s.lineEnd.place = .recordStart) :
    s₀.line (.text (String.ofList line.reverse)) =
      .ok (some (textRow (s.lineEnd.fields.reverse.map String.ofList)), {}) := by
  simp [State.line, hline, hfits, hplace, bind, Except.bind, record_eq]

end Line

/-- A line in which nothing of a record has been read is empty. -/
theorem state_of_line {s₀ : State} {line : List Char} (h : line.reverse.foldlM State.char s₀ = .ok {}) :
    s₀ = {} := by
  cases line with
  | nil => exact Except.ok.inj h
  | cons c line =>
    rw [List.reverse_cons, List.foldlM_append] at h
    obtain ⟨s, -, hlast⟩ := Plan.ok_of_bind h
    simp only [List.foldlM_cons, List.foldlM_nil, bind_pure] at hlast
    exact absurd rfl (place_char hlast)

/-- What comes of records: their rows, under the columns if these are known and under the first record if
they are not. -/
def tableOf (mark : Nat) : Option (List String) → List (List (List Char)) → Output
  | some columns, records =>
    { values := markRows mark columns (records.map fun r => textRow (r.map String.ofList)) }
  | none, header :: records =>
    .ofTable mark (header.map String.ofList) { values := records.map fun r => textRow (r.map String.ofList) }
  | none, [] => { absent := true }

/-- The lines of a text that is read give the table of its records. -/
theorem feed_of_reads {s₀ s : State} {line text : List Char} {records : List (List (List Char))}
    (columns : Option (List String)) (mark : Nat) (h : Reads s text records)
    (hline : line.reverse.foldlM State.char s₀ = .ok s) :
    (Stage.records s₀ columns mark).feed (lineValues line text) = tableOf mark columns records := by
  -- `s₀` is the state at the start of the current line and `s` the one after the characters of `line`
  induction h generalizing s₀ line columns with
  | done =>
    obtain rfl : s₀ = {} := state_of_line hline
    cases columns <;> rfl
  | char hbreak hchar h ih =>
    rw [lineValues_char line hbreak]
    apply ih
    simp [List.foldlM_append, hline, hchar, bind, Except.bind, pure, Except.pure]
  | wraps hfits hplace h ih =>
    have hrest := @ih _ [] columns rfl
    rw [lineValues_break]
    cases columns with
    | none => simp [Stage.feed, Stage.receive, line_wraps hline hfits hplace, hrest]
    | some columns => simp [Stage.feed, Stage.receive, line_wraps hline hfits hplace, hrest]
  | ends hfits hplace h ih =>
    rw [lineValues_break]
    cases columns with
    | none =>
      simp [Stage.feed, Stage.receive, line_ends hline hfits hplace, names_textRow, @ih {} [] _ rfl, tableOf,
        Output.ofTable]
    | some columns =>
      simp [Stage.feed, Stage.receive, line_ends hline hfits hplace, @ih {} [] _ rfl, tableOf]

/-! ## What is read is short -/

/-- Texts that are short enough for the reader. -/
def Short (texts : List String) : Prop := ∀ text ∈ texts, text.length ≤ fieldLimit

/-- A row of texts that are short enough for the reader. -/
def ShortRow (row : Value) : Prop := ∃ texts, row = textRow texts ∧ Short texts

variable {s : State}

theorem shortRow_record (h : s.fits = true) : ShortRow s.record := by
  refine ⟨_, record_eq s, ?_⟩
  intro text htext
  obtain ⟨f, hf, rfl⟩ := List.mem_map.mp htext
  simpa using (fits_iff.mp h).2 f (List.mem_reverse.mp hf)

theorem fits_save (h : s.fits = true) : s.save.fits = true := by
  simpa [State.fits, State.save] using h

theorem fits_lineEnd (h : s.fits = true) : s.lineEnd.fits = true := by
  unfold State.lineEnd
  split
  · exact h
  · exact h
  · exact h
  · exact fits_save h

theorem short_of_line {s' : State} {line : Value} {record : Option Value}
    (h : s.line line = .ok (record, s')) : s'.fits = true ∧ ∀ row ∈ record, ShortRow row := by
  cases line with
  | text text =>
    obtain ⟨s₁, -, hend⟩ := Plan.ok_of_bind h
    split at hend
    · rename_i hfits
      have hresult := Except.ok.inj hend
      split at hresult <;> cases hresult
      · exact ⟨rfl, by simpa using shortRow_record (fits_lineEnd hfits)⟩
      · exact ⟨fits_lineEnd hfits, by simp⟩
    · cases hend
  | _ => cases h

theorem short_of_last (h : s.fits = true) : ∀ row ∈ s.last, ShortRow row := by
  unfold State.last
  split
  · simpa using shortRow_record (fits_save h)
  · simp

theorem short_names {row : Value} (h : ShortRow row) : Short (Stage.receive.names row) := by
  obtain ⟨texts, rfl, htexts⟩ := h
  rwa [names_textRow]

/-- Whatever the lines are, what comes of them has only short texts in it. -/
theorem short_of_feed (columns : Option (List String)) (mark : Nat) (lines : List Value)
    (h : s.fits = true) :
    (∀ names ∈ ((Stage.records s columns mark).feed lines).columns, Short names) ∧
      ∀ v ∈ ((Stage.records s columns mark).feed lines).values,
        ∃ names row, v = .row mark names row ∧ ShortRow row := by
  induction lines generalizing s columns with
  | nil =>
    have hlast := short_of_last h
    cases hs : s.last with
    | none => cases columns <;> simp [Stage.feed, Stage.receive, hs]
    | some row =>
      have hrow : ShortRow row := hlast row hs
      cases columns with
      | none => simpa [Stage.feed, Stage.receive, hs] using short_names hrow
      | some columns => simpa [Stage.feed, Stage.receive, hs] using hrow
  | cons line lines ih =>
    cases hline : s.line line with
    | error fault =>
      cases columns <;> simp [Stage.feed, Stage.receive, hline, Output.callFault, Output.laterFault]
    | ok result =>
      obtain ⟨record, s'⟩ := result
      obtain ⟨hs', hrecord⟩ := short_of_line hline
      cases record with
      | none =>
        have hrest := ih columns hs'
        cases columns <;> simpa [Stage.feed, Stage.receive, hline] using hrest
      | some row =>
        have hrow : ShortRow row := hrecord row rfl
        cases columns with
        | none =>
          have hrest := ih (some (Stage.receive.names row)) hs'
          simpa [Stage.feed, Stage.receive, hline] using ⟨short_names hrow, hrest.2⟩
        | some columns =>
          have hrest := ih (some columns) hs'
          simpa [Stage.feed, Stage.receive, hline, hrow] using hrest

/-! ## The commands -/

/-- The lines of a table that is written as records. -/
def written (source : Nat) (columns : List String) (rows : List (List String)) : Output :=
  (Commands.toRecords.start { args := [.text "tocsv"], supply := .elements }).run
    (markRows source columns (rows.map textRow))

/-- A table that is written as records and read again. -/
def reread (source mark : Nat) (columns : List String) (rows : List (List String)) : Output :=
  (Commands.fromRecords.start { args := [.text "fromcsv"], supply := .elements, mark }).run
    (written source columns rows).values

variable {columns first : List String} {others rows : List (List String)}

theorem reread_eq (source mark : Nat) (columns : List String) (rows : List (List String)) :
    reread source mark columns rows =
      (Stage.records {} none mark).feed (written source columns rows).values :=
  rfl

/-- The fields of a table, its columns first. -/
def fieldsOf (columns : List String) (rows : List (List String)) : List (List (List Char)) :=
  (columns :: rows).map fun r => r.map String.toList

theorem mapM_rowFields (rows : List (List String)) :
    (rows.map textRow).mapM rowFields = .ok (rows.map fun r => r.map String.toList) := by
  induction rows with
  | nil => rfl
  | cons r rows ih =>
    have htexts : fieldText ∘ Value.text = String.toList := funext fun _ => rfl
    have hr : rowFields (textRow r) = .ok (r.map String.toList) := by
      simp [rowFields, textRow, Value.items, htexts]
    rw [List.map_cons, List.mapM_cons, ih, hr]
    rfl

theorem written_eq (source : Nat) (columns first : List String) (others : List (List String)) :
    written source columns (first :: others) =
      { values := lineValues []
          ((fieldsOf columns (first :: others)).flatMap fun r => writeRecord r ++ ['\r', '\n']) } := by
  have hlines : (do
      let lines ← writeTable columns ([textRow first] ++ others.map textRow)
      Except.ok (lines.map Value.text)) =
        .ok (lineValues []
          ((fieldsOf columns (first :: others)).flatMap fun r => writeRecord r ++ ['\r', '\n'])) := by
    have hrecords := mapM_rowFields (first :: others)
    rw [List.map_cons] at hrecords
    simp only [writeTable, List.singleton_append, hrecords, bind, Except.bind]
    rfl
  have hfeed := @Stage.feed_allRows source columns (others.map textRow) _ [textRow first]
    (fun rows => do
      let lines ← writeTable columns rows
      .ok (lines.map .text)) hlines
  show (Stage.firstRow .csv {} _).feed _ = _
  simp [Stage.feed, Stage.receive, Stage.beginRows, hfeed]

/-- What becomes of a text that is written and read again. -/
def joined (text : String) : String := String.ofList (unbroken text.toList)

theorem reread_of_short (source mark : Nat)
    (hshort : ∀ r ∈ columns :: first :: others, Short (r.map joined)) :
    reread source mark columns (first :: others) =
      .ofTable mark (columns.map joined)
        { values := (first :: others).map fun r => textRow (r.map joined) } := by
  have hfit : ∀ r ∈ fieldsOf columns (first :: others), ∀ f ∈ r, (unbroken f).length ≤ fieldLimit := by
    intro r hr f hf
    obtain ⟨texts, htexts, rfl⟩ := List.mem_map.mp hr
    obtain ⟨text, htext, rfl⟩ := List.mem_map.mp hf
    simpa [joined] using hshort texts htexts (joined text) (List.mem_map_of_mem htext)
  have hfeed := @feed_of_reads {} {} [] _ _ none mark (reads_table hfit) rfl
  rw [reread_eq, written_eq, hfeed]
  simp only [fieldsOf, tableOf, List.map_cons, List.map_map, Function.comp_def]
  rfl

/-- A table that is read has only short texts in it. -/
theorem short_of_reread {source mark : Nat}
    (h : reread source mark columns rows = .ofTable mark columns { values := rows.map textRow }) :
    ∀ r ∈ columns :: rows, Short r := by
  have hread := @short_of_feed {} none mark (written source columns rows).values rfl
  rw [← reread_eq, h] at hread
  obtain ⟨hcolumns, hrows⟩ := hread
  refine List.forall_mem_cons.mpr ⟨hcolumns columns rfl, ?_⟩
  intro r hr
  obtain ⟨names, row, hrow, texts, rfl, htexts⟩ :=
    hrows (.row mark columns (textRow r)) (List.mem_map_of_mem (List.mem_map_of_mem hr))
  injection hrow with _ _ htext
  rwa [textRow_injective htext]

theorem joined_eq_self_iff {text : String} : joined text = text ↔ ¬ ['\r', '\n'] <:+: text.toList := by
  rw [← unbroken_eq_self_iff, joined, String.ext_iff, String.toList_ofList]

theorem map_joined_eq_self_iff {texts : List String} :
    texts.map joined = texts ↔ ∀ text ∈ texts, joined text = text := by
  induction texts with
  | nil => simp
  | cons text texts ih => simp [ih]

theorem short_joined {texts : List String} (h : Short texts) : Short (texts.map joined) := by
  intro text htext
  obtain ⟨t, ht, rfl⟩ := List.mem_map.mp htext
  have hlength := length_unbroken_le t.toList
  rw [String.length_toList] at hlength
  exact (by simpa [joined] using hlength : (joined t).length ≤ t.length).trans (h t ht)

theorem ofTable_inj {mark : Nat} {names : List String} {us vs : List Value} :
    Output.ofTable mark names { values := us } = .ofTable mark columns { values := vs } ↔
      names = columns ∧ us = vs := by
  constructor
  · intro h
    injection h with hvalues hcolumns
    obtain rfl : names = columns := Option.some.inj hcolumns
    exact ⟨rfl, (List.map_inj_right fun _ _ hrow => (Value.row.inj hrow).2.2).mp hvalues⟩
  · rintro ⟨rfl, rfl⟩
    rfl

/-- A table that is written as records and read again is, if the reader takes its texts, the table with
each text joined over its breaks. So it is the table that was written exactly if no text of it holds a
break and none is too long. -/
theorem reread_eq_iff (source mark : Nat) (columns first : List String) (others : List (List String)) :
    ((∀ r ∈ columns :: first :: others, Short (r.map joined)) →
      reread source mark columns (first :: others) =
        .ofTable mark (columns.map joined)
          { values := (first :: others).map fun r => textRow (r.map joined) }) ∧
    (reread source mark columns (first :: others) =
        .ofTable mark columns { values := (first :: others).map textRow } ↔
      ∀ r ∈ columns :: first :: others, ∀ text ∈ r,
        ¬ ['\r', '\n'] <:+: text.toList ∧ text.length ≤ fieldLimit) := by
  refine ⟨reread_of_short source mark, ?_⟩
  constructor
  · intro h r hr text htext
    have hshort := short_of_reread h
    rw [reread_of_short source mark fun r hr => short_joined (hshort r hr), ofTable_inj] at h
    obtain ⟨hcolumns, hrows⟩ := h
    have hsame : r.map joined = r := by
      rcases List.mem_cons.mp hr with rfl | hr
      · exact hcolumns
      · exact textRow_injective (List.map_inj_left.mp hrows r hr)
    exact ⟨joined_eq_self_iff.mp (map_joined_eq_self_iff.mp hsame text htext), hshort r hr text htext⟩
  · intro h
    have hsame : ∀ r ∈ columns :: first :: others, r.map joined = r := by
      intro r hr
      exact map_joined_eq_self_iff.mpr fun text htext => joined_eq_self_iff.mpr (h r hr text htext).1
    have hshort : ∀ r ∈ columns :: first :: others, Short (r.map joined) := by
      intro r hr
      exact short_joined fun text htext => (h r hr text htext).2
    obtain ⟨hcolumns, hrows⟩ := List.forall_mem_cons.mp hsame
    rw [reread_of_short source mark hshort, ofTable_inj]
    exact ⟨hcolumns, List.map_inj_left.mpr fun r hr => congrArg textRow (hrows r hr)⟩

example : reread 0 1 ["a,b", ""] [["say \"hi\"", "one\ntwo\r"]] =
    .ofTable 1 ["a,b", ""] { values := [textRow ["say \"hi\"", "one\ntwo\r"]] } := rfl

/-- A break in a field is lost. -/
theorem reread_loses_break :
    ¬ ∀ (source mark : Nat) (columns first : List String) (others : List (List String)),
      columns ≠ [] → (∀ row ∈ first :: others, row.length = columns.length) →
      reread source mark columns (first :: others) =
        .ofTable mark columns { values := (first :: others).map textRow } := by
  intro h
  have hbroken := h 0 1 ["a"] ["x\r\ny"] [] (by decide) (by decide)
  have hread : reread 0 1 ["a"] [["x\r\ny"]] = .ofTable 1 ["a"] { values := [textRow ["xy"]] } := rfl
  rw [hread, ofTable_inj] at hbroken
  exact absurd (textRow_injective (List.cons.inj hbroken.2).1) (by decide)

end ValueShell.Csv
