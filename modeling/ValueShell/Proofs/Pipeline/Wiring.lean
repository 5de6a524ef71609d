import ValueShell.Pipeline.Streams
import ValueShell.Proofs.Pipeline.Diagnosis

/-!
# Which streams the parts of a plan get

`Wired s p t q` says that the plan `q` is evaluated with the streams `t` when `p` is evaluated with the
streams `s`. A part has the streams of the whole, except that

* what is rendered writes to a pipe of values;
* the sides of a pipe write to it and read from it, and it is a pipe of text if the left side writes
  through a descriptor and a pipe of values otherwise;
* a command in a word writes to a pipe of text.

Two invariants go down along the wiring of a typed plan: what is given a pipe of values to read does not
need text (`Wired.reads`), and, if no command in a word is silent, every part writes to a pipe of values
exactly if it produces no text (`Wired.writes`).
-/

set_option autoImplicit false

namespace ValueShell

/-- The plan `q` is evaluated with the streams `t` when `p` is evaluated with the streams `s`. -/
inductive Wired (s : Streams Channel) (p : Plan) : Streams Channel → Plan → Prop
  | root : Wired s p s p
  | first {t kinds op left right} : op ≠ .pipe →
      Wired s p t (.binary kinds op left right) → Wired s p t left
  | second {t kinds op left right} : op ≠ .pipe →
      Wired s p t (.binary kinds op left right) → Wired s p t right
  | stored {t kinds command name} : Wired s p t (.assign kinds command name) → Wired s p t command
  | rendered {t kinds command} (n : Nat) : Wired s p t (.rendered kinds command) →
      Wired s p (.within (some t) none (some (.values n))) command
  | valuesLeft {t kinds left right l} (n : Nat) :
      left.kinds? = some l → l.output.isText = false →
      Wired s p t (.binary kinds .pipe left right) →
      Wired s p (.within (some t) none (some (.values n))) left
  | valuesRight {t kinds left right l} (n : Nat) :
      left.kinds? = some l → l.output.isText = false →
      Wired s p t (.binary kinds .pipe left right) →
      Wired s p (.within (some t) (some (.values n)) none) right
  | textLeft {t kinds left right l} (n : Nat) :
      left.kinds? = some l → l.output.isText = true →
      Wired s p t (.binary kinds .pipe left right) →
      Wired s p (.within (some t) none (some (.descriptor (.writeEnd n)))) left
  | textRight {t kinds left right l} (n : Nat) :
      left.kinds? = some l → l.output.isText = true →
      Wired s p t (.binary kinds .pipe left right) →
      Wired s p (.within (some t) (some (.descriptor (.readEnd n))) none) right
  | backquote {t kinds words redirects b} (n : Nat) : b ∈ Plan.backquotes words →
      Wired s p t (.process kinds words redirects) →
      Wired s p (.within (some t) none (some (.descriptor (.writeEnd n)))) b

namespace Plan

theorem Part.trans {a b c : Plan} (hab : Part a b) (hbc : Part b c) : Part a c := by
  induction hbc with
  | self => exact hab
  | left _ ih => exact .left ih
  | right _ ih => exact .right ih
  | stored _ ih => exact .stored ih
  | rendered _ ih => exact .rendered ih
  | backquote hb _ ih => exact .backquote hb ih

/-- No command in a word of the plan is known to produce nothing. -/
def Audible (p : Plan) : Prop :=
  ∀ kinds words redirects, Part (.process kinds words redirects) p → ∀ b ∈ backquotes words, b.silent = false

end Plan

open Plan

variable {registry : Registry} {names : Bindings} {s t : Streams Channel} {p q : Plan} {k : Kinds}

/-- What is evaluated on the way is a part of the plan. -/
theorem Wired.part (h : Wired s p t q) : Part q p := by
  induction h with
  | root => exact .self
  | first _ _ ih => exact (Part.left .self).trans ih
  | second _ _ ih => exact (Part.right .self).trans ih
  | stored _ ih => exact (Part.stored .self).trans ih
  | rendered _ _ ih => exact (Part.rendered .self).trans ih
  | valuesLeft _ _ _ _ ih => exact (Part.left .self).trans ih
  | valuesRight _ _ _ _ ih => exact (Part.right .self).trans ih
  | textLeft _ _ _ _ ih => exact (Part.left .self).trans ih
  | textRight _ _ _ _ ih => exact (Part.right .self).trans ih
  | backquote _ hb _ ih => exact (Part.backquote hb .self).trans ih

/-! ## What is read -/

/-- The input comes through a descriptor. -/
def Streams.ReadsText (t : Streams Channel) : Prop := ∃ d, t.input = some (.descriptor d)

/-- What is evaluated on the way of a typed plan is typed, and does not need text unless its input comes
through a descriptor. -/
theorem Wired.reads (htyped : Typed registry names p k) (hs : s.ReadsText) (h : Wired s p t q) :
    ∃ k', Typed registry names q k' ∧ (t.ReadsText ∨ k'.input.isText = false) := by
  induction h with
  | root => exact ⟨k, htyped, Or.inl hs⟩
  | first hop _ ih =>
    obtain ⟨k', hq, hin⟩ := ih
    obtain ⟨l, r, hl, _, hfed, _⟩ := hq.series_inv hop
    exact ⟨l, hl, hin.imp_right hfed.isText_eq_false⟩
  | second hop _ ih =>
    obtain ⟨k', hq, hin⟩ := ih
    obtain ⟨l, r, _, hr, _, hfed, _⟩ := hq.series_inv hop
    exact ⟨r, hr, hin.imp_right hfed.isText_eq_false⟩
  | stored _ ih =>
    obtain ⟨k', hq, hin⟩ := ih
    cases hq with
    | stored hc => exact ⟨_, hc, hin⟩
  | rendered n _ ih =>
    obtain ⟨k', hq, hin⟩ := ih
    cases hq with
    | rendered hc _ => exact ⟨_, hc, hin⟩
  | valuesLeft n _ _ _ ih =>
    obtain ⟨k', hq, hin⟩ := ih
    obtain ⟨l, r, hl, _, _, _, _, rfl⟩ := hq.pipe_inv
    exact ⟨l, hl, hin⟩
  | valuesRight n hk hout _ ih =>
    obtain ⟨k', hq, _⟩ := ih
    obtain ⟨l, r, _, hr, hlk, _, hfit, rfl⟩ := hq.pipe_inv
    rw [hk, Option.some.injEq] at hlk
    subst hlk
    -- the left side produces no text, so the right side cannot need it
    rw [hout] at hfit
    exact ⟨r, hr, Or.inr (hfit.resolve_left Bool.false_ne_true)⟩
  | textLeft n _ _ _ ih =>
    obtain ⟨k', hq, hin⟩ := ih
    obtain ⟨l, r, hl, _, _, _, _, rfl⟩ := hq.pipe_inv
    exact ⟨l, hl, hin⟩
  | textRight n _ _ _ ih =>
    obtain ⟨k', hq, _⟩ := ih
    obtain ⟨l, r, _, hr, _⟩ := hq.pipe_inv
    exact ⟨r, hr, Or.inl ⟨_, rfl⟩⟩
  | backquote n hb _ ih =>
    obtain ⟨k', hq, hin⟩ := ih
    obtain ⟨kb, htb, hfed, _⟩ := hq.process_inv _ hb
    exact ⟨kb, htb, hin.imp_right hfed.isText_eq_false⟩

/-- No program of the system is given a pipe of values to read. -/
theorem Wired.program_reads {kinds : Option Kinds} {words : List (List PlanPiece)}
    {redirects : List Redirect} (htyped : Typed registry names p k) (hs : s.ReadsText)
    (h : Wired s p t (.process kinds words redirects))
    (hprogram : commandOf registry names (toWords words) = .ok none) : t.ReadsText := by
  obtain ⟨k', hq, hin⟩ := h.reads htyped hs
  rw [hq.kinds_program hprogram] at hin
  exact hin.resolve_right (by simp [StreamKind.isText])

/-! ## What is written -/

/-- The output goes through a descriptor if it is text, and to a pipe of values otherwise. -/
def Streams.Writes (t : Streams Channel) (text : Bool) : Prop :=
  if text then ∃ d, t.output = some (.descriptor d) else ∃ n, t.output = some (.values n)

/-- What is evaluated on the way of a typed plan without silent commands in its words is typed, and
writes to a pipe of values exactly if it produces no text. -/
theorem Wired.writes (htyped : Typed registry names p k) (haudible : p.Audible)
    (hs : s.Writes k.output.isText) (h : Wired s p t q) :
    ∃ k', Typed registry names q k' ∧ t.Writes k'.output.isText := by
  induction h with
  | root => exact ⟨k, htyped, hs⟩
  | first hop _ ih =>
    obtain ⟨k', hq, hout⟩ := ih
    obtain ⟨l, r, hl, _, _, _, hlout, _⟩ := hq.series_inv hop
    exact ⟨l, hl, by rw [hlout]; exact hout⟩
  | second hop _ ih =>
    obtain ⟨k', hq, hout⟩ := ih
    obtain ⟨l, r, _, hr, _, _, _, hrout⟩ := hq.series_inv hop
    exact ⟨r, hr, by rw [hrout]; exact hout⟩
  | stored _ ih =>
    obtain ⟨k', hq, hout⟩ := ih
    cases hq with
    | stored hc => exact ⟨_, hc, hout⟩
  | rendered n _ ih =>
    obtain ⟨k', hq, _⟩ := ih
    cases hq with
    | rendered hc hvalues => exact ⟨_, hc, by rw [hvalues]; exact ⟨n, rfl⟩⟩
  | valuesLeft n hk hvalues _ ih =>
    obtain ⟨k', hq, _⟩ := ih
    obtain ⟨l, r, hl, _, hlk, _⟩ := hq.pipe_inv
    rw [hk, Option.some.injEq] at hlk
    subst hlk
    exact ⟨_, hl, by rw [hvalues]; exact ⟨n, rfl⟩⟩
  | valuesRight n _ _ _ ih =>
    obtain ⟨k', hq, hout⟩ := ih
    obtain ⟨l, r, _, hr, _, _, _, rfl⟩ := hq.pipe_inv
    exact ⟨r, hr, hout⟩
  | textLeft n hk htext _ ih =>
    obtain ⟨k', hq, _⟩ := ih
    obtain ⟨l, r, hl, _, hlk, _⟩ := hq.pipe_inv
    rw [hk, Option.some.injEq] at hlk
    subst hlk
    exact ⟨_, hl, by rw [htext]; exact ⟨_, rfl⟩⟩
  | textRight n _ _ _ ih =>
    obtain ⟨k', hq, hout⟩ := ih
    obtain ⟨l, r, _, hr, _, _, _, rfl⟩ := hq.pipe_inv
    exact ⟨r, hr, hout⟩
  | @backquote _ _ words _ b n hb hwired ih =>
    obtain ⟨k', hq, _⟩ := ih
    obtain ⟨kb, htb, _, hout⟩ := hq.process_inv b hb
    rw [haudible _ _ _ hwired.part b hb] at hout
    exact ⟨kb, htb, by rw [hout]; exact ⟨_, rfl⟩⟩

/-- A command writes to a pipe of values, and a program of the system through a descriptor. -/
def WritesRightly (registry : Registry) (names : Bindings) (t : Streams Channel)
    (words : List (List PlanPiece)) : Prop :=
  (∀ c, commandOf registry names (toWords words) = .ok (some c) → t.Writes false) ∧
    (commandOf registry names (toWords words) = .ok none → t.Writes true)

/-- In a typed plan without silent commands in its words every process writes where it should. -/
theorem Wired.writesRightly {kinds : Option Kinds} {words : List (List PlanPiece)}
    {redirects : List Redirect} (htyped : Typed registry names p k) (haudible : p.Audible)
    (hs : s.Writes k.output.isText) (h : Wired s p t (.process kinds words redirects)) :
    WritesRightly registry names t words := by
  obtain ⟨k', hq, hout⟩ := h.writes htyped haudible hs
  constructor
  · intro c hc
    rw [hq.kinds_command hc] at hout
    exact hout
  · intro hc
    rw [hq.kinds_program hc] at hout
    exact hout

/-! ## Silent commands in words -/

/-- Every part of a typed plan is evaluated with some streams. -/
theorem Wired.of_part {q' : Plan} (hpart : Part q' q) {k' : Kinds} (hq : Typed registry names q k')
    (h : Wired s p t q) : ∃ t', Wired s p t' q' := by
  induction hpart generalizing t k' with
  | self => exact ⟨t, h⟩
  | @left _ op _ _ _ ih =>
    by_cases hop : op = .pipe
    · subst hop
      obtain ⟨l, r, hl, _, hlk, _⟩ := hq.pipe_inv
      cases hout : l.output.isText with
      | true => exact ih hl (.textLeft 0 hlk hout h)
      | false => exact ih hl (.valuesLeft 0 hlk hout h)
    · obtain ⟨l, r, hl, _⟩ := hq.series_inv hop
      exact ih hl (.first hop h)
  | @right _ op _ _ _ ih =>
    by_cases hop : op = .pipe
    · subst hop
      obtain ⟨l, r, _, hr, hlk, _⟩ := hq.pipe_inv
      cases hout : l.output.isText with
      | true => exact ih hr (.textRight 0 hlk hout h)
      | false => exact ih hr (.valuesRight 0 hlk hout h)
    · obtain ⟨l, r, _, hr, _⟩ := hq.series_inv hop
      exact ih hr (.second hop h)
  | stored _ ih =>
    cases hq with
    | stored hc => exact ih hc (.stored h)
  | rendered _ ih =>
    cases hq with
    | rendered hc => exact ih hc (.rendered 0 h)
  | backquote hb _ ih =>
    obtain ⟨kb, htb, _⟩ := hq.process_inv _ hb
    exact ih htb (.backquote 0 hb h)

/-- A typed plan that produces no text has a command at its end, which writes where the plan does. -/
theorem Wired.exists_command (hq : Typed registry names q k) (hvalues : k.output.isText = false)
    (h : Wired s p t q) :
    ∃ t' kinds words redirects c, Wired s p t' (.process kinds words redirects) ∧
      commandOf registry names (toWords words) = .ok (some c) ∧ t'.output = t.output := by
  induction hq generalizing t with
  | program => cases hvalues
  | command κ hc => exact ⟨_, _, _, _, _, h, hc, rfl⟩
  | stored _ ih => exact ih hvalues (.stored h)
  | rendered => cases hvalues
  | series hop _ _ _ _ _ hlout _ ih _ =>
    rw [hvalues] at hlout
    exact ih hlout (.first hop h)
  | @pipe _ _ l _ _ _ hlk _ _ _ ih =>
    -- the right side writes where the whole does, whatever the pipe carries
    cases hout : l.output.isText with
    | true =>
      have hright := ih hvalues (.textRight 0 hlk hout h)
      exact hright
    | false =>
      have hright := ih hvalues (.valuesRight 0 hlk hout h)
      exact hright

/-- A silent command in a word of a typed plan makes some command write through a descriptor. -/
theorem Wired.not_writesRightly (htyped : Typed registry names p k) (hsilent : ¬ p.Audible) :
    ∃ t kinds words redirects, Wired s p t (.process kinds words redirects) ∧
      ¬ WritesRightly registry names t words := by
  simp only [Audible, not_forall, Bool.not_eq_false] at hsilent
  obtain ⟨kinds, words, redirects, hpart, b, hb, hsilent⟩ := hsilent
  obtain ⟨k', hprocess⟩ := htyped.part hpart
  obtain ⟨kb, htb, _, hout⟩ := hprocess.process_inv b hb
  rw [hsilent] at hout
  obtain ⟨t, ht⟩ := Wired.of_part hpart htyped (.root (s := s))
  obtain ⟨t', kinds', words', redirects', c, hwired, hc, houtput⟩ :=
    (Wired.backquote 0 hb ht).exists_command htb hout
  refine ⟨t', kinds', words', redirects', hwired, fun hright => ?_⟩
  obtain ⟨n, hn⟩ := hright.1 c hc
  rw [houtput] at hn
  cases hn

end ValueShell
