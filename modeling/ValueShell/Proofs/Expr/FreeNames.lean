import Mathlib.Data.List.Basic
import ValueShell.Expr.Eval

/-!
# Values depend on free names only

Two scopes that give the same values to the free names of an expression give the same value to the
expression (`evalText_congr`). `Depends` says so for everything that is evaluated on the way down to a
depth, and `depends` follows the evaluation step by step. The free names of a comprehension leave out what
its targets bind; `Extends` says that assigning to a target binds all names of the target, and these to the
same values in every scope. A function keeps the values of its free names alone, so that functions which
are made in scopes that agree are equal.
-/

set_option autoImplicit false

namespace ValueShell

theorem Bindings.find?_append (a b : Bindings) (x : String) :
    Bindings.find? (a ++ b) x = (a.find? x).or (b.find? x) := by
  unfold Bindings.find?
  rw [List.find?_append, Option.map_or]

namespace Expr

/-! ## Scopes that agree -/

/-- The scopes differ at most in their global names, and not in the values of the given ones as far as no
function or comprehension around hides them. -/
structure Scope.Agrees (names : List String) (s t : Scope) : Prop where
  row : t.row = s.row
  locals : t.locals = s.locals
  bound : t.bound = s.bound
  inner : t.inner = s.inner
  globals : ∀ x ∈ names, s.bound.find? x = none → t.globals.find? x = s.globals.find? x

/-- Binds names in front of those that are bound already. -/
def Scope.extend (s : Scope) (b : Bindings) : Scope := { s with bound := b ++ s.bound }

namespace Scope.Agrees

variable {s t : Scope} {names others : List String} {x : String}

theorem mono (h : s.Agrees names t) (hsub : ∀ x ∈ others, x ∈ names) : s.Agrees others t :=
  { h with globals := fun x hx => h.globals x (hsub x hx) }

theorem left (h : s.Agrees (names ++ others) t) : s.Agrees names t :=
  h.mono fun _ hx => List.mem_append_left _ hx

theorem right (h : s.Agrees (names ++ others) t) : s.Agrees others t :=
  h.mono fun _ hx => List.mem_append_right _ hx

theorem enter (h : s.Agrees names t) : s.enter.Agrees names t.enter :=
  { h with inner := rfl }

theorem lookup (h : s.Agrees names t) (hx : x ∈ names) : s.lookup x = t.lookup x := by
  have hnearby : t.nearby x = s.nearby x := by
    unfold Scope.nearby
    rw [h.row, h.locals]
  unfold Scope.lookup
  rw [h.bound, h.inner, hnearby]
  cases hbound : s.bound.find? x with
  | some v => rfl
  | none => rw [h.globals x hx hbound]

theorem capture (h : s.Agrees names t) : s.capture names = t.capture names := by
  unfold Scope.capture
  refine List.filterMap_congr fun x hx => ?_
  rw [h.bound]
  cases hbound : s.bound.find? x with
  | some v => rfl
  | none => rw [h.globals x hx hbound]

/-- Names that are bound in front need not agree. -/
theorem extend (h : s.Agrees names t) (b : Bindings)
    (hothers : ∀ x ∈ others, x ∈ names ∨ (b.find? x).isSome) : (s.extend b).Agrees others (t.extend b) where
  row := h.row
  locals := h.locals
  bound := congrArg (b ++ ·) h.bound
  inner := h.inner
  globals := by
    intro x hx hnone
    rw [Scope.extend, Bindings.find?_append, Option.or_eq_none_iff] at hnone
    rcases hothers x hx with hmem | hsome
    · exact h.globals x hmem hnone.2
    · rw [hnone.1] at hsome
      cases hsome

end Scope.Agrees

theorem mem_without {x : String} {bound names : List String} :
    x ∈ without bound names ↔ x ∈ names ∧ x ∉ bound := by
  simp [without]

/-! ## What targets bind -/

/-- What is done to a scope binds names in front, the given ones among them, and does not depend on the
scope otherwise. -/
def Extends (f : Scope → Except Fault Scope) (names : List String) : Prop :=
  ∃ r : Except Fault Bindings, (∀ s, f s = r.map s.extend) ∧
    ∀ b, r = .ok b → ∀ x ∈ names, (b.find? x).isSome

theorem extends_error {f : Scope → Except Fault Scope} {fault : Fault} (names : List String)
    (h : ∀ s, f s = .error fault) : Extends f names :=
  ⟨.error fault, h, fun _ hb => by cases hb⟩

theorem Extends.bind {f g : Scope → Except Fault Scope} {names others : List String}
    (hf : Extends f names) (hg : Extends g others) : Extends (fun s => f s >>= g) (names ++ others) := by
  obtain ⟨r, hr, hnames⟩ := hf
  obtain ⟨q, hq, hothers⟩ := hg
  cases r with
  | error fault => exact extends_error _ fun s => by rw [hr]; rfl
  | ok b =>
    cases q with
    | error fault => exact extends_error _ fun s => by rw [hr]; exact hq _
    | ok c =>
      refine ⟨.ok (c ++ b), fun s => ?_, fun d hd x hx => ?_⟩
      · have happend : (s.extend b).extend c = s.extend (c ++ b) := by
          simp [Scope.extend]
        calc f s >>= g = g (s.extend b) := by rw [hr]; rfl
          _ = .ok (s.extend (c ++ b)) := by rw [hq, ← happend]; rfl
      · cases hd
        rw [Bindings.find?_append, Option.isSome_or]
        rcases List.mem_append.mp hx with hx | hx
        · rw [hnames b rfl x hx, Bool.or_true]
        · rw [hothers c rfl x hx, Bool.true_or]

theorem extends_unpack {n : Nat} (ih : ∀ target v, Extends (assign_ n · target v) (boundNames target))
    (targets : List Expr) (vs : List Value) :
    Extends (assign_.unpack n · targets vs) (boundNamesOf targets) := by
  induction targets generalizing vs with
  | nil =>
    cases vs with
    | nil =>
      refine ⟨.ok [], fun s => ?_, fun _ _ x hx => by cases hx⟩
      simp [assign_.unpack, Except.map, Scope.extend]
    | cons v vs => exact extends_error _ fun s => by rw [assign_.unpack]
  | cons target rest ihrest =>
    -- a starred target takes what the targets after it leave over, so it is assigned to without looking at them
    by_cases hstarred : ∃ inner, target = .starred inner
    · obtain ⟨inner, rfl⟩ := hstarred
      by_cases hshort : vs.length < rest.length
      · exact extends_error _ fun s => by rw [assign_.unpack, if_pos hshort]
      · have hboth := (ih inner (.list (vs.take (vs.length - rest.length)))).bind
          (ihrest (vs.drop (vs.length - rest.length)))
        simpa only [boundNamesOf, boundNames, assign_.unpack, if_neg hshort] using hboth
    · cases vs with
      | nil => exact extends_error _ fun s => by rw [assign_.unpack]; exact fun e he => hstarred ⟨e, he⟩
      | cons v vs =>
        have hboth := (ih target v).bind (ihrest vs)
        have hunpack : ∀ s, assign_.unpack n s (target :: rest) (v :: vs) =
            assign_ n s target v >>= fun s => assign_.unpack n s rest vs := by
          intro s
          rw [assign_.unpack]
          exact fun e he => hstarred ⟨e, he⟩
        simpa only [boundNamesOf, hunpack] using hboth

/-- A target binds its names. -/
theorem extends_assign (n : Nat) (target : Expr) (v : Value) :
    Extends (assign_ n · target v) (boundNames target) := by
  induction n generalizing target v with
  | zero => exact extends_error _ fun s => by rw [assign_]
  | succ n ih =>
    have hitems : ∀ targets, Extends (fun s => v.items.bind (assign_.unpack n s targets))
        (boundNamesOf targets) := by
      intro targets
      cases v.items with
      | error fault => exact extends_error _ fun s => rfl
      | ok vs => exact extends_unpack ih targets vs
    cases target with
    | name x =>
      refine ⟨.ok [(x, v)], fun s => ?_, fun b hb y hy => ?_⟩
      · simp [assign_, Except.map, Scope.bind, Scope.extend]
      · cases hb
        rw [List.mem_singleton.mp hy]
        simp [Bindings.find?]
    | tuple targets => simpa only [boundNames, assign_] using hitems targets
    | list targets => simpa only [boundNames, assign_] using hitems targets
    | _ => exact extends_error _ fun s => by rw [assign_] <;> simp

/-- After a target is assigned to, its names agree. -/
theorem assign_bind_congr {β : Type} {s t : Scope} {names : List String} {target : Expr}
    (hs : s.Agrees (without (boundNames target) names) t) (n : Nat) (v : Value)
    {f : Scope → Except Fault β} (hf : ∀ {s t : Scope}, s.Agrees names t → f s = f t) :
    assign_ n s target v >>= f = assign_ n t target v >>= f := by
  obtain ⟨r, hr, hbinds⟩ := extends_assign n target v
  have hassign : ∀ s, assign_ n s target v = r.map s.extend := hr
  rw [hassign, hassign]
  cases r with
  | error fault => rfl
  | ok b =>
    refine hf (hs.extend b fun x hx => ?_)
    by_cases hbound : x ∈ boundNames target
    · exact .inr (hbinds b rfl x hbound)
    · exact .inl (mem_without.mpr ⟨hx, hbound⟩)

/-! ## Evaluation -/

/-- Down to a depth, values depend on no names but the free ones. -/
structure Depends (n : Nat) : Prop where
  eval : ∀ {s t e}, s.Agrees (freeNames e) t → eval n s e = eval n t e
  items : ∀ {s t es}, s.Agrees (freeNamesOf es) t → evalItems n s es = evalItems n t es
  entries : ∀ {s t es}, s.Agrees (freeInEntries es) t → ∀ acc,
    evalEntries n s acc es = evalEntries n t acc es
  defaults : ∀ {s t params}, s.Agrees (freeInDefaults params) t →
    evalDefaults n s params = evalDefaults n t params
  optional : ∀ {s t e}, s.Agrees (freeInOption e) t → evalOptional n s e = evalOptional n t e
  args : ∀ {s t es}, s.Agrees (freeInArgs es) t → ∀ acc, evalArgs n s acc es = evalArgs n t acc es
  comparisons : ∀ {s t es}, s.Agrees (freeInComparisons es) t → ∀ v,
    evalComparisons n s v es = evalComparisons n t v es
  gather : ∀ {s t clauses elements}, s.Agrees (freeInClauses (freeNamesOf elements) clauses) t →
    ∀ first, gather n s first clauses elements = gather n t first clauses elements
  allTrue : ∀ {s t es}, s.Agrees (freeNamesOf es) t → allTrue n s es = allTrue n t es

theorem depends_zero : Depends 0 := by
  constructor
  all_goals
    intros
    rfl

namespace Depends

variable {n : Nat} {s t : Scope}

theorem eval_succ (h : Depends n) {e : Expr} (hs : s.Agrees (freeNames e) t) :
    Expr.eval (n + 1) s e = Expr.eval (n + 1) t e := by
  cases e with
  | literal l => rfl
  | name x => exact hs.lookup (by simp [freeNames])
  | list items =>
    rw [freeNames] at hs
    simp only [Expr.eval, h.items hs]
  | tuple items =>
    rw [freeNames] at hs
    simp only [Expr.eval, h.items hs]
  | set items =>
    rw [freeNames] at hs
    simp only [Expr.eval, h.items hs]
  | dict entries =>
    rw [freeNames] at hs
    simp only [Expr.eval, h.entries hs]
  | comprehension kind element clauses =>
    rw [freeNames] at hs
    have hone : freeNamesOf [element] = freeNames element := by simp [freeNamesOf]
    rw [← hone] at hs
    simp only [Expr.eval, h.gather hs]
  | dictComprehension key value clauses =>
    rw [freeNames] at hs
    have htwo : freeNamesOf [key, value] = freeNames key ++ freeNames value := by simp [freeNamesOf]
    rw [← htwo] at hs
    simp only [Expr.eval, h.gather hs]
  | lambda params body =>
    rw [freeNames] at hs
    -- the function holds the values of its free names, and of these alone
    simp only [Expr.eval, h.defaults hs.left, hs.right.capture, hs.bound]
  | call function args =>
    rw [freeNames] at hs
    simp only [Expr.eval, h.eval hs.left, h.args hs.right]
  | «attribute» object name =>
    rw [freeNames] at hs
    simp only [Expr.eval, h.eval hs]
  | index object subscript =>
    rw [freeNames] at hs
    by_cases hslice : ∃ start stop step, subscript = .slice start stop step
    · obtain ⟨start, stop, step, rfl⟩ := hslice
      have hparts := hs.right
      rw [freeNames] at hparts
      simp only [Expr.eval, h.eval hs.left, h.optional hparts.left.left, h.optional hparts.left.right,
        h.optional hparts.right]
    · have hne : ∀ start stop step, subscript = .slice start stop step → False :=
        fun start stop step heq => hslice ⟨start, stop, step, heq⟩
      simp only [Expr.eval, h.eval hs.left, h.eval hs.right]
  | slice start stop step => rfl
  | unary op operand =>
    rw [freeNames] at hs
    simp only [Expr.eval, h.eval hs]
  | binary op left right =>
    rw [freeNames] at hs
    simp only [Expr.eval, h.eval hs.left, h.eval hs.right]
  | compare first rest =>
    rw [freeNames] at hs
    simp only [Expr.eval, h.eval hs.left, h.comparisons hs.right]
  | both left right =>
    rw [freeNames] at hs
    simp only [Expr.eval, h.eval hs.left, h.eval hs.right]
  | either left right =>
    rw [freeNames] at hs
    simp only [Expr.eval, h.eval hs.left, h.eval hs.right]
  | choice condition yes no =>
    rw [freeNames] at hs
    simp only [Expr.eval, h.eval hs.left.left, h.eval hs.left.right, h.eval hs.right]
  | starred operand => rfl
  | assign name value =>
    rw [freeNames] at hs
    simp only [Expr.eval, h.eval hs]

theorem items_succ (h : Depends n) {es : List Expr} (hs : s.Agrees (freeNamesOf es) t) :
    evalItems (n + 1) s es = evalItems (n + 1) t es := by
  cases es with
  | nil => rfl
  | cons e rest =>
    rw [freeNamesOf] at hs
    by_cases hstarred : ∃ inner, e = .starred inner
    · obtain ⟨inner, rfl⟩ := hstarred
      have hinner := hs.left
      rw [freeNames] at hinner
      simp only [evalItems, h.eval hinner, h.items hs.right]
    · have hne : ∀ inner, e = .starred inner → False := fun inner heq => hstarred ⟨inner, heq⟩
      simp only [evalItems, h.eval hs.left, h.items hs.right]

theorem entries_succ (h : Depends n) {es : List (Option Expr × Expr)} (hs : s.Agrees (freeInEntries es) t)
    (acc : List (Value × Value)) : evalEntries (n + 1) s acc es = evalEntries (n + 1) t acc es := by
  cases es with
  | nil => rfl
  | cons entry rest =>
    obtain ⟨key, value⟩ := entry
    rw [freeInEntries] at hs
    cases key with
    | none => simp only [evalEntries, h.eval hs.left.right, h.entries hs.right]
    | some key =>
      have hkey := hs.left.left
      rw [freeInOption] at hkey
      simp only [evalEntries, h.eval hkey, h.eval hs.left.right, h.entries hs.right]

theorem defaults_succ (h : Depends n) {params : List (String × ParamKind × Option Expr)}
    (hs : s.Agrees (freeInDefaults params) t) :
    evalDefaults (n + 1) s params = evalDefaults (n + 1) t params := by
  cases params with
  | nil => rfl
  | cons param rest =>
    obtain ⟨x, kind, default⟩ := param
    rw [freeInDefaults] at hs
    simp only [evalDefaults, h.optional hs.left, h.defaults hs.right]

theorem optional_succ (h : Depends n) {e : Option Expr} (hs : s.Agrees (freeInOption e) t) :
    evalOptional (n + 1) s e = evalOptional (n + 1) t e := by
  cases e with
  | none => rfl
  | some e =>
    rw [freeInOption] at hs
    simp only [evalOptional, h.eval hs]

theorem args_succ (h : Depends n) {es : List (ArgKind × Expr)} (hs : s.Agrees (freeInArgs es) t)
    (acc : Passed) : evalArgs (n + 1) s acc es = evalArgs (n + 1) t acc es := by
  cases es with
  | nil => rfl
  | cons arg rest =>
    obtain ⟨kind, e⟩ := arg
    rw [freeInArgs] at hs
    simp only [evalArgs, h.eval hs.left, h.args hs.right]

theorem comparisons_succ (h : Depends n) {es : List (CompareOp × Expr)}
    (hs : s.Agrees (freeInComparisons es) t) (v : Value) :
    evalComparisons (n + 1) s v es = evalComparisons (n + 1) t v es := by
  cases es with
  | nil => rfl
  | cons comparison rest =>
    obtain ⟨op, e⟩ := comparison
    rw [freeInComparisons] at hs
    simp only [evalComparisons, h.eval hs.left, h.comparisons hs.right]

theorem allTrue_succ (h : Depends n) {es : List Expr} (hs : s.Agrees (freeNamesOf es) t) :
    Expr.allTrue (n + 1) s es = Expr.allTrue (n + 1) t es := by
  cases es with
  | nil => rfl
  | cons e rest =>
    rw [freeNamesOf] at hs
    simp only [Expr.allTrue, h.eval hs.left, h.allTrue hs.right]

theorem mapM_eval (h : Depends n) {es : List Expr} (hs : s.Agrees (freeNamesOf es) t) :
    es.mapM (Expr.eval n s) = es.mapM (Expr.eval n t) := by
  induction es with
  | nil => rfl
  | cons e rest ih =>
    rw [freeNamesOf] at hs
    rw [List.mapM_cons, List.mapM_cons, h.eval hs.left, ih hs.right]

theorem gather_succ (h : Depends n) {clauses : List (Expr × Expr × List Expr)} {elements : List Expr}
    (hs : s.Agrees (freeInClauses (freeNamesOf elements) clauses) t) (first : Bool) :
    Expr.gather (n + 1) s first clauses elements = Expr.gather (n + 1) t first clauses elements := by
  cases clauses with
  | nil =>
    rw [freeInClauses] at hs
    simp only [Expr.gather, h.mapM_eval hs]
  | cons clause rest =>
    obtain ⟨target, iterable, conditions⟩ := clause
    rw [freeInClauses] at hs
    have hiterable : Expr.eval n (if first then s else s.enter) iterable =
        Expr.eval n (if first then t else t.enter) iterable := by
      cases first with
      | true => exact h.eval hs.left
      | false => exact h.eval hs.left.enter
    rw [Expr.gather, Expr.gather, hiterable]
    refine bind_congr fun collection => bind_congr fun vs => ?_
    congr 2
    funext v
    -- behind the target its names are bound, and the others agree as before
    refine assign_bind_congr hs.right.enter n v fun hagrees => ?_
    rw [h.allTrue hagrees.left, h.gather hagrees.right]

end Depends

/-- The value of an expression depends on no names but its free ones. -/
theorem depends (n : Nat) : Depends n := by
  induction n with
  | zero => exact depends_zero
  | succ n ih =>
    exact ⟨ih.eval_succ, ih.items_succ, ih.entries_succ, ih.defaults_succ, ih.optional_succ,
      ih.args_succ, ih.comparisons_succ, ih.gather_succ, ih.allTrue_succ⟩

/-- A text has the same value under all global names that agree on its free names. -/
theorem evalText_congr {text : String} {e : Expr} (hparse : parseTrimmed text = .ok e) {a b : Bindings}
    (h : ∀ x ∈ freeNames e, b.find? x = a.find? x) :
    evalText { globals := a } text = value { globals := b } e := by
  have hagrees : Scope.Agrees (freeNames e) { globals := a } { globals := b } :=
    ⟨rfl, rfl, rfl, rfl, fun x hx _ => h x hx⟩
  rw [evalText, hparse]
  exact (depends maxDepth).eval hagrees

end Expr

end ValueShell
