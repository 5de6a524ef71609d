import Mathlib.Logic.Relation
import ValueShell.Proofs.Task.Routing

/-!
# What is below a controller

A controller is below another one if it was called by it, or by one that is below it, and if none of them
is finished. Callers are older than what they call and a controller has one caller only (`Lineal`), so
the controllers are a forest. `Downwards` says what it means for a list to go through everything below a
controller from the leaves up, and `downwards_subtree` that `subtree` does so.
-/

set_option autoImplicit false

namespace ValueShell.Task.Runner

variable {τ σ ρ ω : Type} {r : Runner τ σ ρ ω} {c d : Nat}

/-- A controller has called another one that is not finished. -/
def Child (r : Runner τ σ ρ ω) (c d : Nat) : Prop := ∃ k, r.controllers[c]? = some k ∧ d ∈ k.children

/-- The second controller is the first one, or was called by one that is below the first. -/
def Below (r : Runner τ σ ρ ω) : Nat → Nat → Prop := Relation.ReflTransGen r.Child

/-- The list holds everything from a controller downwards, each controller once, and nothing stands in it
before something that is below. -/
structure Downwards (r : Runner τ σ ρ ω) (c : Nat) (order : List Nat) : Prop where
  complete : ∀ d, d ∈ order ↔ r.Below c d
  ordered : order.Pairwise fun d e => ¬ r.Below d e

theorem Downwards.nodup {order : List Nat} (h : r.Downwards c order) : order.Nodup := by
  refine h.ordered.imp ?_
  rintro d e hde rfl
  exact hde .refl

/-- Callers are older than what they call, nothing has two callers, and everything that waits or runs is
about a known controller. -/
structure Lineal (r : Runner τ σ ρ ω) : Prop where
  nodup : ∀ (c : Nat) (x : Kin σ), r.kin[c]? = some x → x.children.Nodup
  parent : ∀ (c : Nat) (x : Kin σ), r.kin[c]? = some x → ∀ d ∈ x.children,
    ∃ y, r.kin[d]? = some y ∧ y.parent = some c
  older : ∀ (c : Nat) (x : Kin σ), r.kin[c]? = some x → ∀ p, x.parent = some p → p < c
  known : ∀ e ∈ r.stack ++ r.later, ∀ c ∈ e.owner, c < r.kin.length
  root : ∀ c ∈ r.root, c < r.kin.length

theorem lineal_ofTask (task : τ) (state : σ) (w : ω) : (ofTask task state w : Runner τ σ ρ ω).Lineal := by
  refine ⟨?_, ?_, ?_, ?_, ?_⟩
  · intro c x hx
    cases hx
  · intro c x hx
    cases hx
  · intro c x hx
    cases hx
  · intro e he c hc
    obtain rfl := List.mem_singleton.mp he
    cases hc
  · intro c hc
    cases hc

/-! ## The order of numbers -/

theorem Lineal.child_parent (h : r.Lineal) (hchild : r.Child c d) :
    ∃ k, r.controllers[d]? = some k ∧ k.parent = some c := by
  obtain ⟨k, hk, hd⟩ := hchild
  obtain ⟨y, hy, hparent⟩ := h.parent c k.kin (getElem?_kin hk) d hd
  obtain ⟨k', hk', rfl⟩ := exists_controller hy
  exact ⟨k', hk', hparent⟩

theorem Lineal.child_lt (h : r.Lineal) (hchild : r.Child c d) : c < d := by
  obtain ⟨k, hk, hparent⟩ := h.child_parent hchild
  exact h.older d k.kin (getElem?_kin hk) c hparent

theorem Lineal.child_unique (h : r.Lineal) {c' : Nat} (hchild : r.Child c d) (hchild' : r.Child c' d) :
    c = c' := by
  obtain ⟨k, hk, hparent⟩ := h.child_parent hchild
  obtain ⟨k', hk', hparent'⟩ := h.child_parent hchild'
  rw [hk, Option.some.injEq] at hk'
  subst hk'
  rw [hparent, Option.some.injEq] at hparent'
  exact hparent'

theorem Lineal.le_of_below (h : r.Lineal) (hbelow : r.Below c d) : c ≤ d := by
  induction hbelow with
  | refl => exact Nat.le_refl c
  | tail _ hchild ih =>
    have hlt := h.child_lt hchild
    omega

theorem Lineal.known_of_below (h : r.Lineal) (hc : c < r.controllers.length) (hbelow : r.Below c d) :
    d < r.controllers.length := by
  induction hbelow with
  | refl => exact hc
  | tail _ hchild _ =>
    obtain ⟨k, hk, -⟩ := h.child_parent hchild
    exact (List.getElem?_eq_some_iff.mp hk).1

/-- What two controllers have below both, one of them has below the other. -/
theorem Lineal.comparable (h : r.Lineal) {a a' : Nat} (ha : r.Below a d) (ha' : r.Below a' d) :
    r.Below a a' ∨ r.Below a' a := by
  induction ha with
  | refl => exact .inr ha'
  | tail hbelow hchild ih =>
    rcases Relation.ReflTransGen.cases_tail ha' with rfl | ⟨e, hbelow', hchild'⟩
    · exact .inl (hbelow.tail hchild)
    · obtain rfl := h.child_unique hchild hchild'
      exact ih hbelow'

/-- Two children of one controller have nothing in common below them. -/
theorem Lineal.apart (h : r.Lineal) {a a' : Nat} (ha : r.Child c a) (ha' : r.Child c a') (hne : a ≠ a')
    {e : Nat} (hd : r.Below a d) (he : r.Below a' e) : ¬ r.Below d e := by
  -- Otherwise one of the two children would be below the other, and so would their caller.
  have hsplit : ∀ {x y : Nat}, r.Child c x → r.Child c y → x ≠ y → ¬ r.Below x y := by
    intro x y hx hy hxy hbelow
    rcases Relation.ReflTransGen.cases_tail hbelow with heq | ⟨p, hp, hchild⟩
    · exact hxy heq.symm
    · obtain rfl := h.child_unique hchild hy
      have hle := h.le_of_below hp
      have hlt := h.child_lt hx
      omega
  intro hbelow
  rcases h.comparable (hd.trans hbelow) he with haa | haa
  · exact hsplit ha ha' hne haa
  · exact hsplit ha' ha hne.symm haa

/-! ## The subtree as a list -/

/-- With enough levels, what is listed is what is below. -/
theorem Lineal.mem_descend (h : r.Lineal) {depth : Nat} (hdepth : r.controllers.length ≤ c + depth) :
    d ∈ descend r.controllers depth c ↔ r.Below c d := by
  induction depth generalizing c with
  | zero =>
    have hnone : r.controllers[c]? = none := List.getElem?_eq_none hdepth
    rw [descend, List.mem_singleton]
    constructor
    · rintro rfl
      exact .refl
    · intro hbelow
      rcases Relation.ReflTransGen.cases_head hbelow with heq | ⟨e, ⟨k, hk, -⟩, -⟩
      · exact heq.symm
      · rw [hnone] at hk
        cases hk
  | succ depth ih =>
    have hchildren : ∀ e, r.Child c e → (d ∈ descend r.controllers depth e ↔ r.Below e d) := by
      intro e he
      have hlt := h.child_lt he
      exact ih (by omega)
    have hiff : d ∈ descend r.controllers (depth + 1) c ↔
        (∃ e, r.Child c e ∧ d ∈ descend r.controllers depth e) ∨ d = c := by
      rw [descend]
      cases hk : r.controllers[c]? with
      | none => simp [Child, hk]
      | some k => simp [Child, hk]
    rw [hiff]
    constructor
    · rintro (⟨e, he, hd⟩ | rfl)
      · exact .head he ((hchildren e he).mp hd)
      · exact .refl
    · intro hbelow
      rcases Relation.ReflTransGen.cases_head hbelow with heq | ⟨e, he, hd⟩
      · exact .inr heq.symm
      · exact .inl ⟨e, he, (hchildren e he).mpr hd⟩

theorem Lineal.pairwise_descend (h : r.Lineal) {depth : Nat}
    (hdepth : r.controllers.length ≤ c + depth) :
    (descend r.controllers depth c).Pairwise fun d e => ¬ r.Below d e := by
  induction depth generalizing c with
  | zero => exact List.pairwise_singleton _ _
  | succ depth ih =>
    rw [descend]
    cases hk : r.controllers[c]? with
    | none => exact List.pairwise_singleton _ _
    | some k =>
      have hchild : ∀ e ∈ k.children, r.Child c e := fun e he => ⟨k, hk, he⟩
      have hlevels : ∀ e ∈ k.children, r.controllers.length ≤ e + depth := by
        intro e he
        have hlt := h.child_lt (hchild e he)
        omega
      refine List.pairwise_append.mpr ⟨?_, List.pairwise_singleton _ _, ?_⟩
      · refine List.pairwise_flatMap.mpr ⟨fun e he => ih (hlevels e he), ?_⟩
        refine (h.nodup c k.kin (getElem?_kin hk)).imp_of_mem ?_
        intro a a' ha ha' hne d hd e he
        rw [h.mem_descend (hlevels a ha)] at hd
        rw [h.mem_descend (hlevels a' ha')] at he
        exact h.apart (hchild a ha) (hchild a' ha') hne hd he
      · intro d hd e he hbelow
        obtain ⟨a, ha, hd⟩ := List.mem_flatMap.mp hd
        rw [h.mem_descend (hlevels a ha)] at hd
        obtain rfl := List.mem_singleton.mp he
        have hlt := h.child_lt (hchild a ha)
        have hle := h.le_of_below (hd.trans hbelow)
        omega

/-- The subtree of a controller goes through everything below it. -/
theorem Lineal.downwards_subtree (h : r.Lineal) (c : Nat) : r.Downwards c (r.subtree c) :=
  ⟨fun _ => h.mem_descend (Nat.le_add_left _ _), h.pairwise_descend (Nat.le_add_left _ _)⟩

end ValueShell.Task.Runner
