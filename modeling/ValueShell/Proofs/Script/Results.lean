import ValueShell.Commands.Sample
import ValueShell.Proofs.Command.Printing
import ValueShell.Proofs.Evaluation.Storing
import ValueShell.Script.Convert

/-!
# Results that are handed back to a script

A converted script assigns the results of a command line to the names that `resultNames` finds in it. A
result is handed back if and only if it is stored under one of these names, so all results are handed back
unless a command inside of a word, or of the target of a redirection, stores under a name of its own. Such
commands are not searched for names, although they store their results where all others do.
-/

set_option autoImplicit false

namespace ValueShell

theorem Bindings.mem_of_find? {b : Bindings} {n : String} {v : Value} (h : b.find? n = some v) :
    (n, v) ∈ b := by
  obtain ⟨e, hfound, rfl⟩ := Option.map_eq_some_iff.mp h
  have hname : e.1 = n := by simpa using List.find?_some hfound
  rw [← hname]
  exact List.mem_of_find?_eq_some hfound

namespace Evaluation

open ValueShell.Task

theorem World.exists_stored {w : World} {e : String × Value} (h : e ∈ w.results) :
    ∃ s, (e.1, s) ∈ w.stored := by
  obtain ⟨⟨name, s⟩, hmem, rfl⟩ := List.mem_map.mp h
  cases s with
  | status n => exact ⟨_, hmem⟩
  | captured c => exact ⟨_, hmem⟩

namespace Session

variable {s : Session} {content : String} {tree : Tree} {rest : Tree.Input}

theorem toTree_plan (hparse : Tree.parse s.aliases content = .ok (tree, rest)) {plan : Plan}
    (h : s.plan content = .ok plan) : plan.toTree = tree := by
  obtain ⟨⟨tree', rest'⟩, hparse', hplan⟩ := Plan.ok_of_bind h
  cases hparse.symm.trans hparse'
  obtain ⟨_, _, _, htree⟩ := Plan.typed_of_ofCommand hplan
  exact htree

/-- All results of a command are stored under names in its tree. -/
theorem stores_of_results (hparse : Tree.parse s.aliases content = .ok (tree, rest)) :
    ∀ e ∈ (s.run content).1.results, tree.Stores true e.1 := by
  intro e he
  unfold run at he
  split at he
  · cases he
  · rename_i plan hplan
    dsimp only at he
    unfold evaluate at he
    split at he
    · rename_i r fault hdeliver
      split at he
      · cases he
      · obtain ⟨stored, hstored⟩ := World.exists_stored he
        have hfinish : (r.world.finishProcesses r.world.processes.length).stored = r.world.stored :=
          congrArg Standing.stored (World.standing_finishProcesses _ _)
        dsimp only at hstored
        rw [hfinish] at hstored
        rw [← toTree_plan hparse hplan]
        refine stores_of_run (fun w c w' hnext => ?_) rfl (run_of_deliver hdeliver) _ hstored
        exact congrArg Standing.stored (World.standing_nextCompletion hnext)
    · cases he

/-- Under a name that is asked for stands its result. -/
theorem find?_responses (results : Bindings) (names : List String) (n : String) :
    Bindings.find? (responses results names) n =
      if n ∈ names then some ((results.find? n).getD .none) else none := by
  induction names with
  | nil => rfl
  | cons name rest ih =>
    rw [responses, List.map_cons, Bindings.find?, List.find?_cons]
    by_cases hname : name = n
    · simp [hname]
    · have hne : (name == n) = false := by simpa using hname
      rw [hne]
      rw [responses, Bindings.find?] at ih
      simpa [Ne.symm hname] using ih

end Session

end Evaluation

namespace Script

open ValueShell.Evaluation ValueShell.Task

/-- Every result that a command line can store is stored under one of the names that a script asks for, if
and only if this is so for the commands inside of its words and targets. Whatever is stored in a run, in
whatever order commands end, stands under a name in the tree of the line, and what is stored in a session
is handed back if and only if the script asks for its name. -/
theorem results_handed_back {content : String} {tree : Tree} {rest : Tree.Input}
    (hparse : Tree.parse [] content = .ok (tree, rest)) :
    ∃ names, resultNames content = .ok names ∧
      (∀ n, tree.Stores true n ↔ n ∈ names ∨ tree.Hides n) ∧
      ((∀ n, tree.Stores true n → n ∈ names) ↔ ∀ n, tree.Hides n → n ∈ names) ∧
      ∀ s : Session, s.aliases = [] →
        (∀ plan next w r, s.plan content = .ok plan → (∀ w c w', next w c w' → w'.stored = w.stored) →
          w.stored = [] → Run LeafTask.leaf next plan w r → ∀ e ∈ r.world.stored, tree.Stores true e.1) ∧
        ∀ n v, Bindings.find? (s.run content).1.results n = some v → tree.Stores true n ∧
          Bindings.find? (Session.responses (s.run content).1.results names) n =
            if n ∈ names then some v else none := by
  refine ⟨tree.resultNames, by rw [resultNames, hparse]; rfl, fun n => Tree.stores_iff, ?_, ?_⟩
  · constructor
    · intro h n hn
      exact h n hn.stores
    · intro h n hn
      exact (Tree.stores_iff.mp hn).elim id (h n)
  · intro s hs
    rw [← hs] at hparse
    refine ⟨fun plan next w r hplan hnext hw hrun e he => ?_, fun n v hfound => ?_⟩
    · rw [← Session.toTree_plan hparse hplan]
      exact stores_of_run hnext hw hrun e he
    · refine ⟨Session.stores_of_results hparse (n, v) (Bindings.mem_of_find? hfound), ?_⟩
      rw [Session.find?_responses, hfound]
      rfl

/-- A command that captures in a word what another one captures outside of it. -/
def captureTwice : Tree :=
  .binary .sequence
    (.process [[.token ⟨.literal, "echo"⟩],
      [.backquote (.process [[.token ⟨.literal, "send"⟩], [.token ⟨.literal, "3"⟩]] [.capture "x"])]] [])
    (.process [[.token ⟨.literal, "send"⟩], [.token ⟨.literal, "4"⟩]] [.capture "x"])

theorem results_handed_back_captureTwice :
    ∃ rest names, Tree.parse [] "(echo `send 3 => x`) ; (send 4 => x)" = .ok (captureTwice, rest) ∧
      captureTwice.Hides "x" ∧ resultNames "(echo `send 3 => x`) ; (send 4 => x)" = .ok names ∧
      ∀ s : Session, s.aliases = [] → ∀ v,
        Bindings.find? (s.run "(echo `send 3 => x`) ; (send 4 => x)").1.results "x" = some v →
        Bindings.find? (Session.responses (s.run "(echo `send 3 => x`) ; (send 4 => x)").1.results names) "x" =
          some v := by
  have hwell : captureTwice.wellFormed false = true := by decide
  obtain ⟨rest, hparse⟩ := Tree.exists_parse [] "(echo `send 3 => x`) ; (send 4 => x)" hwell
    (by decide +kernel)
  have hhides : captureTwice.Hides "x" :=
    .left (.word (List.mem_cons_of_mem _ List.mem_cons_self) List.mem_cons_self
      (.captured List.mem_cons_self))
  obtain ⟨names, hnames, -, -, hback⟩ := results_handed_back hparse
  refine ⟨rest, names, hparse, hhides, hnames, fun s hs v hv => ?_⟩
  have hx : "x" ∈ names := by
    rw [resultNames, hparse] at hnames
    cases hnames
    exact List.mem_cons_self
  exact ((hback s hs).2 "x" v hv).2.trans (if_pos hx)

/-- The runner after some steps of the tasks. -/
def after : Nat → Runner (Job LeafTask) Mark Response World → Runner (Job LeafTask) Mark Response World
  | 0, r => r
  | n + 1, r => after n (Runner.step (Job.behavior LeafTask.leaf) r).1

theorem run_after {next : World → Completion → World → Prop} {plan : Plan} {w : World}
    {r : Runner (Job LeafTask) Mark Response World} (h : Run LeafTask.leaf next plan w r) (n : Nat) :
    Run LeafTask.leaf next plan w (after n r) := by
  induction n generalizing r with
  | zero => exact h
  | succ n ih => exact ih h.step

/-- The plan of a command that captures in a word. -/
def captureInWord : Plan :=
  .process (some ⟨.text, .text⟩) [[.token ⟨.literal, "echo"⟩],
    [.backquote (.rendered none (.process (some ⟨.nothing, .values⟩)
      [[.token ⟨.literal, "send"⟩], [.token ⟨.literal, "3"⟩]] [.capture "x"]))]] []

/-- What is captured in a word is stored, and no name asks for it. -/
theorem result_in_word_lost :
    ∃ rest, Tree.parse [] "echo `send 3 => x`" = .ok (captureInWord.toTree, rest) ∧
      resultNames "echo `send 3 => x`" = .ok [] ∧
      Plan.ofCommand Commands.sample [] captureInWord.toTree = .ok captureInWord ∧
      ∃ r, Run LeafTask.leaf (fun w c w' => w.nextCompletion = .ok (c, w')) captureInWord
          ({ registry := Commands.sample } : Session).world r ∧
        r.world.stored = [("x", .captured 1)] := by
  have hwell : captureInWord.toTree.wellFormed false = true := by decide
  obtain ⟨rest, hparse⟩ := Tree.exists_parse [] "echo `send 3 => x`" hwell (by decide +kernel)
  have hnames : resultNames "echo `send 3 => x`" = .ok [] := by
    rw [resultNames, hparse]
    rfl
  exact ⟨rest, hparse, hnames, rfl, _, run_after .start 17, by decide +kernel⟩

end Script

end ValueShell
