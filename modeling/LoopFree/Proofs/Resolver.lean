/-
  LoopFree.Proofs.Resolver — the built-in resolvers.

  Both resolvers answer every graph with a cut that does all that is asked of one
  (`Resolver.builtin_resolves`). That the greedy one stops after as many rounds as there are
  vertices, and the depth-first one at that depth, loses nothing: more of either changes
  no answer.

  Five ways to detect a cycle agree (`acyclic_tfae`): closed walks, the components, the
  topological order, and whether either resolver has an arc to break. So on a model that
  is marked as having a loop but has no cycle the resolvers break nothing, and a run only
  writes the flag and the ranks of a topological order (`loop_detection`).
-/

import LoopFree.Proofs.DepthFirst
import LoopFree.Proofs.Greedy
import LoopFree.Proofs.Success
import Mathlib.Tactic.TFAE

namespace LoopFree

namespace Resolver

/-- Both resolvers resolve every graph. The arcs of the greedy one are the edges that point
    backward in its order, those of the depth-first one the back edges of its search. -/
theorem builtin_resolves (n : Nat) (g : Digraph n) :
    (∃ c : Cut n, greedy n g = some c.toArcSet ∧ c.Resolves g ∧ c.arcs.Perm (g.backward c.order)) ∧
    (∃ c : Cut n, depthFirst n g = some c.toArcSet ∧ c.Resolves g ∧ c.arcs.Perm g.searchAll.back) ∧
    (∀ k, (Digraph.Placing.rounds g (n + k) (.start n)).left = [] ∧
      (Digraph.Placing.rounds g (n + k) (.start n)).order = g.greedyCut.order) ∧
    (∀ k, g.searchFrom (n + k) (List.finRange n) {} = g.searchAll) := by
  refine ⟨⟨g.greedyCut, rfl, g.greedyCut_resolves, g.greedyCut_arcs_perm⟩,
    ⟨g.depthFirstCut, rfl, g.depthFirstCut_resolves, g.depthFirstCut_arcs_perm⟩, fun k => ?_, g.searchAll_spec.2.2⟩
  rw [Digraph.Placing.rounds_add_start]
  exact ⟨Digraph.Placing.left_rounds g, g.greedyOrder_eq.symm⟩

/-- The answer has no arcs. -/
def FindsNone (resolver : Resolver) {n : Nat} (g : Digraph n) : Prop :=
  ∃ sequence, resolver n g = some { arcs := [], sequence }

theorem findsNone_iff {resolver : Resolver} {n : Nat} {g : Digraph n} {c : Cut n}
    (answer : resolver n g = some c.toArcSet) : resolver.FindsNone g ↔ c.arcs = [] := by
  simp [FindsNone, answer, Cut.toArcSet]

end Resolver

/-! ## Detecting cycles -/

theorem Digraph.acyclic_tfae {n : Nat} (g : Digraph n) :
    [g.Acyclic, g.isAcyclic = true, ∃ order, g.topologicalOrder? = some order,
      Resolver.greedy.FindsNone g, Resolver.depthFirst.FindsNone g].TFAE := by
  tfae_have 1 ↔ 2 := isAcyclic_iff.symm
  tfae_have 1 ↔ 3 := exists_topologicalOrder?_iff.symm
  tfae_have 1 ↔ 4 := greedyCut_arcs_eq_nil_iff.symm.trans (Resolver.findsNone_iff rfl).symm
  tfae_have 1 ↔ 5 := depthFirstCut_arcs_eq_nil_iff.symm.trans (Resolver.findsNone_iff rfl).symm
  tfae_finish

/-! ## Models without a cycle -/

namespace Edit

variable {α : Type} [Zero α] [One α] [Neg α] {w : Workspace α} {resolver : Resolver} {validate : Bool}
  {c : VariableCut}

omit [Zero α] [One α] [Neg α] in
/-- Choosing a cut without arcs can only fail because the model is not valid. -/
theorem chooseCut_eq_error_of_no_arcs {f : Fault} {v : Workspace α} (chosen : w.model.chosenCut resolver = .ok c)
    (none : c.cut.arcs = []) (run : chooseCut resolver validate w = .error f v) : v.model = w.model ∧ validate ∧
      f = .invalidModel (w.model.validate {}) ∧ ¬(w.model.validate {}).isValid := by
  obtain ⟨same, -, invalid | refused | ⟨c', chosen', a, ha, -⟩⟩ := chooseCut_eq_error run
  · exact ⟨same, invalid⟩
  · rw [chosen] at refused
    cases refused
  · obtain rfl : c = c' := Except.ok.inj (chosen.symm.trans chosen')
    rw [none] at ha
    cases ha

/-- Breaking a cut without arcs writes the flag and the ranks. -/
theorem exists_breakCut_of_no_arcs (none : c.cut.arcs = []) (single : w.model.Singular c.graph)
    (valid : validate → (w.model.validate {}).isValid) :
    ∃ w', breakCut validate c w = .ok () w' ∧ w'.model = w.model.ranked c := by
  have sources : c.cut.sources = [] := by
    rw [Cut.sources, none]
    rfl
  have safe : Safe (breakCut validate c) w := by
    unfold breakCut
    rw [sources, none]
    refine .step rfl (.step rfl (stopsWith_bind.2 ⟨safe_rank fun u _ => single u, fun _ v ranks => ?_⟩))
    refine .step rfl (.step rfl (stopsWith_ite.2 ⟨fun on => safe_requireValid ?_, fun _ => stopsWith_pure⟩))
    rw [rank_eq_ok ranks]
    exact (Model.isValid_iff_consistent.1 (valid on)).ranked c
  obtain ⟨_, w', run⟩ := exists_eq_ok safe
  obtain ⟨w₁, w₂, w₃, ranked, inputs, arcs, result⟩ := breakCut_eq_ok run
  rw [sources] at inputs
  rw [none] at arcs
  cases inputs
  cases arcs
  exact ⟨w', run, result.trans ranked⟩

end Edit

namespace Model

/-- The ranks are positions in a topological order, from 1; what is no variable keeps its rank. -/
structure OrderedBy {α : Type} (m : Model α) (g : VariableGraph) (order : List (Fin g.vertices.length))
    (ρ : Symbol → Int) : Prop where
  topological : g.graph.IsOrder order
  ranked : ∀ s ∈ m.symbols, s.isVariable → ∃ v, (g.vertex v).name = s.name ∧ ρ s = order.idxOf v + 1
  kept : ∀ s ∈ m.symbols, ¬s.isVariable → ρ s = s.rank

/-- All ways to detect a cycle agree. Where none is found, a run with a built-in resolver
    changes the flag and the ranks and nothing else, and the ranks follow a topological
    order; it is refused only if it is asked to validate a model that is not valid. -/
theorem loop_detection {α : Type} [Zero α] [One α] [Neg α] :
    (∀ (n : Nat) (g : Digraph n), [g.Acyclic, g.isAcyclic = true, ∃ order, g.topologicalOrder? = some order,
      Resolver.greedy.FindsNone g, Resolver.depthFirst.FindsNone g].TFAE) ∧
    ∀ (w : Workspace α) (g : VariableGraph) (resolver : Resolver) (validate : Bool),
      (resolver = .greedy ∨ resolver = .depthFirst) → (w.model.symbols.map (·.name)).Nodup → w.model.hasLoop →
      w.model.dependencyGraph = .ok g → g.graph.Acyclic →
      ((validate → (w.model.validate {}).isValid) → ∃ w' order ρ,
        Edit.removeLoops resolver validate w = .ok () w' ∧
        w'.model = { w.model with loopFound := true }.withRanks ρ ∧ w.model.OrderedBy g order ρ) ∧
      (validate → ¬(w.model.validate {}).isValid → ∃ v,
        Edit.removeLoops resolver validate w = .error (.invalidModel (w.model.validate {})) v ∧
        v.model = w.model) := by
  refine ⟨fun n g => g.acyclic_tfae, fun w g resolver validate builtin names loop graph acyclic => ?_⟩
  obtain ⟨cut, answer, resolves, none⟩ :
      ∃ cut : Cut _, resolver _ g.graph = some cut.toArcSet ∧ cut.Resolves g.graph ∧ cut.arcs = [] := by
    rcases builtin with rfl | rfl
    · exact ⟨_, rfl, g.graph.greedyCut_resolves, Digraph.greedyCut_arcs_eq_nil_iff.2 acyclic⟩
    · exact ⟨_, rfl, g.graph.depthFirstCut_resolves, Digraph.depthFirstCut_arcs_eq_nil_iff.2 acyclic⟩
  have chosen : w.model.chosenCut resolver = .ok ⟨g, cut⟩ := chosenCut_eq_ok.2 ⟨graph, answer, resolves.toBreaks⟩
  have single := singular_of_names names graph
  rw [Edit.removeLoops_eq loop]
  cases checks : Edit.chooseCut resolver validate w with
  | error f v =>
    obtain ⟨same, on, rfl, invalid⟩ := Edit.chooseCut_eq_error_of_no_arcs chosen none checks
    exact ⟨fun valid => absurd (valid on) invalid, fun _ _ => ⟨v, Edit.bind_eq_error.2 (Or.inl checks), same⟩⟩
  | ok c v =>
    obtain ⟨same, chosen', -, valid⟩ := Edit.chooseCut_eq_ok checks
    obtain rfl : ⟨g, cut⟩ = c := Except.ok.inj (chosen.symm.trans chosen')
    refine ⟨fun _ => ?_, fun on invalid => absurd (valid on) invalid⟩
    rw [← same] at single valid
    obtain ⟨w', run, ranked⟩ := Edit.exists_breakCut_of_no_arcs (c := ⟨g, cut⟩) none single valid
    rw [same] at single
    refine ⟨w', cut.order, rankIn g cut.order, Edit.bind_eq_ok.2 ⟨_, v, checks, run⟩, ?_, ?_⟩
    · rw [ranked, same]
      rfl
    · exact ⟨resolves.isOrder_of_nil none, fun _ => single.exists_vertex chosen,
        fun _ => single.rankIn_of_constant chosen⟩

/-- The variable `b` needs `a`, which needs the constant `k`. -/
def chained : Model Int where
  name := "chained"
  symbols := [
    { name := "b", domain := .real, role := .continuous, index := some 0 },
    { name := "k", domain := .real, role := .other, rank := -1 },
    { name := "a", domain := .real, role := .continuous, index := some 1 }]
  rows := { ineq := [{ defines := "b", depends := ["a"] }, { defines := "a", depends := ["k"] }] }
  blocks := .ofFn fun b => match b with
    | ⟨.ineq, .continuous⟩ => ⟨2, [[1, -2], [0, 1]], by decide⟩
    | ⟨.ineq, .affine⟩ => ⟨1, [[0], [5]], by decide⟩
    | ⟨.ineq, _⟩ => .zero 2 0
    | ⟨_, .continuous⟩ => .zero 0 2
    | ⟨_, .affine⟩ => .zero 0 1
    | ⟨_, _⟩ => .zero 0 0

/-- Neither variable had a rank, but there is no cycle: the run ranks `a` before `b`. -/
theorem loop_detection_chained : ∃ g w' order ρ, chained.dependencyGraph = .ok g ∧ g.graph.Acyclic ∧
    Edit.removeLoops Resolver.depthFirst true ⟨chained, [], []⟩ = .ok () w' ∧
    w'.model = { chained with loopFound := true }.withRanks ρ ∧ chained.OrderedBy g order ρ ∧
    w'.model.symbols.map (·.rank) = [2, -1, 1] := by
  have free : chained.dependencyGraph.toOption.any fun g => g.graph.isAcyclic := by decide +kernel
  have ranks : (Edit.removeLoops Resolver.depthFirst true).leaves
      (fun w => w.model.symbols.map (·.rank) = [2, -1, 1]) ⟨chained, [], []⟩ := by decide +kernel
  obtain ⟨g, graph, free⟩ := exists_of_dependencyGraph free
  have acyclic := Digraph.isAcyclic_iff.1 free
  obtain ⟨-, runs⟩ := loop_detection (α := Int)
  obtain ⟨succeeds, -⟩ :=
    runs ⟨chained, [], []⟩ g .depthFirst true (Or.inr rfl) (by decide) (by decide) graph acyclic
  obtain ⟨w', order, ρ, run, model, ordered⟩ := succeeds fun _ => by decide +kernel
  exact ⟨g, w', order, ρ, graph, acyclic, run, model, ordered, by simpa using Edit.of_leaves ranks run⟩

end Model
end LoopFree
