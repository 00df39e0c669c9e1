/-
  LoopFree.Proofs.Rejection — where the built-in resolvers have a source refused.

  A source is refused for its role, and which sources there are is for the resolver to
  say. The depth-first resolver only breaks arcs that close a cycle, so a variable refused
  with it lies on one. The greedy resolver also breaks arcs from one cycle to another, when
  the vertex with the largest surplus is reached only through them; a variable refused with
  it is on the way from a cycle to a cycle (`refused_between_cycles`) but need not be on any
  (`exists_refused_off_cycle`).
-/

import LoopFree.Proofs.Condensation
import LoopFree.Proofs.FixedPoint
import LoopFree.Proofs.Peeling
import LoopFree.Proofs.Resolver

namespace LoopFree

variable {α : Type}

namespace Model

variable {m : Model α} {g : VariableGraph}

/-- A vertex with an edge from it is the one that its name stands for. -/
theorem find?_of_edge (h : m.dependencyGraph = .ok g) {u v : Fin g.vertices.length} (edge : g.graph.edge u v) :
    g.find? (g.vertex u).name = some u :=
  VariableGraph.find?_eq_some_iff.2 ((edge_iff h).1 edge).1

/-- The vertex is what the name stands for in the model's graph, and no loop can be broken
    behind its role. -/
structure RefusedAt (m : Model α) (name : String) (role : Role) (g : VariableGraph) (v : Fin g.vertices.length) :
    Prop where
  graph : m.dependencyGraph = .ok g
  named : g.find? name = some v
  role : (g.vertex v).role = role
  unbreakable : ¬(g.vertex v).role.breakable

end Model

namespace Edit

variable [Zero α] [One α] [Neg α] {w v : Workspace α} {resolver : Resolver} {validate : Bool} {f : Fault}
  {name : String} {role : Role}

/-- A source that is refused is the source of an arc of the chosen cut. -/
theorem exists_arc_of_refused (run : removeLoops resolver validate w = .error (.unsupportedSource name role) v) :
    ∃ c, w.model.chosenCut resolver = .ok c ∧ ∃ a ∈ c.cut.arcs, w.model.RefusedAt name role c.graph a.1 := by
  obtain ⟨-, -, cause⟩ := chooseCut_eq_error (chooseCut_eq_error_of_checked run rfl)
  rcases cause with ⟨-, e, -⟩ | refused | ⟨c, chosen, a, ha, unsupported, e⟩
  · cases e
  · rcases Model.chosenCut_eq_error.1 refused with undefined | ⟨_, -, ⟨-, e⟩ | ⟨_, _, -, -, e⟩⟩
    · obtain ⟨_, -, -, e⟩ := Model.dependencyGraph_eq_error undefined
      cases e
    · cases e
    · cases e
  · obtain ⟨rfl, rfl⟩ := Fault.unsupportedSource.inj e
    obtain ⟨graph, -, breaks⟩ := Model.chosenCut_eq_ok.1 chosen
    exact ⟨c, chosen, a, ha, graph, Model.find?_of_edge graph (breaks.arcs a ha), rfl, unsupported⟩

/-- What is so of the sources of all cuts a resolver answers with is so of a source refused. -/
theorem exists_refused {P : (n : Nat) → Digraph n → Fin n → Prop}
    (answers : ∀ n (g : Digraph n), ∃ c : Cut n, resolver n g = some c.toArcSet ∧ c.Breaks g ∧ ∀ a ∈ c.arcs, P n g a.1)
    (run : removeLoops resolver validate w = .error (.unsupportedSource name role) v) :
    ∃ g x, w.model.RefusedAt name role g x ∧ P _ g.graph x := by
  obtain ⟨⟨g, chosenOne⟩, chosen, a, ha, refused⟩ := exists_arc_of_refused run
  obtain ⟨cut, answer, breaks, sources⟩ := answers _ g.graph
  have own : w.model.chosenCut resolver = .ok ⟨g, cut⟩ := Model.chosenCut_eq_ok.2 ⟨refused.graph, answer, breaks⟩
  cases chosen.symm.trans own
  exact ⟨g, a.1, refused, sources a ha⟩

end Edit

namespace Model

variable [Zero α] [One α] [Neg α]

/-- With the depth-first resolver a refused variable lies on a cycle, with the greedy one on
    a way from a cycle to a cycle. So a model whose cycles, or whose ways from cycle to cycle,
    only pass through variables that can be broken is never refused for a source. -/
theorem refused_between_cycles (w : Workspace α) (validate : Bool) (name : String) (role : Role) :
    (∀ v, Edit.removeLoops Resolver.depthFirst validate w = .error (.unsupportedSource name role) v →
      ∃ g x, w.model.RefusedAt name role g x ∧ g.graph.Walk x x) ∧
    (∀ v, Edit.removeLoops Resolver.greedy validate w = .error (.unsupportedSource name role) v →
      ∃ g x, w.model.RefusedAt name role g x ∧ g.graph.Between x) ∧
    (∀ g, w.model.dependencyGraph = .ok g →
      ((∀ x, g.graph.Walk x x → (g.vertex x).role.breakable) →
        ∀ v, Edit.removeLoops Resolver.depthFirst validate w ≠ .error (.unsupportedSource name role) v) ∧
      ((∀ x, g.graph.Between x → (g.vertex x).role.breakable) →
        ∀ v, Edit.removeLoops Resolver.greedy validate w ≠ .error (.unsupportedSource name role) v)) := by
  have depthFirst {v : Workspace α}
      (run : Edit.removeLoops Resolver.depthFirst validate w = .error (.unsupportedSource name role) v) :
      ∃ g x, w.model.RefusedAt name role g x ∧ g.graph.Walk x x := by
    refine Edit.exists_refused (P := fun _ g x => g.Walk x x) (fun n g => ?_) run
    refine ⟨g.depthFirstCut, rfl, g.depthFirstCut_resolves.toBreaks, fun a ha => ?_⟩
    obtain ⟨edge, back⟩ := Digraph.reaches_of_mem_depthFirstCut ha
    exact Relation.TransGen.head' edge back.reaches
  have greedy {v : Workspace α}
      (run : Edit.removeLoops Resolver.greedy validate w = .error (.unsupportedSource name role) v) :
      ∃ g x, w.model.RefusedAt name role g x ∧ g.graph.Between x := by
    refine Edit.exists_refused (P := fun _ g x => g.Between x) (fun n g => ?_) run
    exact ⟨g.greedyCut, rfl, g.greedyCut_resolves.toBreaks, fun a ha => Digraph.between_of_mem_greedyCut ha⟩
  refine ⟨fun v => depthFirst, fun v => greedy, fun g graph => ⟨fun breakable v run => ?_, fun breakable v run => ?_⟩⟩
  · obtain ⟨g', x, refused, cycle⟩ := depthFirst run
    obtain rfl : g = g' := Except.ok.inj (graph.symm.trans refused.graph)
    exact refused.unbreakable (breakable x cycle)
  · obtain ⟨g', x, refused, between⟩ := greedy run
    obtain rfl : g = g' := Except.ok.inj (graph.symm.trans refused.graph)
    exact refused.unbreakable (breakable x between)

/-- The loop of `a` and `b` leads through the state `x` and through `t` to that of `c` and
    `d`; what `a` needs is left open. -/
def bridged (needs : List String) : Model Int where
  name := "bridged"
  symbols := [
    { name := "t", domain := .real, role := .continuous, index := some 0 },
    { name := "a", domain := .real, role := .continuous, index := some 1 },
    { name := "b", domain := .real, role := .continuous, index := some 2 },
    { name := "x", domain := .real, role := .state, index := some 0 },
    { name := "c", domain := .real, role := .continuous, index := some 3 },
    { name := "d", domain := .real, role := .continuous, index := some 4 }]
  rows := { ineq := [
    { defines := "a", depends := needs }, { defines := "b", depends := ["a"] }, { defines := "x", depends := ["b"] },
    { defines := "t", depends := ["x"] }, { defines := "c", depends := ["t", "d"] },
    { defines := "d", depends := ["t", "c"] }] }
  blocks := .ofFn fun b => match b with
    | ⟨.ineq, .continuous⟩ =>
      ⟨5, [[0, 1, -2, 0, 0], [0, -1, 3, 0, 0], [0, 0, 1, 0, 0], [1, 0, 0, 0, 0], [-1, 0, 0, 1, -2], [-1, 0, 0, -1, 3]],
        by decide⟩
    | ⟨.ineq, .state⟩ => ⟨1, [[0], [0], [1], [1], [0], [0]], by decide⟩
    | ⟨.ineq, .affine⟩ => .zero 6 1
    | ⟨.ineq, _⟩ => .zero 6 0
    | ⟨.update, .continuous⟩ => .zero 1 5
    | ⟨.update, .state⟩ => .zero 1 1
    | ⟨.update, .affine⟩ => .zero 1 1
    | ⟨.update, _⟩ => .zero 1 0
    | ⟨.output, .continuous⟩ => .zero 0 5
    | ⟨.output, .state⟩ => .zero 0 1
    | ⟨.output, .affine⟩ => .zero 0 1
    | ⟨.output, _⟩ => .zero 0 0

/-- The state is on the way between the two loops and is refused with the greedy resolver; it
    is refused with the depth-first one when `a` needs it too, and not otherwise. -/
theorem refused_between_cycles_bridged :
    (∃ v g x, Edit.removeLoops Resolver.depthFirst true ⟨bridged ["b", "x"], [], []⟩ =
      .error (.unsupportedSource "x" .state) v ∧ (bridged ["b", "x"]).RefusedAt "x" .state g x ∧ g.graph.Walk x x) ∧
    (∃ v g x, Edit.removeLoops Resolver.greedy true ⟨bridged ["b"], [], []⟩ =
      .error (.unsupportedSource "x" .state) v ∧ (bridged ["b"]).RefusedAt "x" .state g x ∧ g.graph.Between x) ∧
    (∀ v, Edit.removeLoops Resolver.depthFirst true ⟨bridged ["b"], [], []⟩ ≠ .error (.unsupportedSource "x" .state) v) ∧
    ∀ v, Edit.removeLoops Resolver.greedy true ⟨doubled, [], []⟩ ≠ .error (.unsupportedSource "z" .continuous) v := by
  have onCycle : (Edit.removeLoops Resolver.depthFirst true).fault? ⟨bridged ["b", "x"], [], []⟩ =
      some (.unsupportedSource "x" .state) := by decide +kernel
  have offCycle : (Edit.removeLoops Resolver.greedy true).fault? ⟨bridged ["b"], [], []⟩ =
      some (.unsupportedSource "x" .state) := by decide +kernel
  have cycles : (bridged ["b"]).dependencyGraph.toOption.any fun g =>
      decide (∀ x, g.graph.Walk x x → (g.vertex x).role.breakable) := by decide +kernel
  have all : doubled.dependencyGraph.toOption.any fun g => decide (∀ x, (g.vertex x).role.breakable) := by
    decide +kernel
  obtain ⟨v₁, run₁⟩ := Edit.exists_of_fault? onCycle
  obtain ⟨v₂, run₂⟩ := Edit.exists_of_fault? offCycle
  obtain ⟨g₃, graph₃, cycles⟩ := exists_of_dependencyGraph cycles
  obtain ⟨g₄, graph₄, all⟩ := exists_of_dependencyGraph all
  obtain ⟨g₁, x₁, refused₁, cycle⟩ :=
    (refused_between_cycles ⟨bridged ["b", "x"], [], []⟩ true "x" .state).1 v₁ run₁
  obtain ⟨-, greedy, spared⟩ := refused_between_cycles ⟨bridged ["b"], [], []⟩ true "x" .state
  obtain ⟨g₂, x₂, refused₂, between⟩ := greedy v₂ run₂
  obtain ⟨-, -, free⟩ := refused_between_cycles ⟨doubled, [], []⟩ true "z" .continuous
  exact ⟨⟨v₁, g₁, x₁, run₁, refused₁, cycle⟩, ⟨v₂, g₂, x₂, run₂, refused₂, between⟩,
    (spared g₃ graph₃).1 (of_decide_eq_true cycles), (free g₄ graph₄).2 fun x _ => of_decide_eq_true all x⟩

/-- The model is valid and both its loops can be broken, but with the greedy resolver the
    state between them is refused, which lies on no cycle. -/
theorem exists_refused_off_cycle : ((bridged ["b"]).validate {}).isValid ∧ ∃ v g x,
    Edit.removeLoops Resolver.greedy true ⟨bridged ["b"], [], []⟩ = .error (.unsupportedSource "x" .state) v ∧
    (bridged ["b"]).dependencyGraph = .ok g ∧ g.find? "x" = some x ∧ ¬g.graph.Walk x x ∧
    ∀ u, g.graph.Walk u u → (g.vertex u).role.breakable := by
  have stops : (Edit.removeLoops Resolver.greedy true).fault? ⟨bridged ["b"], [], []⟩ =
      some (.unsupportedSource "x" .state) := by decide +kernel
  have graph : (bridged ["b"]).dependencyGraph.toOption.any fun g => decide (∃ x, g.find? "x" = some x ∧
      ¬g.graph.Walk x x ∧ ∀ u, g.graph.Walk u u → (g.vertex u).role.breakable) := by decide +kernel
  obtain ⟨v, run⟩ := Edit.exists_of_fault? stops
  obtain ⟨g, built, off⟩ := exists_of_dependencyGraph graph
  obtain ⟨x, named, off, breakable⟩ := of_decide_eq_true off
  exact ⟨by decide +kernel, v, g, x, run, built, named, off, breakable⟩

end Model
end LoopFree
