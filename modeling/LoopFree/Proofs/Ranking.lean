/-
  LoopFree.Proofs.Ranking — the ranks a cut gives.

  Ranking a vertex looks its name up, so it can only succeed in a model that has no other
  symbol of that name (`Singular`). Nothing more is needed to say what the ranks are: every
  variable is a vertex and gets its position in the order, counted from 1
  (`Singular.exists_vertex`), and every other symbol keeps its rank
  (`Singular.rankIn_of_constant`). No symbol is left without a rank
  (`Singular.hasLoop_ranked`).
-/

import LoopFree.Proofs.Stages

namespace LoopFree.Model

variable {α : Type} {m : Model α} {g : VariableGraph} {resolver : Resolver} {c : VariableCut} {s t : Symbol}

/-- Every vertex is the only symbol of its name. -/
def Singular (m : Model α) (g : VariableGraph) : Prop := ∀ v, ∃ s, m.find (g.vertex v).name = [s]

theorem find_eq_of_names (names : (m.symbols.map (·.name)).Nodup) (hs : s ∈ m.symbols) : m.find s.name = [s] := by
  have only : m.find s.name = m.symbols.filter fun x => x = s := by
    refine List.filter_congr fun x hx => ?_
    rw [decide_eq_decide]
    constructor
    · exact List.inj_on_of_nodup_map names hx hs
    · exact congrArg Symbol.name
  rw [only, List.filter_eq, List.count_eq_one_of_mem (List.Nodup.of_map _ names) hs]
  rfl

theorem singular_of_names (names : (m.symbols.map (·.name)).Nodup) (graph : m.dependencyGraph = .ok g) :
    m.Singular g := by
  intro v
  obtain ⟨s, hs, -, name, -⟩ := exists_symbol graph v
  exact ⟨s, name ▸ find_eq_of_names names hs⟩

namespace Singular

variable (single : m.Singular g)
include single

theorem eq_of_name {v : Fin g.vertices.length} (hs : s ∈ m.symbols) (ht : t ∈ m.symbols)
    (name : s.name = (g.vertex v).name) (name' : t.name = (g.vertex v).name) : s = t := by
  obtain ⟨x, only⟩ := single v
  have found {y : Symbol} (hy : y ∈ m.symbols) (named : y.name = (g.vertex v).name) : y = x := by
    have mem : y ∈ m.find (g.vertex v).name := List.mem_filter.2 ⟨hy, decide_eq_true named⟩
    rwa [only, List.mem_singleton] at mem
  rw [found hs name, found ht name']

theorem nodup_vertices (graph : m.dependencyGraph = .ok g) : (g.vertices.map (·.name)).Nodup := by
  refine List.nodup_iff_count_le_one.2 fun name => ?_
  by_cases known : m.HasVariable name
  · obtain ⟨v, named⟩ := known.exists_vertex graph
    obtain ⟨s, only⟩ := single v
    rw [named] at only
    obtain ⟨rfl, -⟩ := dependencyGraph_eq_ok graph
    have fewer : (m.vertices.map (·.name)).Sublist (m.symbols.map (·.name)) := by
      rw [vertices, List.map_map]
      exact List.filter_sublist.map _
    calc (m.vertices.map (·.name)).count name
        ≤ (m.symbols.map (·.name)).count name := fewer.count_le name
      _ = (m.find name).length := by
        rw [List.count, List.countP_map, List.countP_eq_length_filter]
        rfl
      _ = 1 := by rw [only, List.length_singleton]
  · obtain ⟨rfl, -⟩ := dependencyGraph_eq_ok graph
    have none : name ∉ m.vertices.map (·.name) := fun mem => known (hasVariable_iff.2 (List.mem_map.1 mem))
    rw [List.count_eq_zero.2 none]
    omega

end Singular

/-! ## The ranks of a chosen cut -/

namespace Singular

variable (single : m.Singular c.graph) (chosen : m.chosenCut resolver = .ok c)
include single chosen

/-- A vertex is ranked by its position in the order. -/
theorem rankIn_of_vertex {v : Fin c.graph.vertices.length} (name : s.name = c.name v) :
    rankIn c.graph c.cut.order s = c.cut.order.idxOf v + 1 := by
  obtain ⟨graph, -, breaks⟩ := chosenCut_eq_ok.1 chosen
  have unique (u v : Fin c.graph.vertices.length) (e : (c.graph.vertex u).name = (c.graph.vertex v).name) : u = v :=
    eq_of_nodup_names (single.nodup_vertices graph) e
  exact rankIn_of_getElem? unique breaks.nodup (breaks.getElem?_idxOf v) name

theorem exists_vertex (hs : s ∈ m.symbols) (ranked : s.isVariable) :
    ∃ v, c.name v = s.name ∧ rankIn c.graph c.cut.order s = c.cut.order.idxOf v + 1 := by
  obtain ⟨v, name⟩ := HasVariable.exists_vertex (chosenCut_eq_ok.1 chosen).1 ⟨s, hs, ranked, rfl⟩
  exact ⟨v, name, single.rankIn_of_vertex chosen name.symm⟩

/-- A symbol that is no variable keeps its rank. -/
theorem rankIn_of_constant (hs : s ∈ m.symbols) (constant : ¬s.isVariable) :
    rankIn c.graph c.cut.order s = s.rank := by
  refine rankIn_of_forall_ne fun v _ name => ?_
  obtain ⟨x, hx, ranked, name', -⟩ := exists_symbol (chosenCut_eq_ok.1 chosen).1 v
  exact constant (single.eq_of_name hx hs name' name ▸ ranked)

theorem hasLoop_ranked : (m.ranked c).hasLoop = false := by
  refine List.any_eq_false.2 fun x hx => ?_
  obtain ⟨s, hs, rfl⟩ := List.mem_map.1 hx
  rw [decide_eq_true_eq]
  by_cases ranked : s.isVariable
  · obtain ⟨v, -, rank⟩ := single.exists_vertex chosen hs ranked
    show rankIn c.graph c.cut.order s ≠ 0
    omega
  · have negative : s.rank < 0 := by simpa [Symbol.isVariable] using ranked
    show rankIn c.graph c.cut.order s ≠ 0
    rw [single.rankIn_of_constant chosen hs ranked]
    omega

end Singular
end LoopFree.Model
