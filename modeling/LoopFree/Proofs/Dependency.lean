/-
  LoopFree.Proofs.Dependency — the dependency graph in terms of names.

  `Draws` says of two names what an edge says of two vertices: some row defines the one
  and needs the other, which is a variable. When no two symbols share a name, the edges
  of the graph are exactly these (`edge_iff_draws`) and its cycles are theirs
  (`acyclic_iff_draws`). There is a graph when every defining row defines a variable
  (`exists_dependencyGraph_iff`).
-/

import LoopFree.Dependency
import LoopFree.Proofs.Consistency
import LoopFree.Proofs.Walk
import Mathlib.Data.List.FinRange

namespace LoopFree

variable {α : Type}

theorem name_of_vertexNamed? {vertices : List Vertex} {name : String} {v : Fin vertices.length}
    (h : vertexNamed? vertices name = some v) : (vertices.get v).name = name := by
  simpa using List.find?_some h

/-- Of the vertices of a name the last is meant. -/
theorem vertexNamed?_eq_some_iff {vertices : List Vertex} {name : String} {v : Fin vertices.length} :
    vertexNamed? vertices name = some v ↔
      (vertices.get v).name = name ∧ ∀ w, (vertices.get w).name = name → w ≤ v := by
  have last {v : Fin vertices.length} (found : vertexNamed? vertices name = some v) (w : Fin vertices.length)
      (named : (vertices.get w).name = name) : w ≤ v := by
    obtain ⟨-, before, after, order, none⟩ := List.find?_eq_some_iff_append.1 found
    have descending : (before ++ v :: after).Pairwise (· > ·) := by
      rw [← order, List.pairwise_reverse]
      exact List.pairwise_lt_finRange _
    have listed : w ∈ before ++ v :: after := by
      rw [← order]
      exact List.mem_reverse.2 (List.mem_finRange w)
    rcases List.mem_append.1 listed with hw | hw
    · have other := none w hw
      simp [← named] at other
    · rcases List.mem_cons.1 hw with rfl | hw
      · exact Nat.le_refl _
      · exact Nat.le_of_lt ((List.pairwise_cons.1 (List.pairwise_append.1 descending).2.1).1 w hw)
  constructor
  · exact fun found => ⟨name_of_vertexNamed? found, last found⟩
  · intro given
    obtain ⟨named, latest⟩ := given
    cases found : vertexNamed? vertices name with
    | none => exact absurd named (by simpa using List.find?_eq_none.1 found v (by simp))
    | some u => rw [Fin.le_antisymm (latest u (name_of_vertexNamed? found)) (last found v named)]

theorem vertexNamed?_eq_some {vertices : List Vertex} (nodup : (vertices.map (·.name)).Nodup) {name : String}
    {v : Fin vertices.length} : vertexNamed? vertices name = some v ↔ (vertices.get v).name = name := by
  have unique (u v : Fin vertices.length) (e : (vertices.get u).name = (vertices.get v).name) : u = v := by
    have place (u : Fin vertices.length) : (vertices.map (·.name))[(u : Nat)]? = some (vertices.get u).name := by simp
    refine Fin.ext ((List.getElem?_inj (by simp) nodup).1 ?_)
    rw [place, place, e]
  rw [vertexNamed?_eq_some_iff]
  exact ⟨And.left, fun named => ⟨named, fun w e => Nat.le_of_eq (congrArg Fin.val (unique w v (e.trans named.symm)))⟩⟩

theorem eq_of_nodup_names {g : VariableGraph} (nodup : (g.vertices.map (·.name)).Nodup) {u v : Fin g.vertices.length}
    (e : (g.vertex u).name = (g.vertex v).name) : u = v := by
  have known := (vertexNamed?_eq_some nodup (v := u)).2 e
  exact Option.some.inj (known.symm.trans ((vertexNamed?_eq_some nodup (v := v)).2 rfl))

/-- No later vertex has the name. -/
def VariableGraph.LastNamed (g : VariableGraph) (v : Fin g.vertices.length) : Prop :=
  ∀ w, (g.vertex w).name = (g.vertex v).name → w ≤ v

theorem VariableGraph.find?_eq_some_iff {g : VariableGraph} {v : Fin g.vertices.length} :
    g.find? (g.vertex v).name = some v ↔ g.LastNamed v :=
  vertexNamed?_eq_some_iff.trans (and_iff_right rfl)

namespace Model

variable {m : Model α} {g : VariableGraph}

def HasVariable (m : Model α) (name : String) : Prop := ∃ s ∈ m.symbols, s.isVariable ∧ s.name = name

/-- Some row that defines `sink` needs `source`. -/
def DrawsIn (rows : List Row) (source sink : String) : Prop :=
  ∃ row ∈ rows, row.defines = sink ∧ source ∈ row.depends

/-- The rows that define a variable. -/
def definingRows (m : Model α) : List Row := m.rows.ineq.filter (·.definesVariable) ++ m.rows.output

/-- The variable `source` has to be computed before `sink`. -/
def Draws (m : Model α) (source sink : String) : Prop := m.HasVariable source ∧ DrawsIn m.definingRows source sink

theorem map_row_definitions (m : Model α) : m.definitions.map (·.row) = m.definingRows := by
  simp only [definitions, definingRows, List.map_append, List.filter_map, List.map_map]
  congr 1
  · calc ((m.rows.ineq.zipIdx.filter fun x => x.1.definesVariable).map fun x => x.1)
        = (m.rows.ineq.zipIdx.map (·.1)).filter (·.definesVariable) := by rw [List.filter_map]; rfl
      _ = m.rows.ineq.filter (·.definesVariable) := by rw [List.zipIdx_map_fst]
  · exact List.zipIdx_map_fst 0 m.rows.output

theorem mem_definingRows {row : Row} :
    row ∈ m.definingRows ↔ (row ∈ m.rows.ineq ∧ row.definesVariable) ∨ row ∈ m.rows.output := by
  simp [definingRows]

theorem hasVariable_iff {name : String} : m.HasVariable name ↔ ∃ x ∈ m.vertices, x.name = name := by
  simp [HasVariable, vertices, and_assoc]

theorem isSome_vertexNamed?_iff {name : String} : (vertexNamed? m.vertices name).isSome ↔ m.HasVariable name := by
  rw [hasVariable_iff, vertexNamed?, List.find?_isSome]
  simp only [List.mem_reverse, List.mem_finRange, true_and, decide_eq_true_eq]
  constructor
  · intro given
    obtain ⟨v, e⟩ := given
    exact ⟨_, List.getElem_mem v.isLt, e⟩
  · intro given
    obtain ⟨x, hx, e⟩ := given
    obtain ⟨i, hi, rfl⟩ := List.getElem_of_mem hx
    exact ⟨⟨i, hi⟩, e⟩

theorem vertexNamed?_isNone_iff {name : String} : (vertexNamed? m.vertices name).isNone ↔ ¬m.HasVariable name := by
  simp [← isSome_vertexNamed?_iff]

theorem dependencyGraph_eq_ok (h : m.dependencyGraph = .ok g) :
    g = ⟨m.vertices, .ofEdges (m.definitions.flatMap fun d => edgesOf m.vertices d.row)⟩ ∧
      ∀ row ∈ m.definingRows, m.HasVariable row.defines := by
  unfold dependencyGraph at h
  split at h
  · cases h
  · rename_i all
    refine ⟨(Except.ok.inj h).symm, fun row hrow => ?_⟩
    obtain ⟨d, hd, rfl⟩ := List.mem_map.1 (m.map_row_definitions ▸ hrow)
    have known := List.find?_eq_none.1 all d hd
    rwa [vertexNamed?_isNone_iff, not_not] at known

/-- There is a graph when every defining row defines a variable. -/
theorem exists_dependencyGraph_iff :
    (∃ g, m.dependencyGraph = .ok g) ↔ ∀ row ∈ m.definingRows, m.HasVariable row.defines := by
  constructor
  · intro given
    obtain ⟨g, h⟩ := given
    exact (dependencyGraph_eq_ok h).2
  · intro defined
    have none : m.definitions.find? (fun d => (vertexNamed? m.vertices d.row.defines).isNone) = none := by
      refine List.find?_eq_none.2 fun d hd => ?_
      rw [vertexNamed?_isNone_iff, not_not]
      exact defined d.row (m.map_row_definitions ▸ List.mem_map_of_mem hd)
    exact ⟨_, by rw [dependencyGraph, none]⟩

theorem exists_of_dependencyGraph {test : VariableGraph → Bool} (h : m.dependencyGraph.toOption.any test) :
    ∃ g, m.dependencyGraph = .ok g ∧ test g := by
  cases built : m.dependencyGraph with
  | error f => simp [built, Except.toOption] at h
  | ok g => exact ⟨g, rfl, by simpa [built, Except.toOption] using h⟩

/-- There is none because of a defining row whose name is no variable; the fault says which. -/
theorem dependencyGraph_eq_error_iff_find? {f : Fault} : m.dependencyGraph = .error f ↔
    ∃ d, (m.definitions.find? fun d => (vertexNamed? m.vertices d.row.defines).isNone) = some d ∧
      f = .undefinedVariable d.row.defines d.table d.position := by
  unfold dependencyGraph
  split
  · rename_i d found
    simp [found, eq_comm]
  · rename_i none
    simp [none]

theorem dependencyGraph_eq_error {f : Fault} (h : m.dependencyGraph = .error f) :
    ∃ d ∈ m.definitions, ¬m.HasVariable d.row.defines ∧ f = .undefinedVariable d.row.defines d.table d.position := by
  obtain ⟨d, found, named⟩ := dependencyGraph_eq_error_iff_find?.1 h
  have unknown : (vertexNamed? m.vertices d.row.defines).isNone := by simpa using List.find?_some found
  exact ⟨d, List.mem_of_find?_eq_some found, vertexNamed?_isNone_iff.1 unknown, named⟩

/-- A vertex stands for a variable of the symbol table. -/
theorem exists_symbol (h : m.dependencyGraph = .ok g) (u : Fin g.vertices.length) :
    ∃ s ∈ m.symbols, s.isVariable ∧ s.name = (g.vertex u).name ∧ s.role = (g.vertex u).role := by
  obtain ⟨rfl, -⟩ := dependencyGraph_eq_ok h
  have mem : (VariableGraph.vertex _ u) ∈ m.vertices := List.getElem_mem u.isLt
  obtain ⟨s, hs, e⟩ := List.mem_map.1 mem
  obtain ⟨hs, variable_⟩ := List.mem_filter.1 hs
  rw [← e]
  exact ⟨s, hs, variable_, rfl, rfl⟩

theorem HasVariable.exists_vertex (h : m.dependencyGraph = .ok g) {name : String} (known : m.HasVariable name) :
    ∃ v, (g.vertex v).name = name := by
  obtain ⟨rfl, -⟩ := dependencyGraph_eq_ok h
  obtain ⟨x, hx, e⟩ := hasVariable_iff.1 known
  obtain ⟨i, hi, rfl⟩ := List.getElem_of_mem hx
  exact ⟨⟨i, hi⟩, e⟩

/-- What is drawn leads to a vertex. -/
theorem Draws.exists_sink (h : m.dependencyGraph = .ok g) {source sink : String} (draws : m.Draws source sink) :
    ∃ v, (g.vertex v).name = sink := by
  obtain ⟨-, row, hrow, rfl, -⟩ := draws
  exact ((dependencyGraph_eq_ok h).2 row hrow).exists_vertex h

theorem mem_edgesOf {vertices : List Vertex} {row : Row} {u v : Fin vertices.length} :
    (u, v) ∈ edgesOf vertices row ↔
      vertexNamed? vertices row.defines = some v ∧ ∃ name ∈ row.depends, vertexNamed? vertices name = some u := by
  unfold edgesOf
  cases vertexNamed? vertices row.defines with
  | none => simp
  | some sink =>
    simp only [List.mem_map, List.mem_filterMap, Prod.mk.injEq, Option.some.injEq]
    constructor
    · intro given
      obtain ⟨_, needed, rfl, rfl⟩ := given
      exact ⟨rfl, needed⟩
    · intro given
      obtain ⟨rfl, needed⟩ := given
      exact ⟨u, needed, rfl, rfl⟩

/-- An edge leads between the last vertices of two names, the one of which a row defines and
    the other it needs. -/
theorem edge_iff (h : m.dependencyGraph = .ok g) {u v : Fin g.vertices.length} : g.graph.edge u v ↔
    g.LastNamed u ∧ g.LastNamed v ∧ DrawsIn m.definingRows (g.vertex u).name (g.vertex v).name := by
  obtain ⟨rfl, -⟩ := dependencyGraph_eq_ok h
  rw [Digraph.edge_ofEdges, List.mem_flatMap]
  simp only [mem_edgesOf, DrawsIn, ← map_row_definitions, List.mem_map]
  constructor
  · intro given
    obtain ⟨d, hd, sink, name, needed, source⟩ := given
    obtain ⟨defines, latest⟩ := vertexNamed?_eq_some_iff.1 sink
    obtain ⟨rfl, latest'⟩ := vertexNamed?_eq_some_iff.1 source
    exact ⟨latest', fun w e => latest w (e.trans defines), d.row, ⟨d, hd, rfl⟩, defines.symm, needed⟩
  · intro given
    obtain ⟨source, sink, row, ⟨d, hd, rfl⟩, defines, needed⟩ := given
    refine ⟨d, hd, ?_, _, needed, VariableGraph.find?_eq_some_iff.2 source⟩
    rw [defines]
    exact VariableGraph.find?_eq_some_iff.2 sink

/-! ## When no two symbols share a name -/

section
variable (names : (m.symbols.map (·.name)).Nodup) (h : m.dependencyGraph = .ok g)
include names h

theorem nodup_vertices : (g.vertices.map (·.name)).Nodup := by
  obtain ⟨rfl, -⟩ := dependencyGraph_eq_ok h
  rw [vertices, List.map_map]
  exact names.sublist (List.filter_sublist.map _)

theorem vertex_inj {u v : Fin g.vertices.length} (e : (g.vertex u).name = (g.vertex v).name) : u = v :=
  eq_of_nodup_names (nodup_vertices names h) e

theorem edge_iff_draws {u v : Fin g.vertices.length} :
    g.graph.edge u v ↔ m.Draws (g.vertex u).name (g.vertex v).name := by
  have last (v : Fin g.vertices.length) : g.LastNamed v := fun w e =>
    Nat.le_of_eq (congrArg Fin.val (vertex_inj names h e))
  obtain ⟨s, hs, variable_, name, -⟩ := exists_symbol h u
  have known : m.HasVariable (g.vertex u).name := ⟨s, hs, variable_, name⟩
  rw [edge_iff h, Draws, and_iff_right (last u), and_iff_right (last v), and_iff_right known]

/-- What is drawn from a vertex leads to a vertex. -/
theorem exists_walk {u : Fin g.vertices.length} {sink : String}
    (drawn : Relation.TransGen m.Draws (g.vertex u).name sink) : ∃ v, (g.vertex v).name = sink ∧ g.graph.Walk u v := by
  induction drawn with
  | single draws =>
    obtain ⟨v, rfl⟩ := draws.exists_sink h
    exact ⟨v, rfl, .single ((edge_iff_draws names h).2 draws)⟩
  | tail _ draws ih =>
    obtain ⟨x, rfl, before⟩ := ih
    obtain ⟨v, rfl⟩ := draws.exists_sink h
    exact ⟨v, rfl, before.tail ((edge_iff_draws names h).2 draws)⟩

/-- The graph has a cycle where the names have one. -/
theorem acyclic_iff_draws : g.graph.Acyclic ↔ ∀ name, ¬Relation.TransGen m.Draws name name := by
  refine ⟨fun acyclic name drawn => ?_, fun free v walk => ?_⟩
  · obtain ⟨b, draws, -⟩ := Relation.TransGen.head'_iff.1 drawn
    obtain ⟨v, rfl⟩ := draws.1.exists_vertex h
    obtain ⟨u, same, walk⟩ := exists_walk names h drawn
    rw [vertex_inj names h same] at walk
    exact acyclic v walk
  · refine free (g.vertex v).name ?_
    exact walk.lift (fun v => (g.vertex v).name) fun _ _ edge => (edge_iff_draws names h).1 edge

end
end Model
end LoopFree
