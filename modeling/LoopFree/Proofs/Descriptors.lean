/-
  LoopFree.Proofs.Descriptors — the dependency graph is what the descriptors say.

  There is no graph exactly when some defining row names no variable, and the fault names
  the first such row, inequality rows before output rows (`dependencyGraph_eq_error_iff`).
  Otherwise an edge says that a defining row names its end and needs its start, each name
  standing for the last vertex that has it (`edge_iff`). When no two symbols share a name,
  the named edges are what the rows draw, whatever the order of symbols and rows
  (`Reordered.namedEdges_perm`). `dependencyGraph_described` puts the three together.
-/

import LoopFree.Proofs.Cut
import LoopFree.Proofs.Dependency

namespace LoopFree.Model

variable {α : Type} {m m' : Model α} {g g' : VariableGraph} {d : Definition} {table : Table} {a b : String}

/-! ## The first row without a variable -/

/-- A row that defines something names no variable, and no such row stands before it. -/
inductive FirstUndefined (m : Model α) : Table → Nat → Row → Prop
  | ineq {r : Nat} {row : Row} : m.rows.ineq[r]? = some row → row.definesVariable → ¬m.HasVariable row.defines →
      (∀ i < r, ∀ x, m.rows.ineq[i]? = some x → x.definesVariable → m.HasVariable x.defines) →
      FirstUndefined m .ineq r row
  | output {r : Nat} {row : Row} : (∀ x ∈ m.rows.ineq, x.definesVariable → m.HasVariable x.defines) →
      m.rows.output[r]? = some row → ¬m.HasVariable row.defines →
      (∀ i < r, ∀ x, m.rows.output[i]? = some x → m.HasVariable x.defines) →
      FirstUndefined m .output r row

/-- The first row of a table that passes a test, with its place. -/
theorem find?_placed {rows : List Row} {p : Row → Bool} :
    ((rows.zipIdx.map fun (row, r) => (⟨table, r, row⟩ : Definition)).find? fun d => p d.row) = some d ↔
      d.table = table ∧ rows[d.position]? = some d.row ∧ p d.row ∧
        ∀ i < d.position, ∀ x, rows[i]? = some x → ¬p x := by
  rw [List.find?_eq_some_iff_getElem]
  constructor
  · intro given
    obtain ⟨passes, r, hr, rfl, none⟩ := given
    rw [List.length_map, List.length_zipIdx] at hr
    simp only [List.getElem_map, List.getElem_zipIdx, Nat.zero_add] at passes none ⊢
    refine ⟨trivial, List.getElem?_eq_getElem hr, passes, fun i hi x hx => ?_⟩
    obtain ⟨-, rfl⟩ := List.getElem?_eq_some_iff.1 hx
    simpa using none i hi
  · intro given
    obtain ⟨rfl, place, passes, none⟩ := given
    obtain ⟨hr, e⟩ := List.getElem?_eq_some_iff.1 place
    refine ⟨passes, d.position, by simpa using hr, ?_, fun i hi => ?_⟩
    · simp [e]
    · simpa using none i hi _ (List.getElem?_eq_getElem (Nat.lt_trans hi hr))

theorem find?_placed_eq_none {rows : List Row} {p : Row → Bool} :
    ((rows.zipIdx.map fun (row, r) => (⟨table, r, row⟩ : Definition)).find? fun d => p d.row) = none ↔
      ∀ x ∈ rows, ¬p x := by
  have all : (rows.zipIdx.map fun (row, r) => (⟨table, r, row⟩ : Definition)).map (·.row) = rows := by
    rw [List.map_map]
    exact List.zipIdx_map_fst 0 rows
  conv_rhs => rw [← all]
  simp only [List.find?_eq_none, List.forall_mem_map]

theorem firstUndefined_iff : m.FirstUndefined d.table d.position d.row ↔
    (m.definitions.find? fun d => (vertexNamed? m.vertices d.row.defines).isNone) = some d := by
  rw [definitions, List.find?_append, Option.or_eq_some_iff, List.find?_filter,
    find?_placed (p := fun row => decide (row.definesVariable ∧ (vertexNamed? m.vertices row.defines).isNone)),
    find?_placed_eq_none (p := fun row => decide (row.definesVariable ∧ (vertexNamed? m.vertices row.defines).isNone)),
    find?_placed (p := fun row => (vertexNamed? m.vertices row.defines).isNone)]
  simp only [decide_eq_true_eq, vertexNamed?_isNone_iff, not_and, not_not]
  obtain ⟨table, r, row⟩ := d
  constructor
  · intro first
    cases first with
    | ineq place defines unknown before => exact .inl ⟨rfl, place, ⟨defines, unknown⟩, before⟩
    | output ineq place unknown before => exact .inr ⟨ineq, rfl, place, unknown, before⟩
  · intro given
    obtain ⟨rfl, place, ⟨defines, unknown⟩, before⟩ | ⟨ineq, rfl, place, unknown, before⟩ := given
    · exact .ineq place defines unknown before
    · exact .output ineq place unknown before

theorem dependencyGraph_eq_error_iff {f : Fault} : m.dependencyGraph = .error f ↔
    ∃ table r row, m.FirstUndefined table r row ∧ f = .undefinedVariable row.defines table r := by
  rw [dependencyGraph_eq_error_iff_find?]
  constructor
  · intro given
    obtain ⟨d, found, named⟩ := given
    exact ⟨d.table, d.position, d.row, firstUndefined_iff.2 found, named⟩
  · intro given
    obtain ⟨table, r, row, first, named⟩ := given
    exact ⟨⟨table, r, row⟩, firstUndefined_iff.1 first, named⟩

theorem exists_error_iff :
    (∃ f, m.dependencyGraph = .error f) ↔ ∃ row ∈ m.definingRows, ¬m.HasVariable row.defines := by
  have graph := m.exists_dependencyGraph_iff
  cases built : m.dependencyGraph with
  | error f => simpa [built] using graph
  | ok g => simpa [built] using graph

/-! ## Other orders of symbols and rows -/

/-- The same symbols and defining rows, each table in an order of its own. -/
structure Reordered (m m' : Model α) : Prop where
  symbols : m.symbols.Perm m'.symbols
  ineq : m.rows.ineq.Perm m'.rows.ineq
  output : m.rows.output.Perm m'.rows.output

namespace Reordered

variable (order : m.Reordered m')
include order

theorem hasVariable_iff : m'.HasVariable a ↔ m.HasVariable a := by
  simp only [HasVariable, order.symbols.mem_iff]

theorem definingRows : m.definingRows.Perm m'.definingRows := (order.ineq.filter _).append order.output

theorem draws_iff : m'.Draws a b ↔ m.Draws a b := by
  simp only [Draws, DrawsIn, order.hasVariable_iff, order.definingRows.mem_iff]

theorem nodup_names (names : (m.symbols.map (·.name)).Nodup) : (m'.symbols.map (·.name)).Nodup :=
  (order.symbols.map _).nodup_iff.1 names

theorem exists_dependencyGraph_iff : (∃ g, m.dependencyGraph = .ok g) ↔ ∃ g, m'.dependencyGraph = .ok g := by
  simp only [Model.exists_dependencyGraph_iff, order.hasVariable_iff, order.definingRows.mem_iff]

end Reordered

section
variable (names : (m.symbols.map (·.name)).Nodup) (h : m.dependencyGraph = .ok g)
include names h

theorem nodup_namedEdges : g.namedEdges.Nodup := by
  refine List.Nodup.map_on (fun x _ y _ e => ?_) g.graph.nodup_edges
  obtain ⟨source, sink⟩ := Prod.mk.inj e
  exact Prod.ext (vertex_inj names h source) (vertex_inj names h sink)

theorem mem_namedEdges : (a, b) ∈ g.namedEdges ↔ m.Draws a b := by
  rw [VariableGraph.namedEdges, List.mem_map]
  constructor
  · intro given
    obtain ⟨⟨u, v⟩, edge, e⟩ := given
    obtain ⟨rfl, rfl⟩ := Prod.mk.inj e
    exact (edge_iff_draws names h).1 (Digraph.mem_edges.1 edge)
  · intro draws
    obtain ⟨u, rfl⟩ := draws.1.exists_vertex h
    obtain ⟨v, rfl⟩ := draws.exists_sink h
    exact ⟨(u, v), Digraph.mem_edges.2 ((edge_iff_draws names h).2 draws), rfl⟩

end

theorem Reordered.namedEdges_perm (order : m.Reordered m') (names : (m.symbols.map (·.name)).Nodup)
    (h : m.dependencyGraph = .ok g) (h' : m'.dependencyGraph = .ok g') : g'.namedEdges.Perm g.namedEdges := by
  refine (List.perm_ext_iff_of_nodup (nodup_namedEdges (order.nodup_names names) h') (nodup_namedEdges names h)).2 ?_
  intro edge
  rw [mem_namedEdges (order.nodup_names names) h', mem_namedEdges names h, order.draws_iff]

/-! ## All of it -/

/-- There is no graph when a row that defines something names no variable, and the first such row
    is reported. The vertices of a graph are the variables in the order of the table; an edge
    leads from the last vertex of a name that a row needs to the last vertex of the name it
    defines. With distinct names neither the order of the symbols nor that of the rows of a
    table says anything about the named edges. -/
theorem dependencyGraph_described (m : Model α) :
    (∀ f, m.dependencyGraph = .error f ↔
      ∃ table r row, m.FirstUndefined table r row ∧ f = .undefinedVariable row.defines table r) ∧
    ((∃ f, m.dependencyGraph = .error f) ↔
      ∃ row, ((row ∈ m.rows.ineq ∧ row.tag ≠ .must) ∨ row ∈ m.rows.output) ∧ ¬m.HasVariable row.defines) ∧
    (∀ g, m.dependencyGraph = .ok g →
      g.vertices = (m.symbols.filter fun s => 0 ≤ s.rank).map (fun s => ⟨s.name, s.domain, s.role⟩) ∧
      ∀ u v, g.graph.edge u v ↔ g.LastNamed u ∧ g.LastNamed v ∧
        ∃ row, ((row ∈ m.rows.ineq ∧ row.tag ≠ .must) ∨ row ∈ m.rows.output) ∧
          row.defines = (g.vertex v).name ∧ (g.vertex u).name ∈ row.depends) ∧
    ((m.symbols.map (·.name)).Nodup → ∀ m', m.Reordered m' →
      ((∃ g, m.dependencyGraph = .ok g) ↔ ∃ g', m'.dependencyGraph = .ok g') ∧
      ∀ g g', m.dependencyGraph = .ok g → m'.dependencyGraph = .ok g' → g'.namedEdges.Perm g.namedEdges) := by
  have rows (row : Row) : row ∈ m.definingRows ↔ (row ∈ m.rows.ineq ∧ row.tag ≠ .must) ∨ row ∈ m.rows.output := by
    simp [mem_definingRows, Row.definesVariable, RowTag.definesVariable]
  refine ⟨fun f => dependencyGraph_eq_error_iff, ?_, fun g h => ⟨?_, fun u v => ?_⟩, fun names m' order => ⟨?_, ?_⟩⟩
  · simp only [exists_error_iff, rows]
  · rw [(dependencyGraph_eq_ok h).1]
    rfl
  · simp only [edge_iff h, DrawsIn, rows]
  · exact order.exists_dependencyGraph_iff
  · exact fun g g' h h' => order.namedEdges_perm names h h'

/-- The output row needs a constant and needs `z` twice, which needs itself; the name that the
    must row gives is not looked up. -/
def measured (output : String) : Model Int where
  name := "measured"
  symbols := [
    { name := "z", domain := .real, role := .continuous, index := some 0 },
    { name := "k", domain := .real, role := .other, rank := -1 },
    { name := "y", domain := .real, role := .output, index := some 0 }]
  rows := {
    ineq := [{ defines := "limit", depends := ["z"], tag := .must }, { defines := "z", depends := ["z", "k"] }],
    output := [{ defines := output, depends := ["z", "k", "z"] }] }
  blocks := .ofFn fun _ => .empty

def reversed (m : Model α) : Model α where
  symbols := m.symbols.reverse
  rows := { m.rows with ineq := m.rows.ineq.reverse, output := m.rows.output.reverse }
  blocks := m.blocks

theorem reordered_reversed (m : Model α) : m.Reordered m.reversed where
  symbols := (List.reverse_perm _).symm
  ineq := (List.reverse_perm _).symm
  output := (List.reverse_perm _).symm

/-- The graph has two edges, in either order of the tables; a row that defines an unknown name is
    reported with its place. -/
theorem dependencyGraph_described_measured :
    (∃ g g', (measured "y").dependencyGraph = .ok g ∧ (measured "y").reversed.dependencyGraph = .ok g' ∧
      g.namedEdges = [("z", "z"), ("z", "y")] ∧ g'.namedEdges.Perm g.namedEdges) ∧
    (measured "limit").dependencyGraph = .error (.undefinedVariable "limit" .output 0) := by
  have drawn : (measured "y").dependencyGraph.toOption.any fun g => g.namedEdges = [("z", "z"), ("z", "y")] := by
    decide +kernel
  obtain ⟨g, graph, edges⟩ := exists_of_dependencyGraph drawn
  obtain ⟨-, -, -, orders⟩ := dependencyGraph_described (measured "y")
  obtain ⟨same, perm⟩ := orders (by decide) _ (measured "y").reordered_reversed
  obtain ⟨g', graph'⟩ := same.1 ⟨g, graph⟩
  refine ⟨⟨g, g', graph, graph', by simpa using edges, perm g g' graph graph'⟩, ?_⟩
  obtain ⟨errors, -⟩ := dependencyGraph_described (measured "limit")
  refine (errors _).2 ⟨.output, 0, _, .output ?_ rfl ?_ ?_, rfl⟩
  · simp [measured, HasVariable, Symbol.isVariable, Row.definesVariable, RowTag.definesVariable]
  · simp [measured, HasVariable]
  · simp

end LoopFree.Model
