/-
  LoopFree.Dependency — which variable has to be computed before which.

  The vertices are the variables of the symbol table in its order. A row that defines a
  variable draws an edge to it from every vertex it depends on; names that are no vertex,
  constants and parameters, impose no order. Of several vertices with one name the last
  is meant. Inequality rows come before output rows, and rows of a must section are left
  out of the inequality.
-/

import LoopFree.Graph.Component
import LoopFree.Graph.Order
import LoopFree.Model

namespace LoopFree

structure Vertex where
  name : String
  domain : Domain
  role : Role
  deriving DecidableEq, Repr

/-- A graph whose vertices stand for variables. -/
structure VariableGraph where
  vertices : List Vertex
  graph : Digraph vertices.length
  deriving DecidableEq, Repr

/-- The last vertex of a name. -/
def vertexNamed? (vertices : List Vertex) (name : String) : Option (Fin vertices.length) :=
  (List.finRange vertices.length).reverse.find? fun v => vertices[v].name = name

namespace VariableGraph

def size (g : VariableGraph) : Nat := g.vertices.length

/-- A graph without edges; the shape given for its table has to be that of the vertices. -/
def ofShape (vertices : List Vertex) (shape : List Int) : Except Fault VariableGraph :=
  if shape = [(vertices.length : Int), (vertices.length : Int)] then .ok ⟨vertices, .empty⟩
  else .error (.adjacencyShape vertices.length shape)

def find? (g : VariableGraph) (name : String) : Option (Fin g.vertices.length) :=
  vertexNamed? g.vertices name

def vertex (g : VariableGraph) (v : Fin g.vertices.length) : Vertex := g.vertices[v]

def namedEdges (g : VariableGraph) : List (String × String) :=
  g.graph.edges.map fun (u, v) => ((g.vertex u).name, (g.vertex v).name)

def topologicalOrder (g : VariableGraph) : Except Fault (List (Fin g.vertices.length)) :=
  match g.graph.topologicalOrder? with
  | some order => .ok order
  | none => .error .cyclic

/-- Draws the edge between two positions of the vertex list. -/
def addEdgeAt (g : VariableGraph) (u v : Int) : Except Fault VariableGraph :=
  match index? g.vertices.length u, index? g.vertices.length v with
  | some u, some v => .ok { g with graph := g.graph.addEdge u v }
  | _, _ => .error .outOfRange

def hasEdgeAt (g : VariableGraph) (u v : Int) : Except Fault Bool :=
  match index? g.vertices.length u, index? g.vertices.length v with
  | some u, some v => .ok (g.graph.edge u v)
  | _, _ => .error .outOfRange

end VariableGraph

namespace Model

variable {α : Type}

/-- A row that defines a variable, with its place. -/
structure Definition where
  table : Table
  position : Nat
  row : Row
  deriving DecidableEq, Repr

def definitions (m : Model α) : List Definition :=
  (m.rows.ineq.zipIdx.map fun (row, r) => (⟨.ineq, r, row⟩ : Definition)).filter (·.row.definesVariable) ++
    m.rows.output.zipIdx.map fun (row, r) => ⟨.output, r, row⟩

def vertices (m : Model α) : List Vertex :=
  (m.symbols.filter (·.isVariable)).map fun s => ⟨s.name, s.domain, s.role⟩

/-- The edges a row draws to the vertex it defines. -/
def edgesOf (vertices : List Vertex) (row : Row) : List (Fin vertices.length × Fin vertices.length) :=
  match vertexNamed? vertices row.defines with
  | none => []
  | some sink => (row.depends.filterMap (vertexNamed? vertices)).map fun source => (source, sink)

/-- The first row that defines no vertex is reported. -/
def dependencyGraph (m : Model α) : Except Fault VariableGraph :=
  match m.definitions.find? fun d => (vertexNamed? m.vertices d.row.defines).isNone with
  | some d => .error (.undefinedVariable d.row.defines d.table d.position)
  | none => .ok ⟨m.vertices, .ofEdges (m.definitions.flatMap fun d => edgesOf m.vertices d.row)⟩

end Model
end LoopFree
