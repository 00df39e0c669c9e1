/-
  LoopFree.Graph.Digraph — directed graphs on the vertices `0 .. n-1`.

  A graph is a table of booleans; `edge` reads it, and two graphs with the same edges
  are equal. Loops from a vertex to itself are edges like any other.
-/

namespace LoopFree

instance lawfulBEqFin (n : Nat) : LawfulBEq (Fin n) := inferInstance

/-- A table of the vertices after one of its entries has been written. -/
theorem get_table_set {n : Nat} {ι : Type} (t : Vector ι n) (v w : Fin n) (x : ι) :
    (t.set v x v.isLt).get w = if w = v then x else t.get w := by
  refine (Vector.getElem_set v.isLt w.isLt).trans ?_
  by_cases same : w = v
  · rw [same, if_pos rfl, if_pos rfl]
  · rw [if_neg (mt (fun e => Fin.ext e.symm) same), if_neg same]
    rfl

structure Digraph (n : Nat) where
  table : Vector (Vector Bool n) n
  deriving DecidableEq, Repr

namespace Digraph

variable {n : Nat}

def edge (g : Digraph n) (u v : Fin n) : Bool := g.table[u][v]

def ofFn (f : Fin n → Fin n → Bool) : Digraph n := ⟨Vector.ofFn fun u => Vector.ofFn (f u)⟩

@[simp] theorem edge_ofFn (f : Fin n → Fin n → Bool) (u v : Fin n) : (ofFn f).edge u v = f u v := by
  simp [edge, ofFn]

@[ext] theorem ext {g h : Digraph n} (eq : ∀ u v, g.edge u v = h.edge u v) : g = h := by
  cases g with | mk a =>
  cases h with | mk b =>
  congr 1
  apply Vector.ext
  intro i hi
  apply Vector.ext
  intro j hj
  exact eq ⟨i, hi⟩ ⟨j, hj⟩

def empty : Digraph n := ofFn fun _ _ => false

def addEdge (g : Digraph n) (u v : Fin n) : Digraph n := ⟨g.table.set u (g.table[u].set v true)⟩

theorem edge_addEdge (g : Digraph n) (u v a b : Fin n) :
    (g.addEdge u v).edge a b = (g.edge a b || (a = u ∧ b = v)) := by
  simp only [edge, addEdge, Fin.getElem_fin, Vector.getElem_set, Fin.ext_iff]
  by_cases ha : (u : Nat) = a <;> by_cases hb : (v : Nat) = b <;>
    simp [ha, hb, eq_comm (a := (a : Nat)), eq_comm (a := (b : Nat))]

def ofEdges (arcs : List (Fin n × Fin n)) : Digraph n := arcs.foldl (fun g a => g.addEdge a.1 a.2) empty

theorem edge_foldl_addEdge (arcs : List (Fin n × Fin n)) (g : Digraph n) (a b : Fin n) :
    (arcs.foldl (fun g a => g.addEdge a.1 a.2) g).edge a b = (g.edge a b || ((a, b) ∈ arcs)) := by
  induction arcs generalizing g with
  | nil => simp
  | cons x arcs ih =>
    rw [List.foldl_cons, ih, edge_addEdge, Bool.or_assoc]
    simp [Prod.ext_iff]

theorem edge_ofEdges (arcs : List (Fin n × Fin n)) (a b : Fin n) :
    (ofEdges arcs).edge a b = ((a, b) ∈ arcs) := by
  simp [ofEdges, edge_foldl_addEdge, empty]

/-- All edges, by source and then by target. -/
def edges (g : Digraph n) : List (Fin n × Fin n) :=
  (List.finRange n).flatMap fun u => ((List.finRange n).filter (g.edge u)).map fun v => (u, v)

theorem mem_edges {g : Digraph n} {u v : Fin n} : (u, v) ∈ g.edges ↔ g.edge u v := by
  simp [edges]

def successors (g : Digraph n) (u : Fin n) : List (Fin n) := (List.finRange n).filter (g.edge u)

theorem mem_successors {g : Digraph n} {u v : Fin n} : v ∈ g.successors u ↔ g.edge u v := by
  simp [successors]

/-- The graph without some of its edges. -/
def without (g : Digraph n) (arcs : List (Fin n × Fin n)) : Digraph n :=
  ofFn fun u v => g.edge u v && (u, v) ∉ arcs

def hasSelfLoop (g : Digraph n) : Bool := (List.finRange n).any fun v => g.edge v v

end Digraph
end LoopFree
