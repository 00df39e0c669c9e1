/-
  LoopFree.Graph.ArcSet — feedback arc sets and what makes one acceptable.

  An arc set lists the edges to break and the order in which the vertices can be
  evaluated after that. A resolver may hand back any integers, so its answer is vetted:
  the sequence must be a permutation of the vertices, every arc an edge, and every edge
  that is not an arc must point forward in the sequence. What passes is a `Cut`, arcs and
  order in terms of the vertices of the graph.
-/

import LoopFree.Graph.Digraph
import LoopFree.Text

namespace LoopFree

structure ArcSet where
  arcs : List (Int × Int) := []
  sequence : List Int := []
  deriving DecidableEq, Repr

/-- A way to choose the arcs to break; it may have no arc set to offer. -/
abbrev Resolver := (n : Nat) → Digraph n → Option ArcSet

/-- Arcs to break and an order of the vertices. -/
structure Cut (n : Nat) where
  arcs : List (Fin n × Fin n)
  order : List (Fin n)
  deriving DecidableEq, Repr

namespace Cut

variable {n : Nat}

def toArcSet (c : Cut n) : ArcSet where
  arcs := c.arcs.map fun (a : Fin n × Fin n) => (((a.1 : Nat) : Int), ((a.2 : Nat) : Int))
  sequence := c.order.map fun (v : Fin n) => ((v : Nat) : Int)

/-- Each source once, where it first appears. -/
def sources (c : Cut n) : List (Fin n) := (c.arcs.map (·.1)).eraseDups

/-- The edge is broken or points forward in the order. -/
def respects (c : Cut n) (e : Fin n × Fin n) : Bool :=
  c.arcs.contains e || c.order.idxOf e.1 < c.order.idxOf e.2

/-- The arcs by the position of their source in the order, and then of their target. -/
def sortArcs (order : List (Fin n)) (arcs : List (Fin n × Fin n)) : List (Fin n × Fin n) :=
  order.flatMap fun u =>
    let targets := (arcs.filter (·.1 = u)).map (·.2)
    (order.filter (· ∈ targets)).map (u, ·)

theorem mem_sortArcs {order : List (Fin n)} {arcs : List (Fin n × Fin n)} {u v : Fin n} :
    (u, v) ∈ sortArcs order arcs ↔ u ∈ order ∧ v ∈ order ∧ (u, v) ∈ arcs := by
  simp [sortArcs]

end Cut

namespace ArcSet

/-- Each source once, where it first appears. -/
def sources (s : ArcSet) : List Int := (s.arcs.map (·.1)).eraseDups

/-- Where a vertex stands in the sequence, the last time if it is repeated. -/
def lastPosition? (s : ArcSet) (v : Int) : Option Nat :=
  (s.sequence.reverse.idxOf? v).map (s.sequence.length - 1 - ·)

/-- Each vertex of the sequence with its position, by vertex. -/
def positions (s : ArcSet) : List (Int × Nat) :=
  (s.sequence.eraseDups.mergeSort (· ≤ ·)).filterMap fun v => (s.lastPosition? v).map (v, ·)

/-! ## Vetting -/

inductive Violation where
  | notPermutation (n : Nat) (sequence : List Int)
  | notEdge (source sink : Int)
  | backward (source sink : Nat)
  deriving DecidableEq, Repr

def Violation.message : Violation → String
  | notPermutation n sequence =>
    s!"Vertex sequence is not a permutation of 0..{(n : Int) - 1}: {Text.bracketed sequence}"
  | notEdge u v => s!"Feedback arc ({u}, {v}) is not an edge of the graph"
  | backward u v => s!"Edge ({u}, {v}) is not in the feedback arc set but violates the vertex sequence"

variable {n : Nat}

/-- The vertex of a number; negative numbers are no vertices. -/
def vertex? (n : Nat) (i : Int) : Option (Fin n) :=
  if h : 0 ≤ i ∧ i < n then some ⟨i.toNat, by omega⟩ else none

def edge? (g : Digraph n) (a : Int × Int) : Option (Fin n × Fin n) :=
  match vertex? n a.1, vertex? n a.2 with
  | some u, some v => if g.edge u v then some (u, v) else none
  | _, _ => none

def vetSequence (n : Nat) (sequence : List Int) : Except Violation (List (Fin n)) :=
  match sequence.mapM (vertex? n) with
  | some order => if order.isPerm (List.finRange n) then .ok order else .error (.notPermutation n sequence)
  | none => .error (.notPermutation n sequence)

/-- The first arc that is no edge is reported. -/
def vetArcs (g : Digraph n) : List (Int × Int) → Except Violation (List (Fin n × Fin n))
  | [] => .ok []
  | a :: rest =>
    match edge? g a with
    | some e => (vetArcs g rest).map (e :: ·)
    | none => .error (.notEdge a.1 a.2)

/-- The sequence is judged first, then the arcs, then the edges that are left. -/
def vet (g : Digraph n) (s : ArcSet) : Except Violation (Cut n) := do
  let order ← vetSequence n s.sequence
  let arcs ← vetArcs g s.arcs
  let c : Cut n := ⟨arcs, order⟩
  match g.edges.find? fun e => !c.respects e with
  | some (u, v) => .error (.backward u v)
  | none => .ok c

end ArcSet
end LoopFree
