/-
  LoopFree.Graph.Greedy — the greedy ordering of Eades, Lin and Smyth.

  Sinks go to the back of the order and sources to the front; when there is neither, the
  vertex with the largest surplus of outgoing over incoming edges goes to the front, the
  least such vertex. Degrees count edges between different vertices that are both still
  to be placed; they are counted once, and placing a vertex lowers those of its neighbours,
  so a vertex placed in a sweep changes the degrees seen later in it.
  The edges that point backward in the order are the arcs to break.
-/

import LoopFree.Graph.ArcSet
import LoopFree.Graph.Degree

namespace LoopFree.Digraph

variable {n : Nat}

structure Placing (n : Nat) where
  /-- The vertices still to be placed, in increasing order. -/
  left : List (Fin n)
  front : List (Fin n) := []
  /-- The last vertex of the order comes last. -/
  back : List (Fin n) := []
  deriving DecidableEq, Repr

namespace Placing

def start (n : Nat) : Placing n := ⟨List.finRange n, [], []⟩

def toFront (p : Placing n) (v : Fin n) : Placing n :=
  { p with left := p.left.erase v, front := p.front ++ [v] }

def toBack (p : Placing n) (v : Fin n) : Placing n :=
  { p with left := p.left.erase v, back := v :: p.back }

def order (p : Placing n) : List (Fin n) := p.front ++ p.back

end Placing

structure Tally (n : Nat) where
  placing : Placing n
  outDegree : Degrees n
  inDegree : Degrees n
  deriving DecidableEq, Repr

namespace Tally

def start (g : Digraph n) : Tally n where
  placing := .start n
  outDegree := Vector.ofFn fun v => (List.finRange n).countP fun w => w ≠ v && g.edge v w
  inDegree := Vector.ofFn fun v => (List.finRange n).countP fun w => w ≠ v && g.edge w v

/-- The vertex has been placed: those left that have an edge from it or to it have one less. -/
def placed (g : Digraph n) (t : Tally n) (v : Fin n) (placing : Placing n) : Tally n where
  placing := placing
  outDegree := (placing.left.filter fun w => g.edge w v).foldl .lower t.outDegree
  inDegree := (placing.left.filter fun w => g.edge v w).foldl .lower t.inDegree

def toFront (g : Digraph n) (t : Tally n) (v : Fin n) : Tally n := t.placed g v (t.placing.toFront v)

def toBack (g : Digraph n) (t : Tally n) (v : Fin n) : Tally n := t.placed g v (t.placing.toBack v)

def sweepSinks (g : Digraph n) (t : Tally n) : Tally n :=
  t.placing.left.foldl (fun t v => if t.outDegree.get v = 0 then t.toBack g v else t) t

def sweepSources (g : Digraph n) (t : Tally n) : Tally n :=
  t.placing.left.foldl (fun t v => if t.inDegree.get v = 0 then t.toFront g v else t) t

def surplus (t : Tally n) (v : Fin n) : Int := (t.outDegree.get v : Int) - t.inDegree.get v

/-- The first of the vertices left with the largest surplus. -/
def best? (t : Tally n) : Option (Fin n) :=
  t.placing.left.find? fun v => t.placing.left.all fun w => t.surplus w ≤ t.surplus v

/-- Both sweeps; if they place nothing, the best vertex goes to the front. -/
def round (g : Digraph n) (t : Tally n) : Tally n :=
  let swept := (t.sweepSinks g).sweepSources g
  if swept.placing.left.length < t.placing.left.length then swept
  else match swept.best? with
    | some v => swept.toFront g v
    | none => swept

/-- Every round places a vertex, so as many rounds as vertices are enough. -/
def rounds (g : Digraph n) : Nat → Tally n → Tally n
  | 0, t => t
  | k + 1, t => rounds g k (t.round g)

end Tally

def greedyOrder (g : Digraph n) : List (Fin n) := ((Tally.start g).rounds g n).placing.order

/-- The edges that do not point forward in an order, loops included. -/
def backward (g : Digraph n) (order : List (Fin n)) : List (Fin n × Fin n) :=
  g.edges.filter fun (u, v) => order.idxOf v ≤ order.idxOf u

def greedyCut (g : Digraph n) : Cut n where
  arcs := Cut.sortArcs g.greedyOrder (g.backward g.greedyOrder)
  order := g.greedyOrder

end LoopFree.Digraph

namespace LoopFree.Resolver

def greedy : Resolver := fun _ g => some g.greedyCut.toArcSet

end LoopFree.Resolver
