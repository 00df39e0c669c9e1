/-
  LoopFree.Graph.Order — topological orders.

  The in-degree of a vertex counts the edges to it from vertices still to be placed, and a
  vertex whose in-degree comes down to zero is ready. Placing the least ready vertex each
  time gives the least topological order; when none is ready before all are placed, the
  vertices left hold a cycle and there is no order.
-/

import LoopFree.Graph.Degree

namespace LoopFree.Digraph

variable {n : Nat}

structure Queue (n : Nat) where
  inDegree : Degrees n
  /-- The vertices that can be placed next, as they became ready. -/
  ready : List (Fin n)
  order : List (Fin n) := []
  deriving DecidableEq, Repr

namespace Queue

def start (g : Digraph n) : Queue n :=
  let inDegree := Vector.ofFn fun v => (List.finRange n).countP fun u => g.edge u v
  { inDegree, ready := (List.finRange n).filter fun v => inDegree.get v = 0 }

/-- One edge to the vertex less. -/
def release (q : Queue n) (w : Fin n) : Queue n :=
  let inDegree := q.inDegree.lower w
  { q with inDegree, ready := if inDegree.get w = 0 then q.ready ++ [w] else q.ready }

/-- Places the least ready vertex, if there is any. -/
def place (g : Digraph n) (q : Queue n) : Queue n :=
  match q.ready.mergeSort (· ≤ ·) with
  | [] => q
  | v :: rest => (g.successors v).foldl release { q with ready := rest, order := q.order ++ [v] }

/-- A turn that finds a ready vertex places it, so as many turns as vertices are enough. -/
def turns (g : Digraph n) : Nat → Queue n → Queue n
  | 0, q => q
  | k + 1, q => turns g k (q.place g)

end Queue

/-- The least topological order, if there is any. -/
def topologicalOrder? (g : Digraph n) : Option (List (Fin n)) :=
  let order := ((Queue.start g).turns g n).order
  if order.length = n then some order else none

end LoopFree.Digraph
