/-
  LoopFree.Graph.DepthFirst — the back edges of a depth-first search.

  The search starts from the vertices in increasing order. An edge to a vertex that is
  still being visited is a back edge; the vertices in reverse order of completion are a
  topological order once the back edges are gone.
-/

import LoopFree.Graph.ArcSet

namespace LoopFree.Digraph

variable {n : Nat}

structure Search (n : Nat) where
  /-- Completed vertices, the latest first. -/
  done : List (Fin n) := []
  back : List (Fin n × Fin n) := []
  deriving DecidableEq, Repr

/-- The vertices being visited are in `path`; `depth` bounds how many more may join. -/
def search (g : Digraph n) : (depth : Nat) → (path : List (Fin n)) → Fin n → Search n → Search n
  | 0, _, _, s => s
  | depth + 1, path, v, s =>
    let s' := (g.successors v).foldl (fun t w =>
      if w ∈ v :: path then { t with back := t.back ++ [(v, w)] }
      else if w ∈ t.done then t
      else g.search depth (v :: path) w t) s
    { s' with done := v :: s'.done }

def searchAll (g : Digraph n) : Search n :=
  (List.finRange n).foldl (fun s v => if v ∈ s.done then s else g.search n [] v s) {}

def depthFirstCut (g : Digraph n) : Cut n where
  arcs := Cut.sortArcs g.searchAll.done g.searchAll.back
  order := g.searchAll.done

end LoopFree.Digraph

namespace LoopFree.Resolver

def depthFirst : Resolver := fun _ g => some g.depthFirstCut.toArcSet

end LoopFree.Resolver
