/-
  LoopFree.Graph.Component — strongly connected components in one depth-first pass.

  Vertices are numbered as they are met and wait on a stack until their component is
  complete. The low number of a vertex is the least number found so far among itself, the
  waiting vertices it has edges to and the low numbers of those visited from it; when that
  is its own number, everything from the top of the stack down to it is one component. Each
  component is listed newest vertex first, and after every component it can reach.
-/

import LoopFree.Graph.Digraph

namespace LoopFree.Digraph

variable {n : Nat}

structure Pass (n : Nat) where
  /-- How many vertices have been met. -/
  count : Nat := 0
  number : Vector (Option Nat) n
  low : Vector Nat n
  /-- The newest vertex comes first. -/
  stack : List (Fin n) := []
  waiting : Vector Bool n
  components : List (List (Fin n)) := []
  deriving DecidableEq, Repr

namespace Pass

def start : Pass n where
  number := .replicate n none
  low := .replicate n 0
  waiting := .replicate n false

def meet (s : Pass n) (v : Fin n) : Pass n :=
  { s with
    count := s.count + 1
    number := s.number.set v (some s.count) v.isLt
    low := s.low.set v s.count v.isLt
    stack := v :: s.stack
    waiting := s.waiting.set v true v.isLt }

/-- The vertex leads to one of that number. -/
def lower (s : Pass n) (v : Fin n) (number : Nat) : Pass n :=
  { s with low := s.low.set v (min (s.low.get v) number) v.isLt }

/-- Takes vertices off a stack, down to the given one. -/
def popThrough (v : Fin n) : List (Fin n) → List (Fin n) × List (Fin n)
  | [] => ([], [])
  | w :: stack =>
    if w = v then ([w], stack)
    else
      let (popped, rest) := popThrough v stack
      (w :: popped, rest)

/-- Everything from the top of the stack down to the vertex becomes a component. -/
def close (s : Pass n) (v : Fin n) : Pass n :=
  let (popped, stack) := popThrough v s.stack
  { s with
    stack
    waiting := popped.foldl (fun (t : Vector Bool n) (w : Fin n) => t.set w false w.isLt) s.waiting
    components := s.components ++ [popped] }

end Pass

/-- Visits nest at most `depth` deep; `n` is enough, as each one meets a vertex. -/
def visit (g : Digraph n) : (depth : Nat) → Fin n → Pass n → Pass n
  | 0, _, s => s
  | depth + 1, v, s =>
    let seen := (g.successors v).foldl (fun s w =>
      match s.number.get w with
      | none =>
        let t := g.visit depth w s
        t.lower v (t.low.get w)
      | some number => if s.waiting.get w then s.lower v number else s) (s.meet v)
    if seen.number.get v = some (seen.low.get v) then seen.close v else seen

def pass (g : Digraph n) (depth : Nat) : Pass n :=
  (List.finRange n).foldl (fun s v =>
    match s.number.get v with
    | none => g.visit depth v s
    | some _ => s) .start

def components (g : Digraph n) : List (List (Fin n)) := (g.pass n).components

/-- No cycle, not even a vertex that is its own successor. -/
def isAcyclic (g : Digraph n) : Bool := !g.hasSelfLoop && g.components.all (·.length = 1)

end LoopFree.Digraph
