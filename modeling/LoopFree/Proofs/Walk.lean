/-
  LoopFree.Proofs.Walk — walks in a directed graph.

  `Walk` needs at least one edge, `Reaches` does not. A graph is acyclic when no walk is
  closed; a numbering that grows along every edge shows it (`acyclic_of_lt`).
-/

import LoopFree.Graph.Digraph
import Mathlib.Logic.Relation

namespace LoopFree.Digraph

variable {n : Nat} {g : Digraph n} {u v w : Fin n}

def Walk (g : Digraph n) : Fin n → Fin n → Prop := Relation.TransGen fun u v => g.edge u v

def Reaches (g : Digraph n) : Fin n → Fin n → Prop := Relation.ReflTransGen fun u v => g.edge u v

def Acyclic (g : Digraph n) : Prop := ∀ v, ¬g.Walk v v

theorem Reaches.refl (v : Fin n) : g.Reaches v v := Relation.ReflTransGen.refl

theorem Reaches.trans (first : g.Reaches u v) (second : g.Reaches v w) : g.Reaches u w :=
  Relation.ReflTransGen.trans first second

theorem Reaches.of_edge (edge : g.edge u v) : g.Reaches u v := Relation.ReflTransGen.single edge

theorem Reaches.walk_of_ne (h : g.Reaches u v) (ne : u ≠ v) : g.Walk u v := by
  rcases Relation.reflTransGen_iff_eq_or_transGen.1 h with same | walk
  · exact absurd same.symm ne
  · exact walk

theorem lt_of_walk {f : Fin n → Nat} (grows : ∀ u v, g.edge u v → f u < f v) (walk : g.Walk u v) : f u < f v := by
  induction walk with
  | single edge => exact grows _ _ edge
  | tail _ edge ih =>
    have := grows _ _ edge
    omega

theorem acyclic_of_lt {f : Fin n → Nat} (grows : ∀ u v, g.edge u v → f u < f v) : g.Acyclic := by
  intro v walk
  have := lt_of_walk grows walk
  omega

end LoopFree.Digraph
