/-
  LoopFree.Proofs.Irredundant — the depth-first resolver breaks no edge needlessly.

  An arc was recorded at a vertex that was still being visited, so it points backward in
  the order, or to where it starts (`not_before_of_mem_depthFirstCut`). The edges by which
  its end leads back to its start point forward, so no other arc is among them, and the
  cycle they close with the arc is there whenever only the arc is kept
  (`reaches_without_depthFirstCut`). So no arc can be left out (`Cut.Irredundant`).
-/

import LoopFree.Proofs.DepthFirst

namespace LoopFree

variable {n : Nat} {g : Digraph n} {u v w : Fin n} {l : List (Fin n)} {arcs others : List (Fin n × Fin n)}
  {a : Fin n × Fin n}

namespace Digraph

/-- The edge lies on a cycle: its end leads back to its start. -/
def OnCycle (g : Digraph n) (a : Fin n × Fin n) : Prop := g.edge a.1 a.2 ∧ g.Reaches a.2 a.1

theorem OnCycle.walk (h : g.OnCycle a) : g.Walk a.1 a.1 := Relation.TransGen.head' h.1 h.2

/-- Where fewer edges are removed, at least as much is reached. -/
theorem Reaches.without_mono (h : (g.without arcs).Reaches u v) (fewer : others ⊆ arcs) :
    (g.without others).Reaches u v := by
  refine Relation.ReflTransGen.mono (fun x y edge => ?_) _ _ h
  obtain ⟨edge, kept⟩ := edge_without.1 edge
  exact edge_without.2 ⟨edge, fun removed => kept (fewer removed)⟩

/-- Edges that point forward are all kept when none of those removed does. -/
theorem ReachesIn.without (h : g.ReachesIn l u v) (backward : ∀ u v, (u, v) ∈ arcs → ¬Before l u v) :
    (g.without arcs).Reaches u v :=
  Relation.ReflTransGen.mono
    (fun x y onward => edge_without.2 ⟨onward.1, fun removed => backward x y removed onward.2⟩) _ _ h

theorem ReachesIn.idxOf_le (h : g.ReachesIn l u v) (nodup : l.Nodup) : l.idxOf u ≤ l.idxOf v := by
  induction h with
  | refl => exact Nat.le_refl _
  | tail _ onward ih =>
    have := onward.2.idxOf_lt nodup
    omega

/-! ## The arcs of the depth-first cut -/

/-- No arc points forward in the order. -/
theorem not_before_of_mem_depthFirstCut (arc : (u, w) ∈ g.depthFirstCut.arcs) :
    ¬Before g.depthFirstCut.order u w := by
  have nodup := g.depthFirstCut_resolves.nodup
  intro forward
  have later := forward.idxOf_lt nodup
  have earlier := (reaches_of_mem_depthFirstCut arc).2.idxOf_le nodup
  omega

/-- The end of an arc leads back to its start when all arcs are removed. -/
theorem reaches_without_depthFirstCut (arc : (u, w) ∈ g.depthFirstCut.arcs) :
    (g.without g.depthFirstCut.arcs).Reaches w u :=
  (reaches_of_mem_depthFirstCut arc).2.without fun _ _ => not_before_of_mem_depthFirstCut

end Digraph

/-- No arc is broken needlessly: each closes a cycle, also when all the others are removed,
    so removing some of the arcs leaves no cycle only if all are removed. -/
structure Cut.Irredundant (c : Cut n) (g : Digraph n) : Prop where
  onCycle : ∀ a ∈ c.arcs, g.OnCycle a
  closes : ∀ a ∈ c.arcs, (g.without (c.arcs.filter (· ≠ a))).OnCycle a
  minimal : ∀ arcs ⊆ c.arcs, (g.without arcs).Acyclic ↔ c.arcs ⊆ arcs

/-- It is enough that each arc closes a cycle of edges that are kept. -/
theorem Cut.Resolves.irredundant {c : Cut n} (h : c.Resolves g)
    (back : ∀ a ∈ c.arcs, (g.without c.arcs).Reaches a.2 a.1) : c.Irredundant g := by
  have closes {arcs : List (Fin n × Fin n)} (sub : arcs ⊆ c.arcs) {a : Fin n × Fin n} (ha : a ∈ c.arcs)
      (kept : a ∉ arcs) : (g.without arcs).OnCycle a :=
    ⟨Digraph.edge_without.2 ⟨h.arcs a ha, kept⟩, (back a ha).without_mono sub⟩
  refine ⟨fun a ha => ⟨h.arcs a ha, ?_⟩, fun a ha => closes (List.filter_subset_self _) ha (by simp), ?_⟩
  · exact Relation.ReflTransGen.mono (fun _ _ edge => (Digraph.edge_without.1 edge).1) _ _ (back a ha)
  · intro arcs sub
    constructor
    · intro acyclic a ha
      by_contra kept
      exact acyclic a.1 (closes sub ha kept).walk
    · intro all v walk
      refine h.acyclic v (Relation.TransGen.mono (fun _ _ edge => ?_) _ _ walk)
      obtain ⟨edge, kept⟩ := Digraph.edge_without.1 edge
      exact Digraph.edge_without.2 ⟨edge, fun arc => kept (all arc)⟩

/-- The depth-first resolver answers every graph with a cut none of whose arcs can be left out. -/
theorem Resolver.depthFirst_irredundant (n : Nat) (g : Digraph n) :
    ∃ c : Cut n, depthFirst n g = some c.toArcSet ∧ c.Irredundant g :=
  ⟨g.depthFirstCut, rfl,
    g.depthFirstCut_resolves.irredundant fun _ arc => Digraph.reaches_without_depthFirstCut arc⟩

/-- The cycles `0 1 2` and `2 3 4`, which meet at `2`, and a loop at `1`. -/
def nestedCycles : Digraph 5 := .ofEdges [(0, 1), (1, 2), (2, 0), (2, 3), (3, 4), (4, 2), (1, 1)]

/-- Three arcs are broken, and keeping the loop alone leaves a cycle. -/
theorem Resolver.depthFirst_irredundant_nestedCycles : ∃ c : Cut 5, depthFirst 5 nestedCycles = some c.toArcSet ∧
    c.arcs = [(1, 1), (2, 0), (4, 2)] ∧ c.Irredundant nestedCycles ∧
    ¬(nestedCycles.without [(2, 0), (4, 2)]).Acyclic := by
  obtain ⟨c, answer, irredundant⟩ := depthFirst_irredundant 5 nestedCycles
  have found : depthFirst 5 nestedCycles =
      some (Cut.toArcSet (n := 5) ⟨[(1, 1), (2, 0), (4, 2)], [0, 1, 2, 3, 4]⟩) := by
    decide +kernel
  obtain rfl := Cut.toArcSet_injective (Option.some.inj (answer.symm.trans found))
  refine ⟨_, answer, rfl, irredundant, fun acyclic => ?_⟩
  exact acyclic 1 (irredundant.closes (1, 1) (by decide)).walk

end LoopFree
