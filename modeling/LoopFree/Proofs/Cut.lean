/-
  LoopFree.Proofs.Cut — cuts made from an order of the vertices.

  Both resolvers find an order and a list of edges to break, and sort the edges by where
  their ends stand. Sorting only rearranges them (`sortArcs_perm`). When every other edge
  points forward the cut breaks the graph (`breaks_sorted`), and what breaks a graph with
  distinct arcs does all that is asked of a resolver: `Resolves`.
-/

import LoopFree.Proofs.Component
import LoopFree.Proofs.Order
import LoopFree.Proofs.Vetting
import Mathlib.Data.List.Nodup

namespace LoopFree

variable {n : Nat} {g : Digraph n} {u v : Fin n}

/-- Pairs listed by their first part are distinct when their parts are. -/
theorem nodup_flatMap_pair {ι κ : Type} {l : List ι} {f : ι → List κ} (nodup : l.Nodup)
    (each : ∀ u ∈ l, (f u).Nodup) : (l.flatMap fun u => (f u).map fun v => (u, v)).Nodup := by
  refine List.nodup_flatMap.2 ⟨fun u hu => ?_, nodup.imp fun ne => ?_⟩
  · exact (each u hu).map fun _ _ e => (Prod.mk.inj e).2
  · intro a left right
    obtain ⟨_, -, rfl⟩ := List.mem_map.1 left
    obtain ⟨_, -, e⟩ := List.mem_map.1 right
    exact ne (Prod.mk.inj e).1.symm

theorem Digraph.nodup_edges (g : Digraph n) : g.edges.Nodup :=
  nodup_flatMap_pair (List.nodup_finRange n) fun _ _ => (List.nodup_finRange n).filter _

theorem Digraph.edge_without {arcs : List (Fin n × Fin n)} :
    (g.without arcs).edge u v ↔ g.edge u v ∧ (u, v) ∉ arcs := by
  simp [without]

theorem number_injective : Function.Injective fun v : Fin n => ((v : Nat) : Int) :=
  fun _ _ same => Fin.ext (Int.natCast_inj.1 same)

theorem arcNumbers_injective :
    Function.Injective fun a : Fin n × Fin n => (((a.1 : Nat) : Int), ((a.2 : Nat) : Int)) :=
  number_injective.prodMap number_injective

namespace Cut

theorem toArcSet_injective : Function.Injective (toArcSet : Cut n → ArcSet) := by
  intro c d same
  obtain ⟨arcs, order⟩ := ArcSet.mk.inj same
  cases c with | mk cArcs cOrder =>
  cases d with | mk dArcs dOrder =>
  rw [Cut.mk.injEq]
  exact ⟨List.map_injective_iff.2 arcNumbers_injective arcs, List.map_injective_iff.2 number_injective order⟩

/-- What is asked of a resolver's answer: the order has every vertex once, the arcs are
    distinct edges, every other edge points forward, vetting accepts the answer, and
    without the arcs there is no cycle. -/
structure Resolves (c : Cut n) (g : Digraph n) : Prop extends c.Breaks g where
  once : c.arcs.Nodup
  accepted : c.toArcSet.vet g = .ok c
  acyclic : (g.without c.arcs).Acyclic

variable {c : Cut n} {order : List (Fin n)} {arcs : List (Fin n × Fin n)}

theorem nodup_sortArcs (nodup : order.Nodup) (arcs : List (Fin n × Fin n)) : (sortArcs order arcs).Nodup :=
  nodup_flatMap_pair nodup fun _ _ => nodup.filter _

/-- Sorting neither drops an arc nor adds one. -/
theorem sortArcs_perm (perm : order.Perm (List.finRange n)) (once : arcs.Nodup) :
    (sortArcs order arcs).Perm arcs := by
  have nodup := perm.nodup_iff.2 (List.nodup_finRange n)
  have all (v : Fin n) : v ∈ order := perm.mem_iff.2 (List.mem_finRange v)
  refine (List.perm_ext_iff_of_nodup (nodup_sortArcs nodup arcs) once).2 fun a => ?_
  rw [mem_sortArcs]
  exact ⟨fun given => given.2.2, fun listed => ⟨all _, all _, listed⟩⟩

theorem breaks_sorted (perm : order.Perm (List.finRange n)) (edges : ∀ a ∈ arcs, g.edge a.1 a.2)
    (forward : ∀ u v, g.edge u v → (u, v) ∈ arcs ∨ order.idxOf u < order.idxOf v) :
    Breaks ⟨sortArcs order arcs, order⟩ g where
  order := perm
  arcs a ha := edges a (mem_sortArcs.1 ha).2.2
  forward u v edge := by
    have all (v : Fin n) : v ∈ order := perm.mem_iff.2 (List.mem_finRange v)
    exact (forward u v edge).imp_left fun arc => mem_sortArcs.2 ⟨all u, all v, arc⟩

namespace Breaks

variable (h : c.Breaks g)
include h

theorem isOrder_without : (g.without c.arcs).IsOrder c.order where
  perm := h.order
  forward u v edge := by
    obtain ⟨edge, kept⟩ := Digraph.edge_without.1 edge
    exact (h.forward u v edge).resolve_left kept

theorem resolves (once : c.arcs.Nodup) : c.Resolves g where
  toBreaks := h
  once := once
  accepted := ArcSet.vet_eq_ok.2 ⟨rfl, h⟩
  acyclic := h.isOrder_without.acyclic

/-- A graph that needs no arcs broken is ordered as it is. -/
theorem isOrder_of_nil (none : c.arcs = []) : g.IsOrder c.order where
  perm := h.order
  forward u v edge := by
    refine (h.forward u v edge).resolve_left fun arc => ?_
    rw [none] at arc
    cases arc

end Breaks
end Cut
end LoopFree
