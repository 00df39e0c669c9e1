/-
  LoopFree.Proofs.Acceptance — which arc sets pass vetting.

  `Acceptable` says of any integers what an arc set has to be: its sequence lists the
  numbers of the vertices, its arcs are edges, and the sequence is a topological order of
  the graph minus the arcs. Exactly these pass (`passes_iff_acceptable`), since an
  acceptable arc set is a cut that breaks the graph, written down in numbers.

  A list of edges can be completed by a sequence exactly when the graph minus the edges has
  no cycle, and then the topological order of that graph is one (`vetting_decides`).
-/

import LoopFree.Proofs.Cut
import Mathlib.Data.Set.List
import Mathlib.Tactic.TFAE

namespace LoopFree

variable {n : Nat} {g : Digraph n} {u v : Fin n} {s : ArcSet} {c : Cut n}

theorem Before.map_iff {ι κ : Type} {f : ι → κ} (inj : Function.Injective f) {l : List ι} {u v : ι} :
    Before (l.map f) (f u) (f v) ↔ Before l u v := by
  constructor
  · intro h
    obtain ⟨pair, sub, same⟩ := List.sublist_map_iff.1 h
    obtain rfl : [u, v] = pair := List.map_injective_iff.2 inj same
    exact sub
  · exact fun h => List.Sublist.map f h

namespace Digraph

/-- Both ends are vertices, and there is an edge from the one to the other. -/
def HasArc (g : Digraph n) (a : Int × Int) : Prop :=
  ∃ u v : Fin n, a = (((u : Nat) : Int), ((v : Nat) : Int)) ∧ g.edge u v

/-- The graph without the edges that the arcs name; what names no edge removes nothing. -/
def minus (g : Digraph n) (arcs : List (Int × Int)) : Digraph n :=
  ofFn fun u v => g.edge u v && (((u : Nat) : Int), ((v : Nat) : Int)) ∉ arcs

end Digraph

namespace ArcSet

structure Acceptable (s : ArcSet) (g : Digraph n) : Prop where
  permutation : s.sequence.Perm ((List.range n).map Int.ofNat)
  edges : ∀ a ∈ s.arcs, g.HasArc a
  forward : ∀ u v, (g.minus s.arcs).edge u v → Before s.sequence ((u : Nat) : Int) ((v : Nat) : Int)

/-- Vetting accepts the arc set. -/
def Passes (s : ArcSet) (g : Digraph n) : Prop := ∃ c, s.vet g = .ok c

end ArcSet

/-! ## Cuts written down in numbers -/

theorem numbers_finRange (n : Nat) :
    (List.finRange n).map (fun v : Fin n => ((v : Nat) : Int)) = (List.range n).map Int.ofNat := by
  rw [← List.map_coe_finRange_eq_range, List.map_map]
  rfl

theorem Digraph.hasArc_iff : g.HasArc (((u : Nat) : Int), ((v : Nat) : Int)) ↔ g.edge u v := by
  constructor
  · intro given
    obtain ⟨x, y, same, edge⟩ := given
    obtain ⟨rfl, rfl⟩ := Prod.mk.inj (@arcNumbers_injective n (u, v) (x, y) same)
    exact edge
  · exact fun edge => ⟨u, v, rfl, edge⟩

theorem Digraph.minus_arcs (g : Digraph n) (c : Cut n) : g.minus c.toArcSet.arcs = g.without c.arcs := by
  ext u v
  have listed : (((u : Nat) : Int), ((v : Nat) : Int)) ∈ c.toArcSet.arcs ↔ (u, v) ∈ c.arcs :=
    List.mem_map_of_injective arcNumbers_injective (a := (u, v))
  simp [minus, without, listed]

/-- A cut breaks the graph when it is acceptable in numbers. -/
theorem Cut.acceptable_iff : c.toArcSet.Acceptable g ↔ c.Breaks g := by
  have permutation : c.toArcSet.sequence.Perm ((List.range n).map Int.ofNat) ↔ c.order.Perm (List.finRange n) := by
    rw [← numbers_finRange]
    exact List.map_perm_map_iff number_injective
  have edges : (∀ a ∈ c.toArcSet.arcs, g.HasArc a) ↔ ∀ a ∈ c.arcs, g.edge a.1 a.2 := by
    rw [toArcSet, List.forall_mem_map]
    exact forall₂_congr fun _ _ => Digraph.hasArc_iff
  constructor
  · intro h
    have perm := permutation.1 h.permutation
    refine ⟨perm, edges.1 h.edges, fun u v edge => or_iff_not_imp_left.2 fun kept => ?_⟩
    have forward := h.forward u v
    rw [g.minus_arcs] at forward
    have before := (Before.map_iff number_injective).1 (forward (Digraph.edge_without.2 ⟨edge, kept⟩))
    exact before.idxOf_lt (perm.nodup_iff.2 (List.nodup_finRange n))
  · intro h
    refine ⟨permutation.2 h.order, edges.2 h.arcs, fun u v edge => ?_⟩
    rw [g.minus_arcs] at edge
    have forward := h.isOrder_without.forward u v edge
    exact (Before.map_iff number_injective).2 ((Before.iff_idxOf_lt h.nodup (h.mem_order u) (h.mem_order v)).2 forward)

/-- Arcs that are edges are pairs of vertices written down in numbers. -/
theorem exists_arcs {arcs : List (Int × Int)} (edges : ∀ a ∈ arcs, g.HasArc a) :
    ∃ l : List (Fin n × Fin n), arcs = l.map fun a => (((a.1 : Nat) : Int), ((a.2 : Nat) : Int)) := by
  have range : arcs ∈ Set.range (List.map fun a : Fin n × Fin n => (((a.1 : Nat) : Int), ((a.2 : Nat) : Int))) := by
    rw [Set.range_list_map]
    intro a ha
    obtain ⟨u, v, rfl, -⟩ := edges a ha
    exact ⟨(u, v), rfl⟩
  obtain ⟨l, same⟩ := range
  exact ⟨l, same.symm⟩

theorem ArcSet.Acceptable.exists_cut (h : s.Acceptable g) : ∃ c : Cut n, s = c.toArcSet := by
  have range : s.sequence ∈ Set.range (List.map fun v : Fin n => ((v : Nat) : Int)) := by
    rw [Set.range_list_map]
    intro i hi
    have number := h.permutation.subset hi
    rw [← numbers_finRange] at number
    obtain ⟨v, -, same⟩ := List.mem_map.1 number
    exact ⟨v, same⟩
  obtain ⟨order, sequence⟩ := range
  obtain ⟨arcs, same⟩ := exists_arcs h.edges
  refine ⟨⟨arcs, order⟩, ?_⟩
  cases s
  exact congrArg₂ ArcSet.mk same sequence.symm

/-! ## What passes -/

theorem ArcSet.passes_iff : s.Passes g ↔ ∃ c : Cut n, s = c.toArcSet ∧ c.Breaks g := exists_congr fun _ => vet_eq_ok

/-- Vetting accepts what is acceptable and nothing else. -/
theorem ArcSet.passes_iff_acceptable : s.Passes g ↔ s.Acceptable g := by
  rw [passes_iff]
  constructor
  · intro given
    obtain ⟨c, rfl, breaks⟩ := given
    exact Cut.acceptable_iff.2 breaks
  · intro h
    obtain ⟨c, rfl⟩ := h.exists_cut
    exact ⟨c, rfl, Cut.acceptable_iff.1 h⟩

/-- An order of what is left of the graph completes the arcs to a cut. -/
theorem Digraph.IsOrder.breaks {arcs : List (Fin n × Fin n)} {order : List (Fin n)}
    (h : (g.without arcs).IsOrder order) (edges : ∀ a ∈ arcs, g.edge a.1 a.2) : Cut.Breaks ⟨arcs, order⟩ g where
  order := h.perm
  arcs := edges
  forward u v edge := or_iff_not_imp_left.2 fun kept => h.forward u v (edge_without.2 ⟨edge, kept⟩)

/-- Of all arc sets exactly the acceptable ones pass. Some sequence makes a list of arcs pass
    exactly when all are edges and the graph minus them has no cycle, and then the
    topological order of that graph does. -/
theorem ArcSet.vetting_decides (g : Digraph n) : (∀ s : ArcSet, s.Passes g ↔ s.Acceptable g) ∧
    ∀ arcs : List (Int × Int), [∃ sequence, Passes ⟨arcs, sequence⟩ g,
      (∀ a ∈ arcs, g.HasArc a) ∧ (g.minus arcs).Acyclic,
      ∃ order, (g.minus arcs).topologicalOrder? = some order ∧
        Passes ⟨arcs, order.map fun v : Fin n => ((v : Nat) : Int)⟩ g].TFAE := by
  refine ⟨fun s => passes_iff_acceptable, fun arcs => ?_⟩
  tfae_have 1 → 2 := by
    intro given
    obtain ⟨sequence, passes⟩ := given
    refine ⟨(passes_iff_acceptable.1 passes).edges, ?_⟩
    obtain ⟨c, same, breaks⟩ := passes_iff.1 passes
    obtain rfl : arcs = c.toArcSet.arcs := congrArg ArcSet.arcs same
    rw [g.minus_arcs]
    exact breaks.isOrder_without.acyclic
  tfae_have 2 → 3 := by
    intro given
    obtain ⟨edges, acyclic⟩ := given
    obtain ⟨order, found⟩ := Digraph.exists_topologicalOrder?_iff.2 acyclic
    refine ⟨order, found, ?_⟩
    obtain ⟨l, rfl⟩ := exists_arcs edges
    have isOrder := Digraph.isOrder_of_topologicalOrder? found
    have left : g.minus (l.map fun a => (((a.1 : Nat) : Int), ((a.2 : Nat) : Int))) = g.without l :=
      g.minus_arcs ⟨l, order⟩
    rw [left] at isOrder
    refine passes_iff.2 ⟨⟨l, order⟩, rfl, isOrder.breaks fun a ha => ?_⟩
    exact Digraph.hasArc_iff.1 (edges _ (List.mem_map_of_mem ha))
  tfae_have 3 → 1 := by
    intro given
    obtain ⟨order, -, passes⟩ := given
    exact ⟨_, passes⟩
  tfae_finish

end LoopFree
