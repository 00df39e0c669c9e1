/-
  LoopFree.Proofs.Peeling — what the greedy order looks like from its ends.

  `Peeling` is the greedy order without its rounds and sweeps: a sink of the vertices that
  are left goes behind the order of the others, a source in front of it, and when the
  vertices are `Stuck`, without sink and source, one goes in front that has no more edges
  from the others than to them. The greedy order is such an order (`greedyOrder_peeling`);
  the best vertex is as asked because the surpluses of the vertices left sum to zero
  (`inDegree_le_of_best?`).

  So a vertex placed has at least as many edges to those behind it as from them, and at
  most half of the proper edges point backward (`two_mul_backward_le`). And an edge that
  points backward was drawn while the vertices were stuck: from its source one comes to a
  cycle both along the edges and against them (`between_of_mem_greedyCut`).
-/

import LoopFree.Proofs.Greedy
import Mathlib.Algebra.Order.BigOperators.Group.List
import Mathlib.Algebra.Order.Group.Nat
import Mathlib.Algebra.Ring.Nat

namespace LoopFree.Digraph

variable {n : Nat} {g : Digraph n} {l : List (Fin n)} {u v w : Fin n}

/-- Each of the vertices has an edge to another of them and one from another of them. -/
def Stuck (g : Digraph n) (l : List (Fin n)) : Prop :=
  ∀ v ∈ l, (∃ w ∈ l, g.edge v w) ∧ ∃ w ∈ l, g.edge w v

/-- An order in which every vertex was a sink of those up to it, a source of those from it
    on, or one of many that were stuck and had no more edges from the others than to them. -/
inductive Peeling (g : Digraph n) : List (Fin n) → Prop
  | nil : Peeling g []
  | sink {l : List (Fin n)} {v : Fin n} : Peeling g l → (∀ w ∈ l, ¬g.edge v w) → Peeling g (l ++ [v])
  | source {l : List (Fin n)} {v : Fin n} : Peeling g l → (∀ w ∈ l, ¬g.edge w v) → Peeling g (v :: l)
  | best {l : List (Fin n)} {v : Fin n} : Peeling g l → g.Stuck (v :: l) →
      (l.countP fun w => g.edge w v) ≤ l.countP (g.edge v) → Peeling g (v :: l)

/-! ## The surpluses -/

/-- Summing over the rows counts the same pairs as summing over the columns. -/
theorem sum_countP_comm (r : Fin n → Fin n → Bool) (l k : List (Fin n)) :
    (l.map fun v => k.countP (r v)).sum = (k.map fun w => l.countP fun v => r v w).sum := by
  have row (v : Fin n) (k : List (Fin n)) : (k.map fun w => if r v w then 1 else 0).sum = k.countP (r v) := by
    induction k with
    | nil => rfl
    | cons w k ih => rw [List.map_cons, List.sum_cons, ih, List.countP_cons, Nat.add_comm]
  induction l with
  | nil => simp
  | cons v l ih =>
    simp only [List.map_cons, List.sum_cons, List.countP_cons, List.sum_map_add, ih, row]
    exact Nat.add_comm _ _

namespace Placing

variable {p q : Placing n}

theorem sum_outDegree (g : Digraph n) (p : Placing n) :
    (p.left.map (p.outDegree g)).sum = (p.left.map (p.inDegree g)).sum := by
  refine (sum_countP_comm (fun v w => w ≠ v && g.edge v w) p.left p.left).trans ?_
  refine congrArg List.sum (List.map_congr_left fun w _ => List.countP_congr fun v _ => ?_)
  simp [eq_comm (a := w)]

/-- The best vertex has no more edges from the vertices left than to them. -/
theorem inDegree_le_of_best? (best : p.best? g = some v) : p.inDegree g v ≤ p.outDegree g v := by
  have chosen := List.find?_some best
  have most := List.all_eq_true.1 chosen
  by_contra more
  have less : ∀ w ∈ p.left, p.outDegree g w < p.inDegree g w := by
    intro w hw
    have := of_decide_eq_true (most w hw)
    unfold surplus at this
    omega
  have some : p.left ≠ [] := List.ne_nil_of_mem (mem_left_of_best? best)
  have := List.sum_lt_sum_of_ne_nil some _ _ less
  have := p.sum_outDegree g
  omega

/-! ## The greedy order is a peeling -/

/-- The degrees of a vertex that is left, counted over the others in any order. -/
theorem degrees_eq (perm : l.Perm (p.left.erase v)) (hv : v ∈ p.left) (nodup : p.left.Nodup) :
    p.outDegree g v = l.countP (g.edge v) ∧ p.inDegree g v = l.countP fun w => g.edge w v := by
  have all : p.left.Perm (v :: l) := (List.perm_cons_erase hv).trans (perm.symm.cons v)
  have new : v ∉ l := (List.nodup_cons.1 (all.nodup_iff.1 nodup)).1
  have other (w : Fin n) (hw : w ∈ l) : w ≠ v := fun same => new (same ▸ hw)
  constructor
  · rw [outDegree, all.countP_eq, List.countP_cons_of_neg (by simp)]
    exact List.countP_congr fun w hw => by simp [other w hw]
  · rw [inDegree, all.countP_eq, List.countP_cons_of_neg (by simp)]
    exact List.countP_congr fun w hw => by simp [other w hw]

theorem stuck_of_degrees (all : l.Perm p.left) (noSink : ∀ w ∈ p.left, p.outDegree g w ≠ 0)
    (noSource : ∀ w ∈ p.left, p.inDegree g w ≠ 0) : g.Stuck l := by
  intro w hw
  have hw := all.mem_iff.1 hw
  constructor
  · obtain ⟨x, hx, edge⟩ := List.countP_pos_iff.1 (Nat.pos_of_ne_zero (noSink w hw))
    exact ⟨x, all.mem_iff.2 hx, (Bool.and_eq_true_iff.1 edge).2⟩
  · obtain ⟨x, hx, edge⟩ := List.countP_pos_iff.1 (Nat.pos_of_ne_zero (noSource w hw))
    exact ⟨x, all.mem_iff.2 hx, (Bool.and_eq_true_iff.1 edge).2⟩

/-- What a run adds between front and back is a peeling of the vertices that were left. -/
theorem Run.exists_peeling (run : Run g p q) (none : q.left = []) (nodup : p.left.Nodup) :
    ∃ l, g.Peeling l ∧ l.Perm p.left ∧ q.order = p.front ++ (l ++ p.back) := by
  -- from the end of the run to its start: the vertex placed first stands outermost
  induction run using Relation.ReflTransGen.head_induction_on with
  | refl => exact ⟨[], .nil, by rw [none], rfl⟩
  | head step _ ih =>
    obtain ⟨v, hv, left⟩ := step.exists_erase
    obtain ⟨l, peeling, perm, order⟩ := ih (left ▸ nodup.erase v)
    cases step with
    | sink hv zero =>
      have all := (List.perm_cons_erase hv).trans (perm.symm.cons _)
      rw [(degrees_eq perm hv nodup).1, List.countP_eq_zero] at zero
      refine ⟨l ++ [_], .sink peeling fun w hw => by simpa using zero w hw, ?_, ?_⟩
      · exact (List.perm_append_singleton _ l).trans all.symm
      · rw [order, toBack, List.append_assoc l]
        rfl
    | source hv zero =>
      have all := (List.perm_cons_erase hv).trans (perm.symm.cons _)
      rw [(degrees_eq perm hv nodup).2, List.countP_eq_zero] at zero
      refine ⟨_ :: l, .source peeling fun w hw => by simpa using zero w hw, all.symm, ?_⟩
      rw [order, toFront, List.append_assoc]
      rfl
    | best noSink noSource best =>
      have hv := mem_left_of_best? best
      have all := (List.perm_cons_erase hv).trans (perm.symm.cons _)
      have most := inDegree_le_of_best? best
      obtain ⟨outward, inward⟩ := degrees_eq (g := g) perm hv nodup
      rw [outward, inward] at most
      refine ⟨_ :: l, .best peeling (stuck_of_degrees all.symm noSink noSource) most, all.symm, ?_⟩
      rw [order, toFront, List.append_assoc]
      rfl

end Placing

theorem greedyOrder_peeling (g : Digraph n) : g.Peeling g.greedyOrder := by
  obtain ⟨l, peeling, -, order⟩ :=
    (Placing.run_start g).exists_peeling (Placing.left_rounds g) (List.nodup_finRange n)
  have same : g.greedyOrder = [] ++ (l ++ []) := g.greedyOrder_eq.trans order
  rw [same, List.nil_append, List.append_nil]
  exact peeling

/-! ## Counting backward edges -/

/-- The related pairs of a list, first the vertex that stands first. -/
def pairs (r : Fin n → Fin n → Bool) : List (Fin n) → List (Fin n × Fin n)
  | [] => []
  | v :: l => (l.filter (r v)).map (fun w => (v, w)) ++ pairs r l

section
variable {r : Fin n → Fin n → Bool}

theorem mem_pairs : (u, v) ∈ pairs r l ↔ Before l u v ∧ r u v := by
  induction l with
  | nil => simp [pairs, Before]
  | cons w l ih =>
    simp only [pairs, List.mem_append, List.mem_map, List.mem_filter, Prod.mk.injEq, ih, Before.cons_iff]
    constructor
    · rintro (⟨x, ⟨hx, related⟩, rfl, rfl⟩ | ⟨before, related⟩)
      · exact ⟨Or.inr ⟨rfl, hx⟩, related⟩
      · exact ⟨Or.inl before, related⟩
    · rintro ⟨before | ⟨rfl, hv⟩, related⟩
      · exact Or.inr ⟨before, related⟩
      · exact Or.inl ⟨v, ⟨hv, related⟩, rfl, rfl⟩

theorem nodup_pairs (nodup : l.Nodup) : (pairs r l).Nodup := by
  induction l with
  | nil => exact List.nodup_nil
  | cons w l ih =>
    obtain ⟨new, nodup⟩ := List.nodup_cons.1 nodup
    refine List.nodup_append.2 ⟨(nodup.filter _).map fun _ _ e => (Prod.mk.inj e).2, ih nodup, ?_⟩
    rintro a first ⟨b, c⟩ later rfl
    obtain ⟨x, -, e⟩ := List.mem_map.1 first
    obtain ⟨rfl, -⟩ := Prod.mk.inj e
    exact new (mem_pairs.1 later).1.mem_left

theorem length_pairs_cons (v : Fin n) (l : List (Fin n)) :
    (pairs r (v :: l)).length = l.countP (r v) + (pairs r l).length := by
  rw [pairs, List.length_append, List.length_map, List.countP_eq_length_filter]

theorem length_pairs_append (l : List (Fin n)) (v : Fin n) :
    (pairs r (l ++ [v])).length = (pairs r l).length + l.countP fun w => r w v := by
  induction l with
  | nil => rfl
  | cons w l ih =>
    rw [List.cons_append, length_pairs_cons, length_pairs_cons, ih, List.countP_append, List.countP_singleton,
      List.countP_cons]
    omega

/-- Distinct pairs that are related and stand in this order are as many as there are such pairs. -/
theorem length_eq_pairs (nodup : l.Nodup) {arcs : List (Fin n × Fin n)} (once : arcs.Nodup)
    (mem : ∀ u v, (u, v) ∈ arcs ↔ Before l u v ∧ r u v) : arcs.length = (pairs r l).length :=
  ((List.perm_ext_iff_of_nodup once (nodup_pairs nodup)).2 fun a => (mem a.1 a.2).trans mem_pairs.symm).length_eq

end

/-- In a peeling no more edges point backward than forward. -/
theorem Peeling.backward_le_forward (h : g.Peeling l) :
    (pairs (fun v w => g.edge w v) l).length ≤ (pairs g.edge l).length := by
  induction h with
  | nil => exact Nat.le_refl _
  | @sink l v _ last ih =>
    have none : (l.countP fun w => g.edge v w) = 0 := List.countP_eq_zero.2 last
    rw [length_pairs_append, length_pairs_append, none]
    omega
  | @source l v _ first ih =>
    have none : (l.countP fun w => g.edge w v) = 0 := List.countP_eq_zero.2 first
    rw [length_pairs_cons, length_pairs_cons, none]
    omega
  | @best l v _ _ most ih =>
    rw [length_pairs_cons, length_pairs_cons]
    omega

/-- The arcs that are no loops. -/
def proper (arcs : List (Fin n × Fin n)) : List (Fin n × Fin n) := arcs.filter fun a => a.1 ≠ a.2

section
variable {order : List (Fin n)} (perm : order.Perm (List.finRange n))
include perm

theorem before_iff_idxOf_lt : Before order u v ↔ order.idxOf u < order.idxOf v :=
  Before.iff_idxOf_lt (perm.nodup_iff.2 (List.nodup_finRange n)) (perm.mem_iff.2 (List.mem_finRange u))
    (perm.mem_iff.2 (List.mem_finRange v))

theorem mem_proper_backward : (u, v) ∈ proper (g.backward order) ↔ Before order v u ∧ g.edge u v := by
  have apart : order.idxOf v = order.idxOf u ↔ v = u := List.idxOf_inj (perm.mem_iff.2 (List.mem_finRange v))
  simp only [proper, List.mem_filter, mem_backward, before_iff_idxOf_lt perm, decide_eq_true_eq]
  constructor
  · intro given
    obtain ⟨⟨edge, backward⟩, ne⟩ := given
    have := mt apart.1 (Ne.symm ne)
    exact ⟨by omega, edge⟩
  · intro given
    obtain ⟨backward, edge⟩ := given
    refine ⟨⟨edge, Nat.le_of_lt backward⟩, fun same => ?_⟩
    have := apart.2 same.symm
    omega

theorem length_proper_backward (g : Digraph n) :
    (proper (g.backward order)).length = (pairs (fun v w => g.edge w v) order).length := by
  have nodup := perm.nodup_iff.2 (List.nodup_finRange n)
  have once : (proper (g.backward order)).Nodup := (g.nodup_edges.filter _).filter _
  rw [← List.length_map Prod.swap]
  refine length_eq_pairs nodup (once.map Prod.swap_injective) fun v u => ?_
  rw [← mem_proper_backward perm, List.mem_map]
  constructor
  · rintro ⟨⟨a, b⟩, arc, e⟩
    obtain ⟨rfl, rfl⟩ := Prod.mk.inj e
    exact arc
  · exact fun arc => ⟨(u, v), arc, rfl⟩

/-- A proper edge points forward or backward. -/
theorem length_proper_edges (g : Digraph n) :
    (proper g.edges).length = (pairs g.edge order).length + (proper (g.backward order)).length := by
  have nodup := perm.nodup_iff.2 (List.nodup_finRange n)
  have forward : ((proper g.edges).filter fun e => order.idxOf e.1 < order.idxOf e.2).length =
      (pairs g.edge order).length := by
    refine length_eq_pairs nodup ((g.nodup_edges.filter _).filter _) fun u v => ?_
    simp only [proper, List.mem_filter, mem_edges, before_iff_idxOf_lt perm, decide_eq_true_eq]
    constructor
    · exact fun given => ⟨given.2, given.1.1⟩
    · intro given
      obtain ⟨less, edge⟩ := given
      exact ⟨⟨edge, fun same => Nat.lt_irrefl _ (same ▸ less)⟩, less⟩
  have backward : ((proper g.edges).filter fun e => !decide (order.idxOf e.1 < order.idxOf e.2)) =
      proper (g.backward order) := by
    rw [proper, proper, Digraph.backward, List.filter_comm]
    refine congrArg _ (List.filter_congr fun e _ => ?_)
    rw [← decide_not]
    simp only [Nat.not_lt]
  rw [List.length_eq_length_filter_add fun e => order.idxOf e.1 < order.idxOf e.2, forward, backward]

end

theorem two_mul_backward_le (g : Digraph n) :
    2 * (proper (g.backward g.greedyOrder)).length ≤ (proper g.edges).length := by
  have most := g.greedyOrder_peeling.backward_le_forward
  rw [← length_proper_backward g.greedyOrder_perm] at most
  rw [length_proper_edges g.greedyOrder_perm]
  omega

/-! ## Between cycles -/

/-- The vertex is on the way from a cycle to a cycle. -/
def Between (g : Digraph n) (v : Fin n) : Prop :=
  (∃ u, g.Walk u u ∧ g.Reaches u v) ∧ ∃ w, g.Reaches v w ∧ g.Walk w w

theorem Between.of_walk (h : g.Walk v v) : g.Between v := ⟨⟨v, h, .refl v⟩, v, .refl v, h⟩

theorem Stuck.between (h : g.Stuck l) (hv : v ∈ l) : g.Between v := by
  constructor
  · obtain ⟨u, there, cycle⟩ := exists_cycle (r := fun v w => g.edge w v) (fun v hv => (h v hv).2) hv
    exact ⟨u, Relation.transGen_swap.1 cycle, Relation.reflTransGen_swap.1 there⟩
  · exact exists_cycle (fun v hv => (h v hv).1) hv

/-- An edge against a peeling starts between cycles. -/
theorem Peeling.between (h : g.Peeling l) (before : Before l v u) (edge : g.edge u v) : g.Between u := by
  induction h with
  | nil => cases before
  | sink _ last ih =>
    rcases Before.append_singleton_iff.1 before with before | ⟨rfl, hv⟩
    · exact ih before
    · exact absurd edge (last v hv)
  | source _ first ih =>
    rcases Before.cons_iff.1 before with before | ⟨rfl, hu⟩
    · exact ih before
    · exact absurd edge (first u hu)
  | best _ stuck _ ih =>
    rcases Before.cons_iff.1 before with before | ⟨rfl, hu⟩
    · exact ih before
    · exact stuck.between (List.mem_cons_of_mem _ hu)

/-- A greedy arc starts between cycles. -/
theorem between_of_mem_greedyCut (arc : (u, v) ∈ g.greedyCut.arcs) : g.Between u := by
  have backward := g.greedyCut_arcs_perm.mem_iff.1 arc
  by_cases loop : u = v
  · obtain ⟨edge, -⟩ := mem_backward.1 backward
    rw [← loop] at edge
    exact .of_walk (.single edge)
  · have arc : (u, v) ∈ proper (g.backward g.greedyOrder) := List.mem_filter.2 ⟨backward, by simpa using loop⟩
    obtain ⟨before, edge⟩ := (mem_proper_backward g.greedyOrder_perm).1 arc
    exact g.greedyOrder_peeling.between before edge

end LoopFree.Digraph

namespace LoopFree.Resolver

/-- The greedy resolver breaks every loop, and at most half of the edges that are no loops. -/
theorem greedy_breaks_half (n : Nat) (g : Digraph n) : ∃ c : Cut n, greedy n g = some c.toArcSet ∧
    (∀ v, g.edge v v → (v, v) ∈ c.arcs) ∧
      2 * (Digraph.proper c.arcs).length ≤ (Digraph.proper g.edges).length := by
  refine ⟨g.greedyCut, rfl, fun v loop => ?_, ?_⟩
  · exact g.greedyCut_arcs_perm.mem_iff.2 (Digraph.mem_backward.2 ⟨loop, Nat.le_refl _⟩)
  · have same : (Digraph.proper g.greedyCut.arcs).length = (Digraph.proper (g.backward g.greedyOrder)).length :=
      (g.greedyCut_arcs_perm.filter _).length_eq
    rw [same]
    exact g.two_mul_backward_le

end LoopFree.Resolver
