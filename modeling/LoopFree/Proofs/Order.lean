/-
  LoopFree.Proofs.Order — topological orders.

  `IsOrder` says of a list that it has every vertex once and that every edge points
  forward in it. The queue finds such a list exactly when the graph is acyclic
  (`exists_topologicalOrder?_iff`): it places the least ready vertex each time, and in an
  acyclic graph any vertices that are left have one among them without an edge from the
  others (`Acyclic.exists_source`). `Before` is how two vertices stand in a list, whatever
  the list grows by.

  Of all topological orders it is the first, compared vertex by vertex from the front
  (`topologicalOrder?_least`): the first vertex of any order is ready, so the least ready
  vertex does not come after it (`least_of_orderFrom?`).
-/

import LoopFree.Proofs.Queue
import LoopFree.Proofs.Walk
import Mathlib.Data.Fintype.EquivFin
import Mathlib.Order.WellFounded

namespace LoopFree

/-- The one stands before the other in the list. -/
def Before {ι : Type} (l : List ι) (u v : ι) : Prop := [u, v].Sublist l

namespace Before

variable {ι : Type} {l k : List ι} {u v : ι}

theorem mono (h : Before l u v) (longer : l.Sublist k) : Before k u v := h.trans longer

theorem cons (h : Before l u v) (w : ι) : Before (w :: l) u v := h.mono (List.sublist_cons_self w l)

theorem head (hv : v ∈ l) : Before (u :: l) u v := (List.singleton_sublist.2 hv).cons_cons u

theorem append (hu : u ∈ l) (hv : v ∈ k) : Before (l ++ k) u v :=
  (List.singleton_sublist.2 hu).append (List.singleton_sublist.2 hv)

theorem mem_left (h : Before l u v) : u ∈ l := h.subset (by simp)

theorem mem_right (h : Before l u v) : v ∈ l := h.subset (by simp)

theorem cons_iff {w : ι} : Before (w :: l) u v ↔ Before l u v ∨ u = w ∧ v ∈ l := by
  rw [Before, List.cons_sublist_cons', List.singleton_sublist]
  exact Iff.rfl

theorem append_singleton_iff {w : ι} : Before (l ++ [w]) u v ↔ Before l u v ∨ v = w ∧ u ∈ l := by
  have turned (l : List ι) (a b : ι) : Before l a b ↔ Before l.reverse b a := List.reverse_sublist.symm
  rw [turned, List.reverse_append, List.reverse_singleton, List.singleton_append, cons_iff, ← turned, List.mem_reverse]

theorem total [DecidableEq ι] (hu : u ∈ l) (hv : v ∈ l) (ne : u ≠ v) : Before l u v ∨ Before l v u := by
  induction l with
  | nil => cases hu
  | cons w l ih =>
    rw [cons_iff, cons_iff]
    rcases List.mem_cons.1 hu with rfl | hu'
    · exact Or.inl (Or.inr ⟨rfl, (List.mem_cons.1 hv).resolve_left ne.symm⟩)
    · rcases List.mem_cons.1 hv with rfl | hv'
      · exact Or.inr (Or.inr ⟨rfl, hu'⟩)
      · exact (ih hu' hv').imp Or.inl Or.inl

theorem idxOf_lt [DecidableEq ι] (h : Before l u v) (nodup : l.Nodup) : l.idxOf u < l.idxOf v := by
  induction l with
  | nil => cases h
  | cons w l ih =>
    obtain ⟨new, nodup⟩ := List.nodup_cons.1 nodup
    have shift {x : ι} (hx : x ∈ l) : (w :: l).idxOf x = l.idxOf x + 1 :=
      List.idxOf_cons_ne l fun e => new (e ▸ hx)
    cases h with
    | cons _ h =>
      have := ih h nodup
      rw [shift (mem_left h), shift (mem_right h)]
      omega
    | cons_cons _ h =>
      rw [shift (List.singleton_sublist.1 h), List.idxOf_cons_self]
      omega

theorem iff_idxOf_lt [DecidableEq ι] (nodup : l.Nodup) (hu : u ∈ l) (hv : v ∈ l) :
    Before l u v ↔ l.idxOf u < l.idxOf v := by
  refine ⟨fun h => h.idxOf_lt nodup, fun less => ?_⟩
  have ne : u ≠ v := fun same => Nat.lt_irrefl _ (same ▸ less)
  refine (total hu hv ne).resolve_right fun back => ?_
  have := back.idxOf_lt nodup
  omega

end Before

namespace Digraph

variable {n : Nat} {g : Digraph n} {u v : Fin n}

/-- Every vertex stands in the list once, and every edge points forward. -/
structure IsOrder (g : Digraph n) (order : List (Fin n)) : Prop where
  perm : order.Perm (List.finRange n)
  forward : ∀ u v, g.edge u v → order.idxOf u < order.idxOf v

theorem IsOrder.acyclic {order : List (Fin n)} (h : g.IsOrder order) : g.Acyclic := acyclic_of_lt h.forward

theorem perm_finRange {l : List (Fin n)} (nodup : l.Nodup) (all : ∀ v, v ∈ l) : l.Perm (List.finRange n) :=
  (List.perm_ext_iff_of_nodup nodup (List.nodup_finRange n)).2 fun v => by simp [all v]

/-! ## The ends of an acyclic graph -/

theorem not_edge_self (acyclic : g.Acyclic) (v : Fin n) : ¬g.edge v v := fun edge => acyclic v (.single edge)

theorem exists_least {r : Fin n → Fin n → Prop} (trans : ∀ a b c, r a b → r b c → r a c) (irrefl : ∀ v, ¬r v v)
    {p : Fin n → Prop} (some : ∃ v, p v) : ∃ v, p v ∧ ∀ u, p u → ¬r u v := by
  have : IsTrans (Fin n) r := ⟨trans⟩
  have : Std.Irrefl r := ⟨irrefl⟩
  exact (Finite.wellFounded_of_trans_of_irrefl r).has_min {v | p v} some

/-- Some vertex has no edge from the others. -/
theorem Acyclic.exists_source (acyclic : g.Acyclic) {left : List (Fin n)} (some : left ≠ []) :
    ∃ v ∈ left, ∀ u ∈ left, ¬g.edge u v := by
  obtain ⟨v, hv, first⟩ := exists_least (r := g.Walk) (p := (· ∈ left)) (fun _ _ _ => Relation.TransGen.trans) acyclic
    (List.exists_mem_of_ne_nil left some)
  exact ⟨v, hv, fun u hu edge => first u hu (.single edge)⟩

/-- Some vertex has no edge to the others. -/
theorem Acyclic.exists_sink (acyclic : g.Acyclic) {left : List (Fin n)} (some : left ≠ []) :
    ∃ v ∈ left, ∀ u ∈ left, ¬g.edge v u := by
  obtain ⟨v, hv, last⟩ := exists_least (r := fun u v => g.Walk v u) (p := (· ∈ left))
    (fun _ _ _ second first => Relation.TransGen.trans first second) acyclic (List.exists_mem_of_ne_nil left some)
  exact ⟨v, hv, fun u hu edge => last u hu (.single edge)⟩

/-- Going on from vertex to vertex without end one comes to a cycle. -/
theorem exists_cycle {r : Fin n → Fin n → Prop} {left : List (Fin n)} (onward : ∀ v ∈ left, ∃ w ∈ left, r v w)
    (hu : u ∈ left) : ∃ v, Relation.ReflTransGen r u v ∧ Relation.TransGen r v v := by
  by_contra none
  -- of the vertices one comes to, a last one would have nowhere to go on to
  obtain ⟨v, ⟨hv, there⟩, last⟩ :=
    exists_least (r := fun w v => Relation.ReflTransGen r u v ∧ Relation.TransGen r v w)
      (p := fun v => v ∈ left ∧ Relation.ReflTransGen r u v) (fun _ _ _ second first => ⟨first.1, first.2.trans second.2⟩)
      (fun v cycle => none ⟨v, cycle⟩) ⟨u, hu, .refl⟩
  obtain ⟨w, hw, step⟩ := onward v hv
  exact last w ⟨hw, there.tail step⟩ ⟨there, .single step⟩

/-! ## Placing ready vertices -/

/-- An edge between vertices that were left points forward. -/
theorem before_of_orderFrom? {count : Nat} {left order : List (Fin n)} (h : g.orderFrom? count left = some order)
    (hu : u ∈ left) (hv : v ∈ left) (edge : g.edge u v) : Before order u v := by
  induction count generalizing left order with
  | zero =>
    have none := (perm_of_orderFrom? h).mem_iff.2 hu
    simp only [orderFrom?] at h
    split at h
    · rw [← Option.some.inj h] at none
      cases none
    · cases h
  | succ count ih =>
    obtain ⟨x, rest, found, placed, rfl⟩ := orderFrom?_succ.1 h
    have ready := ready_iff.1 (List.find?_some found)
    have later : v ≠ x := fun same => ready u hu (same ▸ edge)
    have hv := (List.mem_erase_of_ne later).2 hv
    by_cases first : u = x
    · rw [first]
      exact .head ((perm_of_orderFrom? placed).mem_iff.2 hv)
    · exact (ih placed ((List.mem_erase_of_ne first).2 hu) hv).cons x

theorem exists_orderFrom? (acyclic : g.Acyclic) {count : Nat} {left : List (Fin n)} (length : left.length = count) :
    ∃ order, g.orderFrom? count left = some order := by
  induction count generalizing left with
  | zero => exact ⟨[], by simp [orderFrom?, List.length_eq_zero_iff.1 length]⟩
  | succ count ih =>
    have some : left ≠ [] := List.ne_nil_of_length_eq_add_one length
    obtain ⟨v, hv, ready⟩ := acyclic.exists_source some
    have known : (left.find? (g.ready left)).isSome := List.find?_isSome.2 ⟨v, hv, ready_iff.2 ready⟩
    obtain ⟨x, found⟩ := Option.isSome_iff_exists.1 known
    have shorter : (left.erase x).length = count := by
      rw [List.length_erase_of_mem (List.mem_of_find?_eq_some found), length, Nat.add_sub_cancel]
    obtain ⟨rest, placed⟩ := ih shorter
    exact ⟨x :: rest, orderFrom?_succ.2 ⟨x, rest, found, placed, rfl⟩⟩

theorem isOrder_of_topologicalOrder? {order : List (Fin n)} (h : g.topologicalOrder? = some order) :
    g.IsOrder order := by
  rw [topologicalOrder?_eq] at h
  refine ⟨perm_of_orderFrom? h, fun u v edge => ?_⟩
  have before := before_of_orderFrom? h (List.mem_finRange u) (List.mem_finRange v) edge
  exact before.idxOf_lt ((perm_of_orderFrom? h).nodup_iff.2 (List.nodup_finRange n))

/-- There is a topological order exactly when there is no cycle. -/
theorem exists_topologicalOrder?_iff : (∃ order, g.topologicalOrder? = some order) ↔ g.Acyclic := by
  constructor
  · intro given
    obtain ⟨order, h⟩ := given
    exact (isOrder_of_topologicalOrder? h).acyclic
  · intro acyclic
    rw [topologicalOrder?_eq]
    exact exists_orderFrom? acyclic (List.length_finRange)

/-! ## The least order -/

/-- In a topological order no later vertex has an edge to an earlier one. -/
theorem IsOrder.pairwise {order : List (Fin n)} (h : g.IsOrder order) :
    order.Pairwise fun v w => ¬g.edge w v := by
  have nodup : order.Nodup := h.perm.nodup_iff.2 (List.nodup_finRange n)
  refine List.pairwise_iff_getElem.2 fun i j hi hj earlier edge => ?_
  have forward := h.forward _ _ edge
  rw [nodup.idxOf_getElem, nodup.idxOf_getElem] at forward
  omega

theorem le_of_find? {p : Fin n → Bool} {left : List (Fin n)} (sorted : left.Pairwise (· < ·))
    (found : left.find? p = some v) (hu : u ∈ left) (fits : p u) : v ≤ u := by
  obtain ⟨-, before, after, rfl, none⟩ := List.find?_eq_some_iff_append.1 found
  rcases List.mem_append.1 hu with hu | hu
  · have := none u hu
    simp [fits] at this
  · rcases List.mem_cons.1 hu with rfl | hu
    · exact Nat.le_refl _
    · have later := (List.pairwise_cons.1 (List.pairwise_append.1 sorted).2.1).1 u hu
      exact Nat.le_of_lt later

/-- No list of the vertices that were left, without an edge against it, comes before the one
    that was found. -/
theorem least_of_orderFrom? {count : Nat} {left order other : List (Fin n)} (h : g.orderFrom? count left = some order)
    (sorted : left.Pairwise (· < ·)) (perm : other.Perm left) (noLoop : ∀ v, ¬g.edge v v)
    (forward : other.Pairwise fun v w => ¬g.edge w v) : order = other ∨ List.Lex (· < ·) order other := by
  induction count generalizing left order other with
  | zero =>
    have none : left = [] := by simpa [orderFrom?] using Option.isSome_of_eq_some h
    have nothing := perm_of_orderFrom? h
    rw [none] at perm nothing
    exact Or.inl (nothing.eq_nil.trans perm.eq_nil.symm)
  | succ count ih =>
    obtain ⟨v, rest, found, placed, rfl⟩ := orderFrom?_succ.1 h
    cases other with
    | nil =>
      rw [← perm.nil_eq] at found
      cases found
    | cons x others =>
      obtain ⟨hx, permOthers⟩ := List.cons_perm_iff_perm_erase.1 perm
      obtain ⟨first, forwardOthers⟩ := List.pairwise_cons.1 forward
      have ready : g.ready left x := by
        refine ready_iff.2 fun u hu => ?_
        rcases List.mem_cons.1 (perm.mem_iff.2 hu) with rfl | hu
        · exact noLoop u
        · exact first u hu
      have least := le_of_find? sorted found hx ready
      rcases Fin.lt_or_eq_of_le least with less | rfl
      · exact Or.inr (.rel less)
      · rcases ih placed (sorted.sublist List.erase_sublist) permOthers forwardOthers with same | less
        · exact Or.inl (congrArg _ same)
        · exact Or.inr (.cons less)

/-- A topological order that no other one precedes, compared vertex by vertex from the front. -/
structure IsLeastOrder (g : Digraph n) (order : List (Fin n)) : Prop extends g.IsOrder order where
  least : ∀ other, g.IsOrder other → order = other ∨ List.Lex (· < ·) order other

/-- The order of an acyclic graph is its least topological order, and the queue has been
    worked off when it is found. -/
theorem topologicalOrder?_least (acyclic : g.Acyclic) :
    (∃ order, g.topologicalOrder? = some order ∧ g.IsLeastOrder order) ∧ ((Queue.start g).turns g n).ready = [] := by
  obtain ⟨order, found⟩ := exists_topologicalOrder?_iff.2 acyclic
  have placed : g.orderFrom? n (List.finRange n) = some order := g.topologicalOrder?_eq ▸ found
  refine ⟨⟨order, found, isOrder_of_topologicalOrder? found, fun other h => ?_⟩, Queue.ready_turns_start g⟩
  exact least_of_orderFrom? placed (List.pairwise_lt_finRange n) h.perm (not_edge_self acyclic) h.pairwise

/-- `1` comes before `2` and `3` before `0`. -/
def twoChains : Digraph 4 := .ofEdges [(1, 2), (3, 0)]

/-- Of the six orders the least starts with the chain of `1`, though `0` is a smaller vertex. -/
theorem topologicalOrder?_least_twoChains : twoChains.Acyclic ∧ twoChains.IsOrder [3, 0, 1, 2] ∧
    twoChains.topologicalOrder? = some [1, 2, 3, 0] ∧ twoChains.IsLeastOrder [1, 2, 3, 0] ∧
    ((Queue.start twoChains).turns twoChains 4).ready = [] := by
  have other : twoChains.IsOrder [3, 0, 1, 2] := ⟨by decide, by decide⟩
  have found : twoChains.topologicalOrder? = some [1, 2, 3, 0] := by
    rw [topologicalOrder?_eq]
    decide
  obtain ⟨⟨order, same, least⟩, ready⟩ := topologicalOrder?_least other.acyclic
  obtain rfl := Option.some.inj (found.symm.trans same)
  exact ⟨other.acyclic, other, found, least, ready⟩

end Digraph
end LoopFree
