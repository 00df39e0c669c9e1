/-
  LoopFree.Proofs.Queue — what the in-degrees count.

  A vertex is `ready` when none of the vertices left has an edge to it, and `orderFrom?`
  places the least such vertex each time. The queue does the same without looking at the
  edges again: `Counts` says that its in-degrees count the edges from the vertices left and
  that its ready vertices are those without one. Placing a vertex takes one from the
  in-degree of each successor, which keeps this (`Counts.place`), so the queue places what
  `orderFrom?` does, and comes to the end of its ready vertices early exactly when
  `orderFrom?` finds none (`topologicalOrder?_eq`).
-/

import LoopFree.Graph.Order
import Mathlib.Data.List.FinRange
import Mathlib.Data.List.Nodup

namespace LoopFree.Digraph

variable {n : Nat} {g : Digraph n} {left : List (Fin n)} {u v w : Fin n}

def ready (g : Digraph n) (left : List (Fin n)) (v : Fin n) : Bool := left.all fun u => !g.edge u v

/-- Orders the vertices of `left`; `count` is their number. -/
def orderFrom? (g : Digraph n) : (count : Nat) → (left : List (Fin n)) → Option (List (Fin n))
  | 0, left => if left.isEmpty then some [] else none
  | count + 1, left => do
    let v ← left.find? (g.ready left)
    let rest ← g.orderFrom? count (left.erase v)
    pure (v :: rest)

theorem ready_iff : g.ready left v ↔ ∀ u ∈ left, ¬g.edge u v := by
  simp [ready]

theorem ready_iff_countP : g.ready left v ↔ (left.countP fun u => g.edge u v) = 0 := by
  rw [ready_iff, List.countP_eq_zero]

theorem orderFrom?_succ {count : Nat} {order : List (Fin n)} :
    g.orderFrom? (count + 1) left = some order ↔ ∃ v rest, left.find? (g.ready left) = some v ∧
      g.orderFrom? count (left.erase v) = some rest ∧ order = v :: rest := by
  simp only [orderFrom?, Option.bind_eq_bind, Option.bind_eq_some_iff, Option.pure_def, Option.some.injEq]
  constructor
  · intro given
    obtain ⟨v, found, rest, placed, rfl⟩ := given
    exact ⟨v, rest, found, placed, rfl⟩
  · intro given
    obtain ⟨v, rest, found, placed, rfl⟩ := given
    exact ⟨v, found, rest, placed, rfl⟩

theorem perm_of_orderFrom? {count : Nat} {left order : List (Fin n)} (h : g.orderFrom? count left = some order) :
    order.Perm left := by
  induction count generalizing left order with
  | zero =>
    simp only [orderFrom?, List.isEmpty_iff] at h
    split at h
    · rename_i none
      rw [none, ← Option.some.inj h]
    · cases h
  | succ count ih =>
    obtain ⟨v, rest, found, placed, rfl⟩ := orderFrom?_succ.1 h
    exact ((ih placed).cons v).trans (List.perm_cons_erase (List.mem_of_find?_eq_some found)).symm

namespace Queue

variable {q : Queue n}

/-! ## Releasing successors -/

theorem foldl_release {released : List (Fin n)} (nodup : released.Nodup) :
    (released.foldl release q).order = q.order ∧
      (released.foldl release q).inDegree = released.foldl Degrees.lower q.inDegree ∧
      (released.foldl release q).ready = q.ready ++ released.filter fun v => q.inDegree.get v - 1 = 0 := by
  induction released generalizing q with
  | nil => simp
  | cons w released ih =>
    obtain ⟨new, nodup⟩ := List.nodup_cons.1 nodup
    obtain ⟨order, degrees, ready⟩ := ih (q := q.release w) nodup
    have own : (q.inDegree.lower w).get w = q.inDegree.get w - 1 := by rw [Degrees.get_lower, if_pos rfl]
    have other (v : Fin n) (hv : v ∈ released) : (q.release w).inDegree.get v = q.inDegree.get v := by
      have ne : v ≠ w := fun same => new (same ▸ hv)
      rw [release, Degrees.get_lower, if_neg ne]
    refine ⟨order, degrees, ?_⟩
    rw [List.foldl_cons, ready, List.filter_congr fun v hv => by rw [other v hv], List.filter_cons]
    simp only [release, own, decide_eq_true_eq]
    by_cases zero : q.inDegree.get w - 1 = 0
    · rw [if_pos zero, if_pos zero]
      exact List.append_assoc q.ready [w] _
    · rw [if_neg zero, if_neg zero]

/-! ## Counting -/

/-- The queue counts the edges from the vertices of `left` and waits with those of them that
    are ready; no edge leads from them to a vertex placed before. -/
structure Counts (g : Digraph n) (left : List (Fin n)) (q : Queue n) : Prop where
  sorted : left.Pairwise (· < ·)
  inDegree : ∀ v : Fin n, q.inDegree.get v = left.countP fun u => g.edge u v
  ready : q.ready.Perm (left.filter (g.ready left))
  closed : ∀ v, v ∉ left → g.ready left v

@[simp] theorem order_start (g : Digraph n) : (start g).order = [] := rfl

theorem counts_start (g : Digraph n) : (start g).Counts g (List.finRange n) where
  sorted := List.pairwise_lt_finRange n
  inDegree v := by simp [start]
  ready := by
    refine .of_eq (List.filter_congr fun v _ => ?_)
    rw [Bool.eq_iff_iff, ready_iff_countP, decide_eq_true_eq, Degrees.get_ofFn]
  closed v new := absurd (List.mem_finRange v) new

namespace Counts

variable (h : q.Counts g left)
include h

theorem nodup : left.Nodup := h.sorted.imp Fin.ne_of_lt

/-- Sorting puts the ready vertices as they are among those left. -/
theorem mergeSort_ready : q.ready.mergeSort (· ≤ ·) = left.filter (g.ready left) := by
  have sorted : (q.ready.mergeSort (· ≤ ·)).Pairwise (· ≤ ·) := by
    refine (List.pairwise_mergeSort (fun a b c => ?_) (fun a b => ?_) q.ready).imp of_decide_eq_true
    · simpa using Fin.le_trans
    · simpa using Fin.le_total a b
  have sorted' : (left.filter (g.ready left)).Pairwise (· ≤ ·) := (h.sorted.filter _).imp Fin.le_of_lt
  exact ((List.mergeSort_perm _ _).trans h.ready).eq_of_pairwise (fun _ _ _ _ => Fin.le_antisymm) sorted sorted'

theorem place_eq_of_none (none : left.filter (g.ready left) = []) : q.place g = q := by
  rw [Queue.place, h.mergeSort_ready, none]

theorem inDegree_eq (hv : v ∈ left) (w : Fin n) :
    q.inDegree.get w = ((left.erase v).countP fun u => g.edge u w) + if g.edge v w then 1 else 0 := by
  rw [h.inDegree, countP_erase_of_mem hv fun u => g.edge u w]

/-- Placing a ready vertex leaves the others that were ready, and makes those ready that had
    their last edge from it. -/
theorem mem_ready_erase (hv : v ∈ left) (source : g.ready left v) :
    w ∈ (left.erase v).filter (g.ready (left.erase v)) ↔
      (w ∈ left.filter (g.ready left) ∧ w ≠ v) ∨ (g.edge v w ∧ q.inDegree.get w - 1 = 0) := by
  have degree := h.inDegree_eq hv w
  have ready : g.ready left w ↔ q.inDegree.get w = 0 := by rw [ready_iff_countP, h.inDegree]
  rw [List.mem_filter, List.mem_filter, h.nodup.mem_erase_iff, ready, ready_iff_countP]
  by_cases edge : g.edge v w
  · rw [if_pos edge] at degree
    have ne : w ≠ v := fun same => ready_iff.1 source v hv (same ▸ edge)
    have hw : w ∈ left := by
      by_contra new
      exact ready_iff.1 (h.closed w new) v hv edge
    constructor
    · exact fun given => Or.inr ⟨edge, by omega⟩
    · rintro (⟨⟨-, zero⟩, -⟩ | ⟨-, last⟩)
      · omega
      · exact ⟨⟨ne, hw⟩, by omega⟩
  · rw [if_neg edge, Nat.add_zero] at degree
    rw [← degree]
    constructor
    · exact fun given => Or.inl ⟨⟨given.1.2, given.2⟩, given.1.1⟩
    · rintro (⟨⟨hw, zero⟩, ne⟩ | ⟨edge', -⟩)
      · exact ⟨⟨ne, hw⟩, zero⟩
      · exact absurd edge' edge

theorem place (found : left.find? (g.ready left) = some v) :
    (q.place g).Counts g (left.erase v) ∧ (q.place g).order = q.order ++ [v] := by
  have hv := List.mem_of_find?_eq_some found
  have source := List.find?_some found
  obtain ⟨rest, sorted⟩ : ∃ rest, q.ready.mergeSort (· ≤ ·) = v :: rest := by
    rw [h.mergeSort_ready]
    exact List.head?_eq_some_iff.1 (by rw [List.head?_filter, found])
  have waiting : v :: rest = left.filter (g.ready left) := sorted.symm.trans h.mergeSort_ready
  obtain ⟨new, nodup⟩ := List.nodup_cons.1 (waiting ▸ h.nodup.filter (g.ready left))
  have others (w : Fin n) : w ∈ rest ↔ w ∈ left.filter (g.ready left) ∧ w ≠ v := by
    rw [← waiting, List.mem_cons]
    exact ⟨fun hw => ⟨Or.inr hw, fun same => new (same ▸ hw)⟩, fun given => given.1.resolve_left given.2⟩
  have placed : q.place g = (g.successors v).foldl release { q with ready := rest, order := q.order ++ [v] } := by
    rw [Queue.place, sorted]
  have successors : (g.successors v).Nodup := (List.nodup_finRange n).filter (g.edge v)
  obtain ⟨order, degrees, ready⟩ := foldl_release (q := { q with ready := rest, order := q.order ++ [v] }) successors
  rw [placed]
  refine ⟨⟨h.sorted.sublist List.erase_sublist, fun w => ?_, ?_, fun w off => ?_⟩, order⟩
  · have degree := h.inDegree_eq hv w
    rw [degrees, Degrees.get_foldl_lower successors]
    split
    · rename_i edge
      rw [if_pos (mem_successors.1 edge)] at degree
      exact Nat.sub_eq_of_eq_add degree
    · rename_i noEdge
      rw [if_neg (mt mem_successors.2 noEdge)] at degree
      exact degree
  · rw [ready]
    refine (List.perm_ext_iff_of_nodup ?_ ((h.nodup.erase v).filter _)).2 fun w => ?_
    · refine List.nodup_append.2 ⟨nodup, successors.filter _, ?_⟩
      rintro x waits y released rfl
      have free := (List.mem_filter.1 ((others x).1 waits).1).2
      exact ready_iff.1 free v hv (mem_successors.1 (List.mem_filter.1 released).1)
    · have last : w ∈ (g.successors v).filter (fun w => q.inDegree.get w - 1 = 0) ↔
          g.edge v w ∧ q.inDegree.get w - 1 = 0 := by
        rw [List.mem_filter, mem_successors, decide_eq_true_eq]
      exact List.mem_append.trans ((or_congr (others w) last).trans (h.mem_ready_erase hv source).symm)
  · refine ready_iff.2 fun u hu => ?_
    have hu := List.mem_of_mem_erase hu
    rw [h.nodup.mem_erase_iff, not_and] at off
    by_cases same : w = v
    · rw [same]
      exact ready_iff.1 source u hu
    · exact ready_iff.1 (h.closed w (off same)) u hu

end Counts

/-! ## Turns -/

theorem turns_of_place_eq (stuck : q.place g = q) (k : Nat) : q.turns g k = q := by
  induction k with
  | zero => rfl
  | succ k ih => rw [turns, stuck, ih]

/-- As many turns as vertices leave none ready. They place what `orderFrom?` does, or fewer
    vertices than there are. -/
theorem Counts.turns (h : q.Counts g left) {count : Nat} (length : left.length = count) :
    (q.turns g count).ready = [] ∧
      (∀ rest, g.orderFrom? count left = some rest → (q.turns g count).order = q.order ++ rest) ∧
      (g.orderFrom? count left = none → (q.turns g count).order.length < q.order.length + count) := by
  induction count generalizing left q with
  | zero =>
    have ready := h.ready
    rw [List.length_eq_zero_iff.1 length] at ready ⊢
    exact ⟨ready.eq_nil, by simp [orderFrom?, Queue.turns]⟩
  | succ count ih =>
    cases found : left.find? (g.ready left) with
    | none =>
      have ready := h.ready
      rw [← List.head?_filter, List.head?_eq_none_iff] at found
      rw [found] at ready
      rw [turns_of_place_eq (h.place_eq_of_none found) (count + 1), orderFrom?, ← List.head?_filter, found]
      exact ⟨ready.eq_nil, fun _ placed => (by cases placed), fun _ => by omega⟩
    | some v =>
      obtain ⟨counts, order⟩ := h.place found
      have shorter : (left.erase v).length = count := by
        rw [List.length_erase_of_mem (List.mem_of_find?_eq_some found), length, Nat.add_sub_cancel]
      obtain ⟨ready, places, stops⟩ := ih counts shorter
      rw [order] at places stops
      refine ⟨ready, fun rest placed => ?_, fun none => ?_⟩
      · obtain ⟨x, rest', found', placed', rfl⟩ := orderFrom?_succ.1 placed
        obtain rfl := Option.some.inj (found.symm.trans found')
        rw [Queue.turns, places rest' placed', List.append_assoc]
        rfl
      · have none' : g.orderFrom? count (left.erase v) = .none := by
          by_contra some
          obtain ⟨rest, placed⟩ := Option.ne_none_iff_exists'.1 some
          rw [orderFrom?_succ.2 ⟨v, rest, found, placed, rfl⟩] at none
          cases none
        have := stops none'
        rw [List.length_append, List.length_singleton] at this
        rw [Queue.turns]
        omega

theorem ready_turns_start (g : Digraph n) : ((start g).turns g n).ready = [] :=
  ((counts_start g).turns List.length_finRange).1

end Queue

/-- The queue finds the order that places the least ready vertex each time. -/
theorem topologicalOrder?_eq (g : Digraph n) : g.topologicalOrder? = g.orderFrom? n (List.finRange n) := by
  obtain ⟨-, places, stops⟩ := (Queue.counts_start g).turns List.length_finRange
  unfold topologicalOrder?
  dsimp only
  cases placed : g.orderFrom? n (List.finRange n) with
  | none =>
    have less := stops placed
    rw [Queue.order_start, List.length_nil, Nat.zero_add] at less
    rw [if_neg (Nat.ne_of_lt less)]
  | some order =>
    have length := (perm_of_orderFrom? placed).length_eq.trans List.length_finRange
    rw [places order placed, Queue.order_start, List.nil_append, if_pos length]

end LoopFree.Digraph
