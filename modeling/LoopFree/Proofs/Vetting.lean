/-
  LoopFree.Proofs.Vetting — what passes the vetting of an arc set.

  A cut `Breaks` a graph when its order lists every vertex once, its arcs are edges, and
  every other edge points forward in the order. Vetting accepts exactly the arc sets that
  are written down from such a cut (`vet_eq_ok`).
-/

import LoopFree.Graph.ArcSet
import Mathlib.Data.List.FinRange

namespace LoopFree

variable {n : Nat}

structure Cut.Breaks (c : Cut n) (g : Digraph n) : Prop where
  order : c.order.Perm (List.finRange n)
  arcs : ∀ a ∈ c.arcs, g.edge a.1 a.2
  forward : ∀ u v, g.edge u v → (u, v) ∈ c.arcs ∨ c.order.idxOf u < c.order.idxOf v

namespace Cut.Breaks

variable {c : Cut n} {g : Digraph n} (h : c.Breaks g)
include h

theorem nodup : c.order.Nodup := h.order.nodup_iff.2 (List.nodup_finRange n)

theorem mem_order (v : Fin n) : v ∈ c.order := h.order.mem_iff.2 (List.mem_finRange v)

theorem getElem?_idxOf (v : Fin n) : c.order[c.order.idxOf v]? = some v := by
  have inside : c.order.idxOf v < c.order.length := List.idxOf_lt_length_of_mem (h.mem_order v)
  rw [List.getElem?_eq_getElem inside, List.getElem_idxOf]

end Cut.Breaks

namespace ArcSet

variable {g : Digraph n} {s : ArcSet} {c : Cut n}

theorem vertex?_eq_some {i : Int} {v : Fin n} : vertex? n i = some v ↔ i = ((v : Nat) : Int) := by
  unfold vertex?
  constructor
  · intro found
    split at found
    · rename_i inside
      rw [← Option.some.inj found]
      show i = (i.toNat : Int)
      omega
    · cases found
  · intro same
    subst same
    have inside : (0 : Int) ≤ ((v : Nat) : Int) ∧ ((v : Nat) : Int) < n := by omega
    simp [inside]

theorem edge?_eq_some {a : Int × Int} {e : Fin n × Fin n} :
    edge? g a = some e ↔ a = (((e.1 : Nat) : Int), ((e.2 : Nat) : Int)) ∧ g.edge e.1 e.2 := by
  unfold edge?
  constructor
  · intro found
    split at found
    · rename_i u v source sink
      split at found
      · rename_i edge
        obtain rfl := Option.some.inj found
        exact ⟨Prod.ext (vertex?_eq_some.1 source) (vertex?_eq_some.1 sink), edge⟩
      · cases found
    · cases found
  · intro given
    obtain ⟨rfl, edge⟩ := given
    simp [vertex?_eq_some.2 rfl, edge]

theorem mapM_vertex?_eq_some {l : List Int} {order : List (Fin n)} :
    l.mapM (vertex? n) = some order ↔ l = order.map fun v : Fin n => ((v : Nat) : Int) := by
  induction l generalizing order with
  | nil => cases order <;> simp
  | cons i l ih =>
    rw [List.mapM_cons]
    cases order with
    | nil => simp [Option.bind_eq_some_iff]
    | cons v order => simp [Option.bind_eq_some_iff, vertex?_eq_some, ih]

theorem vetSequence_eq_ok {l : List Int} {order : List (Fin n)} :
    vetSequence n l = .ok order ↔
      l = order.map (fun v : Fin n => ((v : Nat) : Int)) ∧ order.Perm (List.finRange n) := by
  rw [← mapM_vertex?_eq_some]
  unfold vetSequence
  cases l.mapM (vertex? n) with
  | none => simp
  | some found =>
    simp only [List.isPerm_iff, Option.some.injEq]
    constructor
    · intro vetted
      split at vetted
      · rename_i perm
        obtain rfl := Except.ok.inj vetted
        exact ⟨rfl, perm⟩
      · cases vetted
    · intro given
      obtain ⟨rfl, perm⟩ := given
      rw [if_pos perm]

theorem vetArcs_eq_ok {l : List (Int × Int)} {arcs : List (Fin n × Fin n)} :
    vetArcs g l = .ok arcs ↔ l = arcs.map (fun a : Fin n × Fin n => (((a.1 : Nat) : Int), ((a.2 : Nat) : Int))) ∧
      ∀ a ∈ arcs, g.edge a.1 a.2 := by
  induction l generalizing arcs with
  | nil =>
    cases arcs with
    | nil => simp [vetArcs]
    | cons e arcs => simp [vetArcs]
  | cons a l ih =>
    unfold vetArcs
    cases found : edge? g a with
    | none =>
      refine ⟨fun vetted => (nomatch vetted), ?_⟩
      intro given
      obtain ⟨same, edges⟩ := given
      cases arcs with
      | nil => cases same
      | cons e arcs =>
        have known := edge?_eq_some.2 ⟨(List.cons.inj same).1, edges e List.mem_cons_self⟩
        rw [found] at known
        cases known
    | some e =>
      obtain ⟨rfl, edge⟩ := edge?_eq_some.1 found
      cases arcs with
      | nil => cases vetArcs g l <;> simp [Except.map]
      | cons f arcs =>
        have rest : (vetArcs g l).map (e :: ·) = .ok (f :: arcs) ↔ e = f ∧ vetArcs g l = .ok arcs := by
          cases vetArcs g l <;> simp [Except.map]
        rw [rest, ih]
        constructor
        · intro given
          obtain ⟨rfl, rfl, edges⟩ := given
          exact ⟨rfl, List.forall_mem_cons.2 ⟨edge, edges⟩⟩
        · intro given
          obtain ⟨same, edges⟩ := given
          obtain ⟨first, others⟩ := List.cons.inj same
          obtain ⟨source, sink⟩ := Prod.ext_iff.1 first
          refine ⟨?_, others, (List.forall_mem_cons.1 edges).2⟩
          exact Prod.ext (Fin.ext (Int.natCast_inj.1 source)) (Fin.ext (Int.natCast_inj.1 sink))

/-- Vetting accepts the cuts of the graph, however they were come by. -/
theorem vet_eq_ok : s.vet g = .ok c ↔ s = c.toArcSet ∧ c.Breaks g := by
  have parts : s.vet g = .ok c ↔ vetSequence n s.sequence = .ok c.order ∧ vetArcs g s.arcs = .ok c.arcs ∧
      ∀ e ∈ g.edges, c.respects e := by
    unfold vet
    cases vetSequence n s.sequence with
    | error v => simp [bind, Except.bind]
    | ok order =>
      cases vetArcs g s.arcs with
      | error v => simp [bind, Except.bind]
      | ok arcs =>
        simp only [bind, Except.bind, Except.ok.injEq]
        constructor
        · intro vetted
          split at vetted
          · cases vetted
          · rename_i forward
            obtain rfl := Except.ok.inj vetted
            exact ⟨rfl, rfl, fun e he => by simpa using List.find?_eq_none.1 forward e he⟩
        · intro given
          obtain ⟨rfl, rfl, forward⟩ := given
          have none : g.edges.find? (fun e => !c.respects e) = none :=
            List.find?_eq_none.2 fun e he => by simp [forward e he]
          rw [none]
  rw [parts, vetSequence_eq_ok, vetArcs_eq_ok]
  constructor
  · intro given
    obtain ⟨⟨sequence, perm⟩, ⟨arcs, edges⟩, forward⟩ := given
    refine ⟨?_, perm, edges, fun u v edge => ?_⟩
    · cases s
      exact congrArg₂ ArcSet.mk arcs sequence
    · simpa [Cut.respects] using forward (u, v) (Digraph.mem_edges.2 edge)
  · intro given
    obtain ⟨rfl, cut⟩ := given
    refine ⟨⟨rfl, cut.order⟩, ⟨rfl, cut.arcs⟩, ?_⟩
    intro given he
    obtain ⟨u, v⟩ := given
    simpa [Cut.respects] using cut.forward u v (Digraph.mem_edges.1 he)

end ArcSet
end LoopFree
