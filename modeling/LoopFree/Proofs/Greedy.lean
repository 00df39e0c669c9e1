/-
  LoopFree.Proofs.Greedy — the greedy resolver.

  `Step` is one vertex placed: a sink to the back, a source to the front, or, when there
  is neither, the best vertex to the front. The sweeps and rounds are runs of such steps
  (`round_run`), each step places one vertex that was left, and a round that has vertices
  left takes at least one step, so as many rounds as vertices place them all
  (`left_rounds`) and more rounds change nothing (`rounds_add_start`). Whatever way the
  vertices were placed, breaking the backward edges is a cut (`greedyCut_resolves`).

  In an acyclic graph the vertices left always have a sink, so the best vertex is never
  asked for. `Peeled` says that then no edge points backward, and the greedy cut has no
  arcs (`greedyCut_arcs_eq_nil_iff`).
-/

import LoopFree.Proofs.Cut
import LoopFree.Proofs.Tally
import Mathlib.Data.Finset.Max

namespace LoopFree.Digraph

variable {n : Nat} {g : Digraph n}

namespace Placing

inductive Step (g : Digraph n) : Placing n → Placing n → Prop
  | sink {p : Placing n} {v : Fin n} : v ∈ p.left → p.outDegree g v = 0 → Step g p (p.toBack v)
  | source {p : Placing n} {v : Fin n} : v ∈ p.left → p.inDegree g v = 0 → Step g p (p.toFront v)
  | best {p : Placing n} {v : Fin n} : (∀ w ∈ p.left, p.outDegree g w ≠ 0) → (∀ w ∈ p.left, p.inDegree g w ≠ 0) →
      p.best? g = some v → Step g p (p.toFront v)

def Run (g : Digraph n) : Placing n → Placing n → Prop := Relation.ReflTransGen (Step g)

/-- Every vertex is in front, left, or at the back, once. -/
def Whole (p : Placing n) : Prop := (p.front ++ (p.left ++ p.back)).Perm (List.finRange n)

variable {p q : Placing n} {u v : Fin n}

theorem outDegree_eq_zero : p.outDegree g v = 0 ↔ ∀ w ∈ p.left, w ≠ v → ¬g.edge v w := by
  simp [outDegree, List.countP_eq_zero]

theorem inDegree_eq_zero : p.inDegree g v = 0 ↔ ∀ w ∈ p.left, w ≠ v → ¬g.edge w v := by
  simp [inDegree, List.countP_eq_zero]

theorem mem_left_of_best? (h : p.best? g = some v) : v ∈ p.left := List.mem_of_find?_eq_some h

theorem exists_best? (g : Digraph n) (some : p.left ≠ []) : ∃ v, p.best? g = .some v := by
  obtain ⟨v, hv, most⟩ := p.left.toFinset.exists_max_image (p.surplus g) ((List.toFinset_nonempty_iff _).2 some)
  refine Option.isSome_iff_exists.1 (List.find?_isSome.2 ⟨v, List.mem_toFinset.1 hv, ?_⟩)
  exact List.all_eq_true.2 fun w hw => decide_eq_true (most w (List.mem_toFinset.2 hw))

/-! ## One step -/

theorem Step.exists_erase (h : Step g p q) : ∃ v ∈ p.left, q.left = p.left.erase v := by
  cases h with
  | sink hv _ => exact ⟨_, hv, rfl⟩
  | source hv _ => exact ⟨_, hv, rfl⟩
  | best _ _ best => exact ⟨_, mem_left_of_best? best, rfl⟩

theorem Step.length (h : Step g p q) : q.left.length + 1 = p.left.length := by
  obtain ⟨v, hv, left⟩ := h.exists_erase
  have := List.length_pos_of_mem hv
  rw [left, List.length_erase_of_mem hv]
  omega

theorem Whole.toFront (h : p.Whole) (hv : v ∈ p.left) : (p.toFront v).Whole := by
  refine List.Perm.trans ?_ h
  rw [Placing.toFront, List.append_assoc]
  exact (((List.perm_cons_erase hv).append_right p.back).symm).append_left p.front

theorem Whole.toBack (h : p.Whole) (hv : v ∈ p.left) : (p.toBack v).Whole := by
  refine List.Perm.trans (List.Perm.append_left p.front ?_) h
  exact List.perm_middle.trans ((List.perm_cons_erase hv).append_right p.back).symm

theorem Step.whole (h : Step g p q) (whole : p.Whole) : q.Whole := by
  cases h with
  | sink hv _ => exact whole.toBack hv
  | source hv _ => exact whole.toFront hv
  | best _ _ best => exact whole.toFront (mem_left_of_best? best)

/-! ## Runs -/

namespace Run

theorem whole (h : Run g p q) (whole : p.Whole) : q.Whole := by
  induction h with
  | refl => exact whole
  | tail _ step ih => exact step.whole ih

theorem length_le (h : Run g p q) : q.left.length ≤ p.left.length := by
  induction h with
  | refl => exact Nat.le_refl _
  | tail _ step ih =>
    have := step.length
    omega

/-- A run that places nothing is no step. -/
theorem eq_of_length (h : Run g p q) (same : q.left.length = p.left.length) : q = p := by
  rcases Relation.ReflTransGen.cases_head h with e | ⟨x, step, rest⟩
  · exact e.symm
  · have := step.length
    have := length_le rest
    omega

theorem nodup (h : Run g p q) (nodup : p.left.Nodup) : q.left.Nodup := by
  induction h with
  | refl => exact nodup
  | tail _ step ih =>
    obtain ⟨v, -, left⟩ := step.exists_erase
    exact left ▸ ih.erase v

end Run

/-! ## Sweeps and rounds -/

section
variable {degree : Placing n → Fin n → Nat} {place : Placing n → Fin n → Placing n}

/-- A sweep takes a step for each vertex whose degree it finds zero. -/
theorem foldl_sweep_run (steps : ∀ q v, v ∈ q.left → degree q v = 0 → Step g q (place q v))
    (erases : ∀ q v, (place q v).left = q.left.erase v) {rest : List (Fin n)} (nodup : rest.Nodup)
    (sub : rest ⊆ q.left) (h : rest.foldl (fun q v => if degree q v = 0 then place q v else q) q = p) :
    Run g q p ∧ (p = q → ∀ v ∈ rest, degree q v ≠ 0) := by
  induction rest generalizing q with
  | nil =>
    subst h
    exact ⟨.refl, fun _ _ hv => by cases hv⟩
  | cons v rest ih =>
    obtain ⟨new, nodup⟩ := List.nodup_cons.1 nodup
    obtain ⟨hv, sub⟩ := List.cons_subset.1 sub
    rw [List.foldl_cons] at h
    by_cases zero : degree q v = 0
    · rw [if_pos zero] at h
      have step := steps q v hv zero
      have sub : rest ⊆ (place q v).left := erases q v ▸ subset_erase new sub
      have run := (ih nodup sub h).1
      refine ⟨.head step run, fun same => ?_⟩
      have := step.length
      have := run.length_le
      rw [same] at this
      omega
    · rw [if_neg zero] at h
      obtain ⟨run, others⟩ := ih nodup sub h
      exact ⟨run, fun same => List.forall_mem_cons.2 ⟨zero, others same⟩⟩

end

theorem sweepSinks_run (nodup : p.left.Nodup) :
    Run g p (p.sweepSinks g) ∧ (p.sweepSinks g = p → ∀ v ∈ p.left, p.outDegree g v ≠ 0) :=
  foldl_sweep_run (fun _ _ => .sink) (fun _ _ => rfl) nodup (List.Subset.refl _) rfl

theorem sweepSources_run (nodup : p.left.Nodup) :
    Run g p (p.sweepSources g) ∧ (p.sweepSources g = p → ∀ v ∈ p.left, p.inDegree g v ≠ 0) :=
  foldl_sweep_run (fun _ _ => .source) (fun _ _ => rfl) nodup (List.Subset.refl _) rfl

/-- A round takes a step as long as a vertex is left. -/
theorem round_run (nodup : p.left.Nodup) :
    Run g p (p.round g) ∧ (p.left ≠ [] → (p.round g).left.length < p.left.length) := by
  obtain ⟨sinks, noSink⟩ := sweepSinks_run (g := g) nodup
  obtain ⟨sources, noSource⟩ := sweepSources_run (g := g) (sinks.nodup nodup)
  have swept : Run g p ((p.sweepSinks g).sweepSources g) := sinks.trans sources
  unfold round
  dsimp only
  split
  · rename_i shorter
    exact ⟨swept, fun _ => shorter⟩
  · rename_i stuck
    -- nothing was placed, so both sweeps left everything as it was
    have same₁ : p.sweepSinks g = p := by
      have := sinks.length_le
      have := sources.length_le
      exact sinks.eq_of_length (by omega)
    rw [same₁] at swept noSource stuck ⊢
    have same₂ : p.sweepSources g = p := by
      have := swept.length_le
      exact swept.eq_of_length (by omega)
    rw [same₂]
    split
    · rename_i v best
      have step : Step g p (p.toFront v) := .best (noSink same₁) (noSource same₂) best
      have := step.length
      exact ⟨.single step, fun _ => by omega⟩
    · rename_i none
      refine ⟨.refl, fun some => ?_⟩
      obtain ⟨v, best⟩ := exists_best? g some
      rw [none] at best
      cases best

theorem rounds_run (k : Nat) (nodup : p.left.Nodup) :
    Run g p (rounds g k p) ∧ (rounds g k p).left.length ≤ p.left.length - k := by
  induction k generalizing p with
  | zero => exact ⟨.refl, Nat.le_refl _⟩
  | succ k ih =>
    obtain ⟨first, places⟩ := round_run (g := g) nodup
    obtain ⟨rest, length⟩ := ih (first.nodup nodup)
    refine ⟨first.trans rest, ?_⟩
    rw [rounds]
    by_cases none : p.left = []
    · have := first.length_le
      rw [none, List.length_nil] at this ⊢
      omega
    · have := places none
      omega

theorem rounds_add (g : Digraph n) (j k : Nat) (p : Placing n) : rounds g (j + k) p = rounds g k (rounds g j p) := by
  induction j generalizing p with
  | zero => rw [Nat.zero_add, rounds]
  | succ j ih => rw [Nat.succ_add, rounds, ih, rounds]

theorem run_start (g : Digraph n) : Run g (start n) (rounds g n (start n)) :=
  (rounds_run (p := start n) n (List.nodup_finRange n)).1

/-- After as many rounds as vertices none is left. -/
theorem left_rounds (g : Digraph n) : (rounds g n (start n)).left = [] := by
  have length := (rounds_run (g := g) (p := start n) n (List.nodup_finRange n)).2
  rw [start, List.length_finRange, Nat.sub_self] at length
  exact List.eq_nil_of_length_eq_zero (Nat.le_zero.1 length)

/-- More rounds change nothing. -/
theorem rounds_add_start (g : Digraph n) (k : Nat) : rounds g (n + k) (start n) = rounds g n (start n) := by
  have nodup := (run_start g).nodup (List.nodup_finRange n)
  rw [rounds_add]
  obtain ⟨run, length⟩ := rounds_run (g := g) k nodup
  refine run.eq_of_length ?_
  rw [left_rounds g, List.length_nil, Nat.zero_sub] at length
  rw [left_rounds g, List.length_nil]
  omega

/-! ## Acyclic graphs -/

/-- What is in front has all its predecessors before it there, and what is at the back all
    its successors after it there. -/
structure Peeled (g : Digraph n) (p : Placing n) : Prop where
  whole : p.Whole
  front : ∀ u v, g.edge u v → v ∈ p.front → Before p.front u v
  back : ∀ u v, g.edge u v → u ∈ p.back → Before p.back u v

namespace Peeled

variable (h : p.Peeled g)
include h

theorem mem (v : Fin n) : v ∈ p.front ∨ v ∈ p.left ∨ v ∈ p.back := by
  have mem := h.whole.mem_iff.2 (List.mem_finRange v)
  rwa [List.mem_append, List.mem_append] at mem

theorem not_mem_of_left (hv : v ∈ p.left) : v ∉ p.front ∧ v ∉ p.back := by
  have nodup := h.whole.nodup_iff.2 (List.nodup_finRange n)
  obtain ⟨-, others, apart⟩ := List.nodup_append.1 nodup
  exact ⟨fun front => apart v front v (List.mem_append_left _ hv) rfl,
    fun back => (List.nodup_append.1 others).2.2 v hv v back rfl⟩

theorem toBack (acyclic : g.Acyclic) (hv : v ∈ p.left) (sink : p.outDegree g v = 0) : (p.toBack v).Peeled g := by
  refine ⟨h.whole.toBack hv, h.front, fun u w edge hu => ?_⟩
  rcases List.mem_cons.1 hu with rfl | hu
  · refine .head ?_
    rcases h.mem w with front | left | back
    · exact absurd (h.front u w edge front).mem_left (h.not_mem_of_left hv).1
    · have other : w ≠ u := fun same => not_edge_self acyclic u (same ▸ edge)
      exact absurd edge (outDegree_eq_zero.1 sink w left other)
    · exact back
  · exact (h.back u w edge hu).cons v

theorem toFront (acyclic : g.Acyclic) (hv : v ∈ p.left) (source : p.inDegree g v = 0) : (p.toFront v).Peeled g := by
  refine ⟨h.whole.toFront hv, fun u w edge hw => ?_, h.back⟩
  rcases List.mem_append.1 hw with hw | hw
  · exact (h.front u w edge hw).mono (List.sublist_append_left _ _)
  · obtain rfl := List.mem_singleton.1 hw
    refine .append ?_ hw
    rcases h.mem u with front | left | back
    · exact front
    · have other : u ≠ w := fun same => not_edge_self acyclic u (same ▸ edge)
      exact absurd edge (inDegree_eq_zero.1 source u left other)
    · exact absurd (h.back u w edge back).mem_right (h.not_mem_of_left hv).2

/-- The best vertex is not asked for: some vertex that is left is a sink. -/
theorem step (acyclic : g.Acyclic) (placed : Step g p q) : q.Peeled g := by
  cases placed with
  | sink hv sink => exact h.toBack acyclic hv sink
  | source hv source => exact h.toFront acyclic hv source
  | best noSink _ best =>
    obtain ⟨v, hv, last⟩ := acyclic.exists_sink (List.ne_nil_of_mem (mem_left_of_best? best))
    exact absurd (outDegree_eq_zero.2 fun w hw _ => last w hw) (noSink v hv)

theorem run (acyclic : g.Acyclic) (placed : Run g p q) : q.Peeled g := by
  induction placed with
  | refl => exact h
  | tail _ placed ih => exact ih.step acyclic placed

theorem before (none : p.left = []) (edge : g.edge u v) : Before p.order u v := by
  have placed (x : Fin n) : x ∈ p.front ∨ x ∈ p.back := by simpa [none] using h.mem x
  rcases placed v with front | back
  · exact (h.front u v edge front).mono (List.sublist_append_left _ _)
  · rcases placed u with front | back'
    · exact .append front back
    · exact (h.back u v edge back').mono (List.sublist_append_right _ _)

end Peeled
end Placing

/-! ## The cut -/

theorem greedyOrder_perm (g : Digraph n) : g.greedyOrder.Perm (List.finRange n) := by
  have whole : (Placing.start n).Whole := by simp [Placing.Whole, Placing.start]
  have placed : (Placing.rounds g n (Placing.start n)).Whole := (Placing.run_start g).whole whole
  rw [Placing.Whole, Placing.left_rounds, List.nil_append] at placed
  exact g.greedyOrder_eq ▸ placed

theorem mem_backward {order : List (Fin n)} {u v : Fin n} :
    (u, v) ∈ g.backward order ↔ g.edge u v ∧ order.idxOf v ≤ order.idxOf u := by
  simp [backward, mem_edges]

theorem greedyCut_arcs_perm (g : Digraph n) : g.greedyCut.arcs.Perm (g.backward g.greedyOrder) :=
  Cut.sortArcs_perm g.greedyOrder_perm (g.nodup_edges.filter _)

/-- The greedy cut breaks every graph. -/
theorem greedyCut_resolves (g : Digraph n) : g.greedyCut.Resolves g := by
  refine Cut.Breaks.resolves (Cut.breaks_sorted g.greedyOrder_perm ?_ ?_) ?_
  · intro a ha
    exact (mem_backward.1 ha).1
  · intro u v edge
    rcases Nat.lt_or_ge (g.greedyOrder.idxOf u) (g.greedyOrder.idxOf v) with forward | backward
    · exact Or.inr forward
    · exact Or.inl (mem_backward.2 ⟨edge, backward⟩)
  · exact g.greedyCut_arcs_perm.nodup_iff.2 (g.nodup_edges.filter _)

/-- The greedy cut has no arcs exactly when there is no cycle. -/
theorem greedyCut_arcs_eq_nil_iff : g.greedyCut.arcs = [] ↔ g.Acyclic := by
  constructor
  · intro none
    exact (g.greedyCut_resolves.toBreaks.isOrder_of_nil none).acyclic
  · intro acyclic
    have whole : (Placing.start n).Whole := by simp [Placing.Whole, Placing.start]
    have peeled : (Placing.start n).Peeled g := ⟨whole, by simp [Placing.start], by simp [Placing.start]⟩
    have before {u v : Fin n} (edge : g.edge u v) : Before g.greedyOrder u v :=
      g.greedyOrder_eq ▸ (peeled.run acyclic (Placing.run_start g)).before (Placing.left_rounds g) edge
    have nodup := g.greedyOrder_perm.nodup_iff.2 (List.nodup_finRange n)
    have none : g.backward g.greedyOrder = [] := by
      refine List.eq_nil_iff_forall_not_mem.2 fun a ha => ?_
      obtain ⟨edge, backward⟩ := mem_backward.1 ha
      have := (before edge).idxOf_lt nodup
      omega
    have perm := g.greedyCut_arcs_perm
    rwa [none, List.perm_nil] at perm

end LoopFree.Digraph
