/-
  LoopFree.Proofs.Scan — the depth-first pass in terms of stack heights.

  A scan keeps the waiting vertices oldest first and, in place of numbers, the heights at
  which they stand: a visit returns the lowest height its vertex leads to, and closes a
  component when that is its own.

  The vertices being visited form a path, and every vertex that waits on the stack
  reaches one of them at or below its own height. `Valid` says this of a scan, and that
  what is finished leads only to what has been seen, that components lead only to
  components, and that nothing leads from a component to a later one. A visit keeps it
  (`visitsWithin`): the height it returns bounds from below where the vertices it left on
  the stack lead, and its vertex reaches that height. So a vertex that returns its own
  height closes a component, and one that returns less still reaches the path.

  The depth at which visits stop is never met: a visit marks a vertex, so the vertices not
  seen yet bound how deep visits nest (`scan_add`).
-/

import LoopFree.Graph.Digraph
import LoopFree.Proofs.Walk
import Mathlib.Data.Fintype.Card
import Mathlib.Data.List.FinRange

namespace LoopFree.Digraph

variable {n : Nat} {g : Digraph n}

structure Scan (n : Nat) where
  stack : List (Fin n) := []
  components : List (List (Fin n)) := []

namespace Scan

def seen (s : Scan n) (v : Fin n) : Bool := v ∈ s.stack ∨ v ∈ s.components.flatten

/-- The stack height of a waiting vertex; any other vertex counts as above the top. -/
def height (s : Scan n) (v : Fin n) : Nat := s.stack.idxOf v

def push (s : Scan n) (v : Fin n) : Scan n := { s with stack := s.stack ++ [v] }

/-- Everything from a height to the top becomes a component. -/
def close (s : Scan n) (height : Nat) : Scan n where
  stack := s.stack.take height
  components := s.components ++ [(s.stack.drop height).reverse]

end Scan

/-- Visits nest at most `depth` deep; `n` is enough, as each one marks a vertex. -/
def scan (g : Digraph n) : (depth : Nat) → Fin n → Scan n → Nat × Scan n
  | 0, _, s => (s.stack.length, s)
  | depth + 1, v, s =>
    let own := s.stack.length
    let reached := (g.successors v).foldl (fun (low, t) w =>
      if t.seen w then (min low (t.height w), t)
      else
        let (inner, t') := g.scan depth w t
        (min low inner, t')) (own, s.push v)
    (reached.1, if reached.1 = own then reached.2.close own else reached.2)

namespace Scan

/-- What holds while the vertices of `path` are being visited. -/
structure Valid (g : Digraph n) (path : List (Fin n)) (s : Scan n) : Prop where
  nodup : (s.stack ++ s.components.flatten).Nodup
  waiting : ∀ x ∈ path, x ∈ s.stack
  forward : s.stack.Pairwise g.Reaches
  back : ∀ y ∈ s.stack, ∃ x ∈ path, s.height x ≤ s.height y ∧ g.Reaches y x
  finished : ∀ y, s.seen y → y ∉ path → ∀ w, g.edge y w → s.seen w
  closed : ∀ y ∈ s.components.flatten, ∀ w, g.edge y w → w ∈ s.components.flatten
  ordered : s.components.Pairwise fun C D => ∀ u ∈ C, ∀ w ∈ D, ¬g.edge u w
  strong : ∀ C ∈ s.components, C ≠ [] ∧ ∀ u ∈ C, ∀ w ∈ C, g.Reaches u w

/-- The scan went on from `s` to `t`. -/
structure Grown (s t : Scan n) : Prop where
  stack : s.stack <+: t.stack
  components : s.components <+: t.components

/-- The height `low` that a visit of `v` from the stack of `s` has found so far. -/
structure Lowest (g : Digraph n) (v : Fin n) (s : Scan n) (low : Nat) : Prop where
  le : low ≤ s.stack.length
  reached : low < s.stack.length → ∃ x, s.stack[low]? = some x ∧ g.Reaches v x

/-- A visit of `v` took `s` to `t` and returned `low`. -/
structure Visited (g : Digraph n) (path : List (Fin n)) (v : Fin n) (s : Scan n) (low : Nat) (t : Scan n) : Prop where
  valid : t.Valid g path
  grown : s.Grown t
  seen : t.seen v
  lowest : Lowest g v s low
  bound : ∀ y ∈ t.stack.drop s.stack.length, ∀ w, g.edge y w → w ∈ t.stack → low ≤ t.height w

/-- A visit of `v` that began at `s` has dealt with the successors in `past`. -/
structure Visiting (g : Digraph n) (path : List (Fin n)) (v : Fin n) (s : Scan n) (past : List (Fin n)) (low : Nat)
    (t : Scan n) : Prop where
  entry : s.Valid g path
  valid : t.Valid g (v :: path)
  grown : (s.push v).Grown t
  done : ∀ w ∈ past, t.seen w
  lowest : Lowest g v s low
  bound : ∀ y ∈ t.stack.drop s.stack.length, ∀ w, g.edge y w → (y = v → w ∈ past) → w ∈ t.stack → low ≤ t.height w

variable {s t t' : Scan n} {path past : List (Fin n)} {u v w : Fin n} {low inner : Nat}

theorem seen_iff : s.seen v ↔ v ∈ s.stack ∨ v ∈ s.components.flatten := by
  simp [seen]

theorem seen_push : (s.push v).seen u ↔ u = v ∨ s.seen u := by
  simp only [seen_iff, push, List.mem_append, List.mem_singleton]
  rw [or_assoc, or_left_comm]

theorem seen_close {k : Nat} : (t.close k).seen u ↔ t.seen u := by
  rw [seen_iff, seen_iff, close, List.flatten_append, List.flatten_singleton, List.mem_append, List.mem_reverse]
  have split : u ∈ t.stack ↔ u ∈ t.stack.take k ∨ u ∈ t.stack.drop k := by
    rw [← List.mem_append, List.take_append_drop]
  rw [split, or_assoc, or_comm (a := u ∈ t.components.flatten)]

theorem components_close (s : Scan n) (k : Nat) :
    (s.close k).components = s.components ++ [(s.stack.drop k).reverse] := rfl

/-! ## Heights -/

theorem height_lt (hv : v ∈ s.stack) : s.height v < s.stack.length := List.idxOf_lt_length_of_mem hv

theorem Valid.height_of_getElem? (h : s.Valid g path) {k : Nat} (hv : s.stack[k]? = some v) : s.height v = k := by
  obtain ⟨hk, rfl⟩ := List.getElem?_eq_some_iff.1 hv
  exact (List.nodup_append.1 h.nodup).1.idxOf_getElem k hk

namespace Grown

theorem refl (s : Scan n) : s.Grown s := ⟨List.prefix_refl _, List.prefix_refl _⟩

theorem trans (h : s.Grown t) (k : t.Grown t') : s.Grown t' := ⟨h.stack.trans k.stack, h.components.trans k.components⟩

theorem push (s : Scan n) (v : Fin n) : s.Grown (s.push v) := ⟨List.prefix_append _ _, List.prefix_refl _⟩

variable (h : s.Grown t)
include h

theorem length_le : s.stack.length ≤ t.stack.length := h.stack.length_le

theorem mem_flatten (hv : v ∈ s.components.flatten) : v ∈ t.components.flatten := by
  obtain ⟨C, hC, hv⟩ := List.mem_flatten.1 hv
  exact List.mem_flatten.2 ⟨C, h.components.subset hC, hv⟩

theorem seen (hv : s.seen v) : t.seen v := by
  rw [seen_iff] at hv ⊢
  rcases hv with hv | hv
  · exact Or.inl (h.stack.subset hv)
  · exact Or.inr (h.mem_flatten hv)

theorem height_eq (hv : v ∈ s.stack) : t.height v = s.height v := by
  obtain ⟨added, e⟩ := h.stack
  rw [height, ← e, List.idxOf_append_of_mem hv]
  rfl

theorem le_height (hv : v ∉ s.stack) : s.stack.length ≤ t.height v := by
  obtain ⟨added, e⟩ := h.stack
  rw [height, ← e, List.idxOf_append_of_notMem hv]
  omega

theorem getElem?_eq {k : Nat} (hk : k < s.stack.length) : t.stack[k]? = s.stack[k]? := by
  obtain ⟨added, e⟩ := h.stack
  rw [← e, List.getElem?_append_left hk]

/-- What waits now and was seen then was waiting then. -/
theorem mem_stack (valid : t.Valid g path) (hv : s.seen v) (hv' : v ∈ t.stack) : v ∈ s.stack := by
  rcases seen_iff.1 hv with waits | closed
  · exact waits
  · exact absurd rfl ((List.nodup_append.1 valid.nodup).2.2 v hv' v (h.mem_flatten closed))

end Grown
/-! ## During a visit -/

theorem Valid.reaches_of_stack (h : s.Valid g path) (leads : ∀ x ∈ path, g.Reaches x v) (hu : u ∈ s.stack) :
    g.Reaches u v := by
  obtain ⟨x, hx, -, reach⟩ := h.back u hu
  exact reach.trans (leads x hx)

/-- A new vertex joins the path. -/
theorem Valid.push (h : s.Valid g path) (new : ¬s.seen v) (leads : ∀ x ∈ path, g.Reaches x v) :
    (s.push v).Valid g (v :: path) := by
  have grown := Grown.push s v
  have unseen := mt seen_iff.2 new
  rw [not_or] at unseen
  constructor
  · have fresh : v ∉ s.stack ++ s.components.flatten := by
      rw [List.mem_append, not_or]
      exact unseen
    exact (List.perm_append_singleton v s.stack |>.append_right _).nodup_iff.2 (List.nodup_cons.2 ⟨fresh, h.nodup⟩)
  · intro x hx
    rcases List.mem_cons.1 hx with rfl | hx
    · exact List.mem_append_right _ List.mem_cons_self
    · exact List.mem_append_left _ (h.waiting x hx)
  · refine List.pairwise_append.2 ⟨h.forward, List.pairwise_singleton _ _, ?_⟩
    intro u hu w hw
    rw [List.mem_singleton.1 hw]
    exact h.reaches_of_stack leads hu
  · intro y hy
    rcases List.mem_append.1 hy with hy | hy
    · obtain ⟨x, hx, below, reach⟩ := h.back y hy
      refine ⟨x, List.mem_cons_of_mem _ hx, ?_, reach⟩
      rw [grown.height_eq hy, grown.height_eq (h.waiting x hx)]
      exact below
    · rw [List.mem_singleton.1 hy]
      exact ⟨v, List.mem_cons_self, Nat.le_refl _, .refl v⟩
  · intro y hy off w edge
    rw [List.mem_cons, not_or] at off
    rcases seen_push.1 hy with same | hy
    · exact absurd same off.1
    · exact grown.seen (h.finished y hy off.2 w edge)
  · exact h.closed
  · exact h.ordered
  · exact h.strong

theorem Visiting.enter (h : s.Valid g path) (new : ¬s.seen v) (leads : ∀ x ∈ path, g.Reaches x v) :
    Visiting g path v s [] s.stack.length (s.push v) where
  entry := h
  valid := h.push new leads
  grown := .refl _
  done := by simp
  lowest := ⟨Nat.le_refl _, fun less => absurd less (Nat.lt_irrefl _)⟩
  bound := by
    intro y hy w _ past _
    have own : y = v := by simpa [Scan.push] using hy
    exact absurd (past own) List.not_mem_nil

namespace Visiting

variable (h : Visiting g path v s past low t)
include h

theorem length_lt : s.stack.length < t.stack.length := by
  have := h.grown.length_le
  simp only [Scan.push, List.length_append, List.length_singleton] at this
  omega

theorem before : s.Grown t := (Grown.push s v).trans h.grown

/-- The vertex stands right above the stack it was met with. -/
theorem getElem?_length : t.stack[s.stack.length]? = some v := by
  rw [h.grown.getElem?_eq (by simp [Scan.push])]
  simp [Scan.push]

theorem height_self : t.height v = s.stack.length := h.valid.height_of_getElem? h.getElem?_length

/-- What waits above the old stack is the vertex itself or finished. -/
theorem finished_of_mem_drop (hu : u ∈ t.stack.drop s.stack.length) (hne : u ≠ v) : ∀ w, g.edge u w → t.seen w := by
  have hu' := List.mem_of_mem_drop hu
  refine h.valid.finished u (seen_iff.2 (Or.inl hu')) ?_
  intro onPath
  rcases List.mem_cons.1 onPath with same | onPath
  · exact hne same
  · have waits := h.entry.waiting u onPath
    have low := height_lt waits
    rw [← h.before.height_eq waits] at low
    obtain ⟨k, hk⟩ := List.mem_iff_getElem?.1 hu
    rw [List.getElem?_drop] at hk
    have := h.valid.height_of_getElem? hk
    omega

omit h in
/-- Only the pair dealt with last is new. -/
theorem mem_past {x y : Fin n} (own : y = v → x ∈ past ++ [w]) (other : ¬(y = v ∧ x = w)) : y = v → x ∈ past := by
  intro same
  rcases List.mem_append.1 (own same) with mem | mem
  · exact mem
  · exact absurd ⟨same, List.mem_singleton.1 mem⟩ other

/-- A successor that has been seen may lower the height. -/
theorem skip (edge : g.edge v w) (known : t.seen w) : Visiting g path v s (past ++ [w]) (min low (t.height w)) t where
  entry := h.entry
  valid := h.valid
  grown := h.grown
  done := by
    intro x hx
    rcases List.mem_append.1 hx with hx | hx
    · exact h.done x hx
    · rw [List.mem_singleton.1 hx]
      exact known
  lowest := by
    have le := h.lowest.le
    refine ⟨by omega, fun less => ?_⟩
    by_cases lower : low ≤ t.height w
    · rw [Nat.min_eq_left lower] at less ⊢
      exact h.lowest.reached less
    · rw [Nat.min_eq_right (by omega)] at less ⊢
      have waits : w ∈ s.stack := by
        by_contra off
        have := h.before.le_height off
        omega
      refine ⟨w, ?_, .of_edge edge⟩
      rw [h.before.height_eq waits]
      exact List.getElem?_idxOf waits
  bound := by
    intro y hy x hyx own hx
    by_cases last : y = v ∧ x = w
    · rw [last.2]
      omega
    · have := h.bound y hy x hyx (mem_past own last) hx
      omega

/-- The bound after a successor has been visited: what waited before leads to what had been
    seen, and what is new is bounded by the visit. -/
theorem bound_visit (new : ¬t.seen w) (inside : Visited g (v :: path) w t inner t') :
    ∀ y ∈ t'.stack.drop s.stack.length, ∀ x, g.edge y x → (y = v → x ∈ past ++ [w]) → x ∈ t'.stack →
      min low inner ≤ t'.height x := by
  intro y hy x hyx own hx
  have longer := h.length_lt
  obtain ⟨added, grown⟩ := inside.grown.stack
  have place : y ∈ t.stack.drop s.stack.length ∨ y ∈ t'.stack.drop t.stack.length := by
    rw [← grown, List.drop_append_of_le_length (by omega)] at hy
    rw [← grown, List.drop_left]
    exact List.mem_append.1 hy
  rcases place with old | added
  · by_cases last : y = v ∧ x = w
    · have off : w ∉ t.stack := fun waits => new (seen_iff.2 (Or.inl waits))
      have := inside.grown.le_height off
      have := inside.lowest.le
      rw [last.2]
      omega
    · have own := mem_past own last
      have known : t.seen x := by
        by_cases same : y = v
        · exact h.done x (own same)
        · exact h.finished_of_mem_drop old same x hyx
      have waits := inside.grown.mem_stack inside.valid known hx
      have := h.bound y old x hyx own waits
      rw [inside.grown.height_eq waits]
      omega
  · have := inside.bound y added x hyx hx
    omega

/-- A successor that has not been seen is visited. -/
theorem visit (edge : g.edge v w) (new : ¬t.seen w) (inside : Visited g (v :: path) w t inner t') :
    Visiting g path v s (past ++ [w]) (min low inner) t' where
  entry := h.entry
  valid := inside.valid
  grown := h.grown.trans inside.grown
  done := by
    intro x hx
    rcases List.mem_append.1 hx with hx | hx
    · exact inside.grown.seen (h.done x hx)
    · rw [List.mem_singleton.1 hx]
      exact inside.seen
  lowest := by
    have le := h.lowest.le
    have inner_le := inside.lowest.le
    have longer := h.length_lt
    refine ⟨by omega, fun less => ?_⟩
    by_cases lower : low ≤ inner
    · rw [Nat.min_eq_left lower] at less ⊢
      exact h.lowest.reached less
    · rw [Nat.min_eq_right (by omega)] at less ⊢
      obtain ⟨x, hx, reach⟩ := inside.lowest.reached (by omega)
      rw [h.before.getElem?_eq less] at hx
      exact ⟨x, hx, (Reaches.of_edge edge).trans reach⟩
  bound := h.bound_visit new inside

end Visiting

/-! ## At the end of a visit -/

namespace Visiting

variable (h : Visiting g path v s (g.successors v) low t)
include h

theorem stack_eq : ∃ added, t.stack = s.stack ++ v :: added := by
  obtain ⟨added, e⟩ := h.grown.stack
  exact ⟨added, by rw [← e, Scan.push, List.append_assoc, List.singleton_append]⟩

theorem finished (hu : t.seen u) (off : u ∉ path) (edge : g.edge u w) : t.seen w := by
  by_cases same : u = v
  · rw [same] at edge
    exact h.done w (mem_successors.2 edge)
  · refine h.valid.finished u hu ?_ w edge
    rw [List.mem_cons, not_or]
    exact ⟨same, off⟩

/-- The vertex reaches something older, and its component is not complete. -/
theorem leave (less : low < s.stack.length) : Visited g path v s low t where
  valid := by
    refine ⟨h.valid.nodup, ?_, h.valid.forward, ?_, ?_, h.valid.closed, h.valid.ordered, h.valid.strong⟩
    · intro x hx
      exact h.before.stack.subset (h.entry.waiting x hx)
    · intro y hy
      obtain ⟨x, hx, below, reach⟩ := h.valid.back y hy
      rcases List.mem_cons.1 hx with rfl | hx
      · -- from the vertex on to what it reaches, and from there to the path
        obtain ⟨z, hz, onward⟩ := h.lowest.reached less
        rw [← h.before.getElem?_eq less] at hz
        obtain ⟨x', hx', below', reach'⟩ := h.valid.back z (List.mem_of_getElem? hz)
        rw [h.valid.height_of_getElem? hz] at below'
        rw [h.height_self] at below
        rcases List.mem_cons.1 hx' with same | hx'
        · rw [same, h.height_self] at below'
          omega
        · exact ⟨x', hx', by omega, (reach.trans onward).trans reach'⟩
      · exact ⟨x, hx, below, reach⟩
    · intro y hy off w edge
      exact h.finished hy off edge
  grown := h.before
  seen := by
    rw [seen_iff]
    exact Or.inl (List.mem_of_getElem? h.getElem?_length)
  lowest := h.lowest
  bound := by
    intro y hy w edge hw
    refine h.bound y hy w edge (fun same => ?_) hw
    rw [same] at edge
    exact mem_successors.2 edge

theorem stack_close : (t.close s.stack.length).stack = s.stack := by
  obtain ⟨added, e⟩ := h.stack_eq
  rw [close, e, List.take_left]

/-- What stands above the old stack is reached from the vertex and reaches it. -/
theorem reaches_of_mem_drop (hu : u ∈ t.stack.drop s.stack.length) : g.Reaches v u ∧ g.Reaches u v := by
  obtain ⟨added, e⟩ := h.stack_eq
  have forward := h.valid.forward
  rw [e] at forward
  obtain ⟨-, above, across⟩ := List.pairwise_append.1 forward
  constructor
  · rw [e, List.drop_left] at hu
    rcases List.mem_cons.1 hu with rfl | hu
    · exact .refl _
    · exact (List.pairwise_cons.1 above).1 u hu
  · obtain ⟨x, hx, -, reach⟩ := h.valid.back u (List.mem_of_mem_drop hu)
    rcases List.mem_cons.1 hx with rfl | hx
    · exact reach
    · exact reach.trans (across x (h.entry.waiting x hx) v List.mem_cons_self)

/-- When the vertex reaches nothing older, no edge leads from above the old stack into it. -/
theorem closed_of_mem_drop (own : low = s.stack.length) (hu : u ∈ t.stack.drop s.stack.length) (edge : g.edge u w) :
    w ∈ t.components.flatten ∨ w ∈ t.stack.drop s.stack.length := by
  have known : t.seen w := by
    by_cases same : u = v
    · rw [same] at edge
      exact h.done w (mem_successors.2 edge)
    · exact h.finished_of_mem_drop hu same w edge
  rcases seen_iff.1 known with waits | closed
  · have above := h.bound u hu w edge (fun same => mem_successors.2 (same ▸ edge)) waits
    rw [← List.take_append_drop s.stack.length t.stack, List.mem_append] at waits
    rcases waits with old | new
    · have old : w ∈ s.stack := by
        rw [← h.stack_close]
        exact old
      have := height_lt old
      rw [← h.before.height_eq old] at this
      omega
    · exact Or.inr new
  · exact Or.inl closed

theorem nodup_close : ((t.close s.stack.length).stack ++ (t.close s.stack.length).components.flatten).Nodup := by
  have perm : (s.stack ++ (t.components.flatten ++ (t.stack.drop s.stack.length).reverse)).Perm
      (t.stack ++ t.components.flatten) := by
    obtain ⟨added, e⟩ := h.stack_eq
    rw [e, List.drop_left, List.append_assoc]
    exact (List.perm_append_comm.trans ((List.reverse_perm _).append_right _)).append_left _
  rw [h.stack_close, components_close, List.flatten_append, List.flatten_singleton]
  exact perm.nodup_iff.2 h.valid.nodup

theorem ordered_close : (t.close s.stack.length).components.Pairwise fun C D => ∀ u ∈ C, ∀ w ∈ D, ¬g.edge u w := by
  rw [components_close]
  refine List.pairwise_append.2 ⟨h.valid.ordered, List.pairwise_singleton _ _, ?_⟩
  intro C hC D hD u hu w hw edge
  rw [List.mem_singleton.1 hD, List.mem_reverse] at hw
  have earlier := h.valid.closed u (List.mem_flatten.2 ⟨C, hC, hu⟩) w edge
  exact (List.nodup_append.1 h.valid.nodup).2.2 w (List.mem_of_mem_drop hw) w earlier rfl

theorem strong_close : ∀ C ∈ (t.close s.stack.length).components, C ≠ [] ∧ ∀ u ∈ C, ∀ w ∈ C, g.Reaches u w := by
  intro C hC
  rcases List.mem_append.1 hC with hC | hC
  · exact h.valid.strong C hC
  · rw [List.mem_singleton.1 hC]
    refine ⟨?_, ?_⟩
    · obtain ⟨added, e⟩ := h.stack_eq
      simp [e]
    · intro u hu w hw
      rw [List.mem_reverse] at hu hw
      exact (h.reaches_of_mem_drop hu).2.trans (h.reaches_of_mem_drop hw).1

theorem valid_close (own : low = s.stack.length) : (t.close s.stack.length).Valid g path where
  nodup := h.nodup_close
  waiting := by
    rw [h.stack_close]
    exact h.entry.waiting
  forward := by
    rw [h.stack_close]
    exact h.entry.forward
  back := by
    simp only [height, h.stack_close]
    exact h.entry.back
  finished := by
    intro y hy off w edge
    rw [seen_close] at hy ⊢
    exact h.finished hy off edge
  closed := by
    intro y hy w edge
    rw [components_close, List.flatten_append, List.flatten_singleton, List.mem_append, List.mem_reverse] at hy ⊢
    rcases hy with hy | hy
    · exact Or.inl (h.valid.closed y hy w edge)
    · exact h.closed_of_mem_drop own hy edge
  ordered := h.ordered_close
  strong := h.strong_close

/-- The vertex reaches nothing older: it and what stands above it are a component. -/
theorem close (own : low = s.stack.length) : Visited g path v s low (t.close s.stack.length) where
  valid := h.valid_close own
  grown := by
    refine ⟨?_, h.before.components.trans (List.prefix_append _ _)⟩
    rw [h.stack_close]
  seen := by
    rw [seen_close, seen_iff]
    exact Or.inl (List.mem_of_getElem? h.getElem?_length)
  lowest := h.lowest
  bound := by
    intro y hy
    rw [h.stack_close, List.drop_length] at hy
    cases hy

end Visiting
end Scan

/-! ## The pass -/

/-- The vertices a scan has not seen. -/
def Scan.unseen (s : Scan n) : Finset (Fin n) := Finset.univ.filter fun u => ¬s.seen u

theorem Scan.card_unseen_lt {s t : Scan n} {v : Fin n} (grown : (s.push v).Grown t) (new : ¬s.seen v) :
    t.unseen.card < s.unseen.card := by
  refine Finset.card_lt_card ((Finset.ssubset_iff_of_subset ?_).2 ⟨v, ?_, ?_⟩)
  · intro u hu
    simp only [unseen, Finset.mem_filter, Finset.mem_univ, true_and] at hu ⊢
    intro known
    exact hu (grown.seen (seen_push.2 (Or.inr known)))
  · simpa [unseen] using new
  · have known := grown.seen (seen_push.2 (Or.inl rfl))
    simp [unseen, known]

theorem Scan.card_unseen_pos {s : Scan n} {v : Fin n} (new : ¬s.seen v) : 0 < s.unseen.card := by
  refine Finset.card_pos.2 ⟨v, ?_⟩
  simpa [unseen] using new

theorem Scan.card_unseen_le {s t : Scan n} (keeps : ∀ u, s.seen u → t.seen u) : t.unseen.card ≤ s.unseen.card := by
  refine Finset.card_le_card fun u hu => ?_
  simp only [unseen, Finset.mem_filter, Finset.mem_univ, true_and] at hu ⊢
  exact mt (keeps u) hu

/-- A visit deals with one successor. -/
def examine (g : Digraph n) (depth : Nat) (found : Nat × Scan n) (w : Fin n) : Nat × Scan n :=
  if found.2.seen w then (min found.1 (found.2.height w), found.2)
  else (min found.1 (g.scan depth w found.2).1, (g.scan depth w found.2).2)

theorem scan_succ (g : Digraph n) (depth : Nat) (v : Fin n) (s : Scan n) : g.scan (depth + 1) v s =
    let found := (g.successors v).foldl (g.examine depth) (s.stack.length, s.push v)
    (found.1, if found.1 = s.stack.length then found.2.close s.stack.length else found.2) := rfl

/-- Visits with room for every vertex not seen yet do what they should. -/
def VisitsWithin (g : Digraph n) (depth : Nat) : Prop :=
  ∀ {path : List (Fin n)} {v : Fin n} {s : Scan n}, s.Valid g path → ¬s.seen v → (∀ x ∈ path, g.Reaches x v) →
    s.unseen.card ≤ depth → Scan.Visited g path v s (g.scan depth v s).1 (g.scan depth v s).2

theorem Scan.Visiting.foldl {depth : Nat} (visits : g.VisitsWithin depth) {path : List (Fin n)} {v : Fin n} {s : Scan n}
    (new : ¬s.seen v) (leads : ∀ x ∈ path, g.Reaches x v) (room : s.unseen.card ≤ depth + 1) {rest : List (Fin n)}
    {past : List (Fin n)} {found : Nat × Scan n} (visiting : Scan.Visiting g path v s past found.1 found.2)
    (edges : ∀ w ∈ rest, g.edge v w) :
    Scan.Visiting g path v s (past ++ rest) (rest.foldl (g.examine depth) found).1
      (rest.foldl (g.examine depth) found).2 := by
  induction rest generalizing past found with
  | nil =>
    rw [List.append_nil]
    exact visiting
  | cons w rest ih =>
    obtain ⟨edge, edges⟩ := List.forall_mem_cons.1 edges
    rw [List.append_cons, List.foldl_cons]
    refine ih ?_ edges
    by_cases known : found.2.seen w
    · rw [examine, if_pos known]
      exact visiting.skip edge known
    · rw [examine, if_neg known]
      refine visiting.visit edge known (visits visiting.valid known ?_ ?_)
      · intro x hx
        rcases List.mem_cons.1 hx with rfl | hx
        · exact .of_edge edge
        · exact (leads x hx).trans (.of_edge edge)
      · have := Scan.card_unseen_lt visiting.grown new
        omega

theorem visitsWithin (g : Digraph n) (depth : Nat) : g.VisitsWithin depth := by
  induction depth with
  | zero =>
    intro path v s _ new _ room
    have := Scan.card_unseen_pos new
    omega
  | succ depth ih =>
    intro path v s valid new leads room
    have start : Scan.Visiting g path v s [] (s.stack.length, s.push v).1 (s.stack.length, s.push v).2 :=
      .enter valid new leads
    have visiting := Scan.Visiting.foldl ih new leads room start fun w hw => mem_successors.1 hw
    rw [List.nil_append] at visiting
    rw [scan_succ]
    dsimp only
    split
    · rename_i own
      exact visiting.close own
    · rename_i other
      have := visiting.lowest.le
      exact visiting.leave (by omega)

/-! ## Depth to spare -/

section
variable {s : Scan n} {depth : Nat} {u v w : Fin n}

theorem seen_foldl_examine (keeps : ∀ w (s : Scan n), s.seen u → (g.scan depth w s).2.seen u) (rest : List (Fin n))
    (found : Nat × Scan n) (known : found.2.seen u) : (rest.foldl (g.examine depth) found).2.seen u := by
  induction rest generalizing found with
  | nil => exact known
  | cons w rest ih =>
    refine ih _ ?_
    unfold examine
    split
    · exact known
    · exact keeps w found.2 known

/-- A visit forgets no vertex. -/
theorem seen_scan (g : Digraph n) (depth : Nat) (v : Fin n) (s : Scan n) (known : s.seen u) :
    (g.scan depth v s).2.seen u := by
  induction depth generalizing v s with
  | zero => exact known
  | succ depth ih =>
    have all := seen_foldl_examine ih (g.successors v) (s.stack.length, s.push v) (Scan.seen_push.2 (Or.inr known))
    rw [scan_succ]
    dsimp only
    split
    · exact Scan.seen_close.2 all
    · exact all

/-- What a visit does about one successor leaves no more vertices unseen. -/
theorem card_unseen_examine_le (g : Digraph n) (depth : Nat) (found : Nat × Scan n) (w : Fin n) :
    (g.examine depth found w).2.unseen.card ≤ found.2.unseen.card := by
  refine Scan.card_unseen_le fun u known => ?_
  exact seen_foldl_examine (fun w s => g.seen_scan depth w s) [w] found known

theorem foldl_examine_add {k : Nat} (spare : ∀ w (s : Scan n), ¬s.seen w → s.unseen.card ≤ depth →
    g.scan (depth + k) w s = g.scan depth w s) (rest : List (Fin n)) (found : Nat × Scan n)
    (room : found.2.unseen.card ≤ depth) :
    rest.foldl (g.examine (depth + k)) found = rest.foldl (g.examine depth) found := by
  induction rest generalizing found with
  | nil => rfl
  | cons w rest ih =>
    have step : g.examine (depth + k) found w = g.examine depth found w := by
      unfold examine
      split
      · rfl
      · rename_i new
        rw [spare w found.2 new room]
    have less := g.card_unseen_examine_le depth found w
    rw [List.foldl_cons, List.foldl_cons, step]
    exact ih _ (Nat.le_trans less room)

/-- A visit with room for every vertex not seen yet does the same with more. -/
theorem scan_add (new : ¬s.seen v) (room : s.unseen.card ≤ depth) (k : Nat) :
    g.scan (depth + k) v s = g.scan depth v s := by
  induction depth generalizing v s with
  | zero =>
    have := Scan.card_unseen_pos new
    omega
  | succ depth ih =>
    have less := Scan.card_unseen_lt (.refl (s.push v)) new
    have room : (s.push v).unseen.card ≤ depth := by omega
    have same := foldl_examine_add (fun w s => ih (v := w) (s := s)) (g.successors v) (s.stack.length, s.push v) room
    rw [Nat.add_right_comm, scan_succ, scan_succ, same]

end

/-- The scan deals with one vertex. -/
def scanFrom (g : Digraph n) (depth : Nat) (s : Scan n) (v : Fin n) : Scan n :=
  if s.seen v then s else (g.scan depth v s).2

def scanAll (g : Digraph n) (depth : Nat) : Scan n := (List.finRange n).foldl (g.scanFrom depth) {}

theorem Scan.card_unseen_le_card (s : Scan n) : s.unseen.card ≤ n := by
  have := Finset.card_le_univ s.unseen
  rwa [Fintype.card_fin] at this

/-- More depth than there are vertices does the same. -/
theorem scanAll_add (g : Digraph n) (k : Nat) : g.scanAll (n + k) = g.scanAll n := by
  have same : g.scanFrom (n + k) = g.scanFrom n := by
    funext s v
    unfold scanFrom
    split
    · rfl
    · rename_i new
      rw [scan_add new s.card_unseen_le_card]
  rw [scanAll, scanAll, same]

end LoopFree.Digraph
