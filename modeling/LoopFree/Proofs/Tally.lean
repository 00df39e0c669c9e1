/-
  LoopFree.Proofs.Tally — what the degrees of the greedy ordering count.

  Here the sweeps and rounds are those of `Placing`, which count the degrees among the
  vertices left each time they ask for one. `Counts` says of a tally that its tables hold
  these numbers for every vertex that is left. Placing a vertex keeps this, since each of
  the others loses the edges from and to that vertex (`get_foldl_lower`); so sweeps and
  rounds of the tally place what those of `Placing` do (`Counts.rounds`).
-/

import LoopFree.Graph.Greedy
import Mathlib.Data.List.Find
import Mathlib.Data.List.FinRange
import Mathlib.Data.List.Nodup

namespace LoopFree.Digraph

variable {n : Nat} {g : Digraph n} {u v w : Fin n}

/-! ## Degrees counted anew -/

namespace Placing

def outDegree (g : Digraph n) (p : Placing n) (v : Fin n) : Nat :=
  p.left.countP fun w => w ≠ v && g.edge v w

def inDegree (g : Digraph n) (p : Placing n) (v : Fin n) : Nat :=
  p.left.countP fun w => w ≠ v && g.edge w v

def sweepSinks (g : Digraph n) (p : Placing n) : Placing n :=
  p.left.foldl (fun q v => if q.outDegree g v = 0 then q.toBack v else q) p

def sweepSources (g : Digraph n) (p : Placing n) : Placing n :=
  p.left.foldl (fun q v => if q.inDegree g v = 0 then q.toFront v else q) p

def surplus (g : Digraph n) (p : Placing n) (v : Fin n) : Int :=
  (p.outDegree g v : Int) - p.inDegree g v

/-- The first of the vertices left with the largest surplus. -/
def best? (g : Digraph n) (p : Placing n) : Option (Fin n) :=
  p.left.find? fun v => p.left.all fun w => p.surplus g w ≤ p.surplus g v

/-- Both sweeps; if they place nothing, the best vertex goes to the front. -/
def round (g : Digraph n) (p : Placing n) : Placing n :=
  let q := (p.sweepSinks g).sweepSources g
  if q.left.length < p.left.length then q
  else match q.best? g with
    | some v => q.toFront v
    | none => q

/-- Every round places a vertex, so as many rounds as vertices are enough. -/
def rounds (g : Digraph n) : Nat → Placing n → Placing n
  | 0, p => p
  | k + 1, p => rounds g k (p.round g)

end Placing

/-! ## Placing one vertex -/

theorem subset_erase {rest left : List (Fin n)} (new : v ∉ rest) (sub : rest ⊆ left) : rest ⊆ left.erase v := by
  intro w hw
  have other : w ≠ v := fun same => new (same ▸ hw)
  exact (List.mem_erase_of_ne other).2 (sub hw)

/-- Where a table counts the others related to a vertex, lowering what is related to `v`
    takes `v` out of the count. -/
theorem Degrees.get_placed {d : Degrees n} {left : List (Fin n)} (related : Fin n → Fin n → Bool) (nodup : left.Nodup)
    (hv : v ∈ left) (counts : ∀ w ∈ left, d.get w = left.countP fun x => x ≠ w && related w x) :
    ∀ w ∈ left.erase v, (((left.erase v).filter fun w => related w v).foldl lower d).get w =
      (left.erase v).countP fun x => x ≠ w && related w x := by
  intro w hw
  obtain ⟨ne, hw'⟩ := nodup.mem_erase_iff.1 hw
  have degree := counts w hw'
  rw [← countP_erase_of_mem hv] at degree
  have near : w ∈ (left.erase v).filter (fun w => related w v) ↔ related w v := by
    rw [List.mem_filter, and_iff_right hw]
  rw [get_foldl_lower ((nodup.erase v).filter _)]
  split
  · rename_i lowered
    rw [degree]
    simp [ne.symm, near.1 lowered]
  · rename_i kept
    rw [degree]
    simp [mt near.2 kept]

namespace Tally

variable {t : Tally n} {p : Placing n}

/-- The tables hold the degrees of the vertices left. -/
structure Counts (g : Digraph n) (t : Tally n) : Prop where
  nodup : t.placing.left.Nodup
  outDegree : ∀ v ∈ t.placing.left, t.outDegree.get v = t.placing.outDegree g v
  inDegree : ∀ v ∈ t.placing.left, t.inDegree.get v = t.placing.inDegree g v

theorem counts_start (g : Digraph n) : (start g).Counts g where
  nodup := List.nodup_finRange n
  outDegree v _ := Degrees.get_ofFn _ v
  inDegree v _ := Degrees.get_ofFn _ v

namespace Counts

variable (h : t.Counts g)
include h

theorem placed (hv : v ∈ t.placing.left) (left : p.left = t.placing.left.erase v) : (t.placed g v p).Counts g := by
  have outward := Degrees.get_placed g.edge h.nodup hv h.outDegree
  have inward := Degrees.get_placed (fun w x => g.edge x w) h.nodup hv h.inDegree
  rw [← left] at outward inward
  exact ⟨left ▸ h.nodup.erase v, outward, inward⟩

/-- A sweep of the tally places what the sweep does that counts anew. -/
theorem foldl_sweep {degree : Tally n → Degrees n} {degree' : Placing n → Fin n → Nat}
    {place : Placing n → Fin n → Placing n}
    (same : ∀ t : Tally n, t.Counts g → ∀ v ∈ t.placing.left, (degree t).get v = degree' t.placing v)
    (erases : ∀ (p : Placing n) v, (place p v).left = p.left.erase v) {rest : List (Fin n)} (nodup : rest.Nodup)
    (sub : rest ⊆ t.placing.left) :
    let swept := rest.foldl (fun t v => if (degree t).get v = 0 then t.placed g v (place t.placing v) else t) t
    swept.Counts g ∧
      swept.placing = rest.foldl (fun p v => if degree' p v = 0 then place p v else p) t.placing := by
  induction rest generalizing t with
  | nil => exact ⟨h, rfl⟩
  | cons v rest ih =>
    obtain ⟨new, nodup⟩ := List.nodup_cons.1 nodup
    obtain ⟨hv, sub⟩ := List.cons_subset.1 sub
    rw [List.foldl_cons, List.foldl_cons, same t h v hv]
    by_cases zero : degree' t.placing v = 0
    · rw [if_pos zero, if_pos zero]
      refine ih (h.placed hv (erases t.placing v)) nodup ?_
      rw [Tally.placed, erases]
      exact subset_erase new sub
    · rw [if_neg zero, if_neg zero]
      exact ih h nodup sub

theorem sweepSinks : (t.sweepSinks g).Counts g ∧ (t.sweepSinks g).placing = t.placing.sweepSinks g :=
  h.foldl_sweep (fun _ h => h.outDegree) (fun _ _ => rfl) h.nodup (List.Subset.refl _)

theorem sweepSources : (t.sweepSources g).Counts g ∧ (t.sweepSources g).placing = t.placing.sweepSources g :=
  h.foldl_sweep (fun _ h => h.inDegree) (fun _ _ => rfl) h.nodup (List.Subset.refl _)

theorem surplus_eq (hv : v ∈ t.placing.left) : t.surplus v = t.placing.surplus g v := by
  rw [Tally.surplus, Placing.surplus, h.outDegree v hv, h.inDegree v hv]

theorem best?_eq : t.best? = t.placing.best? g := by
  refine List.find?_congr fun v hv => ?_
  rw [Bool.eq_iff_iff, List.all_eq_true, List.all_eq_true]
  refine forall₂_congr fun w hw => ?_
  rw [h.surplus_eq hv, h.surplus_eq hw]

theorem round : (t.round g).Counts g ∧ (t.round g).placing = t.placing.round g := by
  obtain ⟨sinks, same⟩ := h.sweepSinks
  obtain ⟨swept, same'⟩ := sinks.sweepSources
  rw [same] at same'
  unfold Tally.round Placing.round
  dsimp only
  rw [same', swept.best?_eq, same']
  split
  · exact ⟨swept, same'⟩
  · cases best : ((t.placing.sweepSinks g).sweepSources g).best? g with
    | none => exact ⟨swept, same'⟩
    | some v =>
      have hv : v ∈ ((t.sweepSinks g).sweepSources g).placing.left := same' ▸ List.mem_of_find?_eq_some best
      exact ⟨swept.placed hv rfl, congrArg (·.toFront v) same'⟩

theorem rounds (k : Nat) : (t.rounds g k).placing = t.placing.rounds g k := by
  induction k generalizing t with
  | zero => rfl
  | succ k ih =>
    obtain ⟨counts, same⟩ := h.round
    rw [Tally.rounds, Placing.rounds, ih counts, same]

end Counts
end Tally

/-- The degrees are kept right, so the order is the one that counting anew gives. -/
theorem greedyOrder_eq (g : Digraph n) : g.greedyOrder = (Placing.rounds g n (.start n)).order :=
  congrArg Placing.order ((Tally.counts_start g).rounds n)

end LoopFree.Digraph
