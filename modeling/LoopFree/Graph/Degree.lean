/-
  LoopFree.Graph.Degree — degrees that are kept up to date.

  A table of degrees is counted once; whoever takes vertices out of the graph lowers the
  degrees of their neighbours instead of counting again.
-/

import LoopFree.Graph.Digraph

namespace LoopFree.Digraph

variable {n : Nat}

/-- A vertex taken out counts no more. -/
theorem countP_erase_of_mem {left : List (Fin n)} {v : Fin n} (hv : v ∈ left) (p : Fin n → Bool) :
    (left.erase v).countP p + (if p v then 1 else 0) = left.countP p := by
  rw [(List.perm_cons_erase hv).countP_eq, List.countP_cons]

abbrev Degrees (n : Nat) := Vector Nat n

@[simp] theorem Degrees.get_ofFn (f : Fin n → Nat) (v : Fin n) : (Vector.ofFn f : Degrees n).get v = f v :=
  Vector.getElem_ofFn v.isLt

/-- One edge less at the vertex. -/
def Degrees.lower (d : Degrees n) (v : Fin n) : Degrees n := d.set v (d.get v - 1) v.isLt

theorem Degrees.get_lower (d : Degrees n) (v w : Fin n) :
    (d.lower v).get w = if w = v then d.get w - 1 else d.get w := by
  rw [lower, get_table_set]
  split
  · rename_i same
    rw [same]
  · rfl

/-- One edge less at each of several vertices. -/
theorem Degrees.get_foldl_lower {lowered : List (Fin n)} (nodup : lowered.Nodup) (d : Degrees n) (w : Fin n) :
    (lowered.foldl lower d).get w = if w ∈ lowered then d.get w - 1 else d.get w := by
  induction lowered generalizing d with
  | nil => simp
  | cons v lowered ih =>
    obtain ⟨new, nodup⟩ := List.nodup_cons.1 nodup
    rw [List.foldl_cons, ih nodup, get_lower]
    by_cases same : w = v
    · rw [same, if_neg new, if_pos rfl, if_pos List.mem_cons_self]
    · rw [if_neg same]
      simp [same]

end LoopFree.Digraph
