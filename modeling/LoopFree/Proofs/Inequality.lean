/-
  LoopFree.Proofs.Inequality — the inequality system row by row.

  An `Inequality` is one row with its descriptor, its coefficients by name and its
  constant; `inequalities` lists them. Nothing in it depends on where a column stands.
  `residual_pointOf` and `feasible_pointOf` evaluate a consistent model through it.
-/

import LoopFree.Proofs.Coefficient

namespace LoopFree

variable {α : Type}

structure Inequality (α : Type) where
  row : Row
  coefficient : String → α
  constant : α

/-- How far the inequality is from holding with equality, as in `Model.residual`. -/
def Inequality.excess [Zero α] [Add α] [Mul α] [Sub α] (c : Inequality α) (m : Model α) (v : String → α) : α :=
  m.share v .discrete c.coefficient + m.share v .continuous c.coefficient - m.share v .input c.coefficient -
    m.share v .state c.coefficient - c.constant

namespace Model

variable {m : Model α}

section
variable [Zero α]

def inequality (m : Model α) (row : Row) (i : Nat) : Inequality α where
  row := row
  coefficient := m.coefficient .ineq i
  constant := m.constant .ineq i

def inequalities (m : Model α) : List (Inequality α) := m.rows.ineq.zipIdx.map fun (row, i) => m.inequality row i

@[simp] theorem length_inequalities (m : Model α) : m.inequalities.length = m.rows.ineq.length := by
  simp [inequalities]

theorem getElem?_inequalities (m : Model α) (i : Nat) :
    m.inequalities[i]? = m.rows.ineq[i]?.map fun row => m.inequality row i := by
  rw [inequalities, List.getElem?_map, List.getElem?_zipIdx]
  cases m.rows.ineq[i]? <;> simp

theorem map_row_inequalities (m : Model α) : m.inequalities.map (·.row) = m.rows.ineq := by
  apply List.ext_getElem?
  intro i
  rw [List.getElem?_map, getElem?_inequalities]
  cases m.rows.ineq[i]? <;> rfl

end

section
variable [Zero α] [Add α] [Mul α] [Sub α]

/-- The excess of the inequality in a row. -/
def rowExcess (m : Model α) (v : String → α) (i : Nat) : α :=
  m.share v .discrete (m.coefficient .ineq i) + m.share v .continuous (m.coefficient .ineq i) -
    m.share v .input (m.coefficient .ineq i) - m.share v .state (m.coefficient .ineq i) - m.constant .ineq i

theorem Consistent.residual_pointOf (h : m.Consistent) (v : String → α) :
    m.residual (m.pointOf v) = .ok (m.inequalities.map (·.excess m v)) := by
  have rows : m.inequalities.map (·.excess m v) = (List.range m.ineqCount).map (m.rowExcess v) := by
    rw [← h.ineqRows, List.range_eq_range', ← List.zipIdx_map_snd, inequalities, List.map_map, List.map_map]
    rfl
  rw [rows]
  simp only [residual, h.products?_pointOf, Option.bind_eq_bind, Option.bind_some, combine?_map, fitting]
  rfl

variable [LE α] [DecidableLE α]

theorem Consistent.feasible_pointOf (h : m.Consistent) (v : String → α) (tolerance : α) :
    m.feasible tolerance (m.pointOf v) = .ok (m.inequalities.all fun c => c.excess m v ≤ tolerance) := by
  rw [feasible, h.residual_pointOf]
  simp [Except.map, List.all_map, Function.comp_def]

end
end Model
end LoopFree
