/-
  LoopFree.Symbolic.Jacobian — the derivatives of a matrix of values by one vector.

  A Jacobian has a row for each value, column by column, and a column for each symbol.
  Derivatives of a formula are exact. Where the symbols stand for whole vectors they are
  found in sweeps, forward with one sweep a symbol or backward with one sweep a value, and
  two things show. Backward sweeps through a shared entry (LoopFree.Symbolic.Summand) reach
  it only in the first of a group. Sweeps through a call of a function leave nothing out:
  what does not change counts as a change by zero.
-/

import LoopFree.Symbolic.Summand

namespace LoopFree.Jacobian

variable {α : Type} [Zero α] [One α]

/-- Sweeps run backward if they are fewer than half as many. -/
def backward (values symbols : Nat) : Bool := 67 * values ≤ 33 * symbols

/-- How many sweeps are made together. -/
def groupSize : Nat := 64

/-- The derivative of one value, zero for a symbol that does not occur. -/
def derivativeBy (slot : Slot) (e : Expr α) (j : Nat) : Expr α :=
  (e.derivative? slot j).getD (.constant 0)

def ofDerivatives (slot : Slot) (symbols : Nat) (values : Mat (Expr α)) : Mat (Expr α) :=
  .table values.byColumns symbols (derivativeBy slot)

/-- Of a formula in the symbols of whole vectors. -/
def ofFormula (spread : Spread) (slot : Slot) (symbols : Nat) (values : Mat (Expr α)) :
    Mat (Expr α) :=
  if spread = .shared ∧ backward values.byColumns.length symbols then
    .table values.byColumns.zipIdx symbols fun (e, i) j =>
      if i % groupSize = 0 then derivativeBy slot e j else .constant 0
  else ofDerivatives slot symbols values

/-- The entry of a forward sweep through a call; a symbol that does not occur is not swept. -/
def slopeBy (slot : Slot) (e : Expr α) (j : Nat) : Expr α :=
  if (e.derivative? slot j).isSome then e.slope slot j else .constant 0

/-- The entry of the backward sweep of the `i`-th value of a column. -/
def shareBy (slot : Slot) (column : List (Expr α)) (i j : Nat) : Expr α :=
  column.zipIdx.foldl (fun total (e, k) =>
    total.sum (.scaled (if k = i then 1 else 0) (derivativeBy slot e j))) (.constant 0)

/-- Of a call of a function of whole vectors. Only a product that is not extended has
    several rows to sweep backward through. -/
def ofCall (spread : Spread) (slot : Slot) (symbols : Nat) (values : Mat (Expr α)) :
    Mat (Expr α) :=
  if backward values.byColumns.length symbols then
    if spread = .none then
      .table (values.columns.flatMap fun column => (List.range column.length).map (column, ·))
        symbols fun (column, i) => shareBy slot column i
    else ofDerivatives slot symbols values
  else .table values.byColumns symbols (slopeBy slot)

end LoopFree.Jacobian
