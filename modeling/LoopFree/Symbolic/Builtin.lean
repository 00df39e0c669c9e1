/-
  LoopFree.Symbolic.Builtin — the engine whose expressions are affine.

  A coefficient of zero may leave no product behind, so that an infinite entry adds
  nothing there. Symbols taken entry by entry drop every zero coefficient, symbols taken
  as vectors only a block of zeros.
-/

import LoopFree.Symbolic.Compiled
import LoopFree.Symbolic.Jacobian

namespace LoopFree

variable {α : Type}

namespace SymbolKind

variable [Zero α] [BEq α]

/-- The coefficients that leave a product. -/
def coefficients (k : SymbolKind) (a : Mat α) : Mat (Option α) :=
  match k with
  | .scalar => a.map fun c => if c == 0 then none else some c
  | .matrix => if a.entries.all (· == 0) then a.map fun _ => none else a.map some

/-- A block times the `n` symbols of a vector. A single symbol multiplies every
    coefficient, a single coefficient every symbol. -/
def product? (k : SymbolKind) (a : Mat α) (slot : Slot) (n : Nat) : Option (Mat (Expr α)) :=
  let coefficients := k.coefficients a
  if n = 1 then some (coefficients.map (Expr.product slot 0))
  else match coefficients.single? with
    | some c => some (.column ((List.range n).map (Expr.product slot · c)))
    | none =>
      if coefficients.width = n then some (.column (coefficients.rows.map (Expr.row slot))) else none

end SymbolKind

namespace Summand

def product? [Zero α] [BEq α] (a : Mat α) (v : Symbols) (slot : Slot) : Option (Summand α) :=
  (v.kind.product? a slot (v.length slot)).map fun value => {
    value
    level? := if (v.kind.coefficients a).entries.all Option.isNone then some 0 else none }

/-- The derivatives by one vector. Calls count as such only where symbols stand for whole
    vectors; entry by entry nothing is left of a call. -/
def jacobian [Zero α] [One α] (s : Summand α) (v : Symbols) (slot : Slot) : Summand α where
  value :=
    match v.kind, s.called with
    | .scalar, _ => Jacobian.ofDerivatives slot (v.length slot) s.value
    | .matrix, false => Jacobian.ofFormula (s.spread slot) slot (v.length slot) s.value
    | .matrix, true => Jacobian.ofCall (s.spread slot) slot (v.length slot) s.value
  level? := none

end Summand

/-- The engine that programs use. -/
def Engine.builtin [Zero α] [One α] [BEq α] [Add α] [Sub α] [Mul α] : Engine α where
  Expression := Summand α
  Function := Compiled α
  constant := Summand.constant
  product? := Summand.product?
  sum? := Summand.add?
  difference? := Summand.sub?
  function? v s := some ⟨v, s.value, s.spread⟩
  values? := Compiled.values?
  call? := Compiled.inSymbols?
  jacobian? s v slot := some (s.jacobian v slot)

end LoopFree
