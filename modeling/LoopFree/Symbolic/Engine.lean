/-
  LoopFree.Symbolic.Engine — what compiling asks of symbolic algebra.

  An engine makes matrices of expressions in symbols for the four vectors, and functions of
  the vectors out of them. Here it is its operations and nothing more; that they are exact
  on affine expressions is stated where it is needed (LoopFree.Proofs.Exactness). An
  operation whose operands do not fit has no result.
-/

import LoopFree.Slot

namespace LoopFree

/-- Whether the symbols stand for entries or for whole vectors. -/
inductive SymbolKind where
  | scalar
  | matrix
  deriving DecidableEq, Repr

def SymbolKind.ofName (s : String) : Except Fault SymbolKind :=
  if s = "SX" then .ok .scalar
  else if s = "MX" then .ok .matrix
  else .error (.unknownSymbolKind s)

/-- Symbols for the four vectors. Those of two attempts are different symbols. -/
structure Symbols where
  kind : SymbolKind
  attempt : Nat := 0
  length : Slot → Nat := fun _ => 0

/-- New symbols for vectors of the given lengths. -/
def Symbols.renew (v : Symbols) (length : Slot → Nat) : Symbols :=
  { v with attempt := v.attempt + 1, length }

structure Engine (α : Type) where
  Expression : Type
  Function : Type
  /-- A matrix of numbers as an expression. -/
  constant : Mat α → Expression
  /-- The product of a matrix and the symbols of one vector. -/
  product? : Mat α → Symbols → Slot → Option Expression
  sum? : Expression → Expression → Option Expression
  difference? : Expression → Expression → Option Expression
  /-- The function of the four vectors that an expression in their symbols gives. -/
  function? : Symbols → Expression → Option Function
  values? : Function → Point α → Option (Mat α)
  /-- A function of symbols, as an expression in them. -/
  call? : Function → Symbols → Option Expression
  /-- The derivatives by the symbols of one vector: a row for each value, a column for each symbol. -/
  jacobian? : Expression → Symbols → Slot → Option Expression

end LoopFree
