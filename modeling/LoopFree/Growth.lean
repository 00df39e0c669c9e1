/-
  LoopFree.Growth — new input columns and inequality rows.

  A column opens at one index in the input blocks of all three equations, and the inputs
  from there on move up by one. The indices move first, then the blocks are widened one
  after the other. Rows are added at the end of every inequality block.
-/

import LoopFree.Edit

namespace LoopFree

variable {α : Type}

namespace Model

/-- Makes room for an input at `index`. -/
def shiftInputs (m : Model α) (index : Int) : Model α :=
  { m with symbols := m.symbols.map fun s =>
      if s.role = .input then
        { s with index := s.index.map fun i => if index ≤ i then i + 1 else i }
      else s }

def appendZeroRows [Zero α] (m : Model α) (count : Nat) : Model α :=
  { m with blocks := { m.blocks with ineq := m.blocks.ineq.map (·.appendZeroRows count) } }

end Model

namespace Edit

def openColumn [Zero α] (b : Block) (column : Nat) : Edit α Unit := do
  let m ← model
  let wider ← ofOption .outOfRange ((m.block b).insertColumn? column)
  setModel (m.setBlock b wider)

/-- Opens a zero column for a new input. -/
def insertInputColumn [Zero α] (index : Int) : Edit α Unit := do
  let m ← model
  let columns := (m.block ⟨.update, .input⟩).width
  if 0 ≤ index ∧ index ≤ columns then
    setModel (m.shiftInputs index)
    openColumn ⟨.update, .input⟩ index.toNat
    openColumn ⟨.output, .input⟩ index.toNat
    openColumn ⟨.ineq, .input⟩ index.toNat
  else throw (.inputColumn index columns)

/-- Adds zero rows to the inequality and returns the position of the first. -/
def appendIneqRows [Zero α] (count : Int) : Edit α Nat := do
  let m ← model
  if count < 0 then throw .wrongSize
  setModel (m.appendZeroRows count.toNat)
  return m.ineqCount

end Edit
end LoopFree
