/-
  LoopFree.Nested — numbers in nested lists.

  A value given as a number or as lists of lists is read row by row. It has a shape when
  all lists at one depth are equally long; one that has none is ragged. A shape has a
  limited number of dimensions.
-/

namespace LoopFree

inductive Nested (α : Type) where
  | number (a : α)
  | list (items : List (Nested α))
  deriving Repr

namespace Nested

variable {α : Type}

mutual

/-- The shape, outermost length first, and the numbers in reading order. -/
def read? : Nested α → Option (List Nat × List α)
  | number a => some ([], [a])
  | list items => do
    let parts ← readAll? items
    let inner := (parts.head?.map (·.1)).getD []
    if parts.all (·.1 = inner) then some (parts.length :: inner, parts.flatMap (·.2)) else none

def readAll? : List (Nested α) → Option (List (List Nat × List α))
  | [] => some []
  | item :: rest => do
    let first ← read? item
    let others ← readAll? rest
    pure (first :: others)

end

/-- The most dimensions a shape can have. -/
def maxDimensions : Nat := 64

/-- The numbers in reading order; none if ragged or nested too deep. -/
def entries? (v : Nested α) : Option (List α) := do
  let (shape, numbers) ← v.read?
  if shape.length ≤ maxDimensions then some numbers else none

end Nested
end LoopFree
