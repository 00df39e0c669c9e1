/-
  LoopFree.Affine — evaluation of the three equations at a point.

  A point gives a value for each of the vectors x, u, d, z. A product needs a vector as
  long as its block is wide. Vectors of one length are combined entry by entry and a
  vector of one entry with any other; blocks of the expected shapes give vectors of one
  length throughout.
-/

import LoopFree.Model

namespace LoopFree

structure Point (α : Type) where
  state : List α
  input : List α
  discrete : List α
  continuous : List α
  deriving DecidableEq, Repr

variable {α : Type}

/-- Combines two vectors entry by entry; a vector of one entry is repeated. -/
def combine? (f : α → α → α) (a b : List α) : Option (List α) :=
  if a.length = b.length then some (a.zipWith f b)
  else match a, b with
    | [x], ys => some (ys.map (f x))
    | xs, [y] => some (xs.map (f · y))
    | _, _ => none

namespace Model

section
variable [Zero α] [Add α] [Mul α]

/-- The state, input, discrete and continuous terms and the constant of an equation. -/
def products? (m : Model α) (e : Equation) (p : Point α) : Option (Terms (List α)) := do
  let t := m.blocks.terms e
  pure {
    state := ← t.state.mulVec? p.state
    input := ← t.input.mulVec? p.input
    discrete := ← t.discrete.mulVec? p.discrete
    continuous := ← t.continuous.mulVec? p.continuous
    affine := t.affine.entries }

def sum? (t : Terms (List α)) : Option (List α) := do
  let a ← combine? (· + ·) t.state t.input
  let b ← combine? (· + ·) a t.discrete
  let c ← combine? (· + ·) b t.continuous
  combine? (· + ·) c t.affine

/-- A result that exists when all lengths fit. -/
def fitting {β : Type} : Option β → Except Fault β
  | some b => .ok b
  | none => .error .wrongSize

/-- The next state, `A x + B1 u + B2 d + B3 z + B5`. -/
def nextState (m : Model α) (p : Point α) : Except Fault (List α) :=
  fitting (m.products? .update p >>= sum?)

/-- The output, `C x + D1 u + D2 d + D3 z + D5`. -/
def output (m : Model α) (p : Point α) : Except Fault (List α) :=
  fitting (m.products? .output p >>= sum?)

variable [Sub α]

/-- How far each inequality is from holding with equality:
    `E2 d + E3 z - E1 u - E4 x - E5`, not positive where it holds. -/
def residual (m : Model α) (p : Point α) : Except Fault (List α) := fitting do
  let t ← m.products? .ineq p
  let a ← combine? (· + ·) t.discrete t.continuous
  let b ← combine? (· - ·) a t.input
  let c ← combine? (· - ·) b t.state
  combine? (· - ·) c t.affine

/-- Every inequality holds up to the tolerance. -/
def feasible [LE α] [DecidableLE α] (m : Model α) (tolerance : α) (p : Point α) : Except Fault Bool :=
  (m.residual p).map fun r => r.all (· ≤ tolerance)

end

/-- The tolerance that is used where none is given. -/
def defaultTolerance : Float := 1e-9

end Model
end LoopFree
