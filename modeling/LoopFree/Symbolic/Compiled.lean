/-
  LoopFree.Symbolic.Compiled — functions of the vectors x, u, d, z given by expressions.

  A compiled function is a matrix of expressions and the symbols they are written in. Its
  arguments may be numbers or expressions: numbers give the values, expressions the function
  of other symbols.

  The arguments need not have the lengths of the vectors. Empty ones and single entries
  are extended, and a function of four numbers with one value is taken entry by entry
  along longer arguments of one length.
-/

import LoopFree.Symbolic.Engine
import LoopFree.Symbolic.Summand

namespace LoopFree

variable {α β γ : Type}

structure Compiled (α : Type) where
  symbols : Symbols
  body : Mat (Expr α)
  spread : Slot → Spread

namespace Compiled

/-- A vector in place of one of `n` entries: an empty one stands for zeros and a single
    entry for a vector of equal entries. -/
def fit? (zero : β) (n : Nat) (v : List β) : Option (List β) :=
  if v.length = n then some v
  else match v with
    | [] => some (List.replicate n zero)
    | [a] => some (List.replicate n a)
    | _ => none

theorem fit?_of_length_eq (zero : β) {n : Nat} {v : List β} (h : v.length = n) :
    fit? zero n v = some v := if_pos h

/-- The vectors of a point at given lengths. -/
def fitPoint? (zero : β) (lengths : Slot → Nat) (p : Point β) : Option (Point β) := do
  pure {
    state := ← fit? zero (lengths .state) p.state
    input := ← fit? zero (lengths .input) p.input
    discrete := ← fit? zero (lengths .discrete) p.discrete
    continuous := ← fit? zero (lengths .continuous) p.continuous }

theorem fitPoint?_of_length_eq (zero : β) {lengths : Slot → Nat} {p : Point β}
    (h : ∀ s, (p.get s).length = lengths s) : fitPoint? zero lengths p = some p := by
  have hx : fit? zero (lengths .state) p.state = some p.state := fit?_of_length_eq zero (h .state)
  have hu : fit? zero (lengths .input) p.input = some p.input := fit?_of_length_eq zero (h .input)
  have hd : fit? zero (lengths .discrete) p.discrete = some p.discrete :=
    fit?_of_length_eq zero (h .discrete)
  have hz : fit? zero (lengths .continuous) p.continuous = some p.continuous :=
    fit?_of_length_eq zero (h .continuous)
  rw [fitPoint?, hx, hu, hd, hz]
  rfl

/-- The one value of a function of four numbers. -/
def scalar? (c : Compiled α) : Option (Expr α) :=
  if Slot.all.all (c.symbols.length · = 1) then c.body.single? else none

/-- The points of the `i`-th entries, for vectors extended to the longest of them. -/
def entryPoints? (zero : β) (p : Point β) : Option (List (Point β)) := do
  let n := (Slot.all.map fun s => (p.get s).length).foldl max 0
  let q ← fitPoint? zero (fun _ => n) p
  pure ((List.range n).map fun i => .ofFn fun s => (q.get s)[i]?.toList)

/-- A function at given arguments, where `read` is the value of an expression at a point.
    Arguments that do not fit are taken entry by entry if the function is of numbers. -/
def call? (c : Compiled α) (zero : β) (read : Point β → Expr α → γ) (p : Point β) :
    Option (Mat γ) :=
  match fitPoint? zero c.symbols.length p with
  | some q => some (c.body.map (read q))
  | none => do
    let e ← c.scalar?
    let points ← entryPoints? zero p
    pure (.column (points.map (read · e)))

theorem call?_of_length_eq (c : Compiled α) (zero : β) (read : Point β → Expr α → γ) {p : Point β}
    (h : ∀ s, (p.get s).length = c.symbols.length s) : c.call? zero read p = some (c.body.map (read p)) := by
  rw [call?, fitPoint?_of_length_eq zero h]

section
variable [Zero α] [Add α] [Sub α] [Mul α]

def values? (c : Compiled α) (p : Point α) : Option (Mat α) := c.call? 0 Expr.eval p

/-- The function with expressions for arguments. -/
def inline? (c : Compiled α) (p : Point (Expr α)) : Option (Mat (Expr α)) :=
  c.call? (.constant 0) Expr.subst p

/-- The function of the given symbols. In its own it is the formula it was built from. -/
def inSymbols? (c : Compiled α) (v : Symbols) : Option (Summand α) :=
  if c.symbols.attempt = v.attempt then some { value := c.body, level? := none, spread := c.spread }
  else
    (c.inline? (.ofFn fun s => (List.range (v.length s)).map (.entry s))).map fun value =>
      { value, level? := none, spread := c.spread, called := true }

end
end Compiled
end LoopFree
