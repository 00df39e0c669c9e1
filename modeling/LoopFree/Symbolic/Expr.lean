/-
  LoopFree.Symbolic.Expr — affine expressions in the entries of the vectors x, u, d, z.

  An expression is evaluated at a point. Its derivative by an entry is again an
  expression, and absent where the entry does not occur. Other expressions may be put in
  place of the entries; the value is then the value at the point of their values.

  The slope along an entry is the derivative with nothing left out: the other entries
  change by zero, and zero times a coefficient that is not finite is no number.
-/

import LoopFree.Slot

namespace LoopFree

variable {α β : Type}

inductive Expr (α : Type) where
  | constant (a : α)
  | entry (slot : Slot) (j : Nat)
  | scaled (a : α) (e : Expr α)
  | sum (e f : Expr α)
  | difference (e f : Expr α)
  deriving DecidableEq, Repr

namespace Expr

/-- Whether an entry of the vector occurs. -/
def mentions (slot : Slot) : Expr α → Bool
  | constant _ => false
  | entry s _ => s = slot
  | scaled _ e => e.mentions slot
  | sum e f => e.mentions slot || f.mentions slot
  | difference e f => e.mentions slot || f.mentions slot

section
variable [Zero α] [Add α] [Sub α] [Mul α]

def eval (p : Point α) : Expr α → α
  | constant a => a
  | entry slot j => (p.get slot).getD j 0
  | scaled a e => a * e.eval p
  | sum e f => e.eval p + f.eval p
  | difference e f => e.eval p - f.eval p

/-- Puts expressions in place of the entries. -/
def subst (p : Point (Expr α)) : Expr α → Expr α
  | constant a => constant a
  | entry slot j => (p.get slot).getD j (constant 0)
  | scaled a e => scaled a (e.subst p)
  | sum e f => sum (e.subst p) (f.subst p)
  | difference e f => difference (e.subst p) (f.subst p)

theorem eval_subst (p : Point (Expr α)) (q : Point α) (e : Expr α) :
    (e.subst p).eval q = e.eval (p.map (·.eval q)) := by
  induction e with
  | constant a => rfl
  | entry slot j =>
    simp only [subst, eval, Point.map, Point.get_ofFn, List.getD_eq_getElem?_getD, List.getElem?_map]
    cases (p.get slot)[j]? <;> rfl
  | scaled a e ih => simp only [subst, eval, ih]
  | sum e f ihe ihf => simp only [subst, eval, ihe, ihf]
  | difference e f ihe ihf => simp only [subst, eval, ihe, ihf]

end

variable [Zero α]

/-- The derivative by one entry; absent if the entry does not occur. -/
def derivative? [One α] (slot : Slot) (j : Nat) : Expr α → Option (Expr α)
  | constant _ => none
  | entry s k => if s = slot ∧ k = j then some (constant 1) else none
  | scaled a e => (e.derivative? slot j).map (scaled a)
  | sum e f =>
    match e.derivative? slot j, f.derivative? slot j with
    | none, d => d
    | d, none => d
    | some d, some k => some (sum d k)
  | difference e f =>
    match e.derivative? slot j, f.derivative? slot j with
    | d, none => d
    | none, some k => some (difference (constant 0) k)
    | some d, some k => some (difference d k)

/-- The change when one entry changes by one and all others by zero. -/
def slope [One α] (slot : Slot) (j : Nat) : Expr α → Expr α
  | constant _ => constant 0
  | entry s k => constant (if s = slot ∧ k = j then 1 else 0)
  | scaled a e => scaled a (e.slope slot j)
  | sum e f => sum (e.slope slot j) (f.slope slot j)
  | difference e f => difference (e.slope slot j) (f.slope slot j)

/-- The product of a coefficient, if there is one, and an entry. -/
def product (slot : Slot) (j : Nat) : Option α → Expr α
  | none => constant 0
  | some a => scaled a (entry slot j)

/-- The product of a row of coefficients and a vector. -/
def row (slot : Slot) (coefficients : List (Option α)) : Expr α :=
  coefficients.zipIdx.foldl (fun e (a, j) => e.sum (product slot j a)) (constant 0)

end Expr
end LoopFree
