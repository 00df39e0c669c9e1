/-
  LoopFree.Symbolic.Summand — sums of matrices of expressions, and how each vector enters.

  A product of one entry may be added to a larger matrix. If the entries of that matrix
  are equal constants, copies of the product are added to it; otherwise the one product is
  shared by all entries of the sum. The values are the same, but derivatives found value by
  value tell the two apart (LoopFree.Symbolic.Jacobian).
-/

import LoopFree.Matrix.Combine
import LoopFree.Symbolic.Expr

namespace LoopFree

inductive Spread where
  | none
  | copied
  | shared
  deriving DecidableEq, Repr

structure Summand (α : Type) where
  value : Mat (Expr α)
  /-- The number that all entries are, if no symbol occurs. -/
  level? : Option α
  /-- How the product of each vector has been extended. -/
  spread : Slot → Spread := fun _ => .none
  /-- Whether this is a function of other symbols, called with these. -/
  called : Bool := false

namespace Summand

variable {α : Type}

/-- A block of constants. -/
def constant [BEq α] (a : Mat α) : Summand α where
  value := a.map .constant
  level? :=
    match a.entries with
    | [] => none
    | c :: cs => if cs.all (· == c) then some c else none

/-- The spread of a vector in a sum or difference of two matrices. A single entry is
    extended to the size of the other; `evenLeft` and `evenRight` tell which side is even
    enough to be met by copies. -/
def joinSpread (a b : Summand α) (evenLeft evenRight : Bool) (slot : Slot) : Spread :=
  let kept := if a.spread slot = .none then b.spread slot else a.spread slot
  match a.value.single?, b.value.single? with
  | some e, none =>
    if e.mentions slot then (if evenRight then .copied else .shared) else kept
  | none, some e =>
    if e.mentions slot then (if evenLeft then .copied else .shared) else kept
  | _, _ => kept

def add? [Add α] (a b : Summand α) : Option (Summand α) :=
  (Mat.combine? .sum a.value b.value).map fun value => {
    value
    level? := do pure ((← a.level?) + (← b.level?))
    spread := joinSpread a b a.level?.isSome b.level?.isSome }

/-- The difference; only zeros are taken away from copies. -/
def sub? [Zero α] [BEq α] [Sub α] (a b : Summand α) : Option (Summand α) :=
  (Mat.combine? .difference a.value b.value).map fun value => {
    value
    level? := do pure ((← a.level?) - (← b.level?))
    spread := joinSpread a b a.level?.isSome (b.level?.any (· == 0)) }

/-- Nothing is extended between matrices that both have more than one entry, or one. -/
theorem joinSpread_of_isSome_eq (a b : Summand α) (evenLeft evenRight : Bool) (slot : Slot)
    (h : a.value.single?.isSome = b.value.single?.isSome) (ha : a.spread slot = .none)
    (hb : b.spread slot = .none) : joinSpread a b evenLeft evenRight slot = .none := by
  unfold joinSpread
  rw [if_pos ha, hb]
  split <;> simp_all

end Summand
end LoopFree
