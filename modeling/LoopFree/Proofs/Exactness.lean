/-
  LoopFree.Proofs.Exactness — engines that are exact on affine expressions.

  `AffineRows` are the rows of an affine map of the four vectors, each a constant and its
  coefficients. `E.Denotes v x f`: the expression `x` is built from constant columns and
  products with the symbols `v` in the way of the affine map `f`. An engine is exact if all
  such expressions can be built, if their functions have the values of their maps, and if
  their derivatives are the coefficients (`Engine.Exact`). Nothing is asked of other
  expressions, of operands that do not fit, or of arguments of other lengths.
-/

import LoopFree.Matrix.Combine
import LoopFree.Proofs.Evaluation
import LoopFree.Symbolic.Engine
import Mathlib.Algebra.Ring.Defs
import Mathlib.Tactic.Abel

namespace LoopFree

variable {α : Type}

/-! ## Affine maps -/

structure AffineRows (α : Type) where
  height : Nat
  constant : Nat → α
  coefficient : Slot → Nat → Nat → α

namespace AffineRows

section
variable [Zero α]

/-- The constants of a column. -/
def ofColumn (a : Mat α) : AffineRows α := ⟨a.height, fun i => (a.row i).getD 0 0, fun _ _ _ => 0⟩

/-- A matrix times one of the vectors. -/
def ofBlock (slot : Slot) (a : Mat α) : AffineRows α :=
  ⟨a.height, fun _ => 0, fun s i j => if s = slot then (a.row i).getD j 0 else 0⟩

end

def add [Add α] (f g : AffineRows α) : AffineRows α :=
  ⟨f.height, fun i => f.constant i + g.constant i, fun s i j => f.coefficient s i j + g.coefficient s i j⟩

def sub [Sub α] (f g : AffineRows α) : AffineRows α :=
  ⟨f.height, fun i => f.constant i - g.constant i, fun s i j => f.coefficient s i j - g.coefficient s i j⟩

section
variable [Zero α] [Add α] [Mul α]

/-- What a vector adds to a row. -/
def linear (f : AffineRows α) (s : Slot) (v : List α) (i : Nat) : α :=
  Mat.dot ((List.range v.length).map (f.coefficient s i)) v

def valueAt (f : AffineRows α) (p : Point α) (i : Nat) : α :=
  f.constant i + f.linear .state p.state i + f.linear .input p.input i + f.linear .discrete p.discrete i +
    f.linear .continuous p.continuous i

def values (f : AffineRows α) (p : Point α) : Mat α := .column ((List.range f.height).map (f.valueAt p))

end

/-- The coefficients of a vector of `n` entries. -/
def derivatives (f : AffineRows α) (slot : Slot) (n : Nat) : Mat α :=
  .table (List.range f.height) n (f.coefficient slot)

end AffineRows

namespace Mat

section
variable [CommRing α]

theorem dot_cons (a b : α) (r v : List α) : dot (a :: r) (b :: v) = a * b + dot r v := by
  simp [dot]

theorem dot_map_add {β : Type} (l : List β) (c d : β → α) (v : List α) :
    dot (l.map fun j => c j + d j) v = dot (l.map c) v + dot (l.map d) v := by
  induction l generalizing v with
  | nil => simp [dot]
  | cons j l ih =>
    cases v with
    | nil => simp [dot]
    | cons x v =>
      simp only [List.map_cons, dot_cons, ih, add_mul]
      abel

theorem dot_map_neg {β : Type} (l : List β) (c : β → α) (v : List α) :
    dot (l.map fun j => -c j) v = -dot (l.map c) v := by
  induction l generalizing v with
  | nil => simp [dot]
  | cons j l ih =>
    cases v with
    | nil => simp [dot]
    | cons x v => rw [List.map_cons, List.map_cons, dot_cons, dot_cons, ih, neg_mul, neg_add]

theorem dot_map_sub {β : Type} (l : List β) (c d : β → α) (v : List α) :
    dot (l.map fun j => c j - d j) v = dot (l.map c) v - dot (l.map d) v := by
  simp only [sub_eq_add_neg, dot_map_add, dot_map_neg]

theorem dot_map_zero {β : Type} (l : List β) (v : List α) : dot (l.map fun _ => 0) v = 0 := by
  induction l generalizing v with
  | nil => rfl
  | cons j l ih =>
    cases v with
    | nil => rfl
    | cons x v => rw [List.map_cons, dot_cons, ih, zero_mul, zero_add]

/-- Entries past the end of a row count as zero. -/
theorem dot_getD (r v : List α) : dot ((List.range v.length).map fun j => r.getD j 0) v = dot r v := by
  induction v generalizing r with
  | nil => simp [dot]
  | cons x v ih =>
    cases r with
    | nil => exact dot_map_zero _ _
    | cons a r =>
      rw [List.length_cons, List.range_succ_eq_map, List.map_cons, List.map_map, dot_cons, dot_cons, ← ih r]
      rfl

end
end Mat

namespace AffineRows

section
variable [CommRing α]

@[simp] theorem height_add (f g : AffineRows α) : (f.add g).height = f.height := rfl
@[simp] theorem height_sub (f g : AffineRows α) : (f.sub g).height = f.height := rfl
@[simp] theorem height_ofColumn (a : Mat α) : (ofColumn a).height = a.height := rfl
@[simp] theorem height_ofBlock (slot : Slot) (a : Mat α) : (ofBlock slot a).height = a.height := rfl

@[simp] theorem linear_add (f g : AffineRows α) (s : Slot) (v : List α) (i : Nat) :
    (f.add g).linear s v i = f.linear s v i + g.linear s v i := Mat.dot_map_add _ _ _ _

@[simp] theorem linear_sub (f g : AffineRows α) (s : Slot) (v : List α) (i : Nat) :
    (f.sub g).linear s v i = f.linear s v i - g.linear s v i := Mat.dot_map_sub _ _ _ _

@[simp] theorem linear_ofColumn (a : Mat α) (s : Slot) (v : List α) (i : Nat) : (ofColumn a).linear s v i = 0 :=
  Mat.dot_map_zero _ _

@[simp] theorem linear_ofBlock (slot : Slot) (a : Mat α) (s : Slot) (v : List α) (i : Nat) :
    (ofBlock slot a).linear s v i = if s = slot then Mat.dot (a.row i) v else 0 := by
  by_cases own : s = slot
  · simp only [linear, ofBlock, own, if_true]
    exact Mat.dot_getD (a.row i) v
  · simp only [linear, ofBlock, own, if_false]
    exact Mat.dot_map_zero _ _

@[simp] theorem valueAt_add (f g : AffineRows α) (p : Point α) (i : Nat) :
    (f.add g).valueAt p i = f.valueAt p i + g.valueAt p i := by
  simp only [valueAt, linear_add]
  simp only [add]
  abel

@[simp] theorem valueAt_sub (f g : AffineRows α) (p : Point α) (i : Nat) :
    (f.sub g).valueAt p i = f.valueAt p i - g.valueAt p i := by
  simp only [valueAt, linear_sub]
  simp only [sub]
  abel

@[simp] theorem valueAt_ofColumn (a : Mat α) (p : Point α) (i : Nat) :
    (ofColumn a).valueAt p i = (a.row i).getD 0 0 := by
  simp only [valueAt, linear_ofColumn, add_zero]
  rfl

@[simp] theorem valueAt_ofBlock (slot : Slot) (a : Mat α) (p : Point α) (i : Nat) :
    (ofBlock slot a).valueAt p i = Mat.dot (a.row i) (p.get slot) := by
  simp only [valueAt, linear_ofBlock]
  cases slot <;> simp [ofBlock, Point.get]

end
end AffineRows

/-! ## Exact engines -/

def Symbols.Fits (v : Symbols) (p : Point α) : Prop := ∀ s, (p.get s).length = v.length s

namespace Engine

section
variable [CommRing α] (E : Engine α)

/-- The expressions in given symbols that are built as affine maps. -/
inductive Denotes (v : Symbols) : E.Expression → AffineRows α → Prop
  | constant {a : Mat α} (column : a.width = 1) : Denotes v (E.constant a) (.ofColumn a)
  | product {a : Mat α} {slot : Slot} {x : E.Expression} (width : a.width = v.length slot)
      (built : E.product? a v slot = some x) : Denotes v x (.ofBlock slot a)
  | sum {x y z : E.Expression} {f g : AffineRows α} (left : Denotes v x f) (right : Denotes v y g)
      (height : f.height = g.height) (built : E.sum? x y = some z) : Denotes v z (f.add g)
  | difference {x y z : E.Expression} {f g : AffineRows α} (left : Denotes v x f) (right : Denotes v y g)
      (height : f.height = g.height) (built : E.difference? x y = some z) : Denotes v z (f.sub g)
  | call {x y : E.Expression} {f : AffineRows α} {c : E.Function} (body : Denotes v x f)
      (function : E.function? v x = some c) (built : E.call? c v = some y) : Denotes v y f

/-- The expression gives a function, and its values are these wherever the vectors fit. -/
def Evaluates (v : Symbols) (x : E.Expression) (values : Point α → Mat α) : Prop :=
  ∃ c, E.function? v x = some c ∧ ∀ p, v.Fits p → E.values? c p = some (values p)

/-- What an engine has to promise about affine expressions. -/
structure Exact : Prop where
  /-- A matrix as wide as there are symbols can be multiplied by them. -/
  product : ∀ (v : Symbols) (slot : Slot) (a : Mat α), a.width = v.length slot → (E.product? a v slot).isSome
  /-- Columns of one height can be added. -/
  sum : ∀ {v x y f g}, E.Denotes v x f → E.Denotes v y g → f.height = g.height → (E.sum? x y).isSome
  difference : ∀ {v x y f g}, E.Denotes v x f → E.Denotes v y g → f.height = g.height → (E.difference? x y).isSome
  /-- A function can be called with the symbols it was made for. -/
  call : ∀ {v x f c}, E.Denotes v x f → E.function? v x = some c → (E.call? c v).isSome
  /-- Evaluation is exact. -/
  evaluates : ∀ {v x f}, E.Denotes v x f → E.Evaluates v x f.values
  /-- Differentiation is exact: the derivatives are the coefficients, at every point. -/
  differentiates : ∀ {v x f}, E.Denotes v x f → ∀ slot, ∃ d, E.jacobian? x v slot = some d ∧
    E.Evaluates v d fun _ => f.derivatives slot (v.length slot)

end
end Engine
end LoopFree
