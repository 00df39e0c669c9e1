/-
  LoopFree.Slot — the four vectors of a point by name.
-/

import LoopFree.Affine

namespace LoopFree

/-- The four vectors of a point. -/
inductive Slot where
  | state
  | input
  | discrete
  | continuous
  deriving DecidableEq, Repr

namespace Slot

def all : List Slot := [state, input, discrete, continuous]

def name : Slot → String
  | state => "x"
  | input => "u"
  | discrete => "d"
  | continuous => "z"

def ofName? (s : String) : Option Slot := all.find? (·.name = s)

def role : Slot → Role
  | state => .state
  | input => .input
  | discrete => .discrete
  | continuous => .continuous

def term : Slot → Term
  | state => .state
  | input => .input
  | discrete => .discrete
  | continuous => .continuous

end Slot

variable {α β : Type}

def Point.get (p : Point α) : Slot → List α
  | .state => p.state
  | .input => p.input
  | .discrete => p.discrete
  | .continuous => p.continuous

def Point.ofFn (f : Slot → List α) : Point α := ⟨f .state, f .input, f .discrete, f .continuous⟩

@[simp] theorem Point.get_ofFn (f : Slot → List α) (s : Slot) : (Point.ofFn f).get s = f s := by
  cases s <;> rfl

def Point.map (f : α → β) (p : Point α) : Point β := .ofFn fun s => (p.get s).map f

/-- How many symbols stand for the entries of a vector. -/
def Model.vectorLength (m : Model α) (s : Slot) : Nat := m.count s.role

end LoopFree
