/-
  LoopFree.Block — the fifteen coefficient blocks of the equations

      x(k+1) = A x + B1 u + B2 d + B3 z + B5
      y(k)   = C x + D1 u + D2 d + D3 z + D5
      E2 d + E3 z ≤ E1 u + E4 x + E5

  A block stands in one of three equations and multiplies one of the vectors x, u, d, z,
  or is the affine term. The equation fixes what its rows stand for, the term its columns.
-/

import LoopFree.Matrix
import LoopFree.Symbol

namespace LoopFree

inductive Equation where
  | update
  | output
  | ineq
  deriving DecidableEq, Repr

inductive Term where
  | state
  | input
  | discrete
  | continuous
  | affine
  deriving DecidableEq, Repr

/-- The role whose symbols own the columns; the affine term has the one column of the constant. -/
def Term.role? : Term → Option Role
  | .state => some .state
  | .input => some .input
  | .discrete => some .discrete
  | .continuous => some .continuous
  | .affine => none

/-- The term that holds the columns of a role, if the role has inequality columns. -/
def Role.term? : Role → Option Term
  | .state => some .state
  | .input => some .input
  | .discrete => some .discrete
  | .continuous => some .continuous
  | .output => none
  | .other => none

structure Block where
  equation : Equation
  term : Term
  deriving DecidableEq, Repr

namespace Block

def name : Block → String
  | ⟨.update, .state⟩ => "A"
  | ⟨.update, .input⟩ => "B1"
  | ⟨.update, .discrete⟩ => "B2"
  | ⟨.update, .continuous⟩ => "B3"
  | ⟨.update, .affine⟩ => "B5"
  | ⟨.output, .state⟩ => "C"
  | ⟨.output, .input⟩ => "D1"
  | ⟨.output, .discrete⟩ => "D2"
  | ⟨.output, .continuous⟩ => "D3"
  | ⟨.output, .affine⟩ => "D5"
  | ⟨.ineq, .input⟩ => "E1"
  | ⟨.ineq, .discrete⟩ => "E2"
  | ⟨.ineq, .continuous⟩ => "E3"
  | ⟨.ineq, .state⟩ => "E4"
  | ⟨.ineq, .affine⟩ => "E5"

/-- The blocks by name. -/
def all : List Block := [
  ⟨.update, .state⟩, ⟨.update, .input⟩, ⟨.update, .discrete⟩, ⟨.update, .continuous⟩, ⟨.update, .affine⟩,
  ⟨.output, .state⟩, ⟨.output, .input⟩, ⟨.output, .discrete⟩, ⟨.output, .continuous⟩, ⟨.output, .affine⟩,
  ⟨.ineq, .input⟩, ⟨.ineq, .discrete⟩, ⟨.ineq, .continuous⟩, ⟨.ineq, .state⟩, ⟨.ineq, .affine⟩]

theorem mem_all (b : Block) : b ∈ all := by
  obtain ⟨e, t⟩ := b
  cases e <;> cases t <;> decide

def ofName? (name : String) : Option Block := all.find? (·.name = name)

end Block

/-! ## One value for each block -/

/-- One value for each term of an equation. -/
structure Terms (β : Type) where
  state : β
  input : β
  discrete : β
  continuous : β
  affine : β
  deriving DecidableEq, Repr

namespace Terms

variable {β γ : Type}

def get (t : Terms β) : Term → β
  | .state => t.state
  | .input => t.input
  | .discrete => t.discrete
  | .continuous => t.continuous
  | .affine => t.affine

def set (t : Terms β) (term : Term) (v : β) : Terms β :=
  match term with
  | .state => { t with state := v }
  | .input => { t with input := v }
  | .discrete => { t with discrete := v }
  | .continuous => { t with continuous := v }
  | .affine => { t with affine := v }

@[simp] theorem get_set (t : Terms β) (a b : Term) (v : β) :
    (t.set a v).get b = if a = b then v else t.get b := by
  cases a <;> cases b <;> rfl

@[ext] theorem ext_get {s t : Terms β} (h : ∀ a, s.get a = t.get a) : s = t := by
  cases s; cases t
  simp only [Terms.mk.injEq]
  exact ⟨h .state, h .input, h .discrete, h .continuous, h .affine⟩

def map (f : β → γ) (t : Terms β) : Terms γ :=
  ⟨f t.state, f t.input, f t.discrete, f t.continuous, f t.affine⟩

@[simp] theorem get_map (f : β → γ) (t : Terms β) (a : Term) : (t.map f).get a = f (t.get a) := by
  cases a <;> rfl

/-- All five values, if every one of them exists. -/
def build? (f : Term → Option β) : Option (Terms β) := do
  pure ⟨← f .state, ← f .input, ← f .discrete, ← f .continuous, ← f .affine⟩

end Terms

/-- One value for each block. -/
structure Blocks (β : Type) where
  update : Terms β
  output : Terms β
  ineq : Terms β
  deriving DecidableEq, Repr

namespace Blocks

variable {β γ : Type}

def terms (m : Blocks β) : Equation → Terms β
  | .update => m.update
  | .output => m.output
  | .ineq => m.ineq

def get (m : Blocks β) (b : Block) : β := (m.terms b.equation).get b.term

def set (m : Blocks β) (b : Block) (v : β) : Blocks β :=
  match b.equation with
  | .update => { m with update := m.update.set b.term v }
  | .output => { m with output := m.output.set b.term v }
  | .ineq => { m with ineq := m.ineq.set b.term v }

@[simp] theorem get_set (m : Blocks β) (a b : Block) (v : β) :
    (m.set a v).get b = if a = b then v else m.get b := by
  obtain ⟨ea, ta⟩ := a
  obtain ⟨eb, tb⟩ := b
  cases ea <;> cases eb <;> simp [get, set, terms]

@[ext] theorem ext_get {m k : Blocks β} (h : ∀ b, m.get b = k.get b) : m = k := by
  cases m; cases k
  simp only [Blocks.mk.injEq]
  exact ⟨Terms.ext_get fun t => h ⟨.update, t⟩, Terms.ext_get fun t => h ⟨.output, t⟩,
    Terms.ext_get fun t => h ⟨.ineq, t⟩⟩

/-- The value for each block, if every one of them exists. -/
def build? (f : Block → Option β) : Option (Blocks β) := do
  pure ⟨← Terms.build? fun t => f ⟨.update, t⟩, ← Terms.build? fun t => f ⟨.output, t⟩,
    ← Terms.build? fun t => f ⟨.ineq, t⟩⟩

def ofFn (f : Block → β) : Blocks β :=
  let terms (e : Equation) : Terms β :=
    ⟨f ⟨e, .state⟩, f ⟨e, .input⟩, f ⟨e, .discrete⟩, f ⟨e, .continuous⟩, f ⟨e, .affine⟩⟩
  ⟨terms .update, terms .output, terms .ineq⟩

@[simp] theorem get_ofFn (f : Block → β) (b : Block) : (ofFn f).get b = f b := by
  obtain ⟨e, t⟩ := b
  cases e <;> cases t <;> rfl

end Blocks
end LoopFree
