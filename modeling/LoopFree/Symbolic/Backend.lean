/-
  LoopFree.Symbolic.Backend — the equations of a model as compiled functions.

  Compiling takes new symbols for the four vectors, as many as the symbol table has, and
  has an engine build one function for each equation. The functions keep the coefficients
  they were built from. An attempt that fails leaves its symbols and the functions it has
  built; the other functions are the earlier ones.
-/

import LoopFree.Symbolic.Engine

namespace LoopFree

variable {α β : Type}

namespace Engine

variable (E : Engine α)

/-- The product of one block of a model. -/
def term? (v : Symbols) (m : Model α) (e : Equation) (slot : Slot) : Option E.Expression :=
  E.product? (m.block ⟨e, slot.term⟩) v slot

/-- The constants of an equation and the products of some of its blocks. -/
def affine? (v : Symbols) (m : Model α) (e : Equation) (slots : List Slot) : Option E.Expression :=
  slots.foldlM (fun total slot => do E.sum? total (← E.term? v m e slot)) (E.constant (m.block ⟨e, .affine⟩))

/-- What the inequalities bound from above. -/
def bounded? (v : Symbols) (m : Model α) : Option E.Expression := do
  E.sum? (← E.term? v m .ineq .discrete) (← E.term? v m .ineq .continuous)

end Engine

structure Backend (E : Engine α) where
  /-- The symbols of the latest attempt to compile. -/
  symbols : Symbols
  functions : Equation → Option E.Function := fun _ => none

namespace Backend

variable {E : Engine α}

def setFunction (b : Backend E) (e : Equation) (f : E.Function) : Backend E :=
  { b with functions := fun e' => if e' = e then some f else b.functions e' }

/-- An expression or function that exists when all shapes fit. -/
def fitting (r : Option β) : EStateM Fault (Backend E) β :=
  match r with
  | some b => pure b
  | none => throw .mismatch

/-- Makes an expression in the latest symbols the function of an equation. -/
def define (e : Equation) (x : E.Expression) : EStateM Fault (Backend E) Unit := do
  let f ← fitting (E.function? (← get).symbols x)
  modify (·.setFunction e f)

def compile (m : Model α) : EStateM Fault (Backend E) Unit := do
  modify fun b => { b with symbols := b.symbols.renew m.vectorLength }
  let v := (← get).symbols
  let update ← fitting (E.affine? v m .update Slot.all)
  let output ← fitting (E.affine? v m .output Slot.all)
  let left ← fitting (E.bounded? v m)
  let right ← fitting (E.affine? v m .ineq [.input, .state])
  define .update update
  define .output output
  define .ineq (← fitting (E.difference? left right))

/-- The backend counts as compiled once it has the function of the inequalities. -/
def ensureCompiled (b : Backend E) : Except Fault E.Function :=
  match b.functions .ineq with
  | some f => .ok f
  | none => .error .notCompiled

/-- The values of one function. Each vector has the length the model asks for now; the
    function may have been compiled for another. -/
def values (b : Backend E) (e : Equation) (m : Model α) (p : Point α) : Except Fault (List α) := do
  let _ ← b.ensureCompiled
  if Slot.all.all fun slot => (p.get slot).length = m.vectorLength slot then
    match b.functions e >>= (E.values? · p) with
    | some a => .ok a.entries
    | none => .error .mismatch
  else .error .wrongSize

def nextState (b : Backend E) : Model α → Point α → Except Fault (List α) := b.values .update

def output (b : Backend E) : Model α → Point α → Except Fault (List α) := b.values .output

def residual (b : Backend E) : Model α → Point α → Except Fault (List α) := b.values .ineq

def feasible [LE α] [DecidableLE α] (b : Backend E) (m : Model α) (tolerance : α) (p : Point α) :
    Except Fault Bool := do
  pure ((← b.residual m p).all (· ≤ tolerance))

/-- The derivatives of a function by the latest symbols of one vector, as a function of them. -/
def derivatives? (b : Backend E) (f : E.Function) (slot : Slot) : Option E.Function := do
  E.function? b.symbols (← E.jacobian? (← E.call? f b.symbols) b.symbols slot)

/-- The derivatives of the residual at the origin. A missing function is reported before an
    unknown vector. -/
def jacobian [Zero α] (b : Backend E) (m : Model α) (vector : String) : Except Fault (Mat α) := do
  let f ← b.ensureCompiled
  match Slot.ofName? vector with
  | some slot =>
    let origin : Point α := .ofFn fun s => List.replicate (m.vectorLength s) 0
    match b.derivatives? f slot >>= (E.values? · origin) with
    | some a => .ok a
    | none => .error .mismatch
  | none => throw (.unknownVector vector)

end Backend
end LoopFree
