/-
  LoopFree.Removal — breaking algebraic loops.

  A model has an algebraic loop when some variable could not be ranked. A resolver picks
  the arcs to break and an order of the variables for what is left; the order becomes
  the ranks. Each variable at the source of a broken arc gets an auxiliary input. For an
  arc from `s` to `t`, the coefficient of `s` in the rows that define `t` moves with its
  sign changed to the column of the auxiliary input, and two rows `s ≤ s_aux` and
  `-s ≤ -s_aux` pin the input to the variable.

  The resolver's answer is vetted and the roles of its sources are checked before anything
  changes.
-/

import LoopFree.Dependency
import LoopFree.Growth
import LoopFree.Matrix.Access
import LoopFree.Validation

namespace LoopFree

variable {α : Type}

namespace Model

def renameDependency (m : Model α) (row : Nat) (old new : String) : Model α :=
  { m with rows := { m.rows with ineq := m.rows.ineq.modify row (·.replaceDependency old new) } }

def appendRow (m : Model α) (row : Row) : Model α :=
  { m with rows := { m.rows with ineq := m.rows.ineq ++ [row] } }

/-- Counts a new auxiliary input. -/
def countAuxiliary (m : Model α) : Domain → Model α
  | .real => { m with auxiliaryReal := m.auxiliaryReal + 1 }
  | .binary => { m with auxiliaryBinary := m.auxiliaryBinary + 1 }

/-- Real auxiliary inputs follow the real inputs, binary ones all inputs. -/
def auxiliaryColumn (m : Model α) : Domain → Nat
  | .real => m.countIn .input .real
  | .binary => m.count .input

end Model

namespace Edit

def rankVertex (g : VariableGraph) (v : Fin g.vertices.length) (rank : Nat) : Edit α Unit := do
  let s ← ofExcept ((← model).lookup (g.vertex v).name)
  change fun m => m.mapNamed s.name fun s => { s with rank }

/-- Ranks the variables 1, 2, … in an order of the vertices. -/
def rank (g : VariableGraph) (order : List (Fin g.vertices.length)) : Edit α Unit :=
  (order.zipIdx 1).forM fun (v, r) => rankVertex g v r

/-- Ranks the variables in the order of a sequence of positions in the model's own graph. -/
def rankBy (sequence : List Int) : Edit α Unit := do
  let g ← ofExcept (← model).dependencyGraph
  (sequence.zipIdx 1).forM fun (i, r) => do
    rankVertex g (← ofOption .outOfRange (index? g.vertices.length i)) r

/-- Adds the auxiliary input of a symbol, with a zero column of its own. -/
def addAuxiliary [Zero α] (source : String) : Edit α Symbol := do
  let m ← model
  let s ← ofExcept (m.lookup source)
  let column := m.auxiliaryColumn s.domain
  let auxiliary := { s.auxiliaryInput with index := some (column : Int) }
  insertInputColumn column
  let grown ← ofExcept ((← model).addSymbol auxiliary)
  setModel (grown.countAuxiliary s.domain)
  note (.auxiliaryCreated auxiliary.name column)
  return auxiliary

def writeBlock (b : Block) (row : Nat) (index : Option Int) (vs : List α) : Edit α Unit := do
  let m ← model
  setModel (m.setBlock b (← ofExcept ((m.block b).write row index vs)))

/-- Moves the coefficient of a source in one row to the input column of its auxiliary, with
    its sign changed. -/
def moveCoefficient [Zero α] [Neg α] (row : Nat) (b : Block) (source auxiliary : Option Int) : Edit α Unit := do
  let moved ← ofExcept (((← model).block b).read row source)
  writeBlock ⟨.ineq, .input⟩ row auxiliary (moved.map (-·))
  writeBlock b row source [0]

/-- Moves the coefficient in one row, if the row needs the source. -/
def moveInRow [Zero α] [Neg α] (source : String) (b : Block) (column auxiliaryColumn : Option Int)
    (r : Nat) : Edit α Unit := do
  let row ← ofOption .outOfRange (← model).rows.ineq[r]?
  if row.dependsOn source then
    moveCoefficient r b column auxiliaryColumn
    let name := Symbol.auxiliaryName source
    change (·.renameDependency r source name)
    note (.moved r (row.replaceDependency source name) b column auxiliaryColumn)

/-- Writes 1 and -1 into one column of two consecutive rows. -/
def writePin [One α] [Neg α] (b : Block) (first : Nat) (column : Option Int) : Edit α Unit := do
  let m ← model
  setModel (m.setBlock b (← ofExcept ((m.block b).writePair first column 1 (-1))))

/-- Breaks the arc from one variable to another and returns the two rows that pin the
    auxiliary input. -/
def breakArc [Zero α] [One α] [Neg α] (source sink : String) : Edit α (Nat × Nat) := do
  let m ← model
  let name := Symbol.auxiliaryName source
  let auxiliary ← ofExcept (m.lookup name)
  let s ← ofExcept (m.lookup source)
  if !s.role.breakable then throw (.unsupportedSource s.name s.role)
  let b ← ofExcept (Model.ineqBlock s.role)
  (m.rows.rowsDefining sink).forM (moveInRow source b s.index auxiliary.index)
  let first ← appendIneqRows 2
  writePin ⟨.ineq, .input⟩ first auxiliary.index
  writePin b first s.index
  let pin : Row := { defines := sink, depends := [name], tag := .pin }
  change fun m => (m.appendRow pin).appendRow pin
  return (first, first + 1)

/-- Warns of every warning; fails if there is an error. -/
def requireValid : Edit α Unit := do
  let report := (← model).validate {}
  report.warnings.forM warn
  if !report.isValid then throw (.invalidModel report)

/-- Fails at the first arc whose source cannot be broken. -/
def checkSources (g : VariableGraph) (c : Cut g.vertices.length) : Edit α Unit :=
  c.arcs.forM fun (source, _) => do
    let vertex := g.vertex source
    if !vertex.role.breakable then throw (.unsupportedSource vertex.name vertex.role)

/-- Sees to the auxiliary input of a variable; one that exists already is used again. -/
def ensureAuxiliary [Zero α] (name : String) : Edit α Unit := do
  let m ← model
  match m.find (Symbol.auxiliaryName name) with
  | [] => discard (addAuxiliary name)
  | [_] => pure ()
  | found => throw (.symbolCount (Symbol.auxiliaryName name) found.length)

/-- Removes all algebraic loops; a model without any is left alone. -/
def removeLoops [Zero α] [One α] [Neg α] (resolver : Resolver) (validate : Bool) : Edit α Unit := do
  let m ← model
  if !m.hasLoop then note (.noLoop m.name)
  else
    note (.loopFound m.name)
    if validate then requireValid
    let g ← ofExcept m.dependencyGraph
    let s ← ofOption .unresolved (resolver _ g.graph)
    let c ← ofExcept ((s.vet g.graph).mapError Fault.unacceptable)
    checkSources g c
    change fun m => { m with loopFound := true }
    note (.breaking c.arcs.length c.sources.length)
    rank g c.order
    c.sources.forM fun source => ensureAuxiliary (g.vertex source).name
    c.arcs.forM fun (source, sink) => do
      note (.breakingArc (g.vertex source).name (g.vertex sink).name)
      discard (breakArc (g.vertex source).name (g.vertex sink).name)
    if validate then requireValid

end Edit
end LoopFree
