/-
  LoopFree.Model — mixed logical dynamical models.

  A model has a symbol table, the row descriptors and the coefficient blocks. How many
  columns a term has, and how many rows the update and output equations, is counted in
  the symbol table; the number of inequality rows is the height of the affine block.
  The auxiliary counts say how many inputs of each domain were added to break loops.
-/

import LoopFree.Block
import LoopFree.Fault
import LoopFree.Nested

namespace LoopFree

structure Model (α : Type) where
  name : String := "mld"
  symbols : List Symbol := []
  rows : RowTables := {}
  blocks : Blocks (Mat α)
  loopFound : Bool := false
  auxiliaryReal : Nat := 0
  auxiliaryBinary : Nat := 0
  deriving DecidableEq

namespace Model

variable {α : Type}

def block (m : Model α) (b : Block) : Mat α := m.blocks.get b

def setBlock (m : Model α) (b : Block) (a : Mat α) : Model α := { m with blocks := m.blocks.set b a }

/-! ## Symbols -/

def find (m : Model α) (name : String) : List Symbol := m.symbols.filter (·.name = name)

/-- The one symbol of a name. -/
def lookup (m : Model α) (name : String) : Except Fault Symbol :=
  match m.find name with
  | [s] => .ok s
  | found => .error (.symbolCount name found.length)

def hasSymbol (m : Model α) (name : String) : Bool := m.symbols.any (·.name = name)

/-- Appends a symbol, refusing a name that is taken. -/
def addSymbol (m : Model α) (s : Symbol) : Except Fault (Model α) :=
  if m.hasSymbol s.name then .error (.nameTaken s.name)
  else .ok { m with symbols := m.symbols ++ [s] }

def mapNamed (m : Model α) (name : String) (f : Symbol → Symbol) : Model α :=
  { m with symbols := m.symbols.map fun s => if s.name = name then f s else s }

/-- The symbols of a role by column; those without a column come before the others. -/
def ofRole (m : Model α) (r : Role) : List Symbol :=
  (m.symbols.filter (·.role = r)).mergeSort fun s t => s.index.getD (-1) ≤ t.index.getD (-1)

/-- Some variable could not be ranked. -/
def hasLoop (m : Model α) : Bool := m.symbols.any (·.rank = 0)

/-! ## Counts -/

def count (m : Model α) (r : Role) : Nat := m.symbols.countP (·.role = r)

def countIn (m : Model α) (r : Role) (d : Domain) : Nat :=
  m.symbols.countP fun s => s.role = r ∧ s.domain = d

/-- Real inputs that were not added to break loops. -/
def givenReal (m : Model α) : Int := m.countIn .input .real - m.auxiliaryReal

def givenBinary (m : Model α) : Int := m.countIn .input .binary - m.auxiliaryBinary

def ineqCount (m : Model α) : Nat := (m.block ⟨.ineq, .affine⟩).height

/-- The columns of a role; the constant has one. -/
def columnCount (m : Model α) : Option Role → Nat
  | none => 1
  | some r => m.count r

/-- The shape the symbol table asks of a block, for a given number of inequality rows. -/
def expectedShape {ρ : Type} [NatCast ρ] (m : Model α) (ineqRows : ρ) (b : Block) : ρ × Nat :=
  let rows := match b.equation with
    | .update => (m.count .state : ρ)
    | .output => (m.count .output : ρ)
    | .ineq => ineqRows
  (rows, m.columnCount b.term.role?)

/-- The term of the inequality that holds the columns of a role. -/
def ineqBlock (r : Role) : Except Fault Block :=
  match r.term? with
  | some t => .ok ⟨.ineq, t⟩
  | none => .error (.noInequalityColumns r)

/-! ## Building -/

/-- A model with the given blocks, the others zero; as many inequality rows as descriptors. -/
def ofSymbols [Zero α] (name : String) (symbols : List Symbol) (rows : RowTables)
    (given : List (String × Nested α)) : Except Fault (Model α) :=
  let unknown := (given.map (·.1)).filter fun n => (Block.ofName? n).isNone
  if unknown.isEmpty then
    let bare : Model α := { name, symbols, rows, blocks := .ofFn fun _ => .empty }
    let blocks := Blocks.build? fun b =>
      let (height, width) := bare.expectedShape rows.ineq.length b
      match given.lookup b.name with
      | none => some (.zero height width)
      | some v => v.entries?.bind (Mat.ofEntries? height width)
    match blocks with
    | some blocks => .ok { bare with blocks }
    | none => .error .wrongSize
  else .error (.unknownBlocks (unknown.mergeSort (· ≤ ·)))

end Model
end LoopFree
