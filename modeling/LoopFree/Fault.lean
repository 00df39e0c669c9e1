/-
  LoopFree.Fault — why an operation is refused, and how it says so.
-/

import LoopFree.Graph.ArcSet
import LoopFree.Report
import LoopFree.Row
import LoopFree.Symbol

namespace LoopFree

inductive Fault where
  /-- A defining row names no vertex. -/
  | undefinedVariable (name : String) (table : Table) (row : Nat)
  /-- A name that should have one entry in the symbol table has another number of them. -/
  | symbolCount (name : String) (found : Nat)
  /-- A loop would have to be broken behind a variable that cannot take it. -/
  | unsupportedSource (name : String) (role : Role)
  /-- The resolver had no arc set to offer. -/
  | unresolved
  | unacceptable (violation : ArcSet.Violation)
  | invalidModel (report : Report Finding)
  | nameTaken (name : String)
  | inputColumn (index : Int) (columns : Nat)
  | noInequalityColumns (role : Role)
  | unknownDomain (code : String)
  | unknownBlocks (names : List String)
  | adjacencyShape (vertices : Nat) (shape : List Int)
  | cyclic
  | unknownSymbolKind (name : String)
  | notCompiled
  | unknownVector (name : String)
  /-- A position outside its list or matrix. -/
  | outOfRange
  /-- Data whose length or shape does not fit. -/
  | wrongSize
  /-- Blocks or arguments that do not fit the compiled functions. -/
  | mismatch
  deriving DecidableEq, Repr

namespace Fault

/-- An absent arc set and the faults of positions and sizes have no message of their own. -/
def message? : Fault → Option String
  | undefinedVariable name table row =>
    some s!"Found undefined variable '{name}' (rowinfo.{table.label}[{row}]) - it is probably defined in the MUST section"
  | symbolCount name found =>
    some s!"Corrupted symbol table: expected one entry named '{name}', found {found}"
  | unsupportedSource name role =>
    let supported := s!"{Role.discrete.label} and {Role.continuous.label}"
    some s!"Cannot break algebraic loop at '{name}': source variables of kind {role.label} are not supported (only {supported})"
  | unresolved => none
  | unacceptable violation => some violation.message
  | invalidModel report => some report.summary
  | nameTaken name => some s!"Symbol '{name}' already exists in model"
  | inputColumn index columns => some s!"Input column {index} out of range 0..{columns}"
  | noInequalityColumns role => some s!"Variables of kind {role.label} have no inequality columns"
  | unknownDomain code => some s!"Unknown value type code '{code}'"
  | unknownBlocks names => some s!"Unknown matrices: {Text.commas names}"
  | adjacencyShape n shape => some s!"Adjacency matrix must be {n}x{n}, got {Text.tuple shape}"
  | cyclic => some "Graph has a cycle, no topological order exists"
  | unknownSymbolKind name => some s!"sym_type must be 'SX' or 'MX', got '{name}'"
  | notCompiled => some "Backend not compiled. Call compile() first."
  | unknownVector name => some s!"wrt must be one of 'x', 'u', 'd', 'z', got '{name}'"
  | outOfRange => none
  | wrongSize => none
  | mismatch => none

end Fault
end LoopFree
