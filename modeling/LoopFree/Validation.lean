/-
  LoopFree.Validation — structural checks of a model.

  Names are unique; the columns of each role are numbered from 0 without gaps, the real
  members first; every block has the shape the symbol table asks for; there is one
  descriptor for each inequality row and none or one for each output. A name that no
  symbol carries, and outputs without descriptors, are only warned about.
-/

import LoopFree.Model

namespace LoopFree

/-- Which checks to run. -/
structure Checks where
  symbols : Bool := true
  indices : Bool := true
  dimensions : Bool := true
  rows : Bool := true
  deriving DecidableEq, Repr

namespace Model

variable {α : Type}

def symbolIssues (m : Model α) : List (Issue Finding) :=
  let names := m.symbols.map (·.name)
  names.eraseDups.filterMap fun name =>
    let count := names.count name
    if 1 < count then some {
      severity := .error
      category := .symbolTable
      message := s!"Symbol '{name}' appears {count} times"
      location := some s!"symbol {name}"
      detail := .duplicate name count }
    else none

/-- The first of three: a missing index, a gap in the numbering, a binary member before a real one. -/
def indexIssue? (m : Model α) (r : Role) : Option (Issue Finding) :=
  let members := m.symbols.filter (·.role = r)
  let issue (message : String) (detail : Finding) : Issue Finding := {
    severity := .error
    category := .index
    message := s!"{r.label} {message}"
    location := some r.label
    detail }
  let names (ss : List Symbol) : String := Text.commas (ss.map (·.name))
  let missing := members.filter (·.index.isNone)
  let indices := members.filterMap (·.index)
  let reals := members.countP (·.isReal)
  let misplaced := members.filter fun s => s.isReal != decide (s.index.getD 0 < (reals : Int))
  if !missing.isEmpty then
    some (issue s!"variables without index: {names missing}" .none)
  else if !indices.isPerm ((List.range members.length).map Int.ofNat) then
    let sorted := indices.mergeSort (· ≤ ·)
    some (issue s!"indices are not contiguous: {Text.bracketed sorted}" (.indices sorted))
  else if !misplaced.isEmpty then
    some (issue s!"variables out of real/binary order: {names misplaced}" .none)
  else none

def indexIssues (m : Model α) : List (Issue Finding) :=
  (Role.all.filter (·.hasColumns)).filterMap m.indexIssue?

def dimensionIssue? (m : Model α) (b : Block) : Option (Issue Finding) :=
  let actual := (m.block b).shape
  let expected := m.expectedShape m.ineqCount b
  let size (s : Nat × Nat) : String := Text.tuple [s.1, s.2]
  let columns := match b.term.role? with
    | some r => s!" ({r.label} columns)"
    | none => ""
  if actual = expected then none
  else some {
    severity := .error
    category := .dimension
    message := s!"Matrix {b.name} has shape {size actual}, expected {size expected}{columns}"
    location := some s!"matrix {b.name}"
    detail := .shape actual expected }

def dimensionIssues (m : Model α) : List (Issue Finding) := Block.all.filterMap m.dimensionIssue?

def rowCountIssues (m : Model α) : List (Issue Finding) :=
  let issue (severity : Severity) (message : String) (table : Table) : Issue Finding := {
    severity
    category := .rows
    message
    location := some s!"rowinfo.{table.label}"
    detail := .none }
  let ineq := m.rows.ineq.length
  let outputs := m.rows.output.length
  let expected := m.count .output
  (if ineq = m.ineqCount then []
   else [issue .error s!"{ineq} inequality row descriptors for {m.ineqCount} inequality rows" .ineq]) ++
  (if outputs = expected then []
   else if outputs = 0 then [issue .warning s!"No output row descriptors for {expected} outputs" .output]
   else [issue .error s!"{outputs} output row descriptors for {expected} outputs" .output])

def referenceIssues (m : Model α) (table : Table) : List (Issue Finding) :=
  (m.rows.get table).zipIdx.flatMap fun (row, r) =>
    (row.defines :: row.depends).filterMap fun name =>
      if m.hasSymbol name then none
      else some {
        severity := .warning
        category := .undefinedVariable
        message := s!"Reference to undefined variable '{name}'"
        location := some s!"rowinfo.{table.label}[{r}]"
        detail := .undefined name }

def rowIssues (m : Model α) : List (Issue Finding) :=
  m.rowCountIssues ++ m.referenceIssues .ineq ++ m.referenceIssues .output

def validate (m : Model α) (checks : Checks) : Report Finding where
  issues :=
    (if checks.symbols then m.symbolIssues else []) ++
    (if checks.indices then m.indexIssues else []) ++
    (if checks.dimensions then m.dimensionIssues else []) ++
    (if checks.rows then m.rowIssues else [])

end Model
end LoopFree
