/-
  LoopFree.Row — what the rows of a model define and depend on.

  Each row of the inequality system, and each output row, names the variable it defines
  and the variables it needs for that. The order of evaluation is read off these
  descriptors alone. Rows of a continuous must section define nothing.
-/

import LoopFree.Text

namespace LoopFree

inductive RowTag where
  | continuous
  | logic
  | analogDigital
  | digitalAnalog
  | define
  /-- A row of a continuous must section. -/
  | must
  /-- One half of the equality that pins an auxiliary input to its variable. -/
  | pin
  deriving DecidableEq, Repr

namespace RowTag

def all : List RowTag := [continuous, logic, analogDigital, digitalAnalog, define, must, pin]

def code : RowTag → String
  | continuous => "continuous"
  | logic => "logic"
  | analogDigital => "AD"
  | digitalAnalog => "DA"
  | define => "define"
  | must => "Cont_must"
  | pin => "AL_must"

def ofCode? (s : String) : Option RowTag := all.find? (·.code = s)

def label : RowTag → String
  | continuous => "CONTINUOUS"
  | logic => "LOGIC"
  | analogDigital => "AD"
  | digitalAnalog => "DA"
  | define => "DEFINE"
  | must => "CONT_MUST"
  | pin => "AL_MUST"

def definesVariable (t : RowTag) : Bool := t ≠ must

/-- Rows with the tag were added where a loop was broken. -/
def isSynthetic (t : RowTag) : Bool := t = pin

end RowTag

structure Row where
  defines : String
  depends : List String := []
  tag : RowTag := .define
  group : Option Int := none
  subgroup : Option Int := none
  subindex : Option Int := none
  heading : String := ""
  deriving DecidableEq, Repr

namespace Row

def definesVariable (r : Row) : Bool := r.tag.definesVariable

def dependsOn (r : Row) (name : String) : Bool := name ∈ r.depends

def replaceDependency (r : Row) (old new : String) : Row :=
  { r with depends := r.depends.map fun name => if name = old then new else name }

def text (r : Row) : String := s!"{r.defines} <- ({Text.commas r.depends}) [{r.tag.code}]"

end Row

/-- The three lists of descriptors of a model. -/
inductive Table where
  | ineq
  | output
  | update
  deriving DecidableEq, Repr

def Table.label : Table → String
  | ineq => "ineq"
  | output => "output"
  | update => "state_upd"

structure RowTables where
  ineq : List Row := []
  output : List Row := []
  update : List Row := []
  deriving DecidableEq, Repr

namespace RowTables

def get (t : RowTables) : Table → List Row
  | .ineq => t.ineq
  | .output => t.output
  | .update => t.update

def set (t : RowTables) (table : Table) (rows : List Row) : RowTables :=
  match table with
  | .ineq => { t with ineq := rows }
  | .output => { t with output := rows }
  | .update => { t with update := rows }

/-- The inequality rows that define a name, whatever their tag. -/
def rowsDefining (t : RowTables) (name : String) : List Nat :=
  t.ineq.zipIdx.filterMap fun (row, r) => if row.defines = name then some r else none

end RowTables
end LoopFree
