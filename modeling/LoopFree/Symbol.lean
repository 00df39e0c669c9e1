/-
  LoopFree.Symbol — the symbol table's entries.

  A symbol has a value domain, a role in the equations, an evaluation rank (0: could
  not be ranked, it lies on an algebraic loop; negative: not a variable) and the column
  it owns within its role, the real members of a role before the binary ones.
  `auxiliaryInput` is the input that stands in for a symbol where a loop is broken.
-/

import LoopFree.Decimal.Layout
import LoopFree.Text

namespace LoopFree

inductive Domain where
  | real
  | binary
  deriving DecidableEq, Repr

inductive Role where
  | state
  | input
  | discrete
  | continuous
  | output
  | other
  deriving DecidableEq, Repr

namespace Domain

def all : List Domain := [real, binary]

def code : Domain → String
  | real => "r"
  | binary => "b"

def ofCode? (s : String) : Option Domain := all.find? (·.code = s)

def label : Domain → String
  | real => "REAL"
  | binary => "BINARY"

def word : Domain → String
  | real => "real"
  | binary => "binary"

end Domain

namespace Role

def all : List Role := [state, input, discrete, continuous, output, other]

def code : Role → String
  | state => "x"
  | input => "u"
  | discrete => "d"
  | continuous => "z"
  | output => "y"
  | other => "-"

/-- A code of no role stands for `other`. -/
def ofCode (s : String) : Role := (all.find? (·.code = s)).getD other

def label : Role → String
  | state => "STATE"
  | input => "INPUT"
  | discrete => "DISCRETE_AUX"
  | continuous => "CONTINUOUS_AUX"
  | output => "OUTPUT"
  | other => "OTHER"

/-- Symbols of the role own matrix columns, or rows for outputs. -/
def hasColumns (r : Role) : Bool := r ≠ other

/-- A loop can be broken only behind an intermediate variable. -/
def breakable (r : Role) : Bool := r = discrete ∨ r = continuous

end Role

structure Symbol where
  name : String
  domain : Domain
  role : Role
  rank : Int := 0
  index : Option Int := none
  bounds : Option (Float × Float) := none
  auxiliary : Bool := false
  declaredAt : Option Int := none
  firstUsedAt : Option Int := none
  definedAt : Option Int := none
  description : String := ""
  deriving DecidableEq, Repr

namespace Symbol

def isReal (s : Symbol) : Bool := s.domain = .real

def isBinary (s : Symbol) : Bool := s.domain = .binary

/-- The symbol takes part in the evaluation order. -/
def isVariable (s : Symbol) : Bool := 0 ≤ s.rank

/-- The name of the auxiliary input of a variable. -/
def auxiliaryName (name : String) : String := name ++ "_aux"

/-- The input that stands in for the symbol: same domain and bounds, no column yet. -/
def auxiliaryInput (s : Symbol) : Symbol where
  name := auxiliaryName s.name
  domain := s.domain
  role := .input
  rank := 1
  bounds := s.bounds
  auxiliary := true
  description := s!"auxiliary input for '{s.name}'"

/-- One line on the symbol. -/
def text (s : Symbol) : String :=
  let number := Decimal.Layout.coefficient.write
  let column := match s.index with
    | some i => s!"[{i}]"
    | none => ""
  let range := match s.bounds with
    | some (low, high) => s!" in [{number low}, {number high}]"
    | none => ""
  let mark := if s.auxiliary then " (aux)" else ""
  s!"{s.name}: {s.role.label} {s.domain.word}{column} order={s.rank}{range}{mark}"

end Symbol
end LoopFree
