/-
  LoopFree.Report — what a check of a model found.

  An issue has a severity, the part of the model it concerns, a message, a place and
  the data the check recorded. A report lists issues in the order they were found; it is
  valid when none of them is an error.
-/

namespace LoopFree

inductive Severity where
  | error
  | warning
  deriving DecidableEq, Repr

namespace Severity

def all : List Severity := [error, warning]

def word : Severity → String
  | error => "error"
  | warning => "warning"

def label : Severity → String
  | error => "ERROR"
  | warning => "WARNING"

def ofWord? (s : String) : Option Severity := all.find? (·.word = s)

end Severity

inductive Category where
  | symbolTable
  | index
  | dimension
  | rows
  | undefinedVariable
  deriving DecidableEq, Repr

namespace Category

def all : List Category := [symbolTable, index, dimension, rows, undefinedVariable]

def word : Category → String
  | symbolTable => "symbol_table"
  | index => "index"
  | dimension => "dimension"
  | rows => "row_info"
  | undefinedVariable => "undefined_variable"

def ofWord? (s : String) : Option Category := all.find? (·.word = s)

end Category

structure Issue (δ : Type) where
  severity : Severity
  category : Category
  message : String
  location : Option String
  detail : δ
  deriving DecidableEq, Repr

/-- An empty place is no place. -/
def Issue.text {δ : Type} (i : Issue δ) : String :=
  let place := match i.location with
    | none => ""
    | some "" => ""
    | some place => s!" at {place}"
  s!"[{i.severity.label}] {i.category.word}: {i.message}{place}"

structure Report (δ : Type) where
  issues : List (Issue δ) := []
  deriving DecidableEq, Repr

namespace Report

variable {δ : Type}

def errors (r : Report δ) : List (Issue δ) := r.issues.filter (·.severity = .error)

def warnings (r : Report δ) : List (Issue δ) := r.issues.filter (·.severity = .warning)

def isValid (r : Report δ) : Bool := r.errors.isEmpty

def summary (r : Report δ) : String :=
  let verdict := if r.isValid then "VALID" else "INVALID"
  "\n".intercalate ([
    s!"Validation Result: {verdict}",
    s!"  Errors: {r.errors.length}",
    s!"  Warnings: {r.warnings.length}"] ++ r.issues.map fun i => s!"  - {i.text}")

end Report

/-- What the checks of a model record beside the message. -/
inductive Finding where
  | none
  | duplicate (name : String) (count : Nat)
  | indices (found : List Int)
  | shape (actual expected : Nat × Nat)
  | undefined (name : String)
  deriving DecidableEq, Repr

end LoopFree
