/-
  LoopFree.Edit — changes to a model that may stop half way.

  An edit works on a model, a log and a list of warnings. When it fails, all three stay
  as they were at that point: a failed edit shows what it had done.
-/

import LoopFree.Model

namespace LoopFree

inductive Level where
  | debug
  | info
  deriving DecidableEq, Repr

def Level.label : Level → String
  | .debug => "DEBUG"
  | .info => "INFO"

/-- What an edit reports while it works. -/
inductive Event where
  | noLoop (model : String)
  | loopFound (model : String)
  | breaking (arcs sources : Nat)
  | auxiliaryCreated (name : String) (column : Int)
  | breakingArc (source sink : String)
  /-- A coefficient changed sides; the descriptor is the one after the change. -/
  | moved (position : Nat) (row : Row) (block : Block) (sourceColumn auxiliaryColumn : Option Int)
  deriving DecidableEq, Repr

namespace Event

def level : Event → Level
  | noLoop _ => .info
  | loopFound _ => .info
  | breaking _ _ => .info
  | auxiliaryCreated _ _ => .debug
  | breakingArc _ _ => .debug
  | moved _ _ _ _ _ => .debug

/-- A coefficient moved to or from a column without a number cannot be told. -/
def text? : Event → Option String
  | noLoop model => some s!"No algebraic loops detected in '{model}'"
  | loopFound model =>
    some s!"Found implicitly defined variable(s) in '{model}' - possibly an algebraic loop"
  | breaking arcs sources =>
    some s!"Breaking {arcs} feedback arc(s) with {sources} auxiliary input(s)"
  | auxiliaryCreated name column => some s!"Created auxiliary input '{name}' at input column {column}"
  | breakingArc source sink => some s!"Breaking feedback arc {source} -> {sink}"
  | moved position row block (some source) (some auxiliary) =>
    some s!"Row {position} ({row.text}): moved {block.name} column {source} to E1 column {auxiliary}"
  | moved _ _ _ _ _ => none

def line? (e : Event) : Option String := e.text?.map fun text => s!"{e.level.label}: {text}"

end Event

structure Workspace (α : Type) where
  model : Model α
  log : List Event := []
  warnings : List (Issue Finding) := []
  deriving DecidableEq

/-- A step on a workspace; a failed step leaves the workspace it had reached. -/
abbrev Edit (α β : Type) := EStateM Fault (Workspace α) β

namespace Edit

variable {α β : Type}

def model : Edit α (Model α) := do return (← get).model

def setModel (m : Model α) : Edit α Unit := modify fun w => { w with model := m }

def change (f : Model α → Model α) : Edit α Unit := modify fun w => { w with model := f w.model }

def note (e : Event) : Edit α Unit := modify fun w => { w with log := w.log ++ [e] }

def warn (i : Issue Finding) : Edit α Unit := modify fun w => { w with warnings := w.warnings ++ [i] }

def ofExcept (r : Except Fault β) : Edit α β :=
  match r with
  | .ok b => pure b
  | .error f => throw f

def ofOption (f : Fault) (r : Option β) : Edit α β :=
  match r with
  | some b => pure b
  | none => throw f

end Edit
end LoopFree
