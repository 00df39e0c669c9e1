/-
  LoopFree.Summary — the overview of a model as text.
-/

import LoopFree.Model

namespace LoopFree.Model

variable {α : Type}

def countsLine (m : Model α) : String :=
  let split (r : Role) : String := s!"{m.count r} (r={m.countIn r .real}, b={m.countIn r .binary})"
  let inputs := s!"  nx={split .state}  nu={split .input}"
  let auxiliaries := s!"  nd={m.count .discrete}  nz={m.count .continuous}"
  s!"{inputs}{auxiliaries}  ny={split .output}  ne={m.ineqCount}"

/-- The symbols of a role, under a heading; nothing for a role without symbols. -/
def roleLines (m : Model α) (r : Role) : List String :=
  match m.ofRole r with
  | [] => []
  | symbols =>
    s!"\n  {r.label} ({symbols.length}):" :: symbols.map fun s => s!"    {s.text}"

def rowLines (m : Model α) : List String :=
  match m.rows.ineq with
  | [] => []
  | rows =>
    s!"\n  Inequality rows ({rows.length}):" :: rows.zipIdx.map fun (row, r) => s!"    {r}: {row.text}"

def summary (m : Model α) : String :=
  let auxiliaries := s!"  auxiliary inputs: {m.auxiliaryReal} real, {m.auxiliaryBinary} binary"
  "\n".intercalate <| List.flatten [
    [s!"MLD model: {m.name}", m.countsLine],
    if m.auxiliaryReal = 0 ∧ m.auxiliaryBinary = 0 then [] else [auxiliaries],
    if m.loopFound then ["  algebraic loop detected"] else [],
    Role.all.flatMap m.roleLines,
    m.rowLines]

end LoopFree.Model
