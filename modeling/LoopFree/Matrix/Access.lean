/-
  LoopFree.Matrix.Access — a row read and written at an index that may be missing.

  An index is the position of one entry of the row. A missing one stands for the row as a
  whole. As many values are written as there are entries to write to, or one to all of them.
-/

import LoopFree.Fault
import LoopFree.Matrix

namespace LoopFree.Mat

variable {α : Type}

/-- The matrix with another row in place of the `i`-th. -/
def setRow (a : Mat α) (i : Nat) (r : { r : List α // r.length = a.width }) : Mat α where
  width := a.width
  rows := a.rows.set i r
  length_of_mem s hs := by
    rcases List.mem_or_eq_of_mem_set hs with hs | rfl
    · exact a.length_of_mem s hs
    · exact r.property

/-- A row of `n` entries out of as many values, or out of one. -/
def fill? (n : Nat) (vs : List α) : Option { r : List α // r.length = n } :=
  if h : vs.length = n then some ⟨vs, h⟩
  else match vs with
    | [v] => some ⟨List.replicate n v, List.length_replicate⟩
    | _ => none

def read (a : Mat α) (i : Nat) (index : Option Int) : Except Fault (List α) :=
  let found := match index with
    | some c => (position? a.width c).bind fun j => (a.get? i j).map ([·])
    | none => a.rows[i]?
  match found with
  | some vs => .ok vs
  | none => .error .outOfRange

def writeAt (a : Mat α) (i : Nat) (c : Int) (vs : List α) : Except Fault (Mat α) :=
  match position? a.width c with
  | none => .error .outOfRange
  | some j =>
    match vs with
    | [v] => .ok (a.set i j v)
    | _ => .error .wrongSize

def writeRow (a : Mat α) (i : Nat) (vs : List α) : Except Fault (Mat α) :=
  match fill? a.width vs with
  | some r => .ok (a.setRow i r)
  | none => .error .wrongSize

def write (a : Mat α) (i : Nat) (index : Option Int) (vs : List α) : Except Fault (Mat α) :=
  if i < a.height then
    match index with
    | some c => a.writeAt i c vs
    | none => a.writeRow i vs
  else .error .outOfRange

/-- Writes two values to the rows from `first` on. At an index one goes to each of two rows,
    which have to be there. Without one both go to each of them that is there, and the row has
    to be of two entries. -/
def writePair (a : Mat α) (first : Nat) (index : Option Int) (x y : α) : Except Fault (Mat α) :=
  match index with
  | some c =>
    match position? a.width c with
    | none => .error .outOfRange
    | some j =>
      if first + 2 ≤ a.height then .ok ((a.set first j x).set (first + 1) j y)
      else .error .wrongSize
  | none =>
    if h : a.width = 2 then .ok ((a.setRow first ⟨[x, y], h.symm⟩).setRow (first + 1) ⟨[x, y], h.symm⟩)
    else .error .wrongSize

/-! ## At an index -/

section
variable {a b : Mat α} {i : Nat} {c : Int} {vs : List α}

theorem read_some_eq_ok : a.read i (some c) = .ok vs ↔
    ∃ j v, position? a.width c = some j ∧ a.get? i j = some v ∧ vs = [v] := by
  cases place : position? a.width c with
  | none => simp [read, place]
  | some j => cases entry : a.get? i j <;> simp [read, place, entry, eq_comm]

theorem write_some_eq_ok : a.write i (some c) vs = .ok b ↔
    i < a.height ∧ ∃ j v, position? a.width c = some j ∧ vs = [v] ∧ b = a.set i j v := by
  by_cases inside : i < a.height
  · cases place : position? a.width c with
    | none => simp [write, writeAt, inside, place]
    | some j => rcases vs with _ | ⟨v, _ | ⟨w, vs⟩⟩ <;> simp [write, writeAt, inside, place, eq_comm]
  · simp [write, inside]

theorem writePair_some_eq_ok {first : Nat} {x y : α} : a.writePair first (some c) x y = .ok b ↔
    ∃ j, position? a.width c = some j ∧ first + 2 ≤ a.height ∧ b = (a.set first j x).set (first + 1) j y := by
  cases place : position? a.width c with
  | none => simp [writePair, place]
  | some j => by_cases fits : first + 2 ≤ a.height <;> simp [writePair, place, fits, eq_comm]

end

/-! ## At any index -/

section
variable {a b : Mat α} {i : Nat} {index : Option Int} {vs : List α} {f : Fault}

@[simp] theorem shape_set (a : Mat α) (i j : Nat) (x : α) : (a.set i j x).shape = a.shape := by
  simp [shape]

@[simp] theorem shape_setRow (a : Mat α) (i : Nat) (r : { r : List α // r.length = a.width }) :
    (a.setRow i r).shape = a.shape := by
  simp [shape, height, setRow]

theorem shape_write (run : a.write i index vs = .ok b) : b.shape = a.shape := by
  cases index with
  | some c =>
    obtain ⟨-, j, v, -, -, rfl⟩ := write_some_eq_ok.1 run
    exact shape_set a i j v
  | none =>
    simp only [write, writeRow] at run
    split at run
    · split at run <;> cases run
      exact shape_setRow a i _
    · cases run

theorem shape_writePair {first : Nat} {x y : α} (run : a.writePair first index x y = .ok b) :
    b.shape = a.shape := by
  cases index with
  | some c =>
    obtain ⟨j, -, -, rfl⟩ := writePair_some_eq_ok.1 run
    rw [shape_set, shape_set]
  | none =>
    simp only [writePair] at run
    split at run <;> cases run
    rw [shape_setRow, shape_setRow]

/-- Nothing but the place and the number of the values can be wrong. -/
theorem read_eq_error (stops : a.read i index = .error f) : f = .outOfRange := by
  simp only [read] at stops
  split at stops <;> cases stops
  rfl

theorem write_eq_error (stops : a.write i index vs = .error f) : f = .outOfRange ∨ f = .wrongSize := by
  cases index <;> simp only [write, writeAt, writeRow] at stops <;> grind

theorem writePair_eq_error {first : Nat} {x y : α} (stops : a.writePair first index x y = .error f) :
    f = .outOfRange ∨ f = .wrongSize := by
  cases index <;> simp only [writePair] at stops <;> grind

end
end LoopFree.Mat
