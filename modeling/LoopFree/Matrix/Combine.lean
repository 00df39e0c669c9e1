/-
  LoopFree.Matrix.Combine — matrices combined entry by entry.

  A matrix of one entry goes with every entry of the other. Two larger ones need the same
  height, and the narrower is repeated side by side up to the width of the wider.
-/

import LoopFree.Matrix

namespace LoopFree.Mat

variable {α β γ : Type}

def map (f : α → β) (a : Mat α) : Mat β where
  width := a.width
  rows := a.rows.map (·.map f)
  length_of_mem r hr := by
    obtain ⟨s, hs, rfl⟩ := List.mem_map.1 hr
    rw [List.length_map, a.length_of_mem s hs]

/-- The matrix of one column. -/
def column (xs : List α) : Mat α where
  width := 1
  rows := xs.map fun x => [x]
  length_of_mem r hr := by
    obtain ⟨x, _, rfl⟩ := List.mem_map.1 hr
    rfl

/-- One row for each item of a list. -/
def table (items : List β) (width : Nat) (f : β → Nat → α) : Mat α where
  width := width
  rows := items.map fun b => (List.range width).map (f b)
  length_of_mem := by simp +contextual

def columns (a : Mat α) : List (List α) :=
  (List.range a.width).map fun j => a.rows.filterMap (·[j]?)

/-- The entries, column by column. -/
def byColumns (a : Mat α) : List α := a.columns.flatten

/-- The entry of a matrix that has only one. -/
def single? (a : Mat α) : Option α :=
  match a.rows with
  | [[x]] => some x
  | _ => none

/-- The matrix repeated side by side up to a multiple of its width. -/
def widen (a : Mat α) (width : Nat) (h : a.width ∣ width) : Mat α where
  width := width
  rows := a.rows.map fun r => (List.replicate (width / a.width) r).flatten
  length_of_mem r hr := by
    obtain ⟨s, hs, rfl⟩ := List.mem_map.1 hr
    rw [List.length_flatten, List.map_replicate, List.sum_replicate_nat, a.length_of_mem s hs,
      Nat.div_mul_cancel h]

def zipWith (f : α → β → γ) (a : Mat α) (b : Mat β) (h : a.width = b.width) : Mat γ where
  width := a.width
  rows := a.rows.zipWith (fun r s => r.zipWith f s) b.rows
  length_of_mem t ht := by
    obtain ⟨i, hi, rfl⟩ := List.getElem_of_mem ht
    rw [List.length_zipWith] at hi
    rw [List.getElem_zipWith, List.length_zipWith, a.length_of_mem _ (List.getElem_mem _),
      b.length_of_mem _ (List.getElem_mem _), h, Nat.min_self]

def combine? (f : α → β → γ) (a : Mat α) (b : Mat β) : Option (Mat γ) :=
  match a.single?, b.single? with
  | some x, _ => some (b.map (f x))
  | none, some y => some (a.map (f · y))
  | none, none =>
    let width := max a.width b.width
    if h : a.height = b.height ∧ a.width ∣ width ∧ b.width ∣ width then
      some ((a.widen width h.2.1).zipWith f (b.widen width h.2.2) rfl)
    else none

/-! ## Matrices of one shape -/

@[simp] theorem shape_map (f : α → β) (a : Mat α) : (a.map f).shape = a.shape := by
  simp [shape, height, map]

@[simp] theorem get?_map (f : α → β) (a : Mat α) (i j : Nat) :
    (a.map f).get? i j = (a.get? i j).map f := by
  rw [get?, get?, map, List.getElem?_map]
  cases a.rows[i]? <;> simp

theorem entries_column (xs : List α) : (column xs).entries = xs := by
  induction xs with
  | nil => rfl
  | cons x xs ih => simpa [column, entries] using ih

theorem byColumns_column (xs : List α) : (column xs).byColumns = xs := by
  have h : (xs.map fun x => [x]).filterMap (·[0]?) = xs := by
    induction xs with
    | nil => rfl
    | cons x xs ih => exact congrArg (x :: ·) ih
  rw [byColumns, columns, column, List.range_one, List.map_singleton, List.flatten_singleton, h]

end LoopFree.Mat
