/-
  LoopFree.Matrix — dense matrices as lists of rows.

  `Mat` keeps its width beside its rows, so a matrix without rows still has columns.
  Every operation is described by what it does to `get?`; a product with a vector is
  defined only for a vector as long as the matrix is wide.
-/

import LoopFree.Position

namespace LoopFree

structure Mat (α : Type) where
  width : Nat
  rows : List (List α)
  length_of_mem : ∀ r ∈ rows, r.length = width

namespace Mat

variable {α : Type}

instance [DecidableEq α] : DecidableEq (Mat α) := fun a b =>
  if h : a.width = b.width ∧ a.rows = b.rows then
    isTrue (by cases a; cases b; simp_all)
  else isFalse (by rintro rfl; simp at h)

def height (a : Mat α) : Nat := a.rows.length

def shape (a : Mat α) : Nat × Nat := (a.height, a.width)

def get? (a : Mat α) (i j : Nat) : Option α := a.rows[i]?.bind (·[j]?)

theorem ext_rows {a b : Mat α} (hw : a.width = b.width) (hr : a.rows = b.rows) : a = b := by
  cases a; cases b; simp_all

/-! ## Building -/

def zero [Zero α] (height width : Nat) : Mat α where
  width := width
  rows := List.replicate height (List.replicate width 0)
  length_of_mem := by simp +contextual [List.mem_replicate]

def empty : Mat α where
  width := 0
  rows := []
  length_of_mem := by simp

/-- Cuts a list into `height` rows of `width` entries. -/
def chunks (width : Nat) : Nat → List α → List (List α)
  | 0, _ => []
  | height + 1, xs => xs.take width :: chunks width height (xs.drop width)

theorem length_of_mem_chunks {width : Nat} : ∀ {height : Nat} {xs : List α},
    xs.length = height * width → ∀ r ∈ chunks width height xs, r.length = width
  | 0, _, _, _, hr => by simp [chunks] at hr
  | height + 1, xs, h, r, hr => by
    rw [Nat.succ_mul] at h
    rcases List.mem_cons.1 hr with rfl | hr
    · rw [List.length_take]; omega
    · exact length_of_mem_chunks (by rw [List.length_drop]; omega) r hr

/-- The matrix of the given entries, row by row; their number has to fit. -/
def ofEntries? (height width : Nat) (xs : List α) : Option (Mat α) :=
  if h : xs.length = height * width then some ⟨width, chunks width height xs, length_of_mem_chunks h⟩
  else none

/-- The entries, row by row. -/
def entries (a : Mat α) : List α := a.rows.flatten

/-! ## Editing -/

def set (a : Mat α) (i j : Nat) (v : α) : Mat α where
  width := a.width
  rows := a.rows.modify i (·.set j v)
  length_of_mem r hr := by
    obtain ⟨k, hk, rfl⟩ := List.getElem_of_mem hr
    rw [List.getElem_modify]
    split
    · rw [List.length_set]; exact a.length_of_mem _ (List.getElem_mem _)
    · exact a.length_of_mem _ (List.getElem_mem _)

/-- A zero column opens at `j`; the columns from `j` on move up by one. -/
def insertColumn [Zero α] (a : Mat α) (j : Nat) (h : j ≤ a.width) : Mat α where
  width := a.width + 1
  rows := a.rows.map (·.insertIdx j 0)
  length_of_mem r hr := by
    obtain ⟨s, hs, rfl⟩ := List.mem_map.1 hr
    rw [List.length_insertIdx, a.length_of_mem s hs, if_pos h]

def insertColumn? [Zero α] (a : Mat α) (j : Nat) : Option (Mat α) :=
  if h : j ≤ a.width then some (a.insertColumn j h) else none

def appendZeroRows [Zero α] (a : Mat α) (count : Nat) : Mat α where
  width := a.width
  rows := a.rows ++ List.replicate count (List.replicate a.width 0)
  length_of_mem r hr := by
    rcases List.mem_append.1 hr with hr | hr
    · exact a.length_of_mem r hr
    · rw [(List.mem_replicate.1 hr).2, List.length_replicate]

/-! ## What the operations do to the entries -/

theorem insertColumn?_eq_some [Zero α] {a b : Mat α} {j : Nat} :
    a.insertColumn? j = some b ↔ ∃ h : j ≤ a.width, a.insertColumn j h = b := by
  unfold insertColumn?
  split <;> simp [*]

@[simp] theorem width_set (a : Mat α) (i j : Nat) (v : α) : (a.set i j v).width = a.width := rfl

@[simp] theorem height_set (a : Mat α) (i j : Nat) (v : α) : (a.set i j v).height = a.height := by
  simp [height, set]

@[simp] theorem width_insertColumn [Zero α] (a : Mat α) (j : Nat) (h : j ≤ a.width) :
    (a.insertColumn j h).width = a.width + 1 := rfl

@[simp] theorem height_insertColumn [Zero α] (a : Mat α) (j : Nat) (h : j ≤ a.width) :
    (a.insertColumn j h).height = a.height := by simp [height, insertColumn]

@[simp] theorem width_appendZeroRows [Zero α] (a : Mat α) (count : Nat) :
    (a.appendZeroRows count).width = a.width := rfl

@[simp] theorem height_appendZeroRows [Zero α] (a : Mat α) (count : Nat) :
    (a.appendZeroRows count).height = a.height + count := by simp [height, appendZeroRows]

@[simp] theorem shape_zero [Zero α] (h w : Nat) : (zero h w : Mat α).shape = (h, w) := by
  simp [shape, height, zero]

theorem length_chunks (width : Nat) : ∀ (height : Nat) (xs : List α), (chunks width height xs).length = height
  | 0, _ => rfl
  | height + 1, xs => by rw [chunks, List.length_cons, length_chunks width height]

theorem shape_of_ofEntries? {height width : Nat} {xs : List α} {a : Mat α}
    (h : ofEntries? height width xs = some a) : a.shape = (height, width) := by
  unfold ofEntries? at h
  split at h
  · cases h; simp [shape, Mat.height, length_chunks]
  · cases h

/-- An entry is there exactly inside the shape. -/
theorem get?_isSome_iff (a : Mat α) (i j : Nat) :
    (a.get? i j).isSome ↔ i < a.height ∧ j < a.width := by
  unfold get? height
  by_cases hi : i < a.rows.length
  · rw [List.getElem?_eq_getElem hi]
    simp [hi, a.length_of_mem _ (List.getElem_mem hi)]
  · rw [List.getElem?_eq_none (by omega)]
    simp [hi]

theorem get?_of_height_le {a : Mat α} {k : Nat} (h : a.height ≤ k) (l : Nat) : a.get? k l = none := by
  rw [get?, List.getElem?_eq_none h, Option.bind_none]

theorem get?_of_lt_height {a : Mat α} {k : Nat} (h : k < a.rows.length) (l : Nat) :
    a.get? k l = a.rows[k][l]? := by
  rw [get?, List.getElem?_eq_getElem h, Option.bind_some]

theorem get?_set (a : Mat α) (i j k l : Nat) (v : α) :
    (a.set i j v).get? k l = if k = i ∧ l = j then (a.get? k l).map fun _ => v else a.get? k l := by
  simp only [get?, set, List.getElem?_modify]
  by_cases hk : i = k
  · subst hk
    cases hr : a.rows[i]? with
    | none => simp
    | some r =>
      by_cases hl : j = l
      · subst hl; by_cases hj : j < r.length <;> simp [hj]
      · simp [hl, Ne.symm hl]
  · simp [hk, Ne.symm hk]

theorem get?_insertColumn [Zero α] (a : Mat α) (j : Nat) (h : j ≤ a.width) (k l : Nat) :
    (a.insertColumn j h).get? k l =
      if l < j then a.get? k l
      else if l = j then if k < a.height then some 0 else none
      else a.get? k (l - 1) := by
  by_cases hk : k < a.rows.length
  · have hw : a.rows[k].length = a.width := a.length_of_mem _ (List.getElem_mem hk)
    have hr : (a.insertColumn j h).get? k l = (a.rows[k].insertIdx j 0)[l]? := by
      rw [get?, insertColumn, List.getElem?_map, List.getElem?_eq_getElem hk]; rfl
    have hh : k < a.height := hk
    rw [hr, get?_of_lt_height hk, get?_of_lt_height hk, List.getElem?_insertIdx, if_pos hh]
    by_cases hj : l = j
    · subst hj; simp [hw, h]
    · simp [hj]
  · have hh : a.height ≤ k := Nat.le_of_not_lt hk
    rw [get?_of_height_le (by simpa using hh), get?_of_height_le hh, get?_of_height_le hh,
      if_neg (Nat.not_lt.2 hh)]
    simp

theorem get?_appendZeroRows [Zero α] (a : Mat α) (count k l : Nat) :
    (a.appendZeroRows count).get? k l =
      if k < a.height then a.get? k l
      else if k < a.height + count ∧ l < a.width then some 0 else none := by
  by_cases hk : k < a.height
  · rw [if_pos hk, get?, get?, appendZeroRows, List.getElem?_append_left hk]
  · rw [if_neg hk]
    by_cases hc : k < a.height + count
    · have hr : (a.appendZeroRows count).rows[k]? = some (List.replicate a.width 0) := by
        have : k - a.rows.length < count := by unfold height at hc hk; omega
        rw [appendZeroRows, List.getElem?_append_right (Nat.le_of_not_lt hk), List.getElem?_replicate,
          if_pos this]
      rw [get?, hr, Option.bind_some, List.getElem?_replicate]
      simp [hc]
    · rw [get?_of_height_le (by simpa using hc)]
      simp [hc]

/-! ## Products -/

def dot [Zero α] [Add α] [Mul α] (xs ys : List α) : α := (xs.zipWith (· * ·) ys).sum

def mulVec? [Zero α] [Add α] [Mul α] (a : Mat α) (x : List α) : Option (List α) :=
  if x.length = a.width then some (a.rows.map (dot · x)) else none

end Mat
end LoopFree
