/-
  LoopFree.Position — positions given as integers.

  In a list of `n` entries `0 .. n-1` count from the front and `-1 .. -n` from the back;
  any other integer is no position.
-/

namespace LoopFree

def position? (n : Nat) (i : Int) : Option Nat :=
  if 0 ≤ i then if i < n then some i.toNat else none
  else if -(n : Int) ≤ i then some (i + n).toNat else none

theorem position?_lt {n k : Nat} {i : Int} (h : position? n i = some k) : k < n := by
  simp only [position?] at h
  split at h <;> split at h <;> simp at h <;> omega

theorem position?_natCast {n k : Nat} (h : k < n) : position? n k = some k := by
  simp [position?, h]

/-- The position as a checked index. -/
def index? (n : Nat) (i : Int) : Option (Fin n) :=
  match h : position? n i with
  | some k => some ⟨k, position?_lt h⟩
  | none => none

end LoopFree
