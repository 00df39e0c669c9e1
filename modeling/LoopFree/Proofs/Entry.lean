/-
  LoopFree.Proofs.Entry — single changes to the inequality system.

  Breaking an arc is a sequence of three kinds of change: one entry of one inequality
  block is written (`setEntry`), one dependency is renamed, rows are added at the end
  (`withRows`). None of them touches the symbol table or the other equations
  (`SameFrame`), each keeps the model consistent, and each is one list operation on
  `inequalities`.
-/

import LoopFree.Proofs.Breaking

namespace LoopFree

variable {α : Type}

namespace Model

/-- Only the inequality system differs. -/
structure SameFrame (m m' : Model α) : Prop where
  symbols : m'.symbols = m.symbols
  outputRows : m'.rows.output = m.rows.output
  others : ∀ b, b.equation ≠ .ineq → m'.block b = m.block b

theorem SameFrame.refl (m : Model α) : m.SameFrame m := ⟨rfl, rfl, fun _ _ => rfl⟩

theorem SameFrame.trans {m v m' : Model α} (h : m.SameFrame v) (k : v.SameFrame m') : m.SameFrame m' :=
  ⟨k.symbols.trans h.symbols, k.outputRows.trans h.outputRows, fun b hb => (k.others b hb).trans (h.others b hb)⟩

section
variable {m m' : Model α} (h : m.SameFrame m')
include h

theorem SameFrame.ofRole_eq (r : Role) : m'.ofRole r = m.ofRole r := by
  rw [ofRole, ofRole, h.symbols]

theorem SameFrame.columnNames_eq (r : Role) : m'.columnNames r = m.columnNames r := by
  rw [columnNames, columnNames, h.ofRole_eq]

theorem SameFrame.count_eq (r : Role) : m'.count r = m.count r := by
  rw [count, count, h.symbols]

theorem SameFrame.symbol?_eq (name : String) : m'.symbol? name = m.symbol? name := by
  rw [symbol?, symbol?, h.symbols]

theorem SameFrame.columnCount_eq (r : Option Role) : m'.columnCount r = m.columnCount r := by
  cases r with
  | none => rfl
  | some r => exact h.count_eq r

theorem SameFrame.coefficient_eq [Zero α] {e : Equation} (he : e ≠ .ineq) (i : Nat) (name : String) :
    m'.coefficient e i name = m.coefficient e i name := by
  simp only [coefficient, h.symbol?_eq, h.others ⟨e, _⟩ he]

theorem SameFrame.constant_eq [Zero α] {e : Equation} (he : e ≠ .ineq) (i : Nat) :
    m'.constant e i = m.constant e i := by
  rw [constant, constant, h.others ⟨e, .affine⟩ he]

theorem SameFrame.excess_eq [Zero α] [Add α] [Mul α] [Sub α] (c : Inequality α) (v : String → α) :
    c.excess m' v = c.excess m v := by
  simp only [Inequality.excess, share, h.columnNames_eq]

theorem SameFrame.rowValue_eq [Zero α] [Add α] [Mul α] {e : Equation} (he : e ≠ .ineq) (v : String → α) (i : Nat) :
    m'.rowValue e v i = m.rowValue e v i := by
  simp only [rowValue, share, h.columnNames_eq, h.coefficient_eq he, h.constant_eq he]

/-- What is left to check of the inequality system. -/
theorem SameFrame.consistent (con : m.Consistent)
    (shapes : ∀ t, (m'.block ⟨.ineq, t⟩).shape = (m'.ineqCount, m.columnCount t.role?))
    (rows : m'.rows.ineq.length = m'.ineqCount) : m'.Consistent where
  names := by rw [h.symbols]; exact con.names
  numbered r hr := by rw [Numbered, h.ofRole_eq, h.count_eq]; exact con.numbered r hr
  realFirst r hr := by rw [RealFirst, countIn, h.symbols]; exact con.realFirst r hr
  shapes b := by
    obtain ⟨e, t⟩ := b
    rw [expectedShape_eq, h.columnCount_eq]
    have old := con.shapes ⟨e, t⟩
    rw [expectedShape_eq] at old
    cases e with
    | update => rw [h.others _ (by simp), old, rowCount, rowCount, h.count_eq]
    | output => rw [h.others _ (by simp), old, rowCount, rowCount, h.count_eq]
    | ineq => exact shapes t
  ineqRows := rows
  outputRows := by rw [h.outputRows, h.count_eq]; exact con.outputRows

end

theorem Consistent.ineq_shape {m : Model α} (con : m.Consistent) (t : Term) :
    (m.block ⟨.ineq, t⟩).shape = (m.ineqCount, m.columnCount t.role?) := con.shapes ⟨.ineq, t⟩

/-! ## One entry -/

theorem setBlock_setBlock (m : Model α) (b : Block) (x y : Mat α) : (m.setBlock b x).setBlock b y = m.setBlock b y := by
  have blocks : (m.blocks.set b x).set b y = m.blocks.set b y := by
    apply Blocks.ext_get
    intro c
    simp only [Blocks.get_set]
    by_cases e : b = c <;> simp [e]
  simp only [setBlock, blocks]

def setEntry (m : Model α) (t : Term) (i j : Nat) (x : α) : Model α :=
  m.setBlock ⟨.ineq, t⟩ ((m.block ⟨.ineq, t⟩).set i j x)

section
variable {m : Model α} {t : Term} {i j : Nat} {x : α}

theorem setEntry_sameFrame (m : Model α) (t : Term) (i j : Nat) (x : α) : m.SameFrame (m.setEntry t i j x) := by
  refine ⟨rfl, rfl, fun b hb => ?_⟩
  rw [setEntry, block_setBlock, if_neg]
  intro same
  subst same
  exact hb rfl

theorem shape_setEntry (m : Model α) (t : Term) (i j : Nat) (x : α) (b : Block) :
    ((m.setEntry t i j x).block b).shape = (m.block b).shape := by
  rw [setEntry, block_setBlock]
  split
  · rename_i e
    subst e
    simp [Mat.shape]
  · rfl

theorem ineqCount_setEntry (m : Model α) (t : Term) (i j : Nat) (x : α) :
    (m.setEntry t i j x).ineqCount = m.ineqCount :=
  congrArg Prod.fst (m.shape_setEntry t i j x ⟨.ineq, .affine⟩)

theorem Consistent.setEntry (con : m.Consistent) : (m.setEntry t i j x).Consistent := by
  refine (m.setEntry_sameFrame t i j x).consistent con (fun u => ?_) ?_
  · rw [shape_setEntry, ineqCount_setEntry]
    exact con.ineq_shape u
  · rw [ineqCount_setEntry]
    exact con.ineqRows

variable [Zero α]

section
variable (con : m.Consistent) {s : Symbol} (hs : s ∈ m.symbols) (ht : s.role.term? = some t)
  (hj : s.index = some (j : Int))
include con hs ht hj

theorem Consistent.coefficient_setEntry_self (hi : i < m.ineqCount) (x : α) (k : Nat) :
    (m.setEntry t i j x).coefficient .ineq k s.name = if k = i then x else m.coefficient .ineq k s.name := by
  have con' : (m.setEntry t i j x).Consistent := con.setEntry
  have there := con.get?_eq hs ht hj (e := .ineq) hi
  rw [con'.coefficient_eq hs ht hj, con.coefficient_eq hs ht hj, Model.setEntry, block_setBlock, if_pos rfl,
    Mat.get?_set]
  by_cases hk : k = i
  · subst hk
    simp [there]
  · simp [hk]

/-- Another variable has another column, or its columns are in another block. -/
theorem Consistent.coefficient_setEntry_of_ne {y : Symbol} (hy : y ∈ m.symbols) (ne : y.name ≠ s.name) (x : α)
    (k : Nat) :
    (m.setEntry t i j x).coefficient .ineq k y.name = m.coefficient .ineq k y.name := by
  have con' : (m.setEntry t i j x).Consistent := con.setEntry
  cases hu : y.role.term? with
  | none =>
    have unchanged : (m.setEntry t i j x).symbol? y.name = m.symbol? y.name := rfl
    simp [coefficient, unchanged, con.symbol?_eq hy, hu]
  | some u =>
    obtain ⟨c, hc, -⟩ := (con.numbered y.role (hasColumns_of_term? hu)).exists_index hy rfl
    rw [con'.coefficient_eq hy hu hc, con.coefficient_eq hy hu hc, Model.setEntry, block_setBlock]
    by_cases e : u = t
    · subst e
      have role : y.role = s.role := Option.some.inj ((role?_of_term? hu).symm.trans (role?_of_term? ht))
      have numbered := con.numbered s.role (hasColumns_of_term? ht)
      have apart : c ≠ j := by
        intro same
        subst same
        exact ne (congrArg Symbol.name (numbered.eq_of_index_eq hy role hs rfl (hc.trans hj.symm)))
      rw [if_pos rfl, Mat.get?_set, if_neg fun h => apart h.2]
    · rw [if_neg (by simpa using Ne.symm e)]

/-- The entry in the column of a variable is its coefficient. -/
theorem Consistent.coefficient_setEntry (hi : i < m.ineqCount) (x : α) (k : Nat) :
    (m.setEntry t i j x).coefficient .ineq k =
      if k = i then Function.update (m.coefficient .ineq k) s.name x else m.coefficient .ineq k := by
  funext n
  by_cases e : n = s.name
  · subst e
    rw [con.coefficient_setEntry_self hs ht hj hi]
    split
    · rw [Function.update_self]
    · rfl
  · have same : (m.setEntry t i j x).coefficient .ineq k n = m.coefficient .ineq k n := by
      cases known : m.hasSymbol n with
      | true =>
        obtain ⟨y, hy, rfl⟩ : ∃ y ∈ m.symbols, y.name = n := by simpa [hasSymbol] using known
        exact con.coefficient_setEntry_of_ne hs ht hj hy e x k
      | false =>
        have known' : (m.setEntry t i j x).hasSymbol n = false := known
        rw [coefficient_eq_zero known, coefficient_eq_zero known']
    rw [same]
    split
    · rw [Function.update_of_ne e]
    · rfl

end

theorem constant_setEntry (ht : t ≠ .affine) (k : Nat) :
    (m.setEntry t i j x).constant .ineq k = m.constant .ineq k := by
  rw [constant, constant, setEntry, block_setBlock, if_neg (by simp [ht])]

theorem Consistent.inequalities_setEntry (con : m.Consistent) {s : Symbol} (hs : s ∈ m.symbols)
    (ht : s.role.term? = some t) (hj : s.index = some (j : Int)) (hi : i < m.ineqCount) (x : α) :
    (m.setEntry t i j x).inequalities =
      m.inequalities.modify i fun c => { c with coefficient := Function.update c.coefficient s.name x } := by
  have affine : t ≠ .affine := by
    intro same
    subst same
    simpa [Term.role?] using role?_of_term? ht
  have coefficient := con.coefficient_setEntry hs ht hj hi x
  apply List.ext_getElem?
  intro k
  have rows : (m.setEntry t i j x).rows = m.rows := rfl
  rw [List.getElem?_modify, getElem?_inequalities, getElem?_inequalities, rows]
  by_cases e : i = k
  · subst e
    cases m.rows.ineq[i]? <;> simp [inequality, coefficient, constant_setEntry affine]
  · cases m.rows.ineq[k]? <;> simp [inequality, coefficient, constant_setEntry affine, e, Ne.symm e]

end

/-! ## One dependency -/

theorem inequalities_renameDependency [Zero α] (m : Model α) (i : Nat) (old new : String) :
    (m.renameDependency i old new).inequalities =
      m.inequalities.modify i fun c => { c with row := c.row.replaceDependency old new } := by
  apply List.ext_getElem?
  intro k
  have rows : (m.renameDependency i old new).rows.ineq = m.rows.ineq.modify i (·.replaceDependency old new) := rfl
  have same (row : Row) : (m.renameDependency i old new).inequality row k = m.inequality row k := rfl
  rw [List.getElem?_modify, getElem?_inequalities, getElem?_inequalities, rows, List.getElem?_modify]
  by_cases e : i = k
  · subst e
    cases m.rows.ineq[i]? with
    | none => rfl
    | some row =>
      simp only [Option.map_eq_map, Option.map_some, if_true]
      rfl
  · cases m.rows.ineq[k]? <;> simp [same, e]

theorem renameDependency_sameFrame (m : Model α) (i : Nat) (old new : String) :
    m.SameFrame (m.renameDependency i old new) := ⟨rfl, rfl, fun _ _ => rfl⟩

theorem Consistent.renameDependency {m : Model α} (con : m.Consistent) (i : Nat) (old new : String) :
    (m.renameDependency i old new).Consistent := by
  refine (m.renameDependency_sameFrame i old new).consistent con con.ineq_shape ?_
  have rows : (m.renameDependency i old new).rows.ineq.length = m.rows.ineq.length := List.length_modify _ _ _
  rw [rows]
  exact con.ineqRows

/-! ## New rows -/

/-- The model with zero rows for the given descriptors. -/
def withRows [Zero α] (m : Model α) (rows : List Row) : Model α :=
  { m.appendZeroRows rows.length with rows := { m.rows with ineq := m.rows.ineq ++ rows } }

section
variable [Zero α] {m : Model α}

theorem block_appendZeroRows (m : Model α) (n : Nat) (t : Term) :
    (m.appendZeroRows n).block ⟨.ineq, t⟩ = (m.block ⟨.ineq, t⟩).appendZeroRows n := by
  simp [block, appendZeroRows, Blocks.get, Blocks.terms]

theorem block_appendZeroRows_of_ne (m : Model α) (n : Nat) {b : Block} (other : b.equation ≠ .ineq) :
    (m.appendZeroRows n).block b = m.block b := by
  obtain ⟨e, t⟩ := b
  cases e with
  | update => rfl
  | output => rfl
  | ineq => exact absurd rfl other

theorem block_withRows (m : Model α) (rows : List Row) (t : Term) :
    (m.withRows rows).block ⟨.ineq, t⟩ = (m.block ⟨.ineq, t⟩).appendZeroRows rows.length :=
  m.block_appendZeroRows rows.length t

theorem withRows_sameFrame (m : Model α) (rows : List Row) : m.SameFrame (m.withRows rows) :=
  ⟨rfl, rfl, fun _ other => m.block_appendZeroRows_of_ne rows.length other⟩

theorem ineqCount_appendZeroRows (m : Model α) (n : Nat) : (m.appendZeroRows n).ineqCount = m.ineqCount + n := by
  rw [ineqCount, ineqCount, block_appendZeroRows, Mat.height_appendZeroRows]

theorem ineqCount_withRows (m : Model α) (rows : List Row) :
    (m.withRows rows).ineqCount = m.ineqCount + rows.length :=
  m.ineqCount_appendZeroRows rows.length

theorem Consistent.withRows (con : m.Consistent) (rows : List Row) : (m.withRows rows).Consistent := by
  refine (m.withRows_sameFrame rows).consistent con (fun t => ?_) ?_
  · have old := con.ineq_shape t
    rw [Mat.shape, Prod.mk.injEq] at old
    rw [block_withRows, Mat.shape, Mat.height_appendZeroRows, Mat.width_appendZeroRows, ineqCount_withRows, old.1,
      old.2]
  · rw [ineqCount_withRows, ← con.ineqRows]
    exact List.length_append

/-- A missing entry and a new zero read the same. -/
theorem getD_appendZeroRows (a : Mat α) (count i j : Nat) :
    ((a.appendZeroRows count).get? i j).getD 0 = (a.get? i j).getD 0 := by
  rw [Mat.get?_appendZeroRows]
  split
  · rfl
  · rename_i above
    rw [Mat.get?_of_height_le (Nat.le_of_not_lt above)]
    split <;> rfl

theorem coefficient_withRows (m : Model α) (rows : List Row) (i : Nat) :
    (m.withRows rows).coefficient .ineq i = m.coefficient .ineq i := by
  funext n
  have symbol : (m.withRows rows).symbol? n = m.symbol? n := rfl
  rw [coefficient, coefficient, symbol]
  cases m.symbol? n with
  | none => rfl
  | some s =>
    cases ht : s.role.term? with
    | none => simp [ht]
    | some t =>
      cases hj : s.index with
      | none => simp [hj]
      | some j =>
        simp only [Option.bind_eq_bind, Option.bind_some, ht, hj, block_withRows]
        exact getD_appendZeroRows _ _ _ _

theorem constant_withRows (m : Model α) (rows : List Row) (i : Nat) :
    (m.withRows rows).constant .ineq i = m.constant .ineq i := by
  rw [constant, constant, block_withRows, getD_appendZeroRows]

/-- Beyond the last row everything reads zero. -/
theorem Consistent.inequality_eq_zero (con : m.Consistent) (row : Row) {i : Nat} (hi : m.ineqCount ≤ i) :
    m.inequality row i = ⟨row, fun _ => 0, 0⟩ := by
  have none (t : Term) (j : Nat) : (m.block ⟨.ineq, t⟩).get? i j = none :=
    Mat.get?_of_height_le (by rw [con.height]; exact hi) j
  have coefficient : m.coefficient .ineq i = fun _ => 0 := by
    funext n
    rw [Model.coefficient]
    cases m.symbol? n with
    | none => rfl
    | some s => cases s.role.term? <;> cases s.index <;> simp [none]
  rw [inequality, coefficient, constant, none, Option.getD_none]

theorem Consistent.inequalities_withRows (con : m.Consistent) (rows : List Row) :
    (m.withRows rows).inequalities = m.inequalities ++ rows.map fun row => ⟨row, fun _ => 0, 0⟩ := by
  apply List.ext_getElem?
  intro i
  have table : (m.withRows rows).rows.ineq = m.rows.ineq ++ rows := rfl
  have same (row : Row) : (m.withRows rows).inequality row i = m.inequality row i := by
    rw [inequality, coefficient_withRows, constant_withRows, inequality]
  rw [getElem?_inequalities, table]
  by_cases hi : i < m.rows.ineq.length
  · rw [List.getElem?_append_left hi, List.getElem?_append_left (by simpa using hi), getElem?_inequalities]
    simp only [same]
  · have le : m.rows.ineq.length ≤ i := Nat.le_of_not_lt hi
    rw [List.getElem?_append_right le, List.getElem?_append_right (by simpa using le), List.getElem?_map,
      length_inequalities]
    have zero (row : Row) : (m.withRows rows).inequality row i = ⟨row, fun _ => 0, 0⟩ := by
      rw [same]
      exact con.inequality_eq_zero row (by rw [← con.ineqRows]; exact le)
    simp only [zero]

end
end Model
end LoopFree
