/-
  LoopFree.Proofs.Coefficient — the equations in terms of names.

  Which column a variable has changes when columns open before it; its coefficient in a
  row does not. `coefficient` reads a row by name, `pointOf` places values given by name,
  and for a consistent model the three equations are sums over the names of the columns
  (`nextState_pointOf`, `output_pointOf`, `residual_pointOf`). Every point that fits the
  model is a `pointOf` (`eq_pointOf`).
-/

import LoopFree.Affine
import LoopFree.Proofs.Consistency

namespace LoopFree

variable {α : Type}

def Point.ofRole (p : Point α) : Role → List α
  | .state => p.state
  | .input => p.input
  | .discrete => p.discrete
  | .continuous => p.continuous
  | .output => []
  | .other => []

theorem combine?_map {β : Type} (f : α → α → α) (l : List β) (a b : β → α) :
    combine? f (l.map a) (l.map b) = some (l.map fun i => f (a i) (b i)) := by
  simp [combine?, List.zipWith_map, List.zipWith_self]

namespace Model

/-- The names of the columns of a role, in their order. -/
def columnNames (m : Model α) (r : Role) : List String := (m.ofRole r).map (·.name)

/-- The symbol of a name, the first one if there are several. -/
def symbol? (m : Model α) (name : String) : Option Symbol := m.symbols.find? (·.name = name)

/-- The coefficient of a variable in a row; 0 for a name that has no column. -/
def coefficient [Zero α] (m : Model α) (e : Equation) (i : Nat) (name : String) : α :=
  let entry := do
    let s ← m.symbol? name
    let t ← s.role.term?
    let j ← s.index
    (m.block ⟨e, t⟩).get? i j.toNat
  entry.getD 0

def constant [Zero α] (m : Model α) (e : Equation) (i : Nat) : α :=
  ((m.block ⟨e, .affine⟩).get? i 0).getD 0

/-- What a point says of a variable. -/
def value? (m : Model α) (p : Point α) (name : String) : Option α := do
  let s ← m.symbol? name
  let j ← s.index
  (p.ofRole s.role)[j.toNat]?

/-- The point at which every variable has the value of its name. -/
def pointOf (m : Model α) (v : String → α) : Point α where
  state := (m.columnNames .state).map v
  input := (m.columnNames .input).map v
  discrete := (m.columnNames .discrete).map v
  continuous := (m.columnNames .continuous).map v

/-- The point has one value for each column. -/
structure Fits (m : Model α) (p : Point α) : Prop where
  state : p.state.length = m.count .state
  input : p.input.length = m.count .input
  discrete : p.discrete.length = m.count .discrete
  continuous : p.continuous.length = m.count .continuous

/-- How many rows an equation has. -/
def rowCount (m : Model α) : Equation → Nat
  | .update => m.count .state
  | .output => m.count .output
  | .ineq => m.ineqCount

/-- The blocks have the shapes the symbol table asks for. -/
def Shaped (m : Model α) : Prop := ∀ b, (m.block b).shape = m.expectedShape m.ineqCount b

variable {m : Model α} {r : Role} {s : Symbol} {t : Term} {e : Equation}

@[simp] theorem length_columnNames (m : Model α) (r : Role) : (m.columnNames r).length = m.count r := by
  simp [columnNames]

theorem mem_columnNames {name : String} : name ∈ m.columnNames r ↔ ∃ s ∈ m.symbols, s.role = r ∧ s.name = name := by
  simp [columnNames, and_assoc]

/-! ## Reading by name -/

namespace Consistent

variable (h : m.Consistent)
include h

theorem symbol?_eq (hs : s ∈ m.symbols) : m.symbol? s.name = some s := by
  unfold symbol?
  cases found : m.symbols.find? (·.name = s.name) with
  | none => simpa using List.find?_eq_none.1 found s hs
  | some t =>
    have ht := List.mem_of_find?_eq_some found
    have e : t.name = s.name := by simpa using List.find?_some found
    rw [List.inj_on_of_nodup_map h.names ht hs e]

theorem eq_of_name_eq {s t : Symbol} (hs : s ∈ m.symbols) (ht : t ∈ m.symbols) (e : s.name = t.name) : s = t :=
  List.inj_on_of_nodup_map h.names hs ht e

theorem nodup_columnNames (r : Role) : (m.columnNames r).Nodup := by
  have perm : (m.columnNames r).Perm ((m.symbols.filter (·.role = r)).map (·.name)) := (m.ofRole_perm r).map _
  exact perm.nodup_iff.2 (h.names.sublist (List.filter_sublist.map _))

end Consistent

theorem hasColumns_of_term? (hr : r.term? = some t) : r.hasColumns := by
  cases r <;> simp_all [Role.term?, Role.hasColumns]

theorem role?_of_term? (hr : r.term? = some t) : t.role? = some r := by
  cases r <;> simp_all [Role.term?] <;> subst hr <;> rfl

theorem expectedShape_eq (m : Model α) (e : Equation) (t : Term) :
    m.expectedShape m.ineqCount ⟨e, t⟩ = (m.rowCount e, m.columnCount t.role?) := by
  cases e <;> rfl

namespace Shaped

variable (h : m.Shaped)
include h

theorem height (e : Equation) (t : Term) : (m.block ⟨e, t⟩).height = m.rowCount e := by
  have := congrArg Prod.fst (h ⟨e, t⟩)
  cases e <;> exact this

theorem width (e : Equation) (hr : r.term? = some t) : (m.block ⟨e, t⟩).width = m.count r := by
  have := congrArg Prod.snd (h ⟨e, t⟩)
  simpa [Mat.shape, expectedShape, role?_of_term? hr, columnCount] using this

theorem affine_width (e : Equation) : (m.block ⟨e, .affine⟩).width = 1 := by
  have := congrArg Prod.snd (h ⟨e, .affine⟩)
  simpa [Mat.shape, expectedShape, Term.role?, columnCount] using this

end Shaped

theorem Consistent.height (h : m.Consistent) (e : Equation) (t : Term) : (m.block ⟨e, t⟩).height = m.rowCount e :=
  Shaped.height h.shapes e t

theorem Consistent.width (h : m.Consistent) (e : Equation) (hr : r.term? = some t) :
    (m.block ⟨e, t⟩).width = m.count r :=
  Shaped.width h.shapes e hr

theorem Consistent.affine_width (h : m.Consistent) (e : Equation) : (m.block ⟨e, .affine⟩).width = 1 :=
  Shaped.affine_width h.shapes e

theorem Consistent.getElem?_columnNames (h : m.Consistent) (hr : r.term? = some t) {j : Nat} (hj : j < m.count r) :
    ∃ s ∈ m.symbols, s.role = r ∧ s.index = some (j : Int) ∧ (m.columnNames r)[j]? = some s.name := by
  rw [← length_ofRole] at hj
  have place := List.getElem?_eq_getElem hj
  obtain ⟨hs, role⟩ := mem_ofRole.1 (List.mem_of_getElem? place)
  refine ⟨_, hs, role, (h.numbered r (hasColumns_of_term? hr)).getElem? place, ?_⟩
  rw [columnNames, List.getElem?_map, place, Option.map_some]

theorem hasSymbol_iff_exists {name : String} : m.hasSymbol name ↔ ∃ s ∈ m.symbols, s.name = name := by
  simp [hasSymbol]

section
variable [Zero α]

theorem coefficient_eq_zero {name : String} (absent : m.hasSymbol name = false) (e : Equation) (i : Nat) :
    m.coefficient e i name = 0 := by
  have none : m.symbol? name = none := by simpa [symbol?, hasSymbol] using absent
  simp [coefficient, none]

theorem Consistent.coefficient_eq (h : m.Consistent) (hs : s ∈ m.symbols) (hr : s.role.term? = some t) {j : Nat}
    (hj : s.index = some (j : Int)) (i : Nat) :
    m.coefficient e i s.name = ((m.block ⟨e, t⟩).get? i j).getD 0 := by
  simp [coefficient, h.symbol?_eq hs, hr, hj]

/-- The entry in the column of a symbol. -/
theorem Consistent.get?_eq (h : m.Consistent) (hs : s ∈ m.symbols) (hr : s.role.term? = some t) {j : Nat}
    (hj : s.index = some (j : Int))
    {i : Nat}
    (hi : i < m.rowCount e) : (m.block ⟨e, t⟩).get? i j = some (m.coefficient e i s.name) := by
  obtain ⟨k, hk, inside, -⟩ := (h.numbered s.role (hasColumns_of_term? hr)).exists_index hs rfl
  have same : j = k := by
    rw [hj, Option.some.injEq, Int.natCast_inj] at hk
    exact hk
  have entry : ((m.block ⟨e, t⟩).get? i j).isSome := by
    rw [Mat.get?_isSome_iff, h.height, h.width e hr]
    exact ⟨hi, same ▸ inside⟩
  obtain ⟨x, hx⟩ := Option.isSome_iff_exists.1 entry
  rw [h.coefficient_eq hs hr hj, hx, Option.getD_some]

/-- The rows of a block hold the coefficients of the names of its columns. -/
theorem Consistent.rows_eq (h : m.Consistent) (e : Equation) (hr : r.term? = some t) :
    (m.block ⟨e, t⟩).rows = (List.range (m.rowCount e)).map fun i => (m.columnNames r).map (m.coefficient e i) := by
  have tall : (m.block ⟨e, t⟩).rows.length = m.rowCount e := h.height e t
  apply List.ext_getElem
  · simpa using tall
  · intro i hi hi'
    rw [List.getElem_map, List.getElem_range]
    have wide : (m.block ⟨e, t⟩).rows[i].length = m.count r := by
      rw [(m.block ⟨e, t⟩).length_of_mem _ (List.getElem_mem hi), h.width e hr]
    apply List.ext_getElem?
    intro j
    by_cases hj : j < m.count r
    · obtain ⟨s, hs, role, index, name⟩ := h.getElem?_columnNames hr hj
      rw [List.getElem?_map, name, Option.map_some, h.coefficient_eq hs (role ▸ hr) index, Mat.get?_of_lt_height hi,
        List.getElem?_eq_getElem (by omega), Option.getD_some]
    · rw [List.getElem?_eq_none (by omega), List.getElem?_eq_none (by simpa using hj)]

theorem Shaped.affine_rows (h : m.Shaped) (e : Equation) :
    (m.block ⟨e, .affine⟩).rows = (List.range (m.rowCount e)).map fun i => [m.constant e i] := by
  have tall : (m.block ⟨e, .affine⟩).rows.length = m.rowCount e := h.height e .affine
  apply List.ext_getElem
  · simpa using tall
  · intro i hi hi'
    have wide := (m.block ⟨e, .affine⟩).length_of_mem _ (List.getElem_mem hi)
    rw [h.affine_width e] at wide
    obtain ⟨x, hx⟩ := List.length_eq_one_iff.1 wide
    simp [constant, Mat.get?_of_lt_height hi, hx]

theorem Shaped.affine_entries (h : m.Shaped) (e : Equation) :
    (m.block ⟨e, .affine⟩).entries = (List.range (m.rowCount e)).map (m.constant e) := by
  rw [Mat.entries, h.affine_rows, ← List.flatMap_def, ← List.map_eq_flatMap]

theorem Consistent.affine_entries (h : m.Consistent) (e : Equation) :
    (m.block ⟨e, .affine⟩).entries = (List.range (m.rowCount e)).map (m.constant e) :=
  Shaped.affine_entries h.shapes e

end

/-! ## Evaluation -/

section
variable [Zero α] [Add α] [Mul α]

/-- What the variables of a role contribute to a row. -/
def share (m : Model α) (v : String → α) (r : Role) (coefficient : String → α) : α :=
  ((m.columnNames r).map fun n => coefficient n * v n).sum

theorem Consistent.mulVec?_eq (h : m.Consistent) (e : Equation) (hr : r.term? = some t) (v : String → α) :
    (m.block ⟨e, t⟩).mulVec? ((m.columnNames r).map v) =
      some ((List.range (m.rowCount e)).map fun i => m.share v r (m.coefficient e i)) := by
  have fits : ((m.columnNames r).map v).length = (m.block ⟨e, t⟩).width := by
    rw [List.length_map, length_columnNames, h.width e hr]
  rw [Mat.mulVec?, if_pos fits, h.rows_eq e hr, List.map_map]
  simp [Function.comp_def, Mat.dot, share, List.zipWith_map, List.zipWith_self]

theorem Consistent.products?_pointOf (h : m.Consistent) (e : Equation) (v : String → α) :
    m.products? e (m.pointOf v) = some {
      state := (List.range (m.rowCount e)).map fun i => m.share v .state (m.coefficient e i)
      input := (List.range (m.rowCount e)).map fun i => m.share v .input (m.coefficient e i)
      discrete := (List.range (m.rowCount e)).map fun i => m.share v .discrete (m.coefficient e i)
      continuous := (List.range (m.rowCount e)).map fun i => m.share v .continuous (m.coefficient e i)
      affine := (List.range (m.rowCount e)).map (m.constant e) } := by
  have state := h.mulVec?_eq e (r := .state) rfl v
  have input := h.mulVec?_eq e (r := .input) rfl v
  have discrete := h.mulVec?_eq e (r := .discrete) rfl v
  have continuous := h.mulVec?_eq e (r := .continuous) rfl v
  have affine := h.affine_entries e
  simp only [block, Blocks.get, Terms.get] at state input discrete continuous affine
  simp [products?, pointOf, state, input, discrete, continuous, affine]

/-- The value of a row of the update or output equation. -/
def rowValue (m : Model α) (e : Equation) (v : String → α) (i : Nat) : α :=
  m.share v .state (m.coefficient e i) + m.share v .input (m.coefficient e i) +
    m.share v .discrete (m.coefficient e i) + m.share v .continuous (m.coefficient e i) + m.constant e i

theorem Consistent.nextState_pointOf (h : m.Consistent) (v : String → α) :
    m.nextState (m.pointOf v) = .ok ((List.range (m.count .state)).map (m.rowValue .update v)) := by
  simp [nextState, h.products?_pointOf, sum?, combine?_map, fitting, rowCount, rowValue]

theorem Consistent.output_pointOf (h : m.Consistent) (v : String → α) :
    m.output (m.pointOf v) = .ok ((List.range (m.count .output)).map (m.rowValue .output v)) := by
  simp [output, h.products?_pointOf, sum?, combine?_map, fitting, rowCount, rowValue]

end

/-! ## Every point is given by names -/

section
variable {p : Point α}

theorem Fits.ofRole (fits : m.Fits p) (hr : r.term? = some t) : (p.ofRole r).length = m.count r := by
  cases r with
  | state => exact fits.state
  | input => exact fits.input
  | discrete => exact fits.discrete
  | continuous => exact fits.continuous
  | output => cases hr
  | other => cases hr

theorem ofRole_pointOf (m : Model α) (v : String → α) (hr : r.term? = some t) :
    (m.pointOf v).ofRole r = (m.columnNames r).map v := by
  cases r with
  | state => rfl
  | input => rfl
  | discrete => rfl
  | continuous => rfl
  | output => cases hr
  | other => cases hr

theorem fits_pointOf (m : Model α) (v : String → α) : m.Fits (m.pointOf v) := by
  constructor <;> simp [pointOf]

theorem Consistent.value?_eq (h : m.Consistent) (hs : s ∈ m.symbols) {j : Nat} (hj : s.index = some (j : Int)) :
    m.value? p s.name = (p.ofRole s.role)[j]? := by
  simp [value?, h.symbol?_eq hs, hj]

theorem Consistent.value?_pointOf (h : m.Consistent) (hs : s ∈ m.symbols) (hr : s.role.term? = some t)
    (v : String → α) :
    m.value? (m.pointOf v) s.name = some (v s.name) := by
  obtain ⟨j, hj, -, place⟩ := (h.numbered s.role (hasColumns_of_term? hr)).exists_index hs rfl
  rw [h.value?_eq hs hj, m.ofRole_pointOf v hr, columnNames, List.getElem?_map, List.getElem?_map, place]
  rfl

theorem Consistent.exists_value? (h : m.Consistent) (fits : m.Fits p) (hs : s ∈ m.symbols)
    (hr : s.role.term? = some t) :
    ∃ x, m.value? p s.name = some x := by
  obtain ⟨j, hj, hlt, -⟩ := (h.numbered s.role (hasColumns_of_term? hr)).exists_index hs rfl
  rw [h.value?_eq hs hj, List.getElem?_eq_getElem (by rwa [fits.ofRole hr])]
  exact ⟨_, rfl⟩

theorem value?_eq_none {name : String} (hn : m.hasSymbol name = false) : m.value? p name = none := by
  have none : m.symbol? name = none := by simpa [symbol?, hasSymbol] using hn
  simp [value?, none]

/-- The columns of a role read back from the values of the names. -/
theorem Consistent.map_columnNames (h : m.Consistent) (fits : m.Fits p) (hr : r.term? = some t) {v : String → α}
    (hv : ∀ s ∈ m.symbols, s.role = r → m.value? p s.name = some (v s.name)) :
    (m.columnNames r).map v = p.ofRole r := by
  apply List.ext_getElem?
  intro j
  by_cases hj : j < m.count r
  · obtain ⟨s, hs, role, index, name⟩ := h.getElem?_columnNames hr hj
    have value := hv s hs role
    rw [h.value?_eq hs index, role] at value
    rw [List.getElem?_map, name, Option.map_some, value]
  · rw [List.getElem?_eq_none (by simpa using hj), List.getElem?_eq_none (by rw [fits.ofRole hr]; omega)]

theorem Consistent.eq_pointOf (h : m.Consistent) (fits : m.Fits p) (w : String → α) :
    p = m.pointOf fun n => (m.value? p n).getD (w n) := by
  have column {r : Role} {t : Term} (hr : r.term? = some t) :
      (m.columnNames r).map (fun n => (m.value? p n).getD (w n)) = p.ofRole r := by
    refine h.map_columnNames fits hr fun s hs role => ?_
    obtain ⟨x, hx⟩ := h.exists_value? fits hs (role ▸ hr)
    simp [hx]
  rw [pointOf, column (r := .state) rfl, column (r := .input) rfl, column (r := .discrete) rfl,
    column (r := .continuous) rfl]
  rfl

end
end Model
end LoopFree
