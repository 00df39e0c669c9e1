/-
  LoopFree.Proofs.Auxiliary — adding auxiliary inputs.

  `AuxiliaryAdded` says all that adding the auxiliary input of a symbol changes: the
  inputs from its column on move up, it joins the symbol table, and a zero column opens
  in the input block of each equation. The model stays consistent
  (`AuxiliaryAdded.consistent`) and every coefficient keeps its name
  (`AuxiliaryAdded.coefficient_eq`).
-/

import LoopFree.Proofs.Inequality
import LoopFree.Proofs.Rank
import LoopFree.Proofs.Run
import LoopFree.Removal

namespace LoopFree

variable {α : Type}

/-- Where column `j` stands after a column has opened at `k`. -/
def movedColumn (k j : Nat) : Nat := if k ≤ j then j + 1 else j

theorem Mat.get?_movedColumn [Zero α] (a : Mat α) {k : Nat} (h : k ≤ a.width) (i j : Nat) :
    (a.insertColumn k h).get? i (movedColumn k j) = a.get? i j := by
  rw [get?_insertColumn, movedColumn]
  by_cases le : k ≤ j
  · rw [if_pos le, if_neg (by omega), if_neg (by omega), Nat.add_sub_cancel]
  · rw [if_neg le, if_pos (by omega)]

/-- The symbol after a column has opened at `k`. -/
def Symbol.shifted (k : Nat) (s : Symbol) : Symbol :=
  if s.role = .input then { s with index := s.index.map fun i => if (k : Int) ≤ i then i + 1 else i } else s

/-- The auxiliary input of a symbol in its column. -/
def Symbol.auxiliaryAt (s : Symbol) (k : Nat) : Symbol := { s.auxiliaryInput with index := some (k : Int) }

namespace Symbol

variable (k : Nat) (s : Symbol)

@[simp] theorem name_shifted : (s.shifted k).name = s.name := by unfold shifted; split <;> rfl
@[simp] theorem role_shifted : (s.shifted k).role = s.role := by unfold shifted; split <;> rfl
@[simp] theorem domain_shifted : (s.shifted k).domain = s.domain := by unfold shifted; split <;> rfl
@[simp] theorem rank_shifted : (s.shifted k).rank = s.rank := by unfold shifted; split <;> rfl
@[simp] theorem isReal_shifted : (s.shifted k).isReal = s.isReal := by simp [isReal]

theorem shifted_of_ne {s : Symbol} (h : s.role ≠ .input) : s.shifted k = s := if_neg h

theorem index_shifted {s : Symbol} {i : Nat} (h : s.role = .input) (hi : s.index = some (i : Int)) :
    (s.shifted k).index = some (movedColumn k i : Int) := by
  unfold shifted movedColumn
  rw [if_pos h, hi]
  by_cases hk : k ≤ i <;> simp [hk]

@[simp] theorem name_auxiliaryAt : (s.auxiliaryAt k).name = auxiliaryName s.name := rfl
@[simp] theorem role_auxiliaryAt : (s.auxiliaryAt k).role = .input := rfl
@[simp] theorem domain_auxiliaryAt : (s.auxiliaryAt k).domain = s.domain := rfl
@[simp] theorem rank_auxiliaryAt : (s.auxiliaryAt k).rank = 1 := rfl
@[simp] theorem index_auxiliaryAt : (s.auxiliaryAt k).index = some (k : Int) := rfl

end Symbol

/-- Opening a place at `k` in a numbering. -/
theorem insertIdx_range {n k : Nat} (le : k ≤ n) :
    ((List.range n).map (movedColumn k)).insertIdx k k = List.range (n + 1) := by
  apply List.ext_getElem
  · simp [List.length_insertIdx, le]
  · intro j hj hj'
    rw [List.getElem_range, List.getElem_insertIdx]
    by_cases below : j < k
    · simp [below, movedColumn, Nat.not_le.2 below]
    · by_cases here : j = k
      · simp [here]
      · have : k ≤ j - 1 := by omega
        simp only [below, here, dite_false, List.getElem_map, List.getElem_range, movedColumn, this, if_true]
        omega

namespace Model

/-- The model `m'` is `m` with a zero column open at `k`. -/
structure ColumnOpened [Zero α] (m : Model α) (k : Nat) (m' : Model α) : Prop where
  symbols : m'.symbols = m.symbols.map (·.shifted k)
  rows : m'.rows = m.rows
  input : ∀ e, (m.block ⟨e, .input⟩).insertColumn? k = some (m'.block ⟨e, .input⟩)
  others : ∀ b, b.term ≠ .input → m'.block b = m.block b

/-- The model `m'` is `m` with a zero column open at `k` and the input `s`. -/
structure InputJoined [Zero α] (m : Model α) (k : Nat) (s : Symbol) (m' : Model α) : Prop where
  role : s.role = .input
  symbols : m'.symbols = m.symbols.map (·.shifted k) ++ [s]
  input : ∀ e, (m.block ⟨e, .input⟩).insertColumn? k = some (m'.block ⟨e, .input⟩)
  others : ∀ b, b.term ≠ .input → m'.block b = m.block b

/-- The model `m'` is `m` with the auxiliary input of `s`. -/
structure AuxiliaryAdded [Zero α] (m : Model α) (s : Symbol) (m' : Model α) : Prop where
  fresh : m.hasSymbol (Symbol.auxiliaryName s.name) = false
  symbols : m'.symbols =
    m.symbols.map (·.shifted (m.auxiliaryColumn s.domain)) ++ [s.auxiliaryAt (m.auxiliaryColumn s.domain)]
  rows : m'.rows = m.rows
  input : ∀ e, (m.block ⟨e, .input⟩).insertColumn? (m.auxiliaryColumn s.domain) = some (m'.block ⟨e, .input⟩)
  others : ∀ b, b.term ≠ .input → m'.block b = m.block b

theorem addSymbol_eq_ok {m m' : Model α} {s : Symbol} :
    m.addSymbol s = .ok m' ↔ m.hasSymbol s.name = false ∧ { m with symbols := m.symbols ++ [s] } = m' := by
  unfold addSymbol
  split
  · rename_i h
    simp [h]
  · rename_i h
    simp [h]

@[simp] theorem block_shiftInputs (m : Model α) (i : Int) (b : Block) : (m.shiftInputs i).block b = m.block b := rfl

@[simp] theorem symbols_countAuxiliary (m : Model α) (d : Domain) : (m.countAuxiliary d).symbols = m.symbols := by
  cases d <;> rfl

@[simp] theorem rows_countAuxiliary (m : Model α) (d : Domain) : (m.countAuxiliary d).rows = m.rows := by
  cases d <;> rfl

@[simp] theorem block_countAuxiliary (m : Model α) (d : Domain) (b : Block) :
    (m.countAuxiliary d).block b = m.block b := by
  cases d <;> rfl

@[simp] theorem block_setBlock (m : Model α) (a b : Block) (v : Mat α) :
    (m.setBlock a v).block b = if a = b then v else m.block b := by
  simp [block, setBlock]

theorem countIn_le (m : Model α) (r : Role) (d : Domain) : m.countIn r d ≤ m.count r := by
  refine List.countP_mono_left fun x _ hx => ?_
  simp only [decide_eq_true_eq] at hx ⊢
  exact hx.1

theorem auxiliaryColumn_le (m : Model α) (d : Domain) : m.auxiliaryColumn d ≤ m.count .input := by
  cases d
  · exact countIn_le m .input .real
  · exact Nat.le_refl _

/-- The inputs of a model with the auxiliary input of a symbol in its column. -/
def inputsWith (m : Model α) (s : Symbol) : List Symbol :=
  ((m.ofRole .input).map (·.shifted (m.auxiliaryColumn s.domain))).insertIdx (m.auxiliaryColumn s.domain)
    (s.auxiliaryAt (m.auxiliaryColumn s.domain))

theorem index_inputsWith {m : Model α} (con : m.Consistent) (s : Symbol) :
    (m.inputsWith s).map (·.index) = (List.range (m.count .input + 1)).map fun i : Nat => some (i : Int) := by
  have le := auxiliaryColumn_le m s.domain
  unfold inputsWith
  generalize m.auxiliaryColumn s.domain = k at le
  have moved : ((m.ofRole .input).map (·.shifted k)).map (·.index) =
      ((List.range (m.count .input)).map (movedColumn k)).map fun i : Nat => some (i : Int) := by
    apply List.ext_getElem
    · simp
    · intro i hi hi'
      have hi : i < (m.ofRole .input).length := by simpa using hi
      have role := (mem_ofRole.1 (List.getElem_mem hi)).2
      have index := (con.numbered .input rfl).getElem? (List.getElem?_eq_getElem hi)
      simpa using Symbol.index_shifted k role index
  rw [List.map_insertIdx, moved, ← insertIdx_range le, List.map_insertIdx]
  rfl

/-! ## One more input -/

namespace InputJoined

variable [Zero α] {m m' : Model α} {k : Nat} {s : Symbol} (h : m.InputJoined k s m')
include h

theorem count_input : m'.count .input = m.count .input + 1 := by
  simp [count, h.symbols, List.countP_append, List.countP_map, Function.comp_def, h.role]

theorem count_of_ne {r : Role} (hr : r ≠ .input) : m'.count r = m.count r := by
  simp [count, h.symbols, List.countP_append, List.countP_map, Function.comp_def, h.role, hr.symm]

theorem ineqCount_eq : m'.ineqCount = m.ineqCount := by
  rw [ineqCount, ineqCount, h.others ⟨.ineq, .affine⟩ (by decide)]

theorem rowCount_eq (e : Equation) : m'.rowCount e = m.rowCount e := by
  cases e with
  | update => exact h.count_of_ne (by decide)
  | output => exact h.count_of_ne (by decide)
  | ineq => exact h.ineqCount_eq

theorem shaped (shaped : m.Shaped) : m'.Shaped := by
  intro b
  obtain ⟨e, t⟩ := b
  rw [expectedShape_eq, h.rowCount_eq]
  by_cases input : t = .input
  · subst input
    obtain ⟨le, wider⟩ := Mat.insertColumn?_eq_some.1 (h.input e)
    rw [Mat.shape, ← wider, Mat.height_insertColumn, Mat.width_insertColumn, shaped.height,
      shaped.width e (r := .input) rfl]
    exact congrArg (m.rowCount e, ·) h.count_input.symm
  · have width : m'.columnCount t.role? = m.columnCount t.role? := by
      cases t with
      | state => exact h.count_of_ne (by decide)
      | input => exact absurd rfl input
      | discrete => exact h.count_of_ne (by decide)
      | continuous => exact h.count_of_ne (by decide)
      | affine => rfl
    rw [h.others ⟨e, t⟩ input, shaped, expectedShape_eq, width]

end InputJoined

/-! ## One auxiliary input -/

namespace AuxiliaryAdded

variable [Zero α] {m m' : Model α} {s : Symbol} (h : m.AuxiliaryAdded s m')
include h

theorem joined : m.InputJoined (m.auxiliaryColumn s.domain) (s.auxiliaryAt (m.auxiliaryColumn s.domain)) m' :=
  ⟨rfl, h.symbols, h.input, h.others⟩

theorem count_input : m'.count .input = m.count .input + 1 := h.joined.count_input

theorem count_of_ne {r : Role} (hr : r ≠ .input) : m'.count r = m.count r := h.joined.count_of_ne hr

theorem countIn_input : m'.countIn .input .real = m.countIn .input .real + if s.domain = .real then 1 else 0 := by
  cases hs : s.domain <;>
    simp [countIn, h.symbols, List.countP_append, List.countP_map, Function.comp_def, hs]

theorem countIn_of_ne {r : Role} (hr : r ≠ .input) : m'.countIn r .real = m.countIn r .real := by
  simp [countIn, h.symbols, List.countP_append, List.countP_map, Function.comp_def, hr.symm]

theorem symbols_input : m'.symbols.filter (·.role = .input) =
    (m.symbols.filter (·.role = .input)).map (·.shifted (m.auxiliaryColumn s.domain)) ++
      [s.auxiliaryAt (m.auxiliaryColumn s.domain)] := by
  simp [h.symbols, List.filter_append, List.filter_map, Function.comp_def]

theorem symbols_of_ne {r : Role} (hr : r ≠ .input) :
    m'.symbols.filter (·.role = r) = m.symbols.filter (·.role = r) := by
  have same : ∀ x ∈ m.symbols.filter (·.role = r), x.shifted (m.auxiliaryColumn s.domain) = x := by
    intro x hx
    have role : x.role = r := by simpa using (List.mem_filter.1 hx).2
    exact Symbol.shifted_of_ne _ (by rwa [role])
  simp only [h.symbols, List.filter_append, List.filter_map, Function.comp_def, Symbol.role_shifted]
  rw [List.map_congr_left same]
  simp [hr.symm]

/-- The inputs are those from before, with the auxiliary input in its column. -/
theorem ofRole_input (con : m.Consistent) : m'.ofRole .input = m.inputsWith s := by
  have le : m.auxiliaryColumn s.domain ≤ ((m.ofRole .input).map (·.shifted (m.auxiliaryColumn s.domain))).length := by
    simpa using auxiliaryColumn_le m s.domain
  refine ofRole_eq ?_ (index_inputsWith con s)
  rw [h.symbols_input]
  exact (List.perm_insertIdx _ _ le).trans
    ((((m.ofRole_perm .input).map _).cons _).trans (List.perm_append_singleton _ _).symm)

theorem ofRole_of_ne {r : Role} (hr : r ≠ .input) : m'.ofRole r = m.ofRole r := by
  rw [ofRole, ofRole, h.symbols_of_ne hr]

theorem numbered (con : m.Consistent) {r : Role} (hr : r.hasColumns) : m'.Numbered r := by
  by_cases input : r = .input
  · subst input
    rw [Numbered, h.ofRole_input con, h.count_input]
    exact index_inputsWith con s
  · rw [Numbered, h.ofRole_of_ne input, h.count_of_ne input]
    exact con.numbered r hr

theorem realFirst (con : m.Consistent) {r : Role} (hr : r.hasColumns) : m'.RealFirst r := by
  intro x hx role
  by_cases input : r = .input
  · subst input
    rw [h.countIn_input]
    rw [h.symbols, List.mem_append, List.mem_map, List.mem_singleton] at hx
    rcases hx with ⟨x, hx, rfl⟩ | rfl
    · rw [Symbol.role_shifted] at role
      obtain ⟨i, index, hi, -⟩ := (con.numbered .input hr).exists_index hx role
      have first := con.realFirst .input hr x hx role
      rw [index, Option.getD_some, Int.ofNat_lt] at first
      rw [Symbol.isReal_shifted, Symbol.index_shifted _ role index, Option.getD_some, Int.ofNat_lt, first]
      -- a real column opens after the real inputs, a binary one after all inputs
      cases domain : s.domain with
      | real =>
        by_cases hk : m.countIn .input .real ≤ i
        · simp [auxiliaryColumn, movedColumn, hk, Nat.not_lt.2 hk]
        · simp only [auxiliaryColumn, movedColumn, hk, if_true, if_false]
          omega
      | binary => simp [auxiliaryColumn, movedColumn, Nat.not_le.2 hi]
    · have le := countIn_le m .input .real
      cases domain : s.domain with
      | real =>
        simp only [Symbol.isReal, auxiliaryColumn, Symbol.domain_auxiliaryAt, domain, decide_true,
          Symbol.index_auxiliaryAt, Option.getD_some, if_true, true_iff]
        omega
      | binary => simpa [Symbol.isReal, domain, auxiliaryColumn] using le
  · rw [h.countIn_of_ne input]
    have old : x ∈ m.symbols := (mem_ofRole.1 (h.ofRole_of_ne input ▸ mem_ofRole.2 ⟨hx, role⟩)).1
    exact con.realFirst r hr x old role

theorem block_input (e : Equation) :
    ∃ le, m'.block ⟨e, .input⟩ = (m.block ⟨e, .input⟩).insertColumn (m.auxiliaryColumn s.domain) le := by
  obtain ⟨le, wider⟩ := Mat.insertColumn?_eq_some.1 (h.input e)
  exact ⟨le, wider.symm⟩

theorem ineqCount_eq : m'.ineqCount = m.ineqCount := h.joined.ineqCount_eq

theorem rowCount_eq (e : Equation) : m'.rowCount e = m.rowCount e := h.joined.rowCount_eq e

theorem consistent (con : m.Consistent) : m'.Consistent where
  names := by
    have names : m'.symbols.map (·.name) = m.symbols.map (·.name) ++ [Symbol.auxiliaryName s.name] := by
      simp [h.symbols, Function.comp_def]
    have fresh := h.fresh
    rw [names, List.nodup_append]
    refine ⟨con.names, List.nodup_singleton _, ?_⟩
    simpa [hasSymbol] using fresh
  numbered _ hr := h.numbered con hr
  realFirst _ hr := h.realFirst con hr
  shapes := h.joined.shaped con.shapes
  ineqRows := by rw [h.rows, h.ineqCount_eq, con.ineqRows]
  outputRows := by rw [h.rows, h.count_of_ne (by decide)]; exact con.outputRows

/-! What the equations look like by name -/

theorem symbol?_old (con : m.Consistent) {x : Symbol} (hx : x ∈ m.symbols) :
    m'.symbol? x.name = some (x.shifted (m.auxiliaryColumn s.domain)) := by
  have mem : x.shifted (m.auxiliaryColumn s.domain) ∈ m'.symbols := by
    rw [h.symbols]
    exact List.mem_append_left _ (List.mem_map_of_mem hx)
  simpa using (h.consistent con).symbol?_eq mem

theorem coefficient_old (con : m.Consistent) {x : Symbol} (hx : x ∈ m.symbols) (e : Equation) (i : Nat) :
    m'.coefficient e i x.name = m.coefficient e i x.name := by
  cases term : x.role.term? with
  | none => simp [coefficient, con.symbol?_eq hx, h.symbol?_old con hx, term]
  | some t =>
    obtain ⟨j, index, hj, -⟩ := (con.numbered x.role (hasColumns_of_term? term)).exists_index hx rfl
    rw [con.coefficient_eq hx term index]
    by_cases input : x.role = .input
    · have ht : t = .input := by rw [input] at term; exact (Option.some.inj term).symm
      subst ht
      obtain ⟨le, wider⟩ := h.block_input e
      simp only [coefficient, h.symbol?_old con hx, Option.bind_eq_bind, Option.bind_some, Symbol.role_shifted, term,
        Symbol.index_shifted _ input index, Int.toNat_natCast, wider, Mat.get?_movedColumn]
    · have ht : t ≠ .input := by
        intro same
        subst same
        revert input term
        cases x.role <;> simp [Role.term?]
      simp [coefficient, h.symbol?_old con hx, term, Symbol.shifted_of_ne _ input, index, h.others ⟨e, t⟩ ht]

theorem coefficient_new (con : m.Consistent) (e : Equation) (i : Nat) :
    m'.coefficient e i (Symbol.auxiliaryName s.name) = 0 := by
  have mem : s.auxiliaryAt (m.auxiliaryColumn s.domain) ∈ m'.symbols := by simp [h.symbols]
  obtain ⟨le, wider⟩ := h.block_input e
  rw [← Symbol.name_auxiliaryAt (m.auxiliaryColumn s.domain), (h.consistent con).coefficient_eq mem rfl rfl, wider,
    Mat.get?_insertColumn, if_neg (Nat.lt_irrefl _), if_pos rfl]
  split <;> rfl

/-- Every coefficient keeps its name; those of the new name are zero, as they were without it. -/
theorem coefficient_eq (con : m.Consistent) (e : Equation) (i : Nat) (name : String) :
    m'.coefficient e i name = m.coefficient e i name := by
  cases old : m.hasSymbol name with
  | true =>
    obtain ⟨x, hx, rfl⟩ : ∃ x ∈ m.symbols, x.name = name := by simpa [hasSymbol] using old
    exact h.coefficient_old con hx e i
  | false =>
    rw [coefficient_eq_zero old]
    by_cases new : name = Symbol.auxiliaryName s.name
    · rw [new, h.coefficient_new con]
    · refine coefficient_eq_zero ?_ e i
      have absent : ∀ x ∈ m.symbols, ¬x.name = name := by simpa [hasSymbol] using old
      simp only [hasSymbol, h.symbols, List.any_append, List.any_map, Bool.or_eq_false_iff]
      exact ⟨by simpa [Function.comp_def] using absent, by simp [Ne.symm new]⟩

theorem constant_eq (e : Equation) (i : Nat) : m'.constant e i = m.constant e i := by
  rw [constant, constant, h.others ⟨e, .affine⟩ (by simp)]

end AuxiliaryAdded

end Model

namespace Edit

variable [Zero α] {w w' : Workspace α}

theorem openColumn_eq_ok {b : Block} {k : Nat} {u : Unit} :
    openColumn b k w = .ok u w' ↔
      ∃ a, (w.model.block b).insertColumn? k = some a ∧ { w with model := w.model.setBlock b a } = w' := by
  simp only [openColumn, bind_eq_ok, model_eq_ok, ofOption_eq_ok, setModel_eq_ok, and_assoc, exists_and_left,
    exists_eq_left']

theorem insertInputColumn_eq_ok {index : Int} {u : Unit} (run : insertInputColumn index w = .ok u w') :
    ∃ k : Nat, index = k ∧ w.model.ColumnOpened k w'.model := by
  simp only [insertInputColumn, bind_eq_ok, model_eq_ok, setModel_eq_ok, ite_eq_ok, throw_ne_ok, openColumn_eq_ok,
    and_false, or_false, and_assoc, exists_and_left, exists_eq_left'] at run
  obtain ⟨low, -, -, -, first, ⟨a, ha, rfl⟩, -, second, ⟨b, hb, rfl⟩, c, hc, rfl⟩ := run
  obtain ⟨k, rfl⟩ := Int.eq_ofNat_of_zero_le low
  refine ⟨k, rfl, rfl, rfl, ?_, ?_⟩
  · intro given
    rcases given with _ | _ | _
    · simpa using ha
    · simpa using hb
    · simpa using hc
  · intro d hd
    obtain ⟨e, t⟩ := d
    have : t ≠ .input := hd
    simp [this.symm]

theorem addAuxiliary_eq_ok {source : String} {x : Symbol} (run : addAuxiliary source w = .ok x w') :
    ∃ s ∈ w.model.symbols, s.name = source ∧ w.model.AuxiliaryAdded s w'.model := by
  simp only [addAuxiliary, bind_eq_ok, model_eq_ok, ofExcept_eq_ok, setModel_eq_ok, note_eq_ok, pure_eq_ok,
    Model.addSymbol_eq_ok, and_assoc, exists_and_left, exists_eq_left'] at run
  obtain ⟨s, found, _, v, opened, fresh, -, -, -, rfl⟩ := run
  obtain ⟨hs, rfl⟩ := Model.name_of_lookup found
  obtain ⟨k, hk, wider⟩ := insertInputColumn_eq_ok opened
  obtain rfl := Int.natCast_inj.1 hk
  refine ⟨s, hs, rfl, ?_, ?_, ?_, ?_, ?_⟩
  · rw [Model.hasSymbol, wider.symbols, List.any_map] at fresh
    simpa [Model.hasSymbol, Symbol.auxiliaryInput] using fresh
  · rw [Model.symbols_countAuxiliary, wider.symbols]
    rfl
  · simpa using wider.rows
  · intro e
    rw [wider.input e, Model.block_countAuxiliary]
    rfl
  · intro b hb
    rw [Model.block_countAuxiliary]
    exact wider.others b hb

end Edit
end LoopFree
