/-
  LoopFree.Proofs.ClosedForm — the result of loop removal in one step.

  Removal works arc by arc and opens columns as it goes, so what one arc does depends on
  what earlier ones left. Its result does not: `ClosedForm` gives every entry and every
  descriptor from those of the original model and the list of arcs. In an original row
  the coefficient of a source moves to the auxiliary input when the row needs the source
  and defines the other end of an arc (`MovesIn`); nothing else of the row changes. Each
  arc then has its two pins, and outside the inequality only zero columns open
  (`closedForm_of_removal`).
-/

import LoopFree.Proofs.EvaluationOrder
import LoopFree.Proofs.Widening
import Mathlib.Data.List.Dedup

namespace LoopFree

variable {α : Type}

theorem getElem?_flatMap_pair {β γ : Type} (f g : β → γ) (l : List β) (n : Nat) :
    (l.flatMap fun b => [f b, g b])[2 * n]? = l[n]?.map f ∧
      (l.flatMap fun b => [f b, g b])[2 * n + 1]? = l[n]?.map g := by
  induction l generalizing n with
  | nil => simp
  | cons b l ih =>
    cases n with
    | zero => simp
    | succ n =>
      have even : 2 * (n + 1) = 2 * n + 1 + 1 := rfl
      rw [even]
      simpa using ih n

/-! ## Descriptors -/

/-- Under a name, so that what asks whether an arc is broken carries no proof of its own. -/
instance lawfulBEq_arc : LawfulBEq (String × String) := inferInstance

/-- A dependency of a row that defines `sink` once the arcs are broken. -/
def renamed (arcs : List (String × String)) (sink n : String) : String :=
  if (n, sink) ∈ arcs then Symbol.auxiliaryName n else n

/-- The descriptor with every dependency renamed that an arc leads from to what the row defines. -/
def Row.breakArcs (r : Row) (arcs : List (String × String)) : Row :=
  { r with depends := r.depends.map (renamed arcs r.defines) }

section
variable {arcs : List (String × String)} {a : String × String}

theorem Row.breakArcs_singleton (r : Row) (a : String × String) : r.breakArcs [a] = r.breakArc a := by
  have single (n : String) :
      renamed [a] r.defines n = if n = a.1 ∧ r.defines = a.2 then Symbol.auxiliaryName n else n := by
    simp [renamed, Prod.ext_iff]
  unfold breakArc
  split
  · rename_i on
    refine congrArg (fun d => { r with depends := d }) (List.map_congr_left fun n _ => ?_)
    rw [single]
    by_cases e : n = a.1 <;> simp [e, on]
  · rename_i off
    have same : r.depends.map (renamed [a] r.defines) = r.depends := by
      refine (List.map_congr_left fun n _ => ?_).trans (List.map_id' _)
      rw [single, if_neg fun on => off on.2]
    rw [breakArcs, same]

/-- No auxiliary input is renamed again. -/
theorem renamed_renamed (plain : Inequality.Plain (arcs ++ [a])) (sink n : String) :
    renamed [a] sink (renamed arcs sink n) = renamed (arcs ++ [a]) sink n := by
  unfold renamed
  by_cases listed : (n, sink) ∈ arcs
  · have other : a.1 ≠ Symbol.auxiliaryName n :=
      plain a (List.mem_append_right _ List.mem_cons_self) _ (List.mem_append_left _ listed)
    have once : (Symbol.auxiliaryName n, sink) ∉ [a] := by
      intro again
      exact other (congrArg Prod.fst (List.mem_singleton.1 again)).symm
    rw [if_pos listed, if_neg once, if_pos (List.mem_append_left _ listed)]
  · simp only [listed, if_false, List.mem_append, false_or]

theorem Row.breakArc_breakArcs (plain : Inequality.Plain (arcs ++ [a])) (r : Row) :
    (r.breakArcs arcs).breakArc a = r.breakArcs (arcs ++ [a]) := by
  rw [← breakArcs_singleton]
  simp only [breakArcs, List.map_map]
  exact congrArg (fun d => { r with depends := d }) (List.map_congr_left fun n _ => renamed_renamed plain r.defines n)

/-- The pins of an arc do not need a source. -/
theorem Row.breakArc_pinRow (plain : Inequality.Plain (arcs ++ [a])) {b : String × String} (hb : b ∈ arcs) :
    (Model.pinRow b).breakArc a = Model.pinRow b := by
  have other := plain a (List.mem_append_right _ List.mem_cons_self) b (List.mem_append_left _ hb)
  unfold breakArc
  split
  · exact Model.replaceDependency_of_not_dependsOn (by simpa [Model.pinRow] using other) _
  · rfl

/-- Breaking the arcs one after the other renames every dependency at most once. -/
theorem Model.rewriteRows_eq (plain : Inequality.Plain arcs) (rows : List Row) :
    rewriteRows arcs rows = rows.map (·.breakArcs arcs) ++ arcs.flatMap fun b => [pinRow b, pinRow b] := by
  induction arcs using List.reverseRecOn with
  | nil =>
    have none (r : Row) : r.breakArcs [] = r := by
      have same : renamed [] r.defines = id := funext fun n => if_neg List.not_mem_nil
      rw [Row.breakArcs, same, List.map_id]
    simp [rewriteRows, none]
  | append_singleton arcs a ih =>
    -- the pins of the earlier arcs define the sink too, but need no source
    have pins : (arcs.flatMap fun b => [pinRow b, pinRow b]).map (·.breakArc a) =
        arcs.flatMap fun b => [pinRow b, pinRow b] := by
      rw [List.map_flatMap]
      refine List.flatMap_congr fun b hb => ?_
      simp [Row.breakArc_pinRow plain hb]
    rw [rewriteRows_append, ih plain.of_append, List.map_append, List.map_map, pins, List.flatMap_append,
      List.flatMap_singleton, List.append_assoc]
    refine congrArg (· ++ _) (List.map_congr_left fun r _ => ?_)
    exact Row.breakArc_breakArcs plain r

end

namespace Model

/-! ## Columns -/

/-- The column a variable owns in the blocks of a term. -/
def ColumnOf (m : Model α) (name : String) (t : Term) (j : Nat) : Prop :=
  ∃ s ∈ m.symbols, s.name = name ∧ s.role.term? = some t ∧ s.index = some (j : Int)

/-- The coefficient of the variable in row `i` moves to its auxiliary input. -/
def MovesIn (m : Model α) (arcs : List (String × String)) (i : Nat) (name : String) : Prop :=
  ∃ row, m.rows.ineq[i]? = some row ∧ name ∈ row.depends ∧ (name, row.defines) ∈ arcs

/-- The model `m'` is `m` with the arcs broken. The rows of `m` keep their places; the two
    pins of the arc at position `n` stand in the rows `2 n` and `2 n + 1` after them. -/
structure ClosedForm [Zero α] [One α] [Neg α] (m : Model α) (arcs : List (String × String)) (m' : Model α) : Prop where
  consistent : m'.Consistent
  /-- Only inputs have other columns than before. -/
  kept : ∀ name t j, m.ColumnOf name t j → ∃ k, m'.ColumnOf name t k ∧ (t ≠ .input → k = j)
  added : ∀ a ∈ arcs, ∃ k, m'.ColumnOf (Symbol.auxiliaryName a.1) .input k
  owned : ∀ name t k, m'.ColumnOf name t k →
    (∃ j, m.ColumnOf name t j) ∨ ∃ a ∈ arcs, name = Symbol.auxiliaryName a.1 ∧ t = .input
  sources : ∀ a ∈ arcs, ∃ t j, (t = .discrete ∨ t = .continuous) ∧ m.ColumnOf a.1 t j
  inputs : m'.count .input = m.count .input + (arcs.map (·.1)).dedup.length
  /-- The coefficients of a source and of its auxiliary input in an original row. -/
  moved : ∀ a ∈ arcs, ∀ t j k i, m.ColumnOf a.1 t j → m'.ColumnOf (Symbol.auxiliaryName a.1) .input k →
    i < m.ineqCount → ∃ x, (m.block ⟨.ineq, t⟩).get? i j = some x ∧
      (m.MovesIn arcs i a.1 →
        (m'.block ⟨.ineq, .input⟩).get? i k = some (-x) ∧ (m'.block ⟨.ineq, t⟩).get? i j = some 0) ∧
      (¬m.MovesIn arcs i a.1 →
        (m'.block ⟨.ineq, .input⟩).get? i k = some 0 ∧ (m'.block ⟨.ineq, t⟩).get? i j = some x)
  unmoved : ∀ name t j k i, m.ColumnOf name t j → m'.ColumnOf name t k → i < m.ineqCount → ¬m.MovesIn arcs i name →
    (m'.block ⟨.ineq, t⟩).get? i k = (m.block ⟨.ineq, t⟩).get? i j
  constants : ∀ i, i < m.ineqCount → (m'.block ⟨.ineq, .affine⟩).get? i 0 = (m.block ⟨.ineq, .affine⟩).get? i 0
  rowCount : m'.ineqCount = m.ineqCount + 2 * arcs.length
  /-- A pin has the same entry at the source and at its auxiliary input and zeros elsewhere. -/
  pins : ∀ n a, arcs[n]? = some a → ∀ name t k, m'.ColumnOf name t k →
    (m'.block ⟨.ineq, t⟩).get? (m.ineqCount + 2 * n) k =
      some (if name = a.1 ∨ name = Symbol.auxiliaryName a.1 then 1 else 0) ∧
    (m'.block ⟨.ineq, t⟩).get? (m.ineqCount + (2 * n + 1)) k =
      some (if name = a.1 ∨ name = Symbol.auxiliaryName a.1 then -1 else 0)
  pinConstants : ∀ n, n < arcs.length → (m'.block ⟨.ineq, .affine⟩).get? (m.ineqCount + 2 * n) 0 = some 0 ∧
    (m'.block ⟨.ineq, .affine⟩).get? (m.ineqCount + (2 * n + 1)) 0 = some 0
  ineqRows : m'.rows.ineq = m.rows.ineq.map (·.breakArcs arcs) ++ arcs.flatMap fun a => [pinRow a, pinRow a]
  /-- Of the other two equations only the input blocks differ. -/
  others : ∀ e t, e ≠ .ineq → t ≠ .input → m'.block ⟨e, t⟩ = m.block ⟨e, t⟩
  input : ∀ e, e ≠ .ineq → (m.block ⟨e, .input⟩).GainsZeroColumns (m'.block ⟨e, .input⟩)
  inputEntries : ∀ e name j k i, e ≠ .ineq → m.ColumnOf name .input j → m'.ColumnOf name .input k →
    (m'.block ⟨e, .input⟩).get? i k = (m.block ⟨e, .input⟩).get? i j
  auxiliaryEntries : ∀ e, e ≠ .ineq → ∀ a ∈ arcs, ∀ k i, m'.ColumnOf (Symbol.auxiliaryName a.1) .input k →
    i < m.rowCount e → (m'.block ⟨e, .input⟩).get? i k = some 0
  outputRows : m'.rows.output = m.rows.output
  updateRows : m'.rows.update = m.rows.update

section
variable {m : Model α} {name : String} {t : Term} {e : Equation} {i j : Nat}

/-- The entry in the column of a variable is its coefficient. -/
theorem ColumnOf.get?_eq [Zero α] (column : m.ColumnOf name t j) (con : m.Consistent) (hi : i < m.rowCount e) :
    (m.block ⟨e, t⟩).get? i j = some (m.coefficient e i name) := by
  obtain ⟨s, hs, rfl, ht, hj⟩ := column
  exact con.get?_eq hs ht hj hi

theorem Consistent.get?_affine [Zero α] (con : m.Consistent) (hi : i < m.rowCount e) :
    (m.block ⟨e, .affine⟩).get? i 0 = some (m.constant e i) := by
  have inside : ((m.block ⟨e, .affine⟩).get? i 0).isSome := by
    rw [Mat.get?_isSome_iff, con.height, con.affine_width]
    exact ⟨hi, Nat.one_pos⟩
  obtain ⟨x, hx⟩ := Option.isSome_iff_exists.1 inside
  rw [constant, hx, Option.getD_some]

theorem Consistent.exists_columnOf (con : m.Consistent) {s : Symbol} (hs : s ∈ m.symbols)
    (ht : s.role.term? = some t) : ∃ j, m.ColumnOf s.name t j := by
  obtain ⟨j, hj, -⟩ := (con.numbered s.role (hasColumns_of_term? ht)).exists_index hs rfl
  exact ⟨j, s, hs, rfl, ht, hj⟩

theorem ColumnOf.hasSymbol (column : m.ColumnOf name t j) : m.hasSymbol name := by
  obtain ⟨s, hs, rfl, -, -⟩ := column
  exact hasSymbol_iff_exists.2 ⟨s, hs, rfl⟩

end

/-! ## A whole run -/

namespace Removal

variable [Zero α] [One α] [Neg α] {m v m' : Model α} {c : VariableCut} {sources : List Symbol} {resolver : Resolver}
  {name : String} {t : Term} {i j k n : Nat} {a : String × String} (h : m.Removal c sources v m')
include h

theorem columnOf_kept (con' : m'.Consistent) (column : m.ColumnOf name t j) :
    ∃ k, m'.ColumnOf name t k ∧ (t ≠ .input → k = j) := by
  obtain ⟨s, hs, rfl, ht, hj⟩ := column
  obtain ⟨s', hs', name, role, -⟩ := h.exists_of_mem hs
  rw [← h.symbols] at hs'
  obtain ⟨k, hk⟩ := con'.exists_columnOf hs' (t := t) (by rw [role, ht])
  rw [name] at hk
  refine ⟨k, hk, fun ne => ?_⟩
  have ne' : s.role ≠ .input := by
    intro input
    rw [input] at ht
    exact ne (Option.some.inj ht).symm
  obtain ⟨y, hy, sameName, sameIndex⟩ : ∃ y ∈ v.ofRole s.role, y.name = s.name ∧ y.index = s.index := by
    rw [h.extended.others s.role ne']
    exact ⟨_, mem_ofRole.2 ⟨List.mem_map_of_mem hs, rfl⟩, rfl, rfl⟩
  have still : y ∈ m'.symbols := h.symbols ▸ (mem_ofRole.1 hy).1
  obtain ⟨x, hx, e, -, hxk⟩ := hk
  rw [con'.eq_of_name_eq hx still (e.trans sameName.symm), sameIndex, hj, Option.some.injEq, Int.natCast_inj] at hxk
  exact hxk.symm

theorem columnOf_owned (con : m.Consistent) (column : m'.ColumnOf name t k) :
    (∃ j, m.ColumnOf name t j) ∨ ∃ a ∈ c.arcs, name = Symbol.auxiliaryName a.1 ∧ t = .input := by
  obtain ⟨s', hs', rfl, ht, -⟩ := column
  rw [h.symbols] at hs'
  rcases h.extended.of_mem hs' with ⟨x, hx, e⟩ | ⟨x, hx, e⟩
  · obtain ⟨s, hs, rfl⟩ := List.mem_map.1 hx
    have role : s'.role = s.role := (Symbol.role_eq_of_unplaced e).trans rfl
    have name : s'.name = s.name := (Symbol.name_eq_of_unplaced e).trans rfl
    rw [name]
    exact Or.inl (con.exists_columnOf hs (role ▸ ht))
  · obtain ⟨listed, -⟩ := (h.missing x.name).1 (List.mem_map_of_mem hx)
    obtain ⟨a, ha, source⟩ := List.mem_map.1 listed
    have role : s'.role = .input := congrArg Symbol.role e
    rw [role] at ht
    exact Or.inr ⟨a, ha, source ▸ congrArg Symbol.name e, (Option.some.inj ht).symm⟩

theorem columnOf_source (con : m.Consistent) (chosen : m.chosenCut resolver = .ok c) (ha : a ∈ c.arcs) :
    ∃ t j, (t = .discrete ∨ t = .continuous) ∧ m.ColumnOf a.1 t j := by
  obtain ⟨s, hs, name, breakable⟩ := h.exists_source chosen ha
  obtain ⟨t, ht⟩ := Role.exists_term?_of_breakable breakable
  obtain ⟨j, column⟩ := con.exists_columnOf hs ht
  refine ⟨t, j, ?_, name ▸ column⟩
  cases role : s.role <;> simp_all [Role.breakable, Role.term?]

/-- A source is no input, so it keeps its column. -/
theorem columnOf_source_kept (con : m.Consistent) (con' : m'.Consistent) (chosen : m.chosenCut resolver = .ok c)
    (ha : a ∈ c.arcs) (column : m.ColumnOf a.1 t j) : m'.ColumnOf a.1 t j := by
  obtain ⟨k, column', same⟩ := h.columnOf_kept con' column
  obtain ⟨s, hs, name, breakable⟩ := h.exists_source chosen ha
  obtain ⟨x, hx, name', ht, -⟩ := column
  rw [← con.eq_of_name_eq hx hs (name'.trans name.symm)] at breakable
  have ne : t ≠ .input := by
    intro input
    subst input
    cases role : x.role <;> simp_all [Role.breakable, Role.term?]
  exact same ne ▸ column'

/-- One fresh auxiliary input for each source. -/
theorem count_input (con' : m'.Consistent) (unused : ∀ a ∈ c.arcs, m.hasSymbol (Symbol.auxiliaryName a.1) = false) :
    m'.count .input = m.count .input + (c.arcs.map (·.1)).dedup.length := by
  have inputs : m'.count .input = m.count .input + sources.length := by
    have perm := h.extended.columnNames_input_perm.length_eq
    rw [List.length_append, List.length_map, length_columnNames, length_columnNames, count_ranked] at perm
    rw [count, h.symbols]
    exact perm
  have nodup : (sources.map (·.name)).Nodup := by
    have names := con'.nodup_columnNames .input
    have same : m'.columnNames .input = v.columnNames .input := by
      rw [columnNames, columnNames, ofRole, ofRole, h.symbols]
    rw [same, h.extended.columnNames_input_perm.nodup_iff, List.nodup_append] at names
    have auxiliaries : ((sources.map (·.name)).map Symbol.auxiliaryName).Nodup := by
      rw [List.map_map]
      exact names.2.1
    exact auxiliaries.of_map _
  -- no source is added twice, so there are as many as distinct names
  have listed : (sources.map (·.name)).Perm (c.arcs.map (·.1)).dedup := by
    refine (List.perm_ext_iff_of_nodup nodup (List.nodup_dedup _)).2 fun name => ?_
    rw [h.missing, List.mem_dedup]
    constructor
    · exact And.left
    · intro source
      obtain ⟨a, ha, rfl⟩ := List.mem_map.1 source
      exact ⟨source, unused a ha⟩
  rw [inputs, ← listed.length_eq, List.length_map]

end Removal

/-- A pin has one coefficient for the source and its auxiliary input. -/
theorem coefficient_pin [Zero α] (a : String × String) (x : α) (name : String) :
    (Inequality.pin a x).coefficient name = if name = a.1 ∨ name = Symbol.auxiliaryName a.1 then x else 0 := by
  by_cases source : name = a.1
  · simp [Inequality.pin, source]
  · by_cases auxiliary : name = Symbol.auxiliaryName a.1 <;>
      simp [Inequality.pin, Function.update_apply, source, auxiliary]

theorem coefficient_of_getElem? [Zero α] {m : Model α} {i : Nat} {d : Inequality α}
    (row : m.inequalities[i]? = some d) :
    m.coefficient .ineq i = d.coefficient ∧ m.constant .ineq i = d.constant := by
  rw [getElem?_inequalities] at row
  obtain ⟨r, -, rfl⟩ := Option.map_eq_some_iff.1 row
  exact ⟨rfl, rfl⟩

namespace Removal

variable [Zero α] [One α] [Neg α] {m v m' : Model α} {c : VariableCut} {sources : List Symbol} {resolver : Resolver}
  {name : String} {t : Term} {i j k n : Nat} {a : String × String} (h : m.Removal c sources v m')
  (ready : ∀ a ∈ c.arcs, v.HasAuxiliary a.1) (con : m.Consistent)
include h ready con

theorem ineqCount_eq : m'.ineqCount = m.ineqCount + 2 * c.arcs.length := by
  have con' := (h.broken ready).consistent
  have pins : (c.arcs.flatMap (Inequality.pins (α := α))).length = 2 * c.arcs.length := by
    simp [Inequality.pins, List.length_flatMap, Nat.mul_comm]
  rw [← con'.ineqRows, ← length_inequalities, h.inequalities_eq ready, List.length_append, List.length_map,
    length_inequalities, con.ineqRows, pins]

theorem inequality_pin (ha : c.arcs[n]? = some a) :
    m'.inequalities[m.ineqCount + 2 * n]? = some (.pin a 1) ∧
      m'.inequalities[m.ineqCount + (2 * n + 1)]? = some (.pin a (-1)) := by
  have length : (m.inequalities.map (·.breakArcs c.arcs)).length = m.ineqCount := by
    rw [List.length_map, length_inequalities, con.ineqRows]
  have place (p : Nat) : m'.inequalities[m.ineqCount + p]? = (c.arcs.flatMap Inequality.pins)[p]? := by
    rw [h.inequalities_eq ready, List.getElem?_append_right (by omega), length, Nat.add_sub_cancel_left]
  obtain ⟨first, second⟩ := getElem?_flatMap_pair (fun b => Inequality.pin (α := α) b 1) (.pin · (-1)) c.arcs n
  rw [place, place]
  exact ⟨first.trans (by rw [ha]; rfl), second.trans (by rw [ha]; rfl)⟩

/-- Every original row has its arcs broken, and its descriptor says which coefficients move. -/
theorem exists_inequality (hi : i < m.ineqCount) : ∃ d : Inequality α,
    d.coefficient = m.coefficient .ineq i ∧ d.constant = m.constant .ineq i ∧
      m'.inequalities[i]? = some (d.breakArcs c.arcs) ∧ ∀ name, name ∈ d.moved c.arcs ↔ m.MovesIn c.arcs i name := by
  have inside : i < m.rows.ineq.length := by rwa [con.ineqRows]
  have hrow := List.getElem?_eq_getElem inside
  refine ⟨m.inequality m.rows.ineq[i] i, rfl, rfl, ?_, fun name => ?_⟩
  · rw [h.inequalities_eq ready, List.getElem?_append_left (by simpa using inside), List.getElem?_map,
      getElem?_inequalities, hrow]
    rfl
  · rw [Inequality.mem_moved, MovesIn, hrow]
    simp [inequality]

/-- What becomes of the coefficient of a variable. -/
theorem coefficient_result (hi : i < m.ineqCount) (old : m.hasSymbol name)
    (unused : ∀ a ∈ c.arcs, m.hasSymbol (Symbol.auxiliaryName a.1) = false) :
    (m.MovesIn c.arcs i name → m'.coefficient .ineq i name = 0) ∧
      (¬m.MovesIn c.arcs i name → m'.coefficient .ineq i name = m.coefficient .ineq i name) := by
  obtain ⟨d, hd, -, place, moves⟩ := h.exists_inequality ready con hi
  have broken := h.broken_breakArcs ready d
  rw [(coefficient_of_getElem? place).1, ← hd, ← moves]
  refine ⟨broken.source name, fun stays => broken.kept name stays fun s hs e => ?_⟩
  rw [e, unused _ (Inequality.mem_moved.1 hs).2] at old
  cases old

/-- What the auxiliary input of a source gets. -/
theorem coefficient_auxiliary (hi : i < m.ineqCount) (ha : a ∈ c.arcs)
    (unused : ∀ a ∈ c.arcs, m.hasSymbol (Symbol.auxiliaryName a.1) = false) :
    (m.MovesIn c.arcs i a.1 → m'.coefficient .ineq i (Symbol.auxiliaryName a.1) = -m.coefficient .ineq i a.1) ∧
      (¬m.MovesIn c.arcs i a.1 → m'.coefficient .ineq i (Symbol.auxiliaryName a.1) = 0) := by
  obtain ⟨d, hd, -, place, moves⟩ := h.exists_inequality ready con hi
  have broken := h.broken_breakArcs ready d
  have plain := Inequality.plain_of_hasAuxiliary h.extended.consistent ready
  rw [(coefficient_of_getElem? place).1, ← hd, ← moves]
  refine ⟨broken.auxiliary a.1, fun stays => ?_⟩
  rw [broken.kept, hd, coefficient_eq_zero (unused a ha)]
  · exact fun moved => plain _ (Inequality.mem_moved.1 moved).2 a ha rfl
  · exact fun s hs e => stays (Symbol.auxiliaryName_inj e ▸ hs)

theorem constant_result (hi : i < m.ineqCount) : m'.constant .ineq i = m.constant .ineq i := by
  obtain ⟨d, -, hd, place, -⟩ := h.exists_inequality ready con hi
  rw [(coefficient_of_getElem? place).2, (h.broken_breakArcs ready d).constant, hd]

omit con in
/-- Outside the inequality every coefficient keeps its name. -/
theorem coefficient_other {e : Equation} (he : e ≠ .ineq) (i : Nat) (name : String) :
    m'.coefficient e i name = m.coefficient e i name := by
  rw [(h.broken ready).frame.coefficient_eq he, h.extended.coefficient, coefficient_ranked]

end Removal

/-- The result of a run whose auxiliary inputs are all new, for every resolver and list of arcs. -/
theorem closedForm_of_removal [Zero α] [One α] [Neg α] {w w' : Workspace α} {resolver : Resolver} {validate : Bool}
    {c : VariableCut} (valid : (w.model.validate {}).isValid) (loop : w.model.hasLoop)
    (chosen : w.model.chosenCut resolver = .ok c)
    (unused : ∀ a ∈ c.arcs, w.model.hasSymbol (Symbol.auxiliaryName a.1) = false)
    (run : Edit.removeLoops resolver validate w = .ok () w') : w.model.ClosedForm c.arcs w'.model := by
  have con := isValid_iff_consistent.1 valid
  obtain ⟨c', sources, v, chosen', h⟩ := Edit.removeLoops_eq_ok con loop run
  obtain rfl : c = c' := Except.ok.inj (chosen.symm.trans chosen')
  obtain ⟨c', x, chosen', widened, -, rewritten⟩ := Edit.removeLoops_frames loop run
  obtain rfl : c = c' := Except.ok.inj (chosen.symm.trans chosen')
  have ready := h.hasAuxiliary_of_fresh chosen unused
  have con' := (h.broken ready).consistent
  have plain := Inequality.plain_of_hasAuxiliary h.extended.consistent ready
  have rows := h.ineqCount_eq ready con
  have rowCount {e : Equation} (he : e ≠ .ineq) : w'.model.rowCount e = w.model.rowCount e := h.count_eq ready he
  have original {i : Nat} (hi : i < w.model.ineqCount) : i < w'.model.rowCount .ineq := by
    show i < w'.model.ineqCount
    omega
  have added {i : Nat} (hi : i < 2 * c.arcs.length) : w.model.ineqCount + i < w'.model.rowCount .ineq := by
    show _ < w'.model.ineqCount
    omega
  constructor
  case consistent => exact con'
  case kept => exact fun name t j column => h.columnOf_kept con' column
  case added =>
    intro a ha
    obtain ⟨s, hs, name, role⟩ := h.auxiliary_of_fresh ha (unused a ha)
    rw [← name]
    exact con'.exists_columnOf hs (by rw [role]; rfl)
  case owned => exact fun name t k column => h.columnOf_owned con column
  case sources => exact fun a ha => h.columnOf_source con chosen ha
  case inputs => exact h.count_input con' unused
  case moved =>
    intro a ha t j k i source auxiliary hi
    have source' := h.columnOf_source_kept con con' chosen ha source
    obtain ⟨gone, stays⟩ := h.coefficient_result ready con hi source.hasSymbol unused
    obtain ⟨gained, free⟩ := h.coefficient_auxiliary ready con hi ha unused
    refine ⟨_, source.get?_eq (e := .ineq) con hi, fun moves => ?_, fun remains => ?_⟩
    · rw [auxiliary.get?_eq con' (original hi), source'.get?_eq con' (original hi), gone moves, gained moves]
      exact ⟨rfl, rfl⟩
    · rw [auxiliary.get?_eq con' (original hi), source'.get?_eq con' (original hi), stays remains, free remains]
      exact ⟨rfl, rfl⟩
  case unmoved =>
    intro name t j k i column column' hi stays
    rw [column'.get?_eq con' (original hi), column.get?_eq (e := .ineq) con hi,
      (h.coefficient_result ready con hi column.hasSymbol unused).2 stays]
  case constants =>
    intro i hi
    rw [con'.get?_affine (original hi), con.get?_affine (e := .ineq) hi, h.constant_result ready con hi]
  case rowCount => exact rows
  case pins =>
    intro n a ha name t k column
    have inside : n < c.arcs.length := (List.getElem?_eq_some_iff.1 ha).1
    obtain ⟨first, second⟩ := h.inequality_pin ready con ha
    rw [column.get?_eq con' (added (by omega)), column.get?_eq con' (added (by omega)),
      (coefficient_of_getElem? first).1, (coefficient_of_getElem? second).1, coefficient_pin, coefficient_pin]
    exact ⟨rfl, rfl⟩
  case pinConstants =>
    intro n inside
    obtain ⟨first, second⟩ := h.inequality_pin ready con (List.getElem?_eq_getElem inside)
    rw [con'.get?_affine (added (by omega)), con'.get?_affine (added (by omega)),
      (coefficient_of_getElem? first).2, (coefficient_of_getElem? second).2]
    exact ⟨rfl, rfl⟩
  case ineqRows => rw [rewritten.ineqRows, rewriteRows_eq plain, widened.rows]; rfl
  case others =>
    intro e t he ht
    rw [rewritten.others ⟨e, t⟩ he, widened.others ⟨e, t⟩ ht]
    rfl
  case input =>
    intro e he
    rw [rewritten.others ⟨e, .input⟩ he]
    exact widened.input e
  case inputEntries =>
    intro e name j k i he column column'
    by_cases hi : i < w.model.rowCount e
    · rw [column'.get?_eq con' (by rwa [rowCount he]), column.get?_eq con hi, h.coefficient_other ready he]
    · rw [Mat.get?_of_height_le, Mat.get?_of_height_le]
      · rw [con.height]
        omega
      · rw [con'.height, rowCount he]
        omega
  case auxiliaryEntries =>
    intro e he a ha k i column hi
    rw [column.get?_eq con' (by rwa [rowCount he]), h.coefficient_other ready he, coefficient_eq_zero (unused a ha)]
  case outputRows => rw [rewritten.outputRows, widened.rows]; rfl
  case updateRows => rw [rewritten.updateRows, widened.rows]; rfl

/-- The variable `b` has three arcs, two of them equal and one to itself, and one auxiliary input. -/
theorem closedForm_of_removal_coupled : ∃ c w', (coupled "u" 1).chosenCut breakTwice = .ok c ∧
    c.arcs = [("b", "a"), ("b", "b"), ("b", "a")] ∧
    Edit.removeLoops breakTwice true ⟨coupled "u" 1, [], []⟩ = .ok () w' ∧
    (coupled "u" 1).ClosedForm c.arcs w'.model := by
  obtain ⟨c, w', chosen, arcs, unused, run⟩ := exists_run_coupled
  exact ⟨c, w', chosen, arcs, run,
    closedForm_of_removal (w := ⟨coupled "u" 1, [], []⟩) valid_coupled (by decide) chosen unused run⟩

end Model
end LoopFree
