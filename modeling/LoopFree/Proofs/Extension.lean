/-
  LoopFree.Proofs.Extension — a model with more auxiliary inputs.

  `Extended m sources m'` is what the loop over the sources leaves: the symbols of `m`,
  apart from the column an input owns, followed by the auxiliary inputs of `sources`, and
  the equations of `m` by name. One auxiliary input extends a model (`Extended.add`); the
  loop adds exactly those that are missing (`ensureAuxiliary_eq_ok`). At a point given by
  name the extended model computes what `m` does (`Extended.rowValue_eq`,
  `Extended.excess_eq`).
-/

import LoopFree.Proofs.Auxiliary
import Mathlib.Algebra.BigOperators.Group.List.Basic
import Mathlib.Algebra.Ring.Defs

namespace LoopFree

variable {α : Type}

/-- The symbol without its column. -/
def Symbol.unplaced (s : Symbol) : Symbol := { s with index := none }

theorem Symbol.unplaced_shifted (k : Nat) (s : Symbol) : (s.shifted k).unplaced = s.unplaced := by
  unfold shifted
  split <;> rfl

theorem Symbol.map_unplaced_shifted (k : Nat) (l : List Symbol) :
    (l.map (·.shifted k)).map (·.unplaced) = l.map (·.unplaced) := by
  rw [List.map_map]
  exact List.map_congr_left fun s _ => s.unplaced_shifted k

theorem Symbol.name_eq_of_unplaced {s t : Symbol} (e : s.unplaced = t.unplaced) : s.name = t.name := by
  show s.unplaced.name = t.unplaced.name
  rw [e]

theorem Symbol.role_eq_of_unplaced {s t : Symbol} (e : s.unplaced = t.unplaced) : s.role = t.role := by
  show s.unplaced.role = t.unplaced.role
  rw [e]

theorem Symbol.auxiliaryName_inj {a b : String} (e : auxiliaryName a = auxiliaryName b) : a = b := by
  have := congrArg String.toList e
  simp only [auxiliaryName, String.toList_append, List.append_cancel_right_eq] at this
  exact String.toList_injective this

theorem Symbol.auxiliaryName_ne (a : String) : auxiliaryName a ≠ a := by
  intro e
  have := congrArg String.length e
  simp [auxiliaryName] at this

namespace Model

structure Extended [Zero α] (m : Model α) (sources : List Symbol) (m' : Model α) : Prop where
  consistent : m'.Consistent
  symbols : m'.symbols.map (·.unplaced) = m.symbols.map (·.unplaced) ++ sources.map (·.auxiliaryInput)
  others : ∀ r, r ≠ .input → m'.ofRole r = m.ofRole r
  rows : m'.rows = m.rows
  rowCount : ∀ e, m'.rowCount e = m.rowCount e
  coefficient : ∀ e i name, m'.coefficient e i name = m.coefficient e i name
  constant : ∀ e i, m'.constant e i = m.constant e i

namespace Extended

section
variable [Zero α] {m v m' : Model α} {sources : List Symbol}

theorem refl (con : m.Consistent) : m.Extended [] m :=
  ⟨con, by simp, fun _ _ => rfl, rfl, fun _ => rfl, fun _ _ _ => rfl, fun _ _ => rfl⟩

/-- One more auxiliary input. -/
theorem add (h : m.Extended sources v) {s : Symbol} (added : v.AuxiliaryAdded s m') :
    m.Extended (sources ++ [s]) m' where
  consistent := added.consistent h.consistent
  symbols := by
    rw [added.symbols, List.map_append, Symbol.map_unplaced_shifted, h.symbols, List.append_assoc, List.map_append]
    rfl
  others r hr := (added.ofRole_of_ne hr).trans (h.others r hr)
  rows := added.rows.trans h.rows
  rowCount e := (added.rowCount_eq e).trans (h.rowCount e)
  coefficient e i name := (added.coefficient_eq h.consistent e i name).trans (h.coefficient e i name)
  constant e i := (added.constant_eq e i).trans (h.constant e i)

variable (h : m.Extended sources m')
include h

theorem exists_of_mem {s : Symbol} (hs : s ∈ m.symbols) : ∃ s' ∈ m'.symbols, s'.unplaced = s.unplaced := by
  have mem : s.unplaced ∈ m'.symbols.map (·.unplaced) := by
    rw [h.symbols]
    exact List.mem_append_left _ (List.mem_map_of_mem hs)
  obtain ⟨s', hs', e⟩ := List.mem_map.1 mem
  exact ⟨s', hs', e⟩

theorem exists_of_mem_sources {s : Symbol} (hs : s ∈ sources) :
    ∃ s' ∈ m'.symbols, s'.unplaced = s.auxiliaryInput := by
  have mem : s.auxiliaryInput ∈ m'.symbols.map (·.unplaced) := by
    rw [h.symbols]
    exact List.mem_append_right _ (List.mem_map_of_mem hs)
  obtain ⟨s', hs', e⟩ := List.mem_map.1 mem
  exact ⟨s', hs', e⟩

/-- A symbol is an old one or a new auxiliary input. -/
theorem of_mem {s' : Symbol} (hs' : s' ∈ m'.symbols) :
    (∃ s ∈ m.symbols, s'.unplaced = s.unplaced) ∨ ∃ s ∈ sources, s'.unplaced = s.auxiliaryInput := by
  have mem : s'.unplaced ∈ m.symbols.map (·.unplaced) ++ sources.map (·.auxiliaryInput) := by
    rw [← h.symbols]
    exact List.mem_map_of_mem hs'
  rcases List.mem_append.1 mem with old | new
  · obtain ⟨s, hs, e⟩ := List.mem_map.1 old
    exact Or.inl ⟨s, hs, e.symm⟩
  · obtain ⟨s, hs, e⟩ := List.mem_map.1 new
    exact Or.inr ⟨s, hs, e.symm⟩

theorem hasSymbol_iff (name : String) :
    m'.hasSymbol name ↔ m.hasSymbol name ∨ ∃ s ∈ sources, Symbol.auxiliaryName s.name = name := by
  simp only [hasSymbol_iff_exists]
  constructor
  · intro given
    obtain ⟨s', hs', rfl⟩ := given
    rcases h.of_mem hs' with ⟨s, hs, e⟩ | ⟨s, hs, e⟩
    · exact Or.inl ⟨s, hs, (Symbol.name_eq_of_unplaced e).symm⟩
    · exact Or.inr ⟨s, hs, (congrArg Symbol.name e).symm⟩
  · intro given
    rcases given with ⟨s, hs, rfl⟩ | ⟨s, hs, rfl⟩
    · obtain ⟨s', hs', e⟩ := h.exists_of_mem hs
      exact ⟨s', hs', Symbol.name_eq_of_unplaced e⟩
    · obtain ⟨s', hs', e⟩ := h.exists_of_mem_sources hs
      exact ⟨s', hs', congrArg Symbol.name e⟩

theorem fresh {s : Symbol} (hs : s ∈ sources) : m.hasSymbol (Symbol.auxiliaryName s.name) = false := by
  have names : m'.symbols.map (·.name) =
      m.symbols.map (·.name) ++ sources.map fun s => Symbol.auxiliaryName s.name := by
    have := congrArg (List.map Symbol.name) h.symbols
    rwa [List.map_append, List.map_map, List.map_map, List.map_map] at this
  have nodup := h.consistent.names
  rw [names, List.nodup_append] at nodup
  rw [Bool.eq_false_iff]
  intro old
  obtain ⟨x, hx, e⟩ := hasSymbol_iff_exists.1 old
  exact nodup.2.2 _ (List.mem_map_of_mem hx) _ (List.mem_map_of_mem hs) e

theorem inequalities_eq : m'.inequalities = m.inequalities := by
  have same (row : Row) (i : Nat) : m'.inequality row i = m.inequality row i := by
    have coefficient : m'.coefficient .ineq i = m.coefficient .ineq i := funext (h.coefficient .ineq i)
    simp only [inequality, coefficient, h.constant]
  simp only [inequalities, h.rows, same]

theorem columnNames_of_ne {r : Role} (hr : r ≠ .input) : m'.columnNames r = m.columnNames r := by
  rw [columnNames, columnNames, h.others r hr]

theorem columnNames_input_perm : (m'.columnNames .input).Perm
    (m.columnNames .input ++ sources.map fun s => Symbol.auxiliaryName s.name) := by
  have plain (n : Model α) : (n.columnNames .input).Perm
      (((n.symbols.map (·.unplaced)).filter (·.role = .input)).map (·.name)) := by
    rw [List.filter_map, List.map_map]
    exact (n.ofRole_perm .input).map _
  refine (plain m').trans ?_
  rw [h.symbols, List.filter_append, List.map_append]
  refine (plain m).symm.append ?_
  rw [List.filter_eq_self.2 (by simp [Symbol.auxiliaryInput]), List.map_map]
  exact .refl _

end

/-! ## At a point given by names -/

section
variable [CommRing α] {m m' : Model α} {sources : List Symbol} (h : m.Extended sources m')
include h

/-- New inputs with zero coefficients contribute nothing. -/
theorem share_eq (v : String → α) (r : Role) {f : String → α}
    (new : ∀ s ∈ sources, f (Symbol.auxiliaryName s.name) = 0) : m'.share v r f = m.share v r f := by
  by_cases hr : r = .input
  · subst hr
    have perm := h.columnNames_input_perm.map fun n => f n * v n
    rw [share, share, perm.sum_eq, List.map_append, List.sum_append, List.map_map]
    have zero : (sources.map ((fun n => f n * v n) ∘ fun s => Symbol.auxiliaryName s.name)).sum = 0 := by
      refine List.sum_eq_zero fun x hx => ?_
      obtain ⟨s, hs, rfl⟩ := List.mem_map.1 hx
      simp [new s hs]
    rw [zero, add_zero]
  · rw [share, share, h.columnNames_of_ne hr]

theorem share_coefficient_eq (v : String → α) (r : Role) (e : Equation) (i : Nat) :
    m'.share v r (m'.coefficient e i) = m.share v r (m.coefficient e i) := by
  have same : m'.coefficient e i = m.coefficient e i := funext (h.coefficient e i)
  rw [same]
  exact h.share_eq v r fun s hs => coefficient_eq_zero (h.fresh hs) e i

theorem rowValue_eq (v : String → α) (e : Equation) (i : Nat) : m'.rowValue e v i = m.rowValue e v i := by
  simp only [rowValue, h.share_coefficient_eq, h.constant]

theorem excess_eq (v : String → α) {c : Inequality α} (hc : c ∈ m.inequalities) : c.excess m' v = c.excess m v := by
  obtain ⟨⟨row, i⟩, -, rfl⟩ := List.mem_map.1 hc
  have same (r : Role) := h.share_eq v r fun s hs => coefficient_eq_zero (h.fresh hs) .ineq i
  simp only [Inequality.excess, inequality, same]

end

end Extended
end Model

/-! ## The loop over the sources -/

namespace Edit

variable [Zero α] {w w' : Workspace α}

theorem ensureAuxiliary_eq_ok {name : String} {u : Unit} (run : ensureAuxiliary name w = .ok u w') :
    (w.model.hasSymbol (Symbol.auxiliaryName name) ∧ w' = w) ∨
      ∃ s ∈ w.model.symbols, s.name = name ∧ w.model.AuxiliaryAdded s w'.model := by
  obtain ⟨m, v, read, run⟩ := bind_eq_ok.1 run
  obtain ⟨rfl, rfl⟩ := model_eq_ok.1 read
  cases found : w.model.find (Symbol.auxiliaryName name) with
  | nil =>
    simp only [found] at run
    obtain ⟨x, run⟩ := discard_eq_ok.1 run
    exact Or.inr (addAuxiliary_eq_ok run)
  | cons s others =>
    have mem : s ∈ w.model.find (Symbol.auxiliaryName name) := by simp [found]
    simp only [Model.find, List.mem_filter, decide_eq_true_eq] at mem
    cases others with
    | nil =>
      simp only [found] at run
      obtain ⟨-, rfl⟩ := pure_eq_ok.1 run
      exact Or.inl ⟨Model.hasSymbol_iff_exists.2 ⟨s, mem⟩, rfl⟩
    | cons t others =>
      simp only [found] at run
      exact (throw_ne_ok run).elim

theorem ensureAuxiliary_consistent {name : String} {u : Unit} (con : w.model.Consistent)
    (run : ensureAuxiliary name w = .ok u w') : w'.model.Consistent := by
  rcases ensureAuxiliary_eq_ok run with ⟨-, rfl⟩ | ⟨s, -, -, added⟩
  · exact con
  · exact added.consistent con

/-- The loop adds the auxiliary inputs that are missing and no others. -/
theorem forM_ensureAuxiliary_eq_ok {β : Type} {f : β → String} {l : List β} {u : PUnit} (con : w.model.Consistent)
    (run : (l.forM fun b => ensureAuxiliary (f b)) w = .ok u w') :
    ∃ sources, w.model.Extended sources w'.model ∧
      ∀ name, name ∈ sources.map (·.name) ↔
        name ∈ l.map f ∧ w.model.hasSymbol (Symbol.auxiliaryName name) = false := by
  refine forM_induct (fun past v => ∃ sources, w.model.Extended sources v.model ∧
      ∀ name, name ∈ sources.map (·.name) ↔
        name ∈ past.map f ∧ w.model.hasSymbol (Symbol.auxiliaryName name) = false)
    ⟨[], .refl con, by simp⟩ ?_ run
  intro past b v v' _ given step
  obtain ⟨sources, extended, added⟩ := given
  rcases ensureAuxiliary_eq_ok step with ⟨known, rfl⟩ | ⟨s, hs, e, new⟩
  · refine ⟨sources, extended, fun name => ?_⟩
    simp only [List.map_append, List.map_singleton, List.mem_append, List.mem_singleton]
    constructor
    · intro mem
      obtain ⟨listed, absent⟩ := (added name).1 mem
      exact ⟨Or.inl listed, absent⟩
    · intro given
      rcases given with ⟨listed | rfl, absent⟩
      · exact (added name).2 ⟨listed, absent⟩
      · rcases (extended.hasSymbol_iff _).1 known with old | ⟨t, ht, e⟩
        · rw [absent] at old
          cases old
        · rw [← Symbol.auxiliaryName_inj e]
          exact List.mem_map_of_mem ht
  · refine ⟨sources ++ [s], extended.add new, fun name => ?_⟩
    have absent : w.model.hasSymbol (Symbol.auxiliaryName s.name) = false := by
      have fresh := new.fresh
      rw [Bool.eq_false_iff] at fresh ⊢
      exact fun old => fresh ((extended.hasSymbol_iff _).2 (Or.inl old))
    simp only [List.map_append, List.map_singleton, List.mem_append, List.mem_singleton, added, ← e]
    constructor
    · intro given
      rcases given with ⟨listed, fresh⟩ | rfl
      · exact ⟨Or.inl listed, fresh⟩
      · exact ⟨Or.inr rfl, absent⟩
    · intro given
      rcases given with ⟨listed | rfl, fresh⟩
      · exact Or.inl ⟨listed, fresh⟩
      · exact Or.inr rfl

end Edit
end LoopFree
