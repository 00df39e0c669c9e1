/-
  LoopFree.Proofs.Widening — what adding auxiliary inputs leaves of any model.

  Nothing is assumed of the model here. A run that adds auxiliary inputs appends symbols
  of names that were free, moves input columns up, and opens zero columns in the input
  blocks; descriptors and all other blocks stay (`Widened`, `forM_ensureAuxiliary_widened`).
  A name that was known keeps its symbols, apart from the column of an input
  (`Widened.find_eq`). With `Proofs.Rewriting` this bounds what a whole run can change
  (`removeLoops_frames`).
-/

import LoopFree.Proofs.Extension
import LoopFree.Proofs.Stages
import Mathlib.Logic.Relation

namespace LoopFree

variable {α : Type} [Zero α]

/-- The second matrix is the first one with zero columns inserted. -/
def Mat.GainsZeroColumns (a b : Mat α) : Prop :=
  Relation.ReflTransGen (fun x y => ∃ j, x.insertColumn? j = some y) a b

namespace Model

/-- The model `m'` is `m` with auxiliary inputs that were not there. -/
structure Widened (m m' : Model α) : Prop where
  symbols : ∃ added : List Symbol,
    (∀ s ∈ added, m.hasSymbol (Symbol.auxiliaryName s.name) = false) ∧
    m'.symbols.map (·.unplaced) = m.symbols.map (·.unplaced) ++ added.map (·.auxiliaryInput)
  rows : m'.rows = m.rows
  input : ∀ e, (m.block ⟨e, .input⟩).GainsZeroColumns (m'.block ⟨e, .input⟩)
  others : ∀ b, b.term ≠ .input → m'.block b = m.block b

namespace Widened

variable {m v m' : Model α}

theorem refl (m : Model α) : m.Widened m := ⟨⟨[], by simp, by simp⟩, rfl, fun _ => .refl, fun _ _ => rfl⟩

omit [Zero α] in
theorem hasSymbol_eq (m : Model α) (name : String) :
    m.hasSymbol name = (m.symbols.map (·.unplaced)).any (·.name = name) := by
  simp [hasSymbol, List.any_map, Function.comp_def, Symbol.unplaced]

omit [Zero α] in
theorem map_find (m : Model α) (name : String) :
    (m.find name).map (·.unplaced) = (m.symbols.map (·.unplaced)).filter (·.name = name) := by
  simp [find, List.filter_map, Function.comp_def, Symbol.unplaced]

section
variable (h : m.Widened m')
include h

theorem hasSymbol {name : String} (known : m.hasSymbol name) : m'.hasSymbol name := by
  obtain ⟨added, -, symbols⟩ := h.symbols
  rw [hasSymbol_eq] at known
  rw [hasSymbol_eq, symbols, List.any_append, known, Bool.true_or]

/-- A known name keeps its symbols. -/
theorem find_eq {name : String} (known : m.hasSymbol name) :
    (m'.find name).map (·.unplaced) = (m.find name).map (·.unplaced) := by
  obtain ⟨added, fresh, symbols⟩ := h.symbols
  have none : (added.map (·.auxiliaryInput)).filter (·.name = name) = [] := by
    rw [List.filter_eq_nil_iff]
    intro x hx named
    obtain ⟨s, hs, rfl⟩ := List.mem_map.1 hx
    have e : Symbol.auxiliaryName s.name = name := of_decide_eq_true named
    rw [← e, fresh s hs] at known
    cases known
  rw [map_find, map_find, symbols, List.filter_append, none, List.append_nil]

theorem count_of_ne {r : Role} (hr : r ≠ .input) : m'.count r = m.count r := by
  obtain ⟨added, -, symbols⟩ := h.symbols
  have plain (n : Model α) : n.count r = (n.symbols.map (·.unplaced)).countP (·.role = r) := by
    simp [count, List.countP_map, Function.comp_def, Symbol.unplaced]
  have none : (added.map (·.auxiliaryInput)).countP (·.role = r) = 0 := by
    rw [List.countP_eq_zero]
    intro x hx
    obtain ⟨s, -, rfl⟩ := List.mem_map.1 hx
    simp [Symbol.auxiliaryInput, Ne.symm hr]
  rw [plain m', plain m, symbols, List.countP_append, none, Nat.add_zero]

end

/-- One more auxiliary input. -/
theorem add (h : m.Widened v) {s : Symbol} (one : v.AuxiliaryAdded s m') : m.Widened m' where
  symbols := by
    obtain ⟨added, fresh, symbols⟩ := h.symbols
    refine ⟨added ++ [s], ?_, ?_⟩
    · intro x hx
      rcases List.mem_append.1 hx with hx | hx
      · exact fresh x hx
      · rw [List.mem_singleton.1 hx, Bool.eq_false_iff]
        intro known
        have taken := h.hasSymbol known
        rw [one.fresh] at taken
        cases taken
    · rw [one.symbols, List.map_append, Symbol.map_unplaced_shifted, symbols, List.append_assoc, List.map_append]
      rfl
  rows := one.rows.trans h.rows
  input e := (h.input e).tail ⟨_, one.input e⟩
  others b hb := (one.others b hb).trans (h.others b hb)

end Widened
end Model

namespace Edit

variable {w w' : Workspace α}

/-- One source, after whatever has been added. -/
theorem ensureAuxiliary_widened {m : Model α} {name : String} {u : Unit} (wider : m.Widened w.model)
    (run : ensureAuxiliary name w = .ok u w') : m.Widened w'.model := by
  rcases ensureAuxiliary_eq_ok run with ⟨-, rfl⟩ | ⟨s, -, -, added⟩
  · exact wider
  · exact wider.add added

theorem ensureAuxiliary_known {name : String} {u : Unit} (run : ensureAuxiliary name w = .ok u w') :
    w'.model.hasSymbol (Symbol.auxiliaryName name) := by
  rcases ensureAuxiliary_eq_ok run with ⟨known, rfl⟩ | ⟨s, -, rfl, added⟩
  · exact known
  · rw [Model.hasSymbol, added.symbols, List.any_append]
    simp

/-- The loop over the sources, in whatever model. -/
theorem forM_ensureAuxiliary_widened {β : Type} {name : β → String} {l : List β} {u : PUnit}
    (run : (l.forM fun b => ensureAuxiliary (name b)) w = .ok u w') :
    w.model.Widened w'.model ∧ ∀ b ∈ l, w'.model.hasSymbol (Symbol.auxiliaryName (name b)) := by
  refine forM_induct (fun past v => w.model.Widened v.model ∧
    ∀ b ∈ past, v.model.hasSymbol (Symbol.auxiliaryName (name b))) ⟨.refl _, by simp⟩ ?_ run
  intro past b v v' _ done step
  obtain ⟨widened, known⟩ := done
  refine ⟨ensureAuxiliary_widened widened step, fun x hx => ?_⟩
  rcases List.mem_append.1 hx with hx | hx
  · exact (ensureAuxiliary_widened (.refl _) step).hasSymbol (known x hx)
  · rw [List.mem_singleton.1 hx]
    exact ensureAuxiliary_known step

/-- A run that removes loops ranks the variables, adds inputs and breaks arcs, and that is all. -/
theorem removeLoops_frames [One α] [Neg α] {resolver : Resolver} {validate : Bool} {u : Unit} (loop : w.model.hasLoop)
    (run : removeLoops resolver validate w = .ok u w') :
    ∃ c v, w.model.chosenCut resolver = .ok c ∧ (w.model.ranked c).Widened v ∧
      (∀ a ∈ c.arcs, v.hasSymbol (Symbol.auxiliaryName a.1)) ∧ Model.Rewritten c.arcs v w'.model := by
  obtain ⟨c, w₁, w₂, w₃, chosen, -, ranked, inputs, arcs, final⟩ := removeLoops_stages loop run
  obtain ⟨widened, known⟩ := forM_ensureAuxiliary_widened inputs
  refine ⟨c, w₂.model, chosen, ranked ▸ widened, fun a ha => ?_, final ▸ forM_breakArc_rewritten arcs⟩
  obtain ⟨e, he, rfl⟩ := List.mem_map.1 ha
  exact known e.1 (by simpa [Cut.sources] using ⟨e.2, he⟩)

end Edit
end LoopFree
