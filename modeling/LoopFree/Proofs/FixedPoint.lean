/-
  LoopFree.Proofs.FixedPoint — one call removes every loop for good.

  Nothing is assumed of the model. A run that gets past ranking has found every vertex to
  be the only symbol of its name (`singular_of_breakCut`), and then no symbol is without a
  rank. The auxiliary inputs that follow have one from the start, and breaking arcs leaves
  the symbols alone. So the result has no loop (`hasLoop_of_removeLoops`), and a second
  call, with whatever resolver, has nothing to do (`removeLoops_fixedPoint`).
-/

import LoopFree.Graph.Greedy
import LoopFree.Proofs.Ranking
import LoopFree.Proofs.Refusal

namespace LoopFree

variable {α : Type}

namespace Model

theorem hasLoop_eq_unplaced (m : Model α) : m.hasLoop = (m.symbols.map (·.unplaced)).any (·.rank = 0) := by
  simp [hasLoop, List.any_map, Function.comp_def, Symbol.unplaced]

/-- Auxiliary inputs are ranked when they are added. -/
theorem Widened.hasLoop_eq [Zero α] {m m' : Model α} (wider : m.Widened m') : m'.hasLoop = m.hasLoop := by
  obtain ⟨added, -, symbols⟩ := wider.symbols
  have ranked : (added.map (·.auxiliaryInput)).any (·.rank = 0) = false := by
    refine List.any_eq_false.2 fun x hx => ?_
    obtain ⟨s, -, rfl⟩ := List.mem_map.1 hx
    exact Bool.false_ne_true
  rw [hasLoop_eq_unplaced m', symbols, List.any_append, ranked, Bool.or_false, ← hasLoop_eq_unplaced]

theorem SameFrame.hasLoop_eq {m m' : Model α} (frame : m.SameFrame m') : m'.hasLoop = m.hasLoop := by
  rw [hasLoop, frame.symbols]
  rfl

end Model

namespace Edit

variable [Zero α] [One α] [Neg α] {w w' : Workspace α} {resolver : Resolver} {validate : Bool} {c : VariableCut}
  {u : Unit}

/-- Changes that succeed have ranked every vertex. -/
theorem singular_of_breakCut (complete : ∀ v, v ∈ c.cut.order) (run : breakCut validate c w = .ok u w') :
    w.model.Singular c.graph := by
  obtain ⟨_, v₁, marked, run⟩ := bind_eq_ok.1 run
  obtain ⟨_, v₂, noted, run⟩ := bind_eq_ok.1 run
  obtain ⟨_, w₁, ranks, -⟩ := bind_eq_ok.1 run
  obtain rfl := change_eq_ok.1 marked
  obtain rfl := note_eq_ok.1 noted
  exact fun v => find_eq_of_rank ranks v (complete v)

/-- What follows the ranking leaves no symbol without a rank. -/
theorem hasLoop_of_breakCut (run : breakCut validate c w = .ok u w') :
    w'.model.hasLoop = (w.model.ranked c).hasLoop := by
  obtain ⟨w₁, w₂, w₃, ranked, inputs, arcs, result⟩ := breakCut_eq_ok run
  calc w'.model.hasLoop
      = w₃.model.hasLoop := by rw [result]
    _ = w₂.model.hasLoop := (forM_breakArc_rewritten arcs).toSameFrame.hasLoop_eq
    _ = w₁.model.hasLoop := (forM_ensureAuxiliary_widened inputs).1.hasLoop_eq
    _ = (w.model.ranked c).hasLoop := by rw [ranked]

theorem hasLoop_of_removeLoops (run : removeLoops resolver validate w = .ok u w') : w'.model.hasLoop = false := by
  by_cases loop : w.model.hasLoop
  · rw [removeLoops_eq loop] at run
    obtain ⟨c, v, checks, changes⟩ := bind_eq_ok.1 run
    obtain ⟨same, chosen, -, -⟩ := chooseCut_eq_ok checks
    have single := singular_of_breakCut (Model.chosenCut_eq_ok.1 chosen).2.2.mem_order changes
    rw [same] at single
    rw [hasLoop_of_breakCut changes, same]
    exact single.hasLoop_ranked chosen
  · rw [removeLoops_eq_of_not_hasLoop loop] at run
    cases run
    exact Bool.eq_false_iff.2 loop

end Edit

namespace Model

/-- After a run no symbol is without a rank, and any further call ends well and only notes
    that there is no loop, whatever its resolver answers. -/
theorem removeLoops_fixedPoint [Zero α] [One α] [Neg α] {w w' : Workspace α} {resolver : Resolver} {validate : Bool}
    (run : Edit.removeLoops resolver validate w = .ok () w') :
    w'.model.hasLoop = false ∧
    ∀ (resolver : Resolver) (validate : Bool) (log : List Event) (warnings : List (Issue Finding)), ∃ v,
      Edit.removeLoops resolver validate ⟨w'.model, log, warnings⟩ = .ok () v ∧
      v.model = w'.model ∧ v.warnings = warnings ∧ v.log = log ++ [.noLoop w'.model.name] := by
  have free := Edit.hasLoop_of_removeLoops run
  refine ⟨free, fun resolver validate log warnings => ⟨⟨w'.model, log ++ [.noLoop w'.model.name], warnings⟩, ?_⟩⟩
  exact ⟨Edit.removeLoops_eq_of_not_hasLoop (Bool.eq_false_iff.1 free), rfl, rfl, rfl⟩

/-- A variable that needs itself, and two constants of one name. -/
def doubled : Model Int where
  name := "doubled"
  symbols := [
    { name := "k", domain := .real, role := .other, rank := -1 },
    { name := "z", domain := .real, role := .continuous, index := some 0 },
    { name := "k", domain := .real, role := .other, rank := -1 }]
  rows := { ineq := [{ defines := "z", depends := ["z", "k"] }] }
  blocks := .ofFn fun b => match b with
    | ⟨.ineq, .continuous⟩ => (Mat.zero 1 1).set 0 0 2
    | ⟨.ineq, .affine⟩ => .zero 1 1
    | ⟨.ineq, _⟩ => .zero 1 0
    | ⟨_, .continuous⟩ => .zero 0 1
    | ⟨_, .affine⟩ => .zero 0 1
    | ⟨_, _⟩ => .zero 0 0

/-- The model is not valid, but the run succeeds; after it even a resolver without an answer does. -/
theorem removeLoops_fixedPoint_doubled : ¬(doubled.validate {}).isValid ∧ ∃ w' v,
    Edit.removeLoops Resolver.greedy false ⟨doubled, [], []⟩ = .ok () w' ∧ w'.model.hasLoop = false ∧
    Edit.removeLoops (fun _ _ => none) true ⟨w'.model, [], []⟩ = .ok () v ∧ v.model = w'.model := by
  have succeeds : (Edit.removeLoops Resolver.greedy false).succeeds ⟨doubled, [], []⟩ := by decide +kernel
  obtain ⟨_, w', run⟩ := Edit.exists_of_succeeds succeeds
  obtain ⟨free, again⟩ := removeLoops_fixedPoint run
  obtain ⟨v, run', same, -⟩ := again (fun _ _ => none) true [] []
  exact ⟨by decide +kernel, w', v, run, free, run', same⟩

/-- The auxiliary name of a variable that needs itself is taken by a parameter. -/
def shadowed : Model Int where
  name := "shadowed"
  symbols := [
    { name := "z", domain := .real, role := .continuous, index := some 0 },
    { name := "z_aux", domain := .real, role := .other, rank := -1 },
    { name := "u", domain := .real, role := .input, index := some 0, rank := -1 },
    { name := "v", domain := .real, role := .input, index := some 1, rank := -1 }]
  rows := { ineq := [{ defines := "z", depends := ["z"] }] }
  blocks := .ofFn fun b => match b with
    | ⟨.ineq, .input⟩ => .zero 1 2
    | ⟨.ineq, .continuous⟩ => (Mat.zero 1 1).set 0 0 2
    | ⟨.ineq, .affine⟩ => .zero 1 1
    | ⟨.ineq, _⟩ => .zero 1 0
    | ⟨_, .input⟩ => .zero 0 2
    | ⟨_, .continuous⟩ => .zero 0 1
    | ⟨_, .affine⟩ => .zero 0 1
    | ⟨_, _⟩ => .zero 0 0

-- a parameter has no column, so the rows of both inputs take the coefficient and the pins
example : (Edit.removeLoops Resolver.greedy true).leaves (fun w => !w.model.hasLoop ∧ (w.model.validate {}).isValid ∧
    (w.model.block ⟨.ineq, .input⟩).rows = [[-2, -2], [1, -1], [1, -1]] ∧
    (w.model.block ⟨.ineq, .continuous⟩).rows = [[0], [1], [-1]]) ⟨shadowed, [], []⟩ := by decide +kernel

end Model
end LoopFree
