/-
  LoopFree.Proofs.Acyclicity — which cycles are left after a run.

  The inequality rows of the result no longer draw the broken arcs, and what the new rows
  draw starts at auxiliary inputs, which nothing defines. Output rows are not rewritten:
  an arc that one of them draws is still there. So the result has exactly the cycles made
  of dependencies that `Remain` (`isAcyclic_removal_iff`), and none when no output row
  draws a broken arc, because whatever is no arc points forward in the order.
-/

import LoopFree.Graph.Greedy
import LoopFree.Proofs.Component
import LoopFree.Proofs.EvaluationOrder

namespace LoopFree.Model

variable {α : Type}

/-- The dependency is still there when the arcs are broken: it is no arc, or an output row
    draws it. -/
def Remains (m : Model α) (arcs : List (String × String)) (source sink : String) : Prop :=
  m.Draws source sink ∧ ((source, sink) ∈ arcs → DrawsIn m.rows.output source sink)

namespace Removal

section
variable [Zero α] [One α] [Neg α] {m v m' : Model α} {c : VariableCut} {sources : List Symbol} {resolver : Resolver}
  {name source sink : String} {row : Row} (h : m.Removal c sources v m')
include h

theorem hasVariable (con : m.Consistent) (chosen : m.chosenCut resolver = .ok c) (known : m.HasVariable name) :
    m'.HasVariable name := by
  obtain ⟨v, place⟩ := known.exists_vertex (chosenCut_eq_ok.1 chosen).1
  obtain ⟨s, hs, -, rfl⟩ := known
  obtain ⟨s', hs', name, -, rank⟩ := h.exists_of_mem hs
  rw [rankIn_of_vertex con chosen place.symm] at rank
  refine ⟨s', h.symbols ▸ hs', ?_, name⟩
  rw [Symbol.isVariable, rank, decide_eq_true_eq]
  omega

variable (ready : ∀ a ∈ c.arcs, v.HasAuxiliary a.1)
include ready

theorem outputRows_eq : m'.rows.output = m.rows.output := by
  rw [(h.broken ready).frame.outputRows, h.extended.rows]
  rfl

/-- The inequality rows of the result are the old ones with the arcs broken and the pins. -/
theorem mem_ineq : row ∈ m'.rows.ineq ↔ (∃ d ∈ m.inequalities, (d.breakArcs c.arcs).row = row) ∨
    ∃ a ∈ c.arcs, row = { defines := a.2, depends := [Symbol.auxiliaryName a.1], tag := .pin } := by
  rw [← map_row_inequalities, h.inequalities_eq ready, List.map_append, List.mem_append, List.map_map,
    List.map_flatMap, List.mem_map, List.mem_flatMap]
  refine or_congr Iff.rfl ?_
  simp [Inequality.pins, Inequality.pin]

/-- Every defining row of the result defines a variable of the original model. -/
theorem defines_of_mem (chosen : m.chosenCut resolver = .ok c) (hrow : row ∈ m'.definingRows) :
    m.HasVariable row.defines := by
  obtain ⟨graph, -, -⟩ := chosenCut_eq_ok.1 chosen
  have defined := (dependencyGraph_eq_ok graph).2
  rcases mem_definingRows.1 hrow with ⟨hrow, defining⟩ | hrow
  · rcases (h.mem_ineq ready).1 hrow with ⟨d, hd, rfl⟩ | ⟨a, ha, rfl⟩
    · have broken := h.broken_breakArcs ready d
      have old : d.row ∈ m.rows.ineq := m.map_row_inequalities ▸ List.mem_map_of_mem hd
      rw [broken.defines]
      rw [Row.definesVariable, broken.tag] at defining
      exact defined d.row (mem_definingRows.2 (Or.inl ⟨old, defining⟩))
    · obtain ⟨e, -, rfl⟩ := List.mem_map.1 ha
      obtain ⟨s, hs, ranked, name, -⟩ := exists_symbol graph e.2
      exact ⟨s, hs, ranked, name⟩
  · rw [h.outputRows_eq ready] at hrow
    exact defined row (mem_definingRows.2 (Or.inr hrow))

theorem draws_of_remains (con : m.Consistent) (chosen : m.chosenCut resolver = .ok c)
    (remains : m.Remains c.arcs source sink) : m'.Draws source sink := by
  obtain ⟨⟨known, row, hrow, defines, needed⟩, output⟩ := remains
  refine ⟨h.hasVariable con chosen known, ?_⟩
  by_cases arc : (source, sink) ∈ c.arcs
  · obtain ⟨row, hrow, drawn⟩ := output arc
    exact ⟨row, mem_definingRows.2 (Or.inr (h.outputRows_eq ready ▸ hrow)), drawn⟩
  rcases mem_definingRows.1 hrow with ⟨hrow, defining⟩ | hrow
  · rw [← map_row_inequalities] at hrow
    obtain ⟨d, hd, rfl⟩ := List.mem_map.1 hrow
    have broken := h.broken_breakArcs ready d
    have stays : source ∉ d.moved c.arcs := fun moved => arc (defines ▸ (Inequality.mem_moved.1 moved).2)
    have defining' : (d.breakArcs c.arcs).row.definesVariable := by
      rw [Row.definesVariable, broken.tag]
      exact defining
    exact ⟨_, mem_definingRows.2 (Or.inl ⟨(h.mem_ineq ready).2 (Or.inl ⟨d, hd, rfl⟩), defining'⟩),
      broken.defines.trans defines, (broken.depends source).2 (Or.inl ⟨needed, stays⟩)⟩
  · exact ⟨row, mem_definingRows.2 (Or.inr (h.outputRows_eq ready ▸ hrow)), defines, needed⟩

/-- What the result draws from an original variable was drawn before and remains. -/
theorem remains_of_draws (unused : ∀ a ∈ c.arcs, m.hasSymbol (Symbol.auxiliaryName a.1) = false)
    (known : m.HasVariable source) (draws : m'.Draws source sink) : m.Remains c.arcs source sink := by
  have original : ∀ a ∈ c.arcs, source ≠ Symbol.auxiliaryName a.1 := by
    obtain ⟨s, hs, -, name⟩ := known
    exact ne_auxiliaryName unused (hasSymbol_iff_exists.2 ⟨s, hs, name⟩)
  obtain ⟨-, row, hrow, defines, needed⟩ := draws
  rcases mem_definingRows.1 hrow with ⟨hrow, defining⟩ | hrow
  · rcases (h.mem_ineq ready).1 hrow with ⟨d, hd, rfl⟩ | ⟨a, ha, rfl⟩
    · have broken := h.broken_breakArcs ready d
      have old : d.row ∈ m.rows.ineq := m.map_row_inequalities ▸ List.mem_map_of_mem hd
      rw [Row.definesVariable, broken.tag] at defining
      rw [broken.defines] at defines
      rcases (broken.depends source).1 needed with ⟨needed, stays⟩ | ⟨s, hs, same⟩
      · refine ⟨⟨known, d.row, mem_definingRows.2 (Or.inl ⟨old, defining⟩), defines, needed⟩, fun arc => ?_⟩
        exact absurd (Inequality.mem_moved.2 ⟨needed, defines.symm ▸ arc⟩) stays
      · exact absurd same (original _ (Inequality.mem_moved.1 hs).2)
    · exact absurd (List.mem_singleton.1 needed) (original a ha)
  · rw [h.outputRows_eq ready] at hrow
    exact ⟨⟨known, row, mem_definingRows.2 (Or.inr hrow), defines, needed⟩, fun _ => ⟨row, hrow, defines, needed⟩⟩

/-- Walks of the result that start at an original variable. -/
theorem transGen_remains (chosen : m.chosenCut resolver = .ok c)
    (unused : ∀ a ∈ c.arcs, m.hasSymbol (Symbol.auxiliaryName a.1) = false) (known : m.HasVariable source)
    (drawn : Relation.TransGen m'.Draws source sink) :
    m.HasVariable sink ∧ Relation.TransGen (m.Remains c.arcs) source sink := by
  have target {a b : String} (draws : m'.Draws a b) : m.HasVariable b := by
    obtain ⟨-, row, hrow, rfl, -⟩ := draws
    exact h.defines_of_mem ready chosen hrow
  induction drawn with
  | single draws => exact ⟨target draws, .single (h.remains_of_draws ready unused known draws)⟩
  | tail _ draws ih => exact ⟨target draws, ih.2.tail (h.remains_of_draws ready unused ih.1 draws)⟩

end
end Removal

/-- Without the arcs there is no cycle. -/
theorem not_transGen_of_forall_not_mem {m : Model α} {c : VariableCut} {resolver : Resolver} (con : m.Consistent)
    (chosen : m.chosenCut resolver = .ok c) {draws : String → String → Prop}
    (kept : ∀ source sink, draws source sink → m.Draws source sink ∧ (source, sink) ∉ c.arcs) (name : String) :
    ¬Relation.TransGen draws name name := by
  obtain ⟨graph, -, -⟩ := chosenCut_eq_ok.1 chosen
  let rank (name : String) : Int := ((m.symbol? name).map (rankIn c.graph c.cut.order)).getD 0
  have grows : ∀ source sink, draws source sink → rank source < rank sink := by
    intro source sink drawn
    obtain ⟨⟨⟨s, hs, -, rfl⟩, row, hrow, rfl, needed⟩, off⟩ := kept source sink drawn
    obtain ⟨t, ht, -, defines⟩ := (dependencyGraph_eq_ok graph).2 row hrow
    rw [← defines] at off ⊢
    simp only [rank, con.symbol?_eq hs, con.symbol?_eq ht, Option.map_some, Option.getD_some]
    exact rank_lt_of_needed con chosen hs hrow defines.symm needed off
  intro cycle
  have := cycle.lift rank grows
  rw [Relation.transGen_eq_self] at this
  omega

/-- The result of a run has a dependency graph. It has the cycles that remain when the arcs
    are broken everywhere but in the output rows. -/
theorem isAcyclic_removal_iff [Zero α] [One α] [Neg α] {w w' : Workspace α} {resolver : Resolver} {validate : Bool}
    {c : VariableCut} (valid : (w.model.validate {}).isValid) (loop : w.model.hasLoop)
    (chosen : w.model.chosenCut resolver = .ok c)
    (unused : ∀ a ∈ c.arcs, w.model.hasSymbol (Symbol.auxiliaryName a.1) = false)
    (run : Edit.removeLoops resolver validate w = .ok () w') :
    ∃ g, w'.model.dependencyGraph = .ok g ∧
      (g.graph.isAcyclic ↔ ∀ name, ¬Relation.TransGen (w.model.Remains c.arcs) name name) ∧
      ((∀ a ∈ c.arcs, ¬DrawsIn w.model.rows.output a.1 a.2) → g.graph.isAcyclic) := by
  have con := isValid_iff_consistent.1 valid
  obtain ⟨c', sources, v, chosen', h⟩ := Edit.removeLoops_eq_ok con loop run
  obtain rfl : c = c' := Except.ok.inj (chosen.symm.trans chosen')
  have ready := h.hasAuxiliary_of_fresh chosen unused
  have con' := (h.broken ready).consistent
  have defined : ∀ row ∈ w'.model.definingRows, w'.model.HasVariable row.defines := by
    intro row hrow
    exact h.hasVariable con chosen (h.defines_of_mem ready chosen hrow)
  obtain ⟨g, graph⟩ := exists_dependencyGraph_iff.2 defined
  have acyclic : g.graph.isAcyclic ↔ ∀ name, ¬Relation.TransGen (w.model.Remains c.arcs) name name := by
    rw [Digraph.isAcyclic_iff, acyclic_iff_draws con'.names graph]
    refine forall_congr' fun name => not_congr ⟨fun cycle => ?_, fun cycle => ?_⟩
    · obtain ⟨b, -, draws⟩ := Relation.TransGen.tail'_iff.1 cycle
      obtain ⟨-, row, hrow, rfl, -⟩ := draws
      exact (h.transGen_remains ready chosen unused (h.defines_of_mem ready chosen hrow) cycle).2
    · exact cycle.lift id fun _ _ remains => h.draws_of_remains ready con chosen remains
  refine ⟨g, graph, acyclic, fun free => acyclic.2 ?_⟩
  refine not_transGen_of_forall_not_mem con chosen fun source sink remains => ⟨remains.1, fun arc => ?_⟩
  exact free _ arc (remains.2 arc)

/-- The coupled variables have no outputs, so nothing keeps their cycle. -/
theorem isAcyclic_removal_iff_coupled : ∃ w' g, Edit.removeLoops breakTwice true ⟨coupled "u" 1, [], []⟩ = .ok () w' ∧
    w'.model.dependencyGraph = .ok g ∧ g.graph.isAcyclic := by
  obtain ⟨c, w', chosen, -, unused, run⟩ := exists_run_coupled
  obtain ⟨g, graph, -, acyclic⟩ :=
    isAcyclic_removal_iff (w := ⟨coupled "u" 1, [], []⟩) valid_coupled (by decide) chosen unused run
  refine ⟨w', g, run, graph, acyclic ?_⟩
  intro a _ drawn
  obtain ⟨row, hrow, -⟩ := drawn
  cases hrow

/-- An output `y = z` that the variable `z` is declared to need. -/
def observed : Model Int where
  name := "observed"
  symbols := [
    { name := "y", domain := .real, role := .output, index := some 0 },
    { name := "z", domain := .real, role := .continuous, index := some 0 }]
  rows := { ineq := [{ defines := "z", depends := ["y"] }], output := [{ defines := "y", depends := ["z"] }] }
  blocks := .ofFn fun b => match b with
    | ⟨.ineq, .continuous⟩ => ⟨1, [[1]], by decide⟩
    | ⟨.output, .continuous⟩ => ⟨1, [[1]], by decide⟩
    | ⟨.ineq, .affine⟩ => .zero 1 1
    | ⟨.ineq, _⟩ => .zero 1 0
    | ⟨.output, .affine⟩ => .zero 1 1
    | ⟨.output, _⟩ => .zero 1 0
    | ⟨.update, .continuous⟩ => .zero 0 1
    | ⟨.update, .affine⟩ => .zero 0 1
    | ⟨.update, _⟩ => .zero 0 0

/-- The greedy cut breaks the arc that the output row draws, and the cycle is still there. -/
theorem exists_cycle_of_output_row : ∃ w' g, Edit.removeLoops Resolver.greedy true ⟨observed, [], []⟩ = .ok () w' ∧
    w'.model.dependencyGraph = .ok g ∧ g.graph.isAcyclic = false := by
  have succeeds : (Edit.removeLoops Resolver.greedy true).succeeds ⟨observed, [], []⟩ := by decide +kernel
  have result : (match Edit.removeLoops Resolver.greedy true ⟨observed, [], []⟩ with
      | .ok _ w' => w'.model.dependencyGraph.toOption.map (·.graph.isAcyclic)
      | .error _ _ => none) = some false := by decide +kernel
  obtain ⟨_, w', run⟩ := Edit.exists_of_succeeds succeeds
  rw [run] at result
  obtain ⟨g, graph, cyclic⟩ := Option.map_eq_some_iff.1 result
  refine ⟨w', g, run, ?_, cyclic⟩
  cases found : w'.model.dependencyGraph with
  | error f => simp [found, Except.toOption] at graph
  | ok g' =>
    rw [found] at graph
    exact congrArg Except.ok (Option.some.inj graph)

end LoopFree.Model
