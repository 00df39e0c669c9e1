/-
  LoopFree.Proofs.EvaluationOrder — the ranks order what is left of the dependencies.

  A variable that a row needs has a smaller rank than the one it defines, unless the arc
  between them is broken (`rank_lt_of_needed`). Breaking the arcs moves the coefficients
  accordingly: a row whose coefficients were all covered by its descriptor has, after a
  run, nonzero coefficients only in the columns of the defined variable, of symbols that
  come before it, and of auxiliary inputs of its arcs (`usesOnly_of_removal`).
-/

import LoopFree.Proofs.Equivalence
import LoopFree.Proofs.Ranking

namespace LoopFree.Model

variable {α : Type}

/-! ## Ranks -/

section
variable {m : Model α} {c : VariableCut} {resolver : Resolver} {s t : Symbol} (con : m.Consistent)
  (chosen : m.chosenCut resolver = .ok c)
include con chosen

/-- A vertex is ranked by its position in the order. -/
theorem rankIn_of_vertex {v : Fin c.graph.vertices.length} (name : s.name = c.name v) :
    rankIn c.graph c.cut.order s = c.cut.order.idxOf v + 1 :=
  (singular_of_names con.names (chosenCut_eq_ok.1 chosen).1).rankIn_of_vertex chosen name

/-- A symbol that is no variable keeps its rank. -/
theorem rankIn_of_constant (hs : s ∈ m.symbols) (constant : ¬s.isVariable) :
    rankIn c.graph c.cut.order s = s.rank :=
  (singular_of_names con.names (chosenCut_eq_ok.1 chosen).1).rankIn_of_constant chosen hs constant

theorem rank_lt_of_needed (hs : s ∈ m.symbols) {row : Row} (hrow : row ∈ m.definingRows)
    (defines : row.defines = t.name) (needed : s.name ∈ row.depends) (kept : (s.name, t.name) ∉ c.arcs) :
    rankIn c.graph c.cut.order s < rankIn c.graph c.cut.order t := by
  obtain ⟨graph, -, breaks⟩ := chosenCut_eq_ok.1 chosen
  obtain ⟨v, sink⟩ := ((dependencyGraph_eq_ok graph).2 row hrow).exists_vertex graph
  rw [rankIn_of_vertex con chosen (v := v) (defines.symm.trans sink.symm)]
  by_cases ranked : s.isVariable
  · obtain ⟨u, source⟩ := HasVariable.exists_vertex graph ⟨s, hs, ranked, rfl⟩
    rw [rankIn_of_vertex con chosen (v := u) source.symm]
    have edge : c.graph.graph.edge u v := by
      rw [edge_iff_draws con.names graph, source, sink]
      exact ⟨⟨s, hs, ranked, rfl⟩, row, hrow, rfl, needed⟩
    rcases breaks.forward u v edge with arc | before
    · have arc : (c.name u, c.name v) ∈ c.arcs := List.mem_map_of_mem arc
      rw [VariableCut.name, VariableCut.name, source, sink, defines] at arc
      exact absurd arc kept
    · omega
  · rw [rankIn_of_constant con chosen hs ranked]
    have negative : s.rank < 0 := by simpa [Symbol.isVariable] using ranked
    omega

end

/-! ## Coefficients -/

/-- Every nonzero coefficient of an inequality row is in the column of a symbol like that. -/
def UsesOnly [Zero α] (m : Model α) (i : Nat) (like : Symbol → Prop) : Prop :=
  ∀ t j x, t ≠ .affine → (m.block ⟨.ineq, t⟩).get? i j = some x → x ≠ 0 →
    ∃ s ∈ m.symbols, s.role.term? = some t ∧ s.index = some (j : Int) ∧ like s

section
variable [Zero α] {m : Model α} {s : Symbol} {t : Term} {e : Equation} {i j : Nat} {like : Symbol → Prop}
  (con : m.Consistent)
include con

omit [Zero α] in
/-- The symbol that owns the column of an entry. -/
theorem Consistent.exists_owner (affine : t ≠ .affine) {x : α} (entry : (m.block ⟨e, t⟩).get? i j = some x) :
    ∃ s ∈ m.symbols, s.role.term? = some t ∧ s.index = some (j : Int) := by
  obtain ⟨r, hr⟩ : ∃ r : Role, r.term? = some t := by
    cases t with
    | state => exact ⟨.state, rfl⟩
    | input => exact ⟨.input, rfl⟩
    | discrete => exact ⟨.discrete, rfl⟩
    | continuous => exact ⟨.continuous, rfl⟩
    | affine => exact absurd rfl affine
  obtain ⟨-, inside⟩ := (Mat.get?_isSome_iff _ _ _).1 (Option.isSome_of_eq_some entry)
  rw [con.width e hr] at inside
  obtain ⟨s, hs, role, index, -⟩ := con.getElem?_columnNames hr inside
  exact ⟨s, hs, role ▸ hr, index⟩

theorem Consistent.usesOnly_iff (hi : i < m.ineqCount) :
    m.UsesOnly i like ↔ ∀ s ∈ m.symbols, m.coefficient .ineq i s.name ≠ 0 → like s := by
  refine ⟨fun uses s hs nonzero => ?_, fun uses t j x affine entry nonzero => ?_⟩
  · cases hr : s.role.term? with
    | none => exact absurd (by simp [coefficient, con.symbol?_eq hs, hr]) nonzero
    | some t =>
      have columns := hasColumns_of_term? hr
      obtain ⟨j, hj, -, -⟩ := (con.numbered s.role columns).exists_index hs rfl
      have affine : t ≠ .affine := by
        intro e
        cases role : s.role <;> simp [role, e, Role.term?] at hr
      obtain ⟨x, hx, hrx, hjx, found⟩ := uses t j _ affine (con.get?_eq hs hr hj hi) nonzero
      have role : x.role = s.role := by
        have := (role?_of_term? hrx).symm.trans (role?_of_term? hr)
        exact Option.some.inj this
      have same := (con.numbered s.role columns).eq_of_index_eq hx role hs rfl (hjx.trans hj.symm)
      exact same ▸ found
  · obtain ⟨s, hs, hr, hj⟩ := con.exists_owner affine entry
    refine ⟨s, hs, hr, hj, uses s hs ?_⟩
    rwa [con.coefficient_eq hs hr hj, entry, Option.getD_some]

end

theorem exists_of_coefficient_ne_zero [Zero α] {m : Model α} {e : Equation} {i : Nat} {name : String}
    (nonzero : m.coefficient e i name ≠ 0) : ∃ s ∈ m.symbols, s.name = name := by
  have known : m.hasSymbol name := by
    by_contra unknown
    exact nonzero (coefficient_eq_zero (Bool.eq_false_iff.2 unknown) e i)
  exact hasSymbol_iff_exists.1 known

/-! ## After a run -/

namespace Removal

variable [Zero α] [One α] [Neg α] {m v m' : Model α} {c : VariableCut} {sources : List Symbol} {resolver : Resolver}
  (h : m.Removal c sources v m')
include h

/-- The coefficients of a row of the result are those of the row with the arcs broken. -/
theorem coefficient_eq (ready : ∀ a ∈ c.arcs, v.HasAuxiliary a.1) {i : Nat} {row : Row}
    (hrow : m.rows.ineq[i]? = some row) :
    m'.coefficient .ineq i = ((m.inequality row i).breakArcs c.arcs).coefficient := by
  have place : m.inequalities[i]? = some (m.inequality row i) := by rw [getElem?_inequalities, hrow, Option.map_some]
  have result : m'.inequalities[i]? = some ((m.inequality row i).breakArcs c.arcs) := by
    have inside := (List.getElem?_eq_some_iff.1 place).1
    rw [h.inequalities_eq ready, List.getElem?_append_left (by simpa using inside), List.getElem?_map, place,
      Option.map_some]
  rw [getElem?_inequalities] at result
  obtain ⟨row', -, e⟩ := Option.map_eq_some_iff.1 result
  rw [← e]
  rfl

/-- A variable that is needed and not cut off comes before the one it is needed for. -/
theorem rank_lt (con : m.Consistent) (chosen : m.chosenCut resolver = .ok c) {s : Symbol} (hs : s ∈ m.symbols)
    {row : Row} (hrow : row ∈ m.definingRows) (needed : s.name ∈ row.depends) (kept : (s.name, row.defines) ∉ c.arcs) :
    ∃ s' ∈ m'.symbols, s'.name = s.name ∧ ∃ sink ∈ m'.symbols, sink.name = row.defines ∧ s'.rank < sink.rank := by
  obtain ⟨graph, -, -⟩ := chosenCut_eq_ok.1 chosen
  obtain ⟨t, ht, -, defines⟩ := (dependencyGraph_eq_ok graph).2 row hrow
  have before := rank_lt_of_needed con chosen hs hrow defines.symm needed (defines ▸ kept)
  obtain ⟨s', hs', name, -, rank⟩ := h.exists_of_mem hs
  obtain ⟨t', ht', name', -, rank'⟩ := h.exists_of_mem ht
  rw [h.symbols]
  exact ⟨s', hs', name, t', ht', name'.trans defines, by rw [rank, rank']; exact before⟩

/-- The symbol of a nonzero coefficient is the defined variable, comes before it, or is the
    auxiliary input of an arc. -/
theorem evaluated_of_coefficient_ne_zero (con : m.Consistent) (chosen : m.chosenCut resolver = .ok c)
    (unused : ∀ a ∈ c.arcs, m.hasSymbol (Symbol.auxiliaryName a.1) = false) {i : Nat} {row : Row}
    (hrow : m.rows.ineq[i]? = some row) (defining : row.definesVariable)
    (covered : ∀ s ∈ m.symbols, m.coefficient .ineq i s.name ≠ 0 → s.name = row.defines ∨ s.name ∈ row.depends)
    {s' : Symbol} (hs' : s' ∈ m'.symbols) (nonzero : m'.coefficient .ineq i s'.name ≠ 0) :
    s'.name = row.defines ∨ (∃ sink ∈ m'.symbols, sink.name = row.defines ∧ s'.rank < sink.rank) ∨
      ∃ a ∈ c.arcs, a.2 = row.defines ∧ s'.name = Symbol.auxiliaryName a.1 ∧ s'.role = .input := by
  have ready := h.hasAuxiliary_of_fresh chosen unused
  have con' := (h.broken ready).consistent
  have broken := h.broken_breakArcs ready (m.inequality row i)
  rw [h.coefficient_eq ready hrow] at nonzero
  rcases broken.of_coefficient_ne_zero nonzero with ⟨s, hs, e⟩ | ⟨stays, nonzero⟩
  · have arc := (Inequality.mem_moved.1 hs).2
    obtain ⟨x, hx, name, input⟩ := h.auxiliary_of_fresh arc (unused _ arc)
    have same : s' = x := con'.eq_of_name_eq hs' hx (e.trans name.symm)
    exact Or.inr (Or.inr ⟨_, arc, rfl, e, same ▸ input⟩)
  · obtain ⟨s, hs, e⟩ := exists_of_coefficient_ne_zero nonzero
    rcases covered s hs (e ▸ nonzero) with own | needed
    · exact Or.inl (e ▸ own)
    · have kept : (s.name, row.defines) ∉ c.arcs := by
        intro arc
        exact stays (Inequality.mem_moved.2 ⟨e ▸ needed, e ▸ arc⟩)
      have hrow' : row ∈ m.definingRows := mem_definingRows.2 (Or.inl ⟨List.mem_of_getElem? hrow, defining⟩)
      obtain ⟨x, hx, name, sink, hsink, defines, before⟩ := h.rank_lt con chosen hs hrow' needed kept
      have same : s' = x := con'.eq_of_name_eq hs' hx (e.symm.trans name.symm)
      exact Or.inr (Or.inl ⟨sink, hsink, defines, same ▸ before⟩)

end Removal

/-- After a run a row can be evaluated in the order of the ranks, given the auxiliary
    inputs of its arcs; a variable that no longer needs itself has coefficient zero. -/
theorem usesOnly_of_removal [Zero α] [One α] [Neg α] {w w' : Workspace α} {resolver : Resolver} {validate : Bool}
    {c : VariableCut} {i : Nat} {row : Row} (valid : (w.model.validate {}).isValid) (loop : w.model.hasLoop)
    (chosen : w.model.chosenCut resolver = .ok c)
    (unused : ∀ a ∈ c.arcs, w.model.hasSymbol (Symbol.auxiliaryName a.1) = false)
    (run : Edit.removeLoops resolver validate w = .ok () w') (hrow : w.model.rows.ineq[i]? = some row)
    (defining : row.definesVariable)
    (covered : w.model.UsesOnly i fun s => s.name = row.defines ∨ s.name ∈ row.depends) :
    (w'.model.UsesOnly i fun s => s.name = row.defines ∨
      (∃ sink ∈ w'.model.symbols, sink.name = row.defines ∧ s.rank < sink.rank) ∨
      ∃ a ∈ c.arcs, a.2 = row.defines ∧ s.name = Symbol.auxiliaryName a.1 ∧ s.role = .input) ∧
    ((row.defines, row.defines) ∈ c.arcs → row.defines ∈ row.depends →
      ∀ sink ∈ w'.model.symbols, sink.name = row.defines → ∀ (t : Term) (j : Nat), sink.role.term? = some t →
        sink.index = some (j : Int) → (w'.model.block ⟨.ineq, t⟩).get? i j = some 0) := by
  have con := isValid_iff_consistent.1 valid
  obtain ⟨c', sources, v, chosen', h⟩ := Edit.removeLoops_eq_ok con loop run
  obtain rfl : c = c' := Except.ok.inj (chosen.symm.trans chosen')
  have ready := h.hasAuxiliary_of_fresh chosen unused
  have con' := (h.broken ready).consistent
  have original : i < w.model.ineqCount := by
    rw [← con.ineqRows]
    exact (List.getElem?_eq_some_iff.1 hrow).1
  have result : i < w'.model.ineqCount := by
    rw [← con'.ineqRows, ← length_inequalities, h.inequalities_eq ready, List.length_append, List.length_map,
      length_inequalities, con.ineqRows]
    omega
  refine ⟨(con'.usesOnly_iff result).2 fun s' hs' nonzero => ?_, fun arc needed sink hsink name t j hr hj => ?_⟩
  · exact h.evaluated_of_coefficient_ne_zero con chosen unused hrow defining ((con.usesOnly_iff original).1 covered) hs'
      nonzero
  · have broken := h.broken_breakArcs ready (w.model.inequality row i)
    rw [con'.get?_eq hsink hr hj (e := .ineq) result, h.coefficient_eq ready hrow, name]
    exact congrArg some (broken.source _ (Inequality.mem_moved.2 ⟨needed, arc⟩))

/-- The variable `b` needs `a` and itself, and both arcs from it are broken. -/
theorem usesOnly_of_removal_coupled : ∃ c w', (coupled "u" 1).chosenCut breakTwice = .ok c ∧
    c.arcs = [("b", "a"), ("b", "b"), ("b", "a")] ∧
    Edit.removeLoops breakTwice true ⟨coupled "u" 1, [], []⟩ = .ok () w' ∧
    (w'.model.UsesOnly 2 fun s => s.name = "b" ∨
      (∃ sink ∈ w'.model.symbols, sink.name = "b" ∧ s.rank < sink.rank) ∨
      ∃ a ∈ c.arcs, a.2 = "b" ∧ s.name = Symbol.auxiliaryName a.1 ∧ s.role = .input) ∧
    ∀ sink ∈ w'.model.symbols, sink.name = "b" → ∀ (t : Term) (j : Nat), sink.role.term? = some t →
      sink.index = some (j : Int) → (w'.model.block ⟨.ineq, t⟩).get? 2 j = some 0 := by
  obtain ⟨c, w', chosen, arcs, unused, run⟩ := exists_run_coupled
  have covered : (coupled "u" 1).UsesOnly 2 fun s => s.name = "b" ∨ s.name ∈ ["a", "b"] := by
    rw [(isValid_iff_consistent.1 valid_coupled).usesOnly_iff (by decide)]
    decide +kernel
  have hrow : (coupled "u" 1).rows.ineq[2]? = some { defines := "b", depends := ["a", "b"] } := rfl
  obtain ⟨uses, zero⟩ := usesOnly_of_removal (w := ⟨coupled "u" 1, [], []⟩) valid_coupled (by decide) chosen unused run
    hrow (by decide) covered
  have loop : ("b", "b") ∈ c.arcs := by
    rw [arcs]
    decide
  exact ⟨c, w', chosen, arcs, run, uses, zero loop (by decide)⟩

end LoopFree.Model
