/-
  LoopFree.Proofs.Removal — a whole run of loop removal.

  A run that succeeds on a consistent model ranks the variables, adds the auxiliary inputs
  that are missing (`Prepared`) and breaks the arcs (`Removal`, `removeLoops_eq_ok`).
  Auxiliary symbols that were there before are used as they are, whatever they are: the
  arcs are broken as described in `Proofs.Breaking` when each source has an input of its
  auxiliary name, which holds for every fresh one (`Prepared.hasAuxiliary_of_fresh`).
-/

import LoopFree.Proofs.Stages

namespace LoopFree

variable {α : Type}

namespace Model

/-- What a run does before it breaks an arc: `v` has the auxiliary inputs that were missing. -/
structure Prepared [Zero α] (m : Model α) (c : VariableCut) (sources : List Symbol) (v : Model α) : Prop where
  breakable : ∀ a ∈ c.cut.arcs, (c.graph.vertex a.1).role.breakable
  extended : (m.ranked c).Extended sources v
  missing : ∀ name, name ∈ sources.map (·.name) ↔
    name ∈ c.arcs.map (·.1) ∧ m.hasSymbol (Symbol.auxiliaryName name) = false

/-- What a run does: `v` is the model before any arc is broken. -/
structure Removal [Zero α] [One α] [Neg α] (m : Model α) (c : VariableCut) (sources : List Symbol)
    (v m' : Model α) : Prop extends Prepared m c sources v where
  symbols : m'.symbols = v.symbols
  broken : (∀ a ∈ c.arcs, v.HasAuxiliary a.1) → ArcsBroken c.arcs v m'

theorem Consistent.marked {m : Model α} (con : m.Consistent) : Consistent { m with loopFound := true } :=
  ⟨con.names, con.numbered, con.realFirst, con.shapes, con.ineqRows, con.outputRows⟩

theorem Consistent.ranked {m : Model α} (con : m.Consistent) (c : VariableCut) : (m.ranked c).Consistent :=
  con.marked.withRanks _

end Model

namespace Edit

variable {w w' : Workspace α} {resolver : Resolver} {validate : Bool} {u : Unit}

theorem prepared_of_stages [Zero α] {m : Model α} {c : VariableCut} (con : m.Consistent)
    (breakable : ∀ a ∈ c.cut.arcs, (c.graph.vertex a.1).role.breakable) (ranked : w.model = m.ranked c)
    (run : (c.cut.sources.forM fun v => ensureAuxiliary (c.name v)) w = .ok u w') :
    ∃ sources, m.Prepared c sources w'.model := by
  have con' : w.model.Consistent := ranked ▸ con.ranked c
  obtain ⟨added, extended, missing⟩ := forM_ensureAuxiliary_eq_ok con' run
  refine ⟨added, breakable, ranked ▸ extended, fun name => ?_⟩
  have listed : name ∈ c.cut.sources.map c.name ↔ name ∈ c.arcs.map (·.1) := by
    simp [Cut.sources, VariableCut.arcs]
  have known : w.model.hasSymbol (Symbol.auxiliaryName name) = m.hasSymbol (Symbol.auxiliaryName name) := by
    rw [ranked, Model.ranked, Model.hasSymbol_withRanks]
    rfl
  rw [missing, listed, known]

/-- No stage makes a consistent model inconsistent. -/
theorem consistent_of_stages [Zero α] [One α] [Neg α] {m : Model α} {c : VariableCut} {w₁ w₂ w₃ : Workspace α}
    (con : m.Consistent) (ranked : w₁.model = m.ranked c)
    (inputs : (c.cut.sources.forM fun v => ensureAuxiliary (c.name v)) w₁ = .ok () w₂)
    (arcs : (c.cut.arcs.forM fun a => do
      note (.breakingArc (c.name a.1) (c.name a.2))
      discard (breakArc (c.name a.1) (c.name a.2))) w₂ = .ok () w₃) : w₃.model.Consistent := by
  have con₁ : w₁.model.Consistent := ranked ▸ con.ranked c
  have con₂ : w₂.model.Consistent :=
    forM_induct (fun _ v => v.model.Consistent) con₁ (fun _ _ _ _ _ => ensureAuxiliary_consistent) inputs
  exact (forM_breakArc_rewritten arcs).consistent con₂

theorem removeLoops_eq_ok [Zero α] [One α] [Neg α] (con : w.model.Consistent) (loop : w.model.hasLoop)
    (run : removeLoops resolver validate w = .ok u w') :
    ∃ c sources v, w.model.chosenCut resolver = .ok c ∧ w.model.Removal c sources v w'.model := by
  obtain ⟨c, w₁, w₂, w₃, chosen, breakable, ranked, inputs, arcs, final⟩ := removeLoops_stages loop run
  obtain ⟨sources, prepared⟩ := prepared_of_stages con breakable ranked inputs
  refine ⟨c, sources, w₂.model, chosen, prepared, ?_, fun ready => ?_⟩
  · rw [final]
    exact (forM_breakArc_rewritten arcs).symbols
  · rw [final]
    refine forM_breakArc_eq_ok prepared.extended.consistent (fun a ha => ?_) arcs
    exact ready _ (List.mem_map_of_mem ha)

end Edit

/-! ## What the cut and the run say of the model -/

namespace Model

/-- When the auxiliary names are free, no symbol has one. -/
theorem ne_auxiliaryName {m : Model α} {arcs : List (String × String)} {name : String}
    (unused : ∀ a ∈ arcs, m.hasSymbol (Symbol.auxiliaryName a.1) = false) (known : m.hasSymbol name) :
    ∀ a ∈ arcs, name ≠ Symbol.auxiliaryName a.1 := by
  intro a ha same
  rw [same, unused a ha] at known
  cases known

section
variable {m : Model α} {c : VariableCut} {resolver : Resolver}

@[simp] theorem columnNames_ranked (m : Model α) (c : VariableCut) (r : Role) :
    (m.ranked c).columnNames r = m.columnNames r := columnNames_withRanks _ _ r

@[simp] theorem count_ranked (m : Model α) (c : VariableCut) (r : Role) : (m.ranked c).count r = m.count r :=
  count_withRanks _ _ r

variable [Zero α]

@[simp] theorem coefficient_ranked (m : Model α) (c : VariableCut) (e : Equation) (i : Nat) (name : String) :
    (m.ranked c).coefficient e i name = m.coefficient e i name := coefficient_withRanks _ _ e i name

@[simp] theorem constant_ranked (m : Model α) (c : VariableCut) (e : Equation) (i : Nat) :
    (m.ranked c).constant e i = m.constant e i := rfl

@[simp] theorem inequalities_ranked (m : Model α) (c : VariableCut) : (m.ranked c).inequalities = m.inequalities := by
  have same (row : Row) (i : Nat) : (m.ranked c).inequality row i = m.inequality row i := by
    have coefficient : (m.ranked c).coefficient .ineq i = m.coefficient .ineq i :=
      funext (coefficient_ranked m c .ineq i)
    simp only [inequality, coefficient, constant_ranked]
  have rows : (m.ranked c).rows = m.rows := rfl
  simp only [inequalities, rows, same]

end

namespace Prepared

variable [Zero α] {m v : Model α} {c : VariableCut} {resolver : Resolver} {sources : List Symbol}
  (h : m.Prepared c sources v)
include h

/-- The source of an arc is a variable behind which a loop can be broken. -/
theorem exists_source (chosen : m.chosenCut resolver = .ok c) {a : String × String} (ha : a ∈ c.arcs) :
    ∃ s ∈ m.symbols, s.name = a.1 ∧ s.role.breakable := by
  obtain ⟨e, he, rfl⟩ := List.mem_map.1 ha
  obtain ⟨s, hs, -, name, role⟩ := exists_symbol (chosenCut_eq_ok.1 chosen).1 e.1
  exact ⟨s, hs, name, role ▸ h.breakable e he⟩

/-- A symbol from before is still there. -/
theorem exists_of_mem {s : Symbol} (hs : s ∈ m.symbols) :
    ∃ s' ∈ v.symbols, s'.name = s.name ∧ s'.role = s.role ∧ s'.rank = rankIn c.graph c.cut.order s := by
  obtain ⟨s', hs', e⟩ := h.extended.exists_of_mem (List.mem_map_of_mem hs)
  have name := Symbol.name_eq_of_unplaced e
  have role := Symbol.role_eq_of_unplaced e
  exact ⟨s', hs', name, role, congrArg Symbol.rank e⟩

/-- The sources can be broken once each has an input of its auxiliary name. -/
theorem hasAuxiliary (chosen : m.chosenCut resolver = .ok c)
    (inputs : ∀ a ∈ c.arcs, ∃ x ∈ v.symbols, x.name = Symbol.auxiliaryName a.1 ∧ x.role = .input) :
    ∀ a ∈ c.arcs, v.HasAuxiliary a.1 := by
  intro a ha
  obtain ⟨s, hs, name, breakable⟩ := h.exists_source chosen ha
  obtain ⟨s', hs', name', role', -⟩ := h.exists_of_mem hs
  exact ⟨⟨s', hs', name'.trans name, role' ▸ breakable⟩, inputs a ha⟩

/-- An auxiliary symbol that was not there before is an input. -/
theorem auxiliary_of_fresh {a : String × String} (ha : a ∈ c.arcs)
    (fresh : m.hasSymbol (Symbol.auxiliaryName a.1) = false) :
    ∃ x ∈ v.symbols, x.name = Symbol.auxiliaryName a.1 ∧ x.role = .input := by
  have added := (h.missing a.1).2 ⟨List.mem_map_of_mem ha, fresh⟩
  obtain ⟨s, hs, e⟩ := List.mem_map.1 added
  obtain ⟨x, hx, same⟩ := h.extended.exists_of_mem_sources hs
  rw [← e]
  exact ⟨x, hx, congrArg Symbol.name same, congrArg Symbol.role same⟩

theorem hasAuxiliary_of_fresh (chosen : m.chosenCut resolver = .ok c)
    (fresh : ∀ a ∈ c.arcs, m.hasSymbol (Symbol.auxiliaryName a.1) = false) : ∀ a ∈ c.arcs, v.HasAuxiliary a.1 :=
  h.hasAuxiliary chosen fun a ha => h.auxiliary_of_fresh ha (fresh a ha)

end Prepared

namespace Removal

variable [Zero α] [One α] [Neg α] {m v m' : Model α} {c : VariableCut} {resolver : Resolver} {sources : List Symbol}
  (h : m.Removal c sources v m')
include h

/-- The sources can be broken once each has an input of its auxiliary name in the result. -/
theorem hasAuxiliary (chosen : m.chosenCut resolver = .ok c)
    (inputs : ∀ a ∈ c.arcs, ∃ x ∈ m'.symbols, x.name = Symbol.auxiliaryName a.1 ∧ x.role = .input) :
    ∀ a ∈ c.arcs, v.HasAuxiliary a.1 :=
  h.toPrepared.hasAuxiliary chosen fun a ha => h.symbols ▸ inputs a ha

theorem auxiliary_of_fresh {a : String × String} (ha : a ∈ c.arcs)
    (fresh : m.hasSymbol (Symbol.auxiliaryName a.1) = false) :
    ∃ x ∈ m'.symbols, x.name = Symbol.auxiliaryName a.1 ∧ x.role = .input :=
  h.symbols ▸ h.toPrepared.auxiliary_of_fresh ha fresh

theorem broken_breakArcs (ready : ∀ a ∈ c.arcs, v.HasAuxiliary a.1) (d : Inequality α) :
    Inequality.Broken c.arcs d (d.breakArcs c.arcs) :=
  Inequality.broken_breakArcs d c.arcs (Inequality.plain_of_hasAuxiliary h.extended.consistent ready)

/-- The inequalities of the result. -/
theorem inequalities_eq (ready : ∀ a ∈ c.arcs, v.HasAuxiliary a.1) :
    m'.inequalities = m.inequalities.map (·.breakArcs c.arcs) ++ c.arcs.flatMap Inequality.pins := by
  rw [(h.broken ready).inequalities, h.extended.inequalities_eq, inequalities_ranked]

end Removal
end Model
end LoopFree
