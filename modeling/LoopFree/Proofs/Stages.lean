/-
  LoopFree.Proofs.Stages — the checks of loop removal and the changes after them.

  On a model with a loop, removal first chooses a cut and then breaks it
  (`removeLoops_eq`). `chooseCut` is all the checks: it validates if asked to, builds the
  graph, vets the resolver's answer and looks at the roles of the sources. Whether it
  succeeds or stops, the model is as before (`chooseCut_eq_ok`, `chooseCut_eq_error`).
  `breakCut` is all the changes.
-/

import LoopFree.Proofs.Dependency
import LoopFree.Proofs.Failure
import LoopFree.Proofs.Rewriting
import LoopFree.Proofs.Vetting

namespace LoopFree

variable {α : Type}

/-- Arcs to break and an order of the vertices, for a graph of variables. -/
structure VariableCut where
  graph : VariableGraph
  cut : Cut graph.vertices.length

namespace VariableCut

/-- The name of a vertex. -/
def name (c : VariableCut) (v : Fin c.graph.vertices.length) : String := (c.graph.vertex v).name

/-- The arcs by name. -/
def arcs (c : VariableCut) : List (String × String) := c.cut.arcs.map fun a => (c.name a.1, c.name a.2)

end VariableCut

namespace Model

/-- The cut that loop removal works with. -/
def chosenCut (m : Model α) (resolver : Resolver) : Except Fault VariableCut := do
  let g ← m.dependencyGraph
  match resolver _ g.graph with
  | none => .error .unresolved
  | some s => ((s.vet g.graph).mapError Fault.unacceptable).map fun c => ⟨g, c⟩

/-- The model with the ranks of a cut. -/
def ranked (m : Model α) (c : VariableCut) : Model α :=
  { m with loopFound := true }.withRanks (rankIn c.graph c.cut.order)

section
variable {m : Model α} {c : VariableCut} {resolver : Resolver} {f : Fault}

theorem chosenCut_eq_ok : m.chosenCut resolver = .ok c ↔ m.dependencyGraph = .ok c.graph ∧
    resolver _ c.graph.graph = some c.cut.toArcSet ∧ c.cut.Breaks c.graph.graph := by
  obtain ⟨g, cut⟩ := c
  unfold chosenCut
  cases hg : m.dependencyGraph with
  | error f => simp [bind, Except.bind]
  | ok graph =>
    simp only [bind, Except.bind, Except.ok.injEq]
    constructor
    · intro chosen
      cases hs : resolver _ graph.graph with
      | none => simp [hs] at chosen
      | some s =>
        simp only [hs] at chosen
        cases hc : s.vet graph.graph with
        | error e => simp [hc, Except.mapError, Except.map] at chosen
        | ok vetted =>
          simp only [hc, Except.mapError, Except.map, Except.ok.injEq, VariableCut.mk.injEq] at chosen
          obtain ⟨rfl, same⟩ := chosen
          obtain rfl := eq_of_heq same
          obtain ⟨rfl, breaks⟩ := ArcSet.vet_eq_ok.1 hc
          exact ⟨rfl, hs, breaks⟩
    · intro given
      obtain ⟨rfl, answer, breaks⟩ := given
      have vetted := ArcSet.vet_eq_ok.2 ⟨rfl, breaks⟩
      simp only [answer, vetted, Except.mapError, Except.map]

/-- There is no cut without a graph, without an answer, or with one that is not accepted. -/
theorem chosenCut_eq_error : m.chosenCut resolver = .error f ↔ m.dependencyGraph = .error f ∨
    ∃ g, m.dependencyGraph = .ok g ∧ ((resolver _ g.graph = none ∧ f = .unresolved) ∨
      ∃ s e, resolver _ g.graph = some s ∧ s.vet g.graph = .error e ∧ f = .unacceptable e) := by
  unfold chosenCut
  cases m.dependencyGraph with
  | error e => simp [bind, Except.bind]
  | ok g =>
    simp only [bind, Except.bind, reduceCtorEq, false_or, Except.ok.injEq, exists_eq_left']
    cases resolver _ g.graph with
    | none => simp [eq_comm]
    | some s => cases vetted : s.vet g.graph <;> simp [vetted, Except.mapError, Except.map, eq_comm]

/-- Every vertex has a symbol. -/
theorem hasSymbol_of_chosenCut (chosen : m.chosenCut resolver = .ok c) (v : Fin c.graph.vertices.length) :
    m.hasSymbol (c.name v) := by
  obtain ⟨s, hs, -, name, -⟩ := exists_symbol (chosenCut_eq_ok.1 chosen).1 v
  exact hasSymbol_iff_exists.2 ⟨s, hs, name⟩

theorem exists_chosenCut {arcs : List (String × String)}
    (h : (m.chosenCut resolver).toOption.map (·.arcs) = some arcs) :
    ∃ c, m.chosenCut resolver = .ok c ∧ c.arcs = arcs := by
  cases chosen : m.chosenCut resolver with
  | error f => simp [chosen, Except.toOption] at h
  | ok c =>
    simp only [chosen, Except.toOption, Option.map_some, Option.some.injEq] at h
    exact ⟨c, rfl, h⟩

end
end Model

namespace Edit

variable {w w' : Workspace α} {resolver : Resolver} {validate : Bool} {u : Unit} {f : Fault} {c : VariableCut}

/-! ## The single checks -/

theorem forM_warn_model {l : List (Issue Finding)} {u : PUnit} (run : forM l warn w = .ok u w') :
    w'.model = w.model ∧ w'.log = w.log := by
  refine forM_induct (fun _ v => v.model = w.model ∧ v.log = w.log) ⟨rfl, rfl⟩ ?_ run
  intro _ i v v' _ same step
  rw [← warn_eq_ok.1 step]
  exact same

theorem requireValid_eq_ok (run : requireValid w = .ok u w') :
    w'.model = w.model ∧ w'.log = w.log ∧ (w.model.validate {}).isValid := by
  obtain ⟨m, v, read, run⟩ := bind_eq_ok.1 run
  obtain ⟨rfl, rfl⟩ := model_eq_ok.1 read
  obtain ⟨_, v, warned, run⟩ := bind_eq_ok.1 run
  obtain ⟨same, log⟩ := forM_warn_model warned
  simp only [ite_eq_ok, throw_ne_ok, and_false, false_or, pure_eq_ok, true_and] at run
  obtain ⟨valid, rfl⟩ := run
  exact ⟨same, log, by simpa using valid⟩

theorem requireValid_eq_error (run : requireValid w = .error f w') : w'.model = w.model ∧ w'.log = w.log ∧
    f = .invalidModel (w.model.validate {}) ∧ ¬(w.model.validate {}).isValid := by
  rcases bind_eq_error.1 run with read | ⟨m, v, read, run⟩
  · exact (model_ne_error read).elim
  obtain ⟨rfl, rfl⟩ := model_eq_ok.1 read
  rcases bind_eq_error.1 run with warned | ⟨_, v, warned, run⟩
  · obtain ⟨_, i, v, -, -, stops⟩ := exists_step_of_forM_eq_error (fun _ _ => True) trivial
      (fun _ _ _ _ _ _ _ => trivial) warned
    exact (warn_ne_error stops).elim
  obtain ⟨same, log⟩ := forM_warn_model warned
  simp only [ite_eq_error, throw_eq_error, pure_ne_error, and_false, or_false] at run
  obtain ⟨invalid, rfl, rfl⟩ := run
  exact ⟨same, log, rfl, by simpa using invalid⟩

theorem requireValid_if_eq_ok (run : (if validate then requireValid else pure ()) w = .ok u w') :
    w'.model = w.model ∧ w'.log = w.log ∧ (validate → (w.model.validate {}).isValid) := by
  rcases ite_eq_ok.1 run with ⟨-, run⟩ | ⟨off, run⟩
  · obtain ⟨same, log, valid⟩ := requireValid_eq_ok run
    exact ⟨same, log, fun _ => valid⟩
  · obtain ⟨-, rfl⟩ := pure_eq_ok.1 run
    exact ⟨rfl, rfl, fun on => absurd on off⟩

theorem requireValid_if_eq_error (run : (if validate then requireValid else pure ()) w = .error f w') :
    w'.model = w.model ∧ w'.log = w.log ∧ validate ∧ f = .invalidModel (w.model.validate {}) ∧
      ¬(w.model.validate {}).isValid := by
  rcases ite_eq_error.1 run with ⟨on, run⟩ | ⟨-, run⟩
  · obtain ⟨same, log, cause⟩ := requireValid_eq_error run
    exact ⟨same, log, on, cause⟩
  · exact (pure_ne_error run).elim

section
variable {g : VariableGraph} {c : Cut g.vertices.length}

theorem checkSources_eq_ok (run : checkSources g c w = .ok u w') :
    w' = w ∧ ∀ a ∈ c.arcs, (g.vertex a.1).role.breakable := by
  have all := forM_induct (fun past v => v = w ∧ ∀ a ∈ past, (g.vertex a.1).role.breakable) ⟨rfl, by simp⟩ ?_ run
  · exact all
  intro past a v v' _ done step
  obtain ⟨rfl, done⟩ := done
  simp only [ite_eq_ok, throw_ne_ok, and_false, false_or, pure_eq_ok, true_and] at step
  obtain ⟨breakable, rfl⟩ := step
  refine ⟨rfl, fun b hb => ?_⟩
  rcases List.mem_append.1 hb with hb | hb
  · exact done b hb
  · rw [List.mem_singleton.1 hb]
    simpa using breakable

theorem checkSources_eq_error (run : checkSources g c w = .error f w') : w' = w ∧
    ∃ a ∈ c.arcs, ¬(g.vertex a.1).role.breakable ∧
      f = .unsupportedSource (g.vertex a.1).name (g.vertex a.1).role := by
  obtain ⟨_, a, v, ha, rfl, stops⟩ := exists_step_of_forM_eq_error (fun _ v => v = w) rfl (by
    intro _ a v v' _ same step
    simp only [ite_eq_ok, throw_ne_ok, and_false, false_or, pure_eq_ok, true_and] at step
    rw [← step.2, same]) run
  simp only [ite_eq_error, throw_eq_error, pure_ne_error, and_false, or_false] at stops
  obtain ⟨refused, rfl, rfl⟩ := stops
  exact ⟨rfl, a, ha, by simpa using refused, rfl⟩

end

/-! ## Choosing a cut -/

/-- All the checks, in their order. -/
def chooseCut (resolver : Resolver) (validate : Bool) : Edit α VariableCut := do
  let m ← model
  note (.loopFound m.name)
  if validate then requireValid
  let c ← ofExcept (m.chosenCut resolver)
  checkSources c.graph c.cut
  return c

theorem chooseCut_eq_ok (run : chooseCut resolver validate w = .ok c w') : w'.model = w.model ∧
    w.model.chosenCut resolver = .ok c ∧ (∀ a ∈ c.cut.arcs, (c.graph.vertex a.1).role.breakable) ∧
      (validate → (w.model.validate {}).isValid) := by
  obtain ⟨m, v, read, run⟩ := bind_eq_ok.1 run
  obtain ⟨rfl, rfl⟩ := model_eq_ok.1 read
  obtain ⟨_, w₁, noted, afterNote⟩ := bind_eq_ok.1 run
  obtain rfl := note_eq_ok.1 noted
  obtain ⟨_, w₂, checked, afterCheck⟩ := optional_bind_eq_ok afterNote
  obtain ⟨same, -, valid⟩ := requireValid_if_eq_ok checked
  simp only [bind_eq_ok, ofExcept_eq_ok, pure_eq_ok, and_assoc, exists_and_left, exists_eq_left'] at afterCheck
  obtain ⟨c', chosen, _, w₃, sources, rfl, rfl⟩ := afterCheck
  obtain ⟨rfl, breakable⟩ := checkSources_eq_ok sources
  exact ⟨same, chosen, breakable, valid⟩

/-- A check that fails leaves the model alone, and the log says no more than that there is a loop. -/
theorem chooseCut_eq_error (run : chooseCut resolver validate w = .error f w') :
    w'.model = w.model ∧ w'.log = w.log ++ [.loopFound w.model.name] ∧
      ((validate ∧ f = .invalidModel (w.model.validate {}) ∧ ¬(w.model.validate {}).isValid) ∨
        w.model.chosenCut resolver = .error f ∨
        ∃ c, w.model.chosenCut resolver = .ok c ∧ ∃ a ∈ c.cut.arcs, ¬(c.graph.vertex a.1).role.breakable ∧
          f = .unsupportedSource (c.name a.1) (c.graph.vertex a.1).role) := by
  rcases bind_eq_error.1 run with read | ⟨m, v, read, run⟩
  · exact (model_ne_error read).elim
  obtain ⟨rfl, rfl⟩ := model_eq_ok.1 read
  rcases bind_eq_error.1 run with noted | ⟨_, w₁, noted, run⟩
  · exact (note_ne_error noted).elim
  obtain rfl := note_eq_ok.1 noted
  rcases optional_bind_eq_error run with invalid | ⟨_, w₂, checked, run⟩
  · obtain ⟨same, log, cause⟩ := requireValid_if_eq_error invalid
    exact ⟨same, log, Or.inl cause⟩
  obtain ⟨same, log, -⟩ := requireValid_if_eq_ok checked
  rcases bind_eq_error.1 run with refused | ⟨c, w₃, accepted, run⟩
  · obtain ⟨none, rfl⟩ := ofExcept_eq_error.1 refused
    exact ⟨same, log, Or.inr (Or.inl none)⟩
  obtain ⟨chosen, rfl⟩ := ofExcept_eq_ok.1 accepted
  rcases bind_eq_error.1 run with unsupported | ⟨_, w₄, -, run⟩
  · obtain ⟨rfl, cause⟩ := checkSources_eq_error unsupported
    exact ⟨same, log, Or.inr (Or.inr ⟨c, chosen, cause⟩)⟩
  · exact (pure_ne_error run).elim

/-! ## Breaking it -/

/-- All the changes, in their order, and the closing validation. -/
def breakCut [Zero α] [One α] [Neg α] (validate : Bool) (c : VariableCut) : Edit α Unit := do
  change fun m => { m with loopFound := true }
  note (.breaking c.cut.arcs.length c.cut.sources.length)
  rank c.graph c.cut.order
  c.cut.sources.forM fun source => ensureAuxiliary (c.name source)
  c.cut.arcs.forM fun (source, sink) => do
    note (.breakingArc (c.name source) (c.name sink))
    discard (breakArc (c.name source) (c.name sink))
  if validate then requireValid

/-- A run that breaks a cut ranks the variables, sees to the auxiliary inputs and breaks the
    arcs, in this order. -/
theorem breakCut_eq_ok [Zero α] [One α] [Neg α] (run : breakCut validate c w = .ok u w') :
    ∃ w₁ w₂ w₃, w₁.model = w.model.ranked c ∧
      (c.cut.sources.forM fun v => ensureAuxiliary (c.name v)) w₁ = .ok () w₂ ∧
      (c.cut.arcs.forM fun a => do
        note (.breakingArc (c.name a.1) (c.name a.2))
        discard (breakArc (c.name a.1) (c.name a.2))) w₂ = .ok () w₃ ∧ w'.model = w₃.model := by
  obtain ⟨_, v₁, marked, run⟩ := bind_eq_ok.1 run
  obtain ⟨_, v₂, noted, run⟩ := bind_eq_ok.1 run
  obtain ⟨_, w₁, ranks, run⟩ := bind_eq_ok.1 run
  obtain ⟨_, w₂, inputs, run⟩ := bind_eq_ok.1 run
  obtain ⟨_, w₃, arcs, closing⟩ := bind_eq_ok.1 run
  obtain rfl := change_eq_ok.1 marked
  obtain rfl := note_eq_ok.1 noted
  exact ⟨w₁, w₂, w₃, rank_eq_ok ranks, inputs, arcs, (requireValid_if_eq_ok closing).1⟩

theorem ofExcept_chosenCut (m : Model α) {β : Type} (k : VariableCut → Edit α β) :
    (ofExcept (m.chosenCut resolver) >>= k) = (do
      let g ← ofExcept m.dependencyGraph
      let s ← ofOption .unresolved (resolver _ g.graph)
      let c ← ofExcept ((s.vet g.graph).mapError Fault.unacceptable)
      k ⟨g, c⟩) := by
  unfold Model.chosenCut
  cases m.dependencyGraph with
  | error f => rfl
  | ok g =>
    show (ofExcept (match resolver _ g.graph with
      | none => _
      | some s => _) >>= k) = (ofOption .unresolved (resolver _ g.graph) >>= _)
    cases resolver _ g.graph with
    | none => rfl
    | some s =>
      show (ofExcept (((s.vet g.graph).mapError Fault.unacceptable).map _) >>= k) =
        (ofExcept ((s.vet g.graph).mapError Fault.unacceptable) >>= _)
      cases s.vet g.graph <;> rfl

/-- On a model with a loop removal is the checks and then the changes. -/
theorem removeLoops_eq [Zero α] [One α] [Neg α] (loop : w.model.hasLoop) :
    removeLoops resolver validate w = (chooseCut resolver validate >>= breakCut validate) w := by
  have read {β : Type} (k : Model α → Edit α β) : (model >>= k) w = k w.model w := rfl
  simp only [removeLoops, chooseCut, bind_assoc]
  rw [read, read, loop]
  cases validate <;> simp [ofExcept_chosenCut, breakCut, bind_assoc, VariableCut.name]

theorem removeLoops_stages [Zero α] [One α] [Neg α] (loop : w.model.hasLoop)
    (run : removeLoops resolver validate w = .ok u w') :
    ∃ c w₁ w₂ w₃, w.model.chosenCut resolver = .ok c ∧ (∀ a ∈ c.cut.arcs, (c.graph.vertex a.1).role.breakable) ∧
      w₁.model = w.model.ranked c ∧
      (c.cut.sources.forM fun v => ensureAuxiliary (c.name v)) w₁ = .ok () w₂ ∧
      (c.cut.arcs.forM fun a => do
        note (.breakingArc (c.name a.1) (c.name a.2))
        discard (breakArc (c.name a.1) (c.name a.2))) w₂ = .ok () w₃ ∧ w'.model = w₃.model := by
  rw [removeLoops_eq loop] at run
  obtain ⟨c, v, chosen, run⟩ := bind_eq_ok.1 run
  obtain ⟨same, chosen, breakable, -⟩ := chooseCut_eq_ok chosen
  obtain ⟨w₁, w₂, w₃, ranked, stages⟩ := breakCut_eq_ok run
  exact ⟨c, w₁, w₂, w₃, chosen, breakable, same ▸ ranked, stages⟩

/-- On a model without a loop it notes that and does nothing. -/
theorem removeLoops_eq_of_not_hasLoop [Zero α] [One α] [Neg α] (free : ¬w.model.hasLoop) :
    removeLoops resolver validate w = .ok () { w with log := w.log ++ [.noLoop w.model.name] } := by
  have read {β : Type} (k : Model α → Edit α β) : (model >>= k) w = k w.model w := rfl
  rw [removeLoops, read, Bool.eq_false_iff.2 free]
  rfl

end Edit
end LoopFree
