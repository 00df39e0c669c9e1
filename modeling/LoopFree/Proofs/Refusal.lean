/-
  LoopFree.Proofs.Refusal — a failed check leaves the model as it was.

  Removal checks the rows, the resolver's answer, the roles of the sources and, if asked
  to, the whole model. Two of the checks stand a second time among the changes: breaking
  an arc looks at the role of its source, and the result is validated. Neither can fail
  there (`unchecked_breakCut`): ranking has found that every vertex is the only symbol of
  its name, so the symbol an arc starts at has the role of the vertex
  (`breakableAt_of_rank`) and keeps it, and the changes keep a valid model valid. This is
  so for any model, corrupt ones included (`unchanged_of_checked`).
-/

import LoopFree.Proofs.Acyclicity
import LoopFree.Proofs.Validity

namespace LoopFree

variable {α : Type}

/-- The fault stands for a check that failed: of the rows, of the resolver's answer, of the
    sources or of the whole model. -/
def Fault.isChecked : Fault → Bool
  | undefinedVariable _ _ _ => true
  | unsupportedSource _ _ => true
  | unacceptable _ => true
  | invalidModel _ => true
  | _ => false

@[simp] theorem Fault.isChecked_outOfRange : outOfRange.isChecked = false := rfl
@[simp] theorem Fault.isChecked_wrongSize : wrongSize.isChecked = false := rfl
@[simp] theorem Fault.isChecked_inputColumn (index : Int) (columns : Nat) :
    (inputColumn index columns).isChecked = false := rfl

namespace Model

variable {m : Model α} {name : String} {s : Symbol} {r : Role} {f : Fault}

theorem lookup_eq_error (h : m.lookup name = .error f) : f = .symbolCount name (m.find name).length := by
  unfold lookup at h
  split at h
  · cases h
  · exact (Except.error.inj h).symm

theorem addSymbol_eq_error {s : Symbol} (h : m.addSymbol s = .error f) :
    m.hasSymbol s.name ∧ f = .nameTaken s.name := by
  unfold addSymbol at h
  split at h
  · rename_i taken
    exact ⟨taken, (Except.error.inj h).symm⟩
  · cases h

theorem ineqBlock_eq_error (h : ineqBlock r = .error f) : f = .noInequalityColumns r := by
  unfold ineqBlock at h
  split at h
  · cases h
  · exact (Except.error.inj h).symm

end Model

namespace Edit

variable {w w' : Workspace α}

/-! ## The changes make no checks -/

/-- The edit never stops at a failed check. -/
abbrev Unchecked {β : Type} (x : Edit α β) (w : Workspace α) : Prop := StopsWith (·.isChecked = false) x w

theorem unchecked_lookup (m : Model α) (name : String) : Unchecked (ofExcept (m.lookup name)) w := by
  rw [Unchecked, stopsWith_ofExcept]
  intro f h
  rw [Model.lookup_eq_error h]
  rfl

theorem unchecked_addSymbol (m : Model α) (s : Symbol) : Unchecked (ofExcept (m.addSymbol s)) w := by
  rw [Unchecked, stopsWith_ofExcept]
  intro f h
  rw [(Model.addSymbol_eq_error h).2]
  rfl

theorem unchecked_ineqBlock (r : Role) : Unchecked (ofExcept (Model.ineqBlock r) : Edit α Block) w := by
  rw [Unchecked, stopsWith_ofExcept]
  intro f h
  rw [Model.ineqBlock_eq_error h]
  rfl

theorem unchecked_writeBlock (b : Block) (r : Nat) (index : Option Int) (vs : List α) :
    Unchecked (writeBlock b r index vs) w := by
  simp only [writeBlock, stopsWith_bind, stopsWith_model, stopsWith_setModel, stopsWith_ofExcept, implies_true,
    true_and, and_true]
  intro m v _ f wrong
  rcases Mat.write_eq_error wrong with rfl | rfl <;> rfl

theorem unchecked_writePin [One α] [Neg α] (b : Block) (first : Nat) (index : Option Int) :
    Unchecked (writePin b first index) w := by
  simp only [writePin, stopsWith_bind, stopsWith_model, stopsWith_setModel, stopsWith_ofExcept, implies_true,
    true_and, and_true]
  intro m v _ f wrong
  rcases Mat.writePair_eq_error wrong with rfl | rfl <;> rfl

theorem unchecked_rank (g : VariableGraph) (order : List (Fin g.vertices.length)) : Unchecked (rank g order) w := by
  refine stopsWith_forM_of_forall fun b _ v => ?_
  simp only [rankVertex, stopsWith_bind, stopsWith_model, stopsWith_change, unchecked_lookup, implies_true, and_self]

section
variable [Zero α]

theorem unchecked_insertInputColumn (index : Int) : Unchecked (insertInputColumn index) w := by
  simp [insertInputColumn, openColumn]

theorem unchecked_addAuxiliary (source : String) : Unchecked (addAuxiliary source) w := by
  simp only [addAuxiliary, stopsWith_bind, stopsWith_model, stopsWith_setModel, stopsWith_note, stopsWith_pure,
    unchecked_lookup, unchecked_insertInputColumn, unchecked_addSymbol, implies_true, and_self]

theorem unchecked_ensureAuxiliary (name : String) : Unchecked (ensureAuxiliary name) w := by
  unfold ensureAuxiliary
  refine .step rfl ?_
  split
  · rw [stopsWith_discard]
    exact unchecked_addAuxiliary name
  · exact stopsWith_pure
  · exact stopsWith_throw.2 rfl

variable [Neg α]

theorem unchecked_moveCoefficient (r : Nat) (b : Block) (source auxiliary : Option Int) :
    Unchecked (moveCoefficient r b source auxiliary) w := by
  unfold moveCoefficient
  refine .step rfl (stopsWith_bind.2 ⟨stopsWith_ofExcept.2 fun f wrong => ?_, fun vs v _ => ?_⟩)
  · rw [Mat.read_eq_error wrong]
    rfl
  · exact stopsWith_bind.2 ⟨unchecked_writeBlock _ _ _ _, fun _ _ _ => unchecked_writeBlock _ _ _ _⟩

theorem unchecked_forM_moveInRow (rows : List Nat) (source : String) (b : Block) (column auxiliaryColumn : Option Int) :
    Unchecked (rows.forM (moveInRow source b column auxiliaryColumn)) w := by
  refine stopsWith_forM_of_forall fun r _ v => ?_
  simp [moveInRow, unchecked_moveCoefficient]

variable [One α]

/-- Breaking an arc stops at a check only where the source is none behind which a loop can be broken. -/
theorem unchecked_breakArc {source : String} (breakable : ∀ s ∈ w.model.find source, s.role.breakable) (sink : String) :
    Unchecked (breakArc source sink) w := by
  have rows (v : Workspace α) : Unchecked (appendIneqRows 2) v := by
    simp [appendIneqRows]
  unfold breakArc
  refine .step rfl (stopsWith_bind.2 ⟨unchecked_lookup _ _, fun auxiliary v _ => ?_⟩)
  refine stopsWith_bind.2 ⟨unchecked_lookup _ _, fun s v' found => ?_⟩
  have supported : s.role.breakable := by
    refine breakable s ?_
    rw [Model.lookup_eq_ok.1 (ofExcept_eq_ok.1 found).1]
    exact List.mem_singleton.2 rfl
  simp only [supported, Bool.not_true, Bool.false_eq_true, if_false, stopsWith_bind, stopsWith_change, stopsWith_pure,
    unchecked_ineqBlock, unchecked_forM_moveInRow, rows, unchecked_writePin, implies_true, and_self]

end
end Edit

/-! ## The sources keep their roles -/

namespace Model

/-- A loop can be broken behind every symbol of the name. -/
def BreakableAt (m : Model α) (name : String) : Prop := ∀ s ∈ m.find name, s.role.breakable

section
variable {m m' : Model α} {name : String}

theorem find_withRanks (m : Model α) (ρ : Symbol → Int) (name : String) :
    (m.withRanks ρ).find name = (m.find name).map fun s => { s with rank := ρ s } := by
  simp [find, List.filter_map, Function.comp_def]

theorem BreakableAt.withRanks (h : m.BreakableAt name) (ρ : Symbol → Int) : (m.withRanks ρ).BreakableAt name := by
  intro s hs
  rw [find_withRanks] at hs
  obtain ⟨t, ht, rfl⟩ := List.mem_map.1 hs
  exact h t ht

theorem BreakableAt.widened [Zero α] (h : m.BreakableAt name) (known : m.hasSymbol name) (wider : m.Widened m') :
    m'.BreakableAt name := by
  intro s hs
  have old : s.unplaced ∈ (m.find name).map (·.unplaced) := by
    rw [← wider.find_eq known]
    exact List.mem_map_of_mem hs
  obtain ⟨t, ht, e⟩ := List.mem_map.1 old
  rw [← Symbol.role_eq_of_unplaced e]
  exact h t ht

theorem BreakableAt.sameFrame (h : m.BreakableAt name) (frame : m.SameFrame m') : m'.BreakableAt name := by
  rw [BreakableAt, find, frame.symbols]
  exact h

end
end Model

namespace Edit

variable {w w' : Workspace α} {resolver : Resolver} {validate : Bool} {c : VariableCut}

/-- Ranking succeeds where every vertex is the only symbol of its name. -/
theorem find_eq_of_rank {g : VariableGraph} {order : List (Fin g.vertices.length)} (run : rank g order w = .ok () w') :
    ∀ v ∈ order, ∃ s, w.model.find (g.vertex v).name = [s] := by
  -- every step looks its vertex up after some ranks are written, which changes no name
  have found : ∀ x ∈ order.zipIdx 1, ∃ s, w.model.find (g.vertex x.1).name = [s] := by
    refine (forM_induct (fun past v => (∃ ρ, v.model = w.model.withRanks ρ) ∧
      ∀ x ∈ past, ∃ s, w.model.find (g.vertex x.1).name = [s]) ⟨⟨_, w.model.withRanks_rank.symm⟩, by simp⟩ ?_ run).2
    intro past x v v' _ done step
    obtain ⟨ranks, found⟩ := done
    refine ⟨withRanks_of_rankVertex ranks step, fun y hy => ?_⟩
    rcases List.mem_append.1 hy with hy | hy
    · exact found y hy
    · obtain ⟨⟨s, one⟩, -⟩ := rankVertex_eq_ok step
      obtain ⟨ρ, ranks⟩ := ranks
      rw [ranks, Model.find_withRanks] at one
      obtain ⟨t, others, e, -, none⟩ := List.map_eq_cons_iff.1 one
      rw [List.mem_singleton.1 hy]
      exact ⟨t, by rw [e, List.map_eq_nil_iff.1 none]⟩
  intro v hv
  obtain ⟨i, hi⟩ := List.mem_iff_getElem?.1 hv
  exact found (v, 1 + i) (List.mem_of_getElem? (i := i) (by rw [List.getElem?_zipIdx, hi]; rfl))

/-- When the ranks can be written, the roles of the vertices are those of the symbols. -/
theorem breakableAt_of_rank {m : Model α} (chosen : m.chosenCut resolver = .ok c)
    (breakable : ∀ a ∈ c.cut.arcs, (c.graph.vertex a.1).role.breakable)
    (model : w.model = { m with loopFound := true }) (run : rank c.graph c.cut.order w = .ok () w') :
    ∀ a ∈ c.cut.arcs, w'.model.BreakableAt (c.name a.1) ∧ w'.model.hasSymbol (c.name a.1) := by
  intro a ha
  obtain ⟨graph, -, breaks⟩ := Model.chosenCut_eq_ok.1 chosen
  -- the symbol the vertex was made from is the only one of its name
  obtain ⟨s, one⟩ := find_eq_of_rank run a.1 (breaks.mem_order a.1)
  obtain ⟨x, hx, -, name, role⟩ := Model.exists_symbol graph a.1
  have known : w.model.hasSymbol (c.name a.1) := by
    rw [model]
    exact Model.hasSymbol_of_chosenCut chosen a.1
  have same : x = s := by
    have mem : x ∈ w.model.find (c.graph.vertex a.1).name := by
      rw [model]
      exact List.mem_filter.2 ⟨hx, decide_eq_true name⟩
    rwa [one, List.mem_singleton] at mem
  rw [rank_eq_ok run]
  refine ⟨Model.BreakableAt.withRanks ?_ _, by rwa [Model.hasSymbol_withRanks]⟩
  intro t ht
  rw [VariableCut.name, one, List.mem_singleton] at ht
  rw [ht, ← same, role]
  exact breakable a ha

theorem unchecked_requireValid (con : w.model.Consistent) : Unchecked requireValid w := by
  intro f w' stops
  obtain ⟨-, -, -, invalid⟩ := requireValid_eq_error stops
  exact absurd (Model.isValid_iff_consistent.2 con) invalid

variable [Zero α] [One α] [Neg α]

/-- No arc stops at the role of its source: the symbols keep their roles, whatever arcs are broken. -/
theorem unchecked_forM_breakArc (breakable : ∀ a ∈ c.cut.arcs, w.model.BreakableAt (c.name a.1)) :
    Unchecked (c.cut.arcs.forM fun a => do
      note (.breakingArc (c.name a.1) (c.name a.2))
      discard (breakArc (c.name a.1) (c.name a.2))) w := by
  refine stopsWith_forM (fun _ v => w.model.SameFrame v.model) (.refl _) ?_ ?_
  · intro _ a v v' _ frame step
    obtain ⟨v₁, x, same, step⟩ := noted_breakArc_eq_ok step
    rw [← same] at frame
    exact frame.trans (breakArc_rewritten step).toSameFrame
  · intro _ a v ha frame
    refine .step rfl (stopsWith_discard.2 (unchecked_breakArc ?_ _))
    exact Model.BreakableAt.sameFrame (breakable a ha) frame

/-- After the checks the changes stop at no check. -/
theorem unchecked_breakCut {v : Workspace α} (run : chooseCut resolver validate w = .ok c v) :
    Unchecked (breakCut validate c) v := by
  obtain ⟨same, chosen, breakable, valid⟩ := chooseCut_eq_ok run
  simp only [breakCut, stopsWith_bind, stopsWith_change, stopsWith_note, true_and]
  intro _ v₁ marked _ v₂ noted
  obtain rfl := change_eq_ok.1 marked
  obtain rfl := note_eq_ok.1 noted
  refine ⟨unchecked_rank _ _, fun _ w₁ ranks => ⟨?_, fun _ w₂ inputs => ⟨?_, fun _ w₃ arcs => ?_⟩⟩⟩
  · exact stopsWith_forM_of_forall fun _ _ _ => unchecked_ensureAuxiliary _
  · refine unchecked_forM_breakArc fun a ha => ?_
    obtain ⟨ready, known⟩ := breakableAt_of_rank chosen breakable (by rw [same]) ranks a ha
    exact ready.widened known (forM_ensureAuxiliary_widened inputs).1
  · rw [stopsWith_ite]
    refine ⟨fun on => unchecked_requireValid ?_, fun _ => stopsWith_pure⟩
    have con : w.model.Consistent := Model.isValid_iff_consistent.1 (valid on)
    have ranked : w₁.model = w.model.ranked c := by
      rw [rank_eq_ok ranks, same]
      rfl
    exact consistent_of_stages con ranked inputs arcs

/-- A failed check is one of those made before the changes. -/
theorem chooseCut_eq_error_of_checked {f : Fault} {v : Workspace α}
    (run : removeLoops resolver validate w = .error f v) (checked : f.isChecked) :
    chooseCut resolver validate w = .error f v := by
  by_cases loop : w.model.hasLoop
  · rw [removeLoops_eq loop] at run
    rcases bind_eq_error.1 run with refused | ⟨c, v', chosen, stops⟩
    · exact refused
    · have unchecked : f.isChecked = false := unchecked_breakCut chosen f v stops
      rw [checked] at unchecked
      cases unchecked
  · rw [removeLoops_eq_of_not_hasLoop loop] at run
    cases run

end Edit

namespace Model

/-- A failed check leaves the model as it was and the log at the loop that was found; the
    role that is refused is that of an arc's source, and the report that of the given model.
    The changes that follow the checks never stop at one of these faults. -/
theorem unchanged_of_checked [Zero α] [One α] [Neg α] (w : Workspace α) (resolver : Resolver) (validate : Bool) :
    (∀ f v, Edit.removeLoops resolver validate w = .error f v → f.isChecked →
      v.model = w.model ∧ v.log = w.log ++ [.loopFound w.model.name] ∧
      (∀ name role, f = .unsupportedSource name role → ¬role.breakable ∧ ∃ c, w.model.chosenCut resolver = .ok c ∧
        ∃ a ∈ c.cut.arcs, (c.graph.vertex a.1).name = name ∧ (c.graph.vertex a.1).role = role) ∧
      (∀ report, f = .invalidModel report → validate ∧ report = w.model.validate {} ∧ ¬report.isValid)) ∧
    ∀ c v, Edit.chooseCut resolver validate w = .ok c v →
      ∀ f v', Edit.breakCut validate c v = .error f v' → ¬f.isChecked := by
  refine ⟨fun f v run checked => ?_, fun c v chosen f v' stops => ?_⟩
  · obtain ⟨same, log, cause⟩ := Edit.chooseCut_eq_error (Edit.chooseCut_eq_error_of_checked run checked)
    refine ⟨same, log, ?_⟩
    rcases cause with ⟨on, rfl, invalid⟩ | refused | ⟨c, chosen, a, ha, unsupported, rfl⟩
    · refine ⟨fun _ _ e => (nomatch e), fun report e => ⟨on, ?_⟩⟩
      rw [← Fault.invalidModel.inj e]
      exact ⟨rfl, invalid⟩
    · rcases chosenCut_eq_error.1 refused with undefined | ⟨_, -, ⟨-, rfl⟩ | ⟨_, _, -, -, rfl⟩⟩
      · obtain ⟨_, -, -, rfl⟩ := dependencyGraph_eq_error undefined
        exact ⟨fun _ _ e => (nomatch e), fun _ e => (nomatch e)⟩
      · exact ⟨fun _ _ e => (nomatch e), fun _ e => (nomatch e)⟩
      · exact ⟨fun _ _ e => (nomatch e), fun _ e => (nomatch e)⟩
    · refine ⟨fun name role e => ?_, fun _ e => (nomatch e)⟩
      obtain ⟨rfl, rfl⟩ := Fault.unsupportedSource.inj e
      exact ⟨unsupported, c, chosen, a, ha, rfl, rfl⟩
  · exact Bool.eq_false_iff.1 (Edit.unchecked_breakCut chosen f v' stops)

/-- Breaks the first arc and evaluates the second vertex first. -/
def breakForward : Resolver := fun _ _ => some { arcs := [(0, 1)], sequence := [1, 0] }

/-- The loop through the output cannot be broken behind the output. -/
theorem unchanged_of_checked_observed : ∃ v, Edit.removeLoops breakForward true ⟨observed, [], []⟩ =
      .error (.unsupportedSource "y" .output) v ∧ v.model = observed ∧ v.log = [.loopFound "observed"] ∧
    ∃ c, observed.chosenCut breakForward = .ok c ∧ ∃ a ∈ c.cut.arcs, (c.graph.vertex a.1).name = "y" := by
  have stops : (Edit.removeLoops breakForward true).fault? ⟨observed, [], []⟩ =
      some (.unsupportedSource "y" .output) := by decide +kernel
  obtain ⟨v, run⟩ := Edit.exists_of_fault? stops
  obtain ⟨unchanged, -⟩ := unchanged_of_checked ⟨observed, [], []⟩ breakForward true
  obtain ⟨model, log, source, -⟩ := unchanged _ v run rfl
  obtain ⟨-, c, chosen, a, ha, name, -⟩ := source "y" .output rfl
  exact ⟨v, run, model, log, c, chosen, a, ha, name⟩

end Model
end LoopFree
