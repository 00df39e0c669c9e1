/-
  LoopFree.Proofs.Reuse — auxiliary symbols that were there before the run.

  A symbol that has the auxiliary name of a source is used as it is. The run does not ask
  what kind of symbol it is, and writes over what its column holds in a row whose source
  moves. `ReadyFor` says that neither matters: the symbol is an input, and its column is
  zero in those rows. `readyFor_iff`: exactly then each auxiliary symbol of the result is
  an input and, where every one has the value of its variable, the result has the
  residual of the original rows and zeros for the pins; and then the feasible points of
  the result are the feasible points of the original with those values.
-/

import LoopFree.Proofs.Equivalence

namespace LoopFree

variable {α : Type}

namespace Model

/-- What is there of the auxiliary symbols of the arcs does not get in the way. -/
structure ReadyFor [Zero α] (m : Model α) (arcs : List (String × String)) : Prop where
  inputs : ∀ a ∈ arcs, ∀ x ∈ m.symbols, x.name = Symbol.auxiliaryName a.1 → x.role = .input
  columns : ∀ a ∈ arcs, ∀ i row, m.rows.ineq[i]? = some row → row.defines = a.2 → a.1 ∈ row.depends →
    m.coefficient .ineq i (Symbol.auxiliaryName a.1) = 0

/-- The auxiliary symbols of the arcs are inputs. -/
def AuxiliaryInputs (m : Model α) (arcs : List (String × String)) : Prop :=
  ∀ a ∈ arcs, ∃ x ∈ m.symbols, x.name = Symbol.auxiliaryName a.1 ∧ x.role = .input

/-- Each auxiliary input of the arcs has the value of its variable. -/
def PinnedAt (m : Model α) (arcs : List (String × String)) (p : Point α) : Prop :=
  ∀ a ∈ arcs, m.value? p (Symbol.auxiliaryName a.1) = m.value? p a.1

/-- A point of `m'` at the columns of `m`. -/
def restrictPoint [Zero α] (m m' : Model α) (p : Point α) : Point α :=
  { p with input := (m.columnNames .input).map fun n => (m'.value? p n).getD 0 }

section
variable {m : Model α} {name : String} {p : Point α} (con : m.Consistent) (ready : m.HasAuxiliary name)
include con ready

theorem HasAuxiliary.exists_value_source (fits : m.Fits p) : ∃ x, m.value? p name = some x := by
  obtain ⟨⟨s, hs, rfl, breakable⟩, -⟩ := ready
  obtain ⟨t, ht⟩ := Role.exists_term?_of_breakable breakable
  exact con.exists_value? fits hs ht

theorem HasAuxiliary.exists_value_auxiliary (fits : m.Fits p) :
    ∃ x, m.value? p (Symbol.auxiliaryName name) = some x := by
  obtain ⟨-, y, hy, e, input⟩ := ready
  rw [← e]
  exact con.exists_value? fits hy (t := .input) (by rw [input]; rfl)

theorem HasAuxiliary.value_source (val : String → α) : m.value? (m.pointOf val) name = some (val name) := by
  obtain ⟨⟨s, hs, rfl, breakable⟩, -⟩ := ready
  obtain ⟨t, ht⟩ := Role.exists_term?_of_breakable breakable
  exact con.value?_pointOf hs ht val

theorem HasAuxiliary.value_auxiliary (val : String → α) :
    m.value? (m.pointOf val) (Symbol.auxiliaryName name) = some (val (Symbol.auxiliaryName name)) := by
  obtain ⟨-, y, hy, e, input⟩ := ready
  rw [← e]
  exact con.value?_pointOf hy (t := .input) (by rw [input]; rfl) val

end

namespace Removal

section
variable [CommRing α] {m v m' : Model α} {c : VariableCut} {sources : List Symbol}
  (h : m.Removal c sources v m') (ready : ∀ a ∈ c.arcs, v.HasAuxiliary a.1)
include h ready

theorem hasAuxiliary_result : ∀ a ∈ c.arcs, m'.HasAuxiliary a.1 :=
  fun a ha => (ready a ha).frame (h.broken ready).frame

/-- Every point of the result, and its restriction, is given by names. -/
theorem restrictPoint_eq {p : Point α} (fits : m'.Fits p) :
    m.restrictPoint m' p = m.pointOf fun n => (m'.value? p n).getD 0 := by
  have e := (h.broken ready).consistent.eq_pointOf fits fun _ => 0
  have state := congrArg Point.state e
  have discrete := congrArg Point.discrete e
  have continuous := congrArg Point.continuous e
  simp only [pointOf] at state discrete continuous
  rw [h.columnNames_of_ne ready (by decide)] at state discrete continuous
  rw [restrictPoint, pointOf, ← state, ← discrete, ← continuous]

/-- The residual of the result where the auxiliary inputs are pinned. -/
theorem residual_of_pinned {val : String → α} (pinned : ∀ a ∈ c.arcs, val (Symbol.auxiliaryName a.1) = val a.1) :
    m'.residual (m'.pointOf val) = .ok (m.inequalities.map (fun d => d.excess m val +
      ∑ s ∈ d.moved c.arcs, d.coefficient (Symbol.auxiliaryName s) * val (Symbol.auxiliaryName s)) ++
        List.replicate (2 * c.arcs.length) 0) := by
  have rows : (m.inequalities.map (·.breakArcs c.arcs)).map (·.excess m' val) = m.inequalities.map fun d =>
      d.excess m val + ∑ s ∈ d.moved c.arcs, d.coefficient (Symbol.auxiliaryName s) * val (Symbol.auxiliaryName s) := by
    rw [List.map_map]
    refine List.map_congr_left fun d hd => ?_
    rw [Function.comp_apply, h.excess_eq ready val hd]
    congr 1
    refine Finset.sum_congr rfl fun s hs => ?_
    exact d.gain_of_pinned (pinned _ (Inequality.mem_moved.1 hs).2)
  have pins : (c.arcs.flatMap Inequality.pins).map (·.excess m' val) = List.replicate (2 * c.arcs.length) 0 := by
    rw [List.eq_replicate_iff]
    constructor
    · rw [List.length_map]
      induction c.arcs with
      | nil => rfl
      | cons a arcs ih =>
        rw [List.flatMap_cons, List.length_append, ih, List.length_cons]
        simp only [Inequality.pins, List.length_cons, List.length_nil]
        omega
    · intro x hx
      obtain ⟨d, hd, rfl⟩ := List.mem_map.1 hx
      obtain ⟨a, ha, hd⟩ := List.mem_flatMap.1 hd
      have zero : val a.1 - val (Symbol.auxiliaryName a.1) = 0 := by rw [pinned a ha, sub_self]
      rcases List.mem_cons.1 hd with rfl | hd
      · rw [h.excess_pin ready val ha, zero, mul_zero]
      · rw [List.mem_singleton.1 hd, h.excess_pin ready val ha, zero, mul_zero]
  rw [(h.broken ready).consistent.residual_pointOf, h.inequalities_eq ready, List.map_append, rows, pins]

/-- Pinned points are those whose names are. -/
theorem pinnedAt_iff {p : Point α} (fits : m'.Fits p) : m'.PinnedAt c.arcs p ↔
    ∀ a ∈ c.arcs, (m'.value? p (Symbol.auxiliaryName a.1)).getD 0 = (m'.value? p a.1).getD 0 := by
  have con' := (h.broken ready).consistent
  refine forall_congr' fun a => forall_congr' fun ha => ?_
  obtain ⟨x, hx⟩ := (h.hasAuxiliary_result ready a ha).exists_value_source con' fits
  obtain ⟨y, hy⟩ := (h.hasAuxiliary_result ready a ha).exists_value_auxiliary con' fits
  simp [hx, hy]

/-- At the point where a source and its auxiliary input are 1 and all else is 0, a row
    that the source moves out of shows what the auxiliary column held. -/
theorem coefficient_eq_zero_of_residual (con : m.Consistent)
    (same : ∀ p, m'.Fits p → m'.PinnedAt c.arcs p → ∃ r, m.residual (m.restrictPoint m' p) = .ok r ∧
      m'.residual p = .ok (r ++ List.replicate (2 * c.arcs.length) 0))
    {a : String × String} (ha : a ∈ c.arcs) {d : Inequality α} (hd : d ∈ m.inequalities) (defines : d.row.defines = a.2)
    (needed : a.1 ∈ d.row.depends) : d.coefficient (Symbol.auxiliaryName a.1) = 0 := by
  have con' := (h.broken ready).consistent
  have plain := Inequality.plain_of_hasAuxiliary con' (h.hasAuxiliary_result ready)
  let one : String → α := fun n => if n = a.1 ∨ n = Symbol.auxiliaryName a.1 then 1 else 0
  have fits := m'.fits_pointOf one
  let val : String → α := fun n => (m'.value? (m'.pointOf one) n).getD 0
  have source : ∀ b ∈ c.arcs, val b.1 = if b.1 = a.1 then 1 else 0 := by
    intro b hb
    have e := (h.hasAuxiliary_result ready b hb).value_source con' one
    simp only [val, e, Option.getD_some, one, plain b hb a ha, or_false]
  have auxiliary : ∀ b ∈ c.arcs, val (Symbol.auxiliaryName b.1) = if b.1 = a.1 then 1 else 0 := by
    intro b hb
    have e := (h.hasAuxiliary_result ready b hb).value_auxiliary con' one
    have inj : Symbol.auxiliaryName b.1 = Symbol.auxiliaryName a.1 ↔ b.1 = a.1 :=
      ⟨Symbol.auxiliaryName_inj, congrArg _⟩
    simp only [val, e, Option.getD_some, one, (plain a ha b hb).symm, inj, false_or]
  have pinned : ∀ b ∈ c.arcs, val (Symbol.auxiliaryName b.1) = val b.1 := by
    intro b hb
    rw [auxiliary b hb, source b hb]
  obtain ⟨r, original, result⟩ := same _ fits ((h.pinnedAt_iff ready fits).2 pinned)
  have point : m'.pointOf one = m'.pointOf val := con'.eq_pointOf fits fun _ => 0
  rw [h.restrictPoint_eq ready fits, con.residual_pointOf, Except.ok.injEq] at original
  rw [point, h.residual_of_pinned ready pinned, ← original, Except.ok.injEq] at result
  have row := List.map_inj_left.1 (List.append_cancel_right result) d hd
  have moved : a.1 ∈ d.moved c.arcs := Inequality.mem_moved.2 ⟨needed, by rw [defines]; exact ha⟩
  have sum : ∑ s ∈ d.moved c.arcs, d.coefficient (Symbol.auxiliaryName s) * val (Symbol.auxiliaryName s) =
      d.coefficient (Symbol.auxiliaryName a.1) := by
    rw [Finset.sum_eq_single a.1]
    · rw [auxiliary a ha, if_pos rfl, mul_one]
    · intro s hs ne
      rw [auxiliary _ (Inequality.mem_moved.1 hs).2, if_neg ne, mul_zero]
    · exact fun absent => absurd moved absent
  rw [← sum]
  exact left_eq_add.1 row.symm

end
end Removal
section
variable [CommRing α] {m v m' : Model α} {c : VariableCut} {sources : List Symbol} {resolver : Resolver}
  (h : m.Removal c sources v m')
include h

/-- Auxiliary symbols are inputs when those that were there before are. -/
theorem ReadyFor.auxiliaryInputs (ready : m.ReadyFor c.arcs) : m'.AuxiliaryInputs c.arcs := by
  intro a ha
  cases known : m.hasSymbol (Symbol.auxiliaryName a.1) with
  | false => exact h.auxiliary_of_fresh ha known
  | true =>
    obtain ⟨x, hx, e⟩ : ∃ x ∈ m.symbols, x.name = Symbol.auxiliaryName a.1 := by simpa [hasSymbol] using known
    obtain ⟨x', hx', name, role, -⟩ := h.exists_of_mem hx
    rw [h.symbols]
    exact ⟨x', hx', name.trans e, role.trans (ready.inputs a ha x hx e)⟩

omit h in
/-- Nothing is lost where the auxiliary columns were zero. -/
theorem ReadyFor.sum_eq_zero (ready : m.ReadyFor c.arcs) {d : Inequality α} (hd : d ∈ m.inequalities)
    (val : String → α) :
    ∑ s ∈ d.moved c.arcs, d.coefficient (Symbol.auxiliaryName s) * val (Symbol.auxiliaryName s) = 0 := by
  obtain ⟨⟨row, i⟩, hrow, rfl⟩ := List.mem_map.1 hd
  refine Finset.sum_eq_zero fun s hs => ?_
  obtain ⟨needed, arc⟩ := Inequality.mem_moved.1 hs
  have zero := ready.columns _ arc i row (List.mk_mem_zipIdx_iff_getElem?.1 hrow) rfl needed
  show m.coefficient .ineq i _ * _ = 0
  rw [zero, zero_mul]

theorem ReadyFor.hasAuxiliary (ready : m.ReadyFor c.arcs) (chosen : m.chosenCut resolver = .ok c) :
    ∀ a ∈ c.arcs, v.HasAuxiliary a.1 :=
  h.hasAuxiliary chosen (ready.auxiliaryInputs h)

/-- The residual of the result at pinned points is the original one, and zeros. -/
theorem ReadyFor.residual_eq (ready : m.ReadyFor c.arcs) (con : m.Consistent) (chosen : m.chosenCut resolver = .ok c)
    {p : Point α} (fits : m'.Fits p) (pinned : m'.PinnedAt c.arcs p) :
    ∃ r, m.residual (m.restrictPoint m' p) = .ok r ∧
      m'.residual p = .ok (r ++ List.replicate (2 * c.arcs.length) 0) := by
  have inputs := ready.hasAuxiliary h chosen
  let val : String → α := fun n => (m'.value? p n).getD 0
  have point : p = m'.pointOf val := (h.broken inputs).consistent.eq_pointOf fits fun _ => 0
  have rows : m.inequalities.map (fun d => d.excess m val +
      ∑ s ∈ d.moved c.arcs, d.coefficient (Symbol.auxiliaryName s) * val (Symbol.auxiliaryName s)) =
      m.inequalities.map (·.excess m val) := by
    refine List.map_congr_left fun d hd => ?_
    rw [ready.sum_eq_zero hd val, add_zero]
  refine ⟨_, by rw [h.restrictPoint_eq inputs fits]; exact con.residual_pointOf val, ?_⟩
  calc m'.residual p
      = m'.residual (m'.pointOf val) := congrArg _ point
    _ = _ := by rw [h.residual_of_pinned inputs ((h.pinnedAt_iff inputs fits).1 pinned), rows]

/-- A result with inputs and that residual comes from a model that was ready. -/
theorem Removal.readyFor (con : m.Consistent) (chosen : m.chosenCut resolver = .ok c)
    (inputs : m'.AuxiliaryInputs c.arcs) (same : ∀ p, m'.Fits p → m'.PinnedAt c.arcs p →
      ∃ r, m.residual (m.restrictPoint m' p) = .ok r ∧
        m'.residual p = .ok (r ++ List.replicate (2 * c.arcs.length) 0)) : m.ReadyFor c.arcs := by
  have ready := h.hasAuxiliary chosen inputs
  refine ⟨?_, ?_⟩
  · intro a ha x hx e
    obtain ⟨x', hx', name, role, -⟩ := h.exists_of_mem hx
    obtain ⟨y, hy, name', input⟩ := inputs a ha
    rw [← h.symbols] at hx'
    have same : x' = y := (h.broken ready).consistent.eq_of_name_eq hx' hy (by rw [name, e, name'])
    rw [← role, same, input]
  · intro a ha i row hrow defines needed
    have hd : m.inequality row i ∈ m.inequalities :=
      List.mem_map_of_mem (List.mk_mem_zipIdx_iff_getElem?.2 hrow)
    exact h.coefficient_eq_zero_of_residual ready con same ha hd defines needed

end

section
variable [CommRing α] [LinearOrder α] [IsStrictOrderedRing α] {m v m' : Model α} {c : VariableCut}
  {sources : List Symbol}

/-- When a point of the result is feasible without tolerance: the auxiliary inputs are
    pinned, and the original rows hold without what the auxiliary columns held in them. -/
theorem Removal.feasible_zero_iff (h : m.Removal c sources v m') (ready : ∀ a ∈ c.arcs, v.HasAuxiliary a.1)
    {p : Point α} (fits : m'.Fits p) : m'.feasible 0 p = .ok true ↔ m'.PinnedAt c.arcs p ∧
      ∀ d ∈ m.inequalities, d.excess m (fun n => (m'.value? p n).getD 0) + ∑ s ∈ d.moved c.arcs,
        d.coefficient (Symbol.auxiliaryName s) * (m'.value? p (Symbol.auxiliaryName s)).getD 0 ≤ 0 := by
  let val : String → α := fun n => (m'.value? p n).getD 0
  have point : p = m'.pointOf val := (h.broken ready).consistent.eq_pointOf fits fun _ => 0
  have result := h.feasible_iff ready val 0
  rw [← point] at result
  have pinned : (∀ a ∈ c.arcs, |val (Symbol.auxiliaryName a.1) - val a.1| ≤ 0) ↔ m'.PinnedAt c.arcs p := by
    rw [h.pinnedAt_iff ready fits]
    simp only [abs_nonpos_iff, sub_eq_zero, val]
  rw [result, pinned, and_comm]
  refine and_congr_right fun at_p => ?_
  have values := (h.pinnedAt_iff ready fits).1 at_p
  refine forall_congr' fun d => forall_congr' fun hd => ?_
  have gains : ∑ s ∈ d.moved c.arcs, d.gain val s =
      ∑ s ∈ d.moved c.arcs, d.coefficient (Symbol.auxiliaryName s) * val (Symbol.auxiliaryName s) := by
    refine Finset.sum_congr rfl fun s hs => ?_
    exact d.gain_of_pinned (values _ (Inequality.mem_moved.1 hs).2)
  rw [gains]

end

/-- Reuse of auxiliary symbols that were there before keeps the meaning exactly when the
    model is ready for it. When they are inputs but their columns hold something, the
    result drops what they held in the rows that a source moves out of. -/
theorem readyFor_iff [CommRing α] [LinearOrder α] [IsStrictOrderedRing α] {w w' : Workspace α} {resolver : Resolver}
    {validate : Bool} {c : VariableCut} (valid : (w.model.validate {}).isValid) (loop : w.model.hasLoop)
    (chosen : w.model.chosenCut resolver = .ok c) (run : Edit.removeLoops resolver validate w = .ok () w') :
    (w.model.ReadyFor c.arcs ↔ w'.model.AuxiliaryInputs c.arcs ∧
      ∀ p, w'.model.Fits p → w'.model.PinnedAt c.arcs p →
        ∃ r, w.model.residual (w.model.restrictPoint w'.model p) = .ok r ∧
          w'.model.residual p = .ok (r ++ List.replicate (2 * c.arcs.length) 0)) ∧
    (w.model.ReadyFor c.arcs → ∀ p, w'.model.Fits p → (w'.model.feasible 0 p = .ok true ↔
      w.model.feasible 0 (w.model.restrictPoint w'.model p) = .ok true ∧ w'.model.PinnedAt c.arcs p)) ∧
    (w'.model.AuxiliaryInputs c.arcs → ∀ p, w'.model.Fits p → (w'.model.feasible 0 p = .ok true ↔
      w'.model.PinnedAt c.arcs p ∧
        ∀ d ∈ w.model.inequalities, d.excess w.model (fun n => (w'.model.value? p n).getD 0) + ∑ s ∈ d.moved c.arcs,
          d.coefficient (Symbol.auxiliaryName s) * (w'.model.value? p (Symbol.auxiliaryName s)).getD 0 ≤ 0)) := by
  have con := isValid_iff_consistent.1 valid
  obtain ⟨c', sources, v, chosen', h⟩ := Edit.removeLoops_eq_ok con loop run
  obtain rfl : c = c' := Except.ok.inj (chosen.symm.trans chosen')
  refine ⟨⟨fun ready => ⟨ready.auxiliaryInputs h, fun p fits pinned => ready.residual_eq h con chosen fits pinned⟩,
    fun given => h.readyFor con chosen given.1 given.2⟩, ?_, ?_⟩
  · intro ready p fits
    have inputs := ready.hasAuxiliary h chosen
    have original : w.model.feasible 0 (w.model.restrictPoint w'.model p) = .ok true ↔
        ∀ d ∈ w.model.inequalities, d.excess w.model (fun n => (w'.model.value? p n).getD 0) ≤ 0 := by
      rw [h.restrictPoint_eq inputs fits, con.feasible_pointOf, Except.ok.injEq, List.all_eq_true]
      simp only [decide_eq_true_eq]
    rw [h.feasible_zero_iff inputs fits, original, and_comm]
    refine and_congr_left fun _ => ?_
    refine forall_congr' fun d => forall_congr' fun hd => ?_
    rw [ready.sum_eq_zero hd fun n => (w'.model.value? p n).getD 0, add_zero]
  · intro inputs p fits
    exact h.feasible_zero_iff (h.hasAuxiliary chosen inputs) fits

/-- The input of the coupled variables has the auxiliary name of `b` and a zero column. -/
theorem readyFor_iff_coupled : ∃ c w', (coupled "b_aux" 0).chosenCut breakTwice = .ok c ∧
    c.arcs = [("b", "a"), ("b", "b"), ("b", "a")] ∧
    Edit.removeLoops breakTwice true ⟨coupled "b_aux" 0, [], []⟩ = .ok () w' ∧ w'.model.AuxiliaryInputs c.arcs ∧
    ∀ p, w'.model.Fits p → (w'.model.feasible 0 p = .ok true ↔
      (coupled "b_aux" 0).feasible 0 ((coupled "b_aux" 0).restrictPoint w'.model p) = .ok true ∧
        w'.model.PinnedAt c.arcs p) := by
  have cut : ((coupled "b_aux" 0).chosenCut breakTwice).toOption.map (·.arcs) =
      some [("b", "a"), ("b", "b"), ("b", "a")] := by decide +kernel
  have succeeds : (Edit.removeLoops breakTwice true).succeeds ⟨coupled "b_aux" 0, [], []⟩ := by decide +kernel
  obtain ⟨c, chosen, arcs⟩ := exists_chosenCut cut
  obtain ⟨_, w', run⟩ := Edit.exists_of_succeeds succeeds
  have ready : (coupled "b_aux" 0).ReadyFor c.arcs := by
    rw [arcs]
    constructor
    · decide
    · intro a ha i row hrow _ _
      have sources : ∀ a ∈ [("b", "a"), ("b", "b"), ("b", "a")], a.1 = "b" := by decide
      have column : ∀ i < 4, (coupled "b_aux" 0).coefficient .ineq i (Symbol.auxiliaryName "b") = 0 := by decide +kernel
      obtain ⟨inside, -⟩ := List.getElem?_eq_some_iff.1 hrow
      rw [sources a ha]
      exact column i inside
  have means := readyFor_iff (by decide +kernel) (by decide) chosen run
  exact ⟨c, w', chosen, arcs, run, (means.1.1 ready).1, means.2.1 ready⟩

/-- With a column that is not zero the result has feasible points that the original has not. -/
theorem exists_feasible_of_used_column : ∃ w',
    Edit.removeLoops breakTwice true ⟨coupled "b_aux" 1, [], []⟩ = .ok () w' ∧
    w'.model.feasible 0 ⟨[], [5], [], [10, 5]⟩ = .ok true ∧
    (coupled "b_aux" 1).feasible 0 ⟨[], [5], [], [10, 5]⟩ = .ok false := by
  have succeeds : (Edit.removeLoops breakTwice true).succeeds ⟨coupled "b_aux" 1, [], []⟩ := by decide +kernel
  have result : (match Edit.removeLoops breakTwice true ⟨coupled "b_aux" 1, [], []⟩ with
      | .ok _ w' => w'.model.feasible 0 ⟨[], [5], [], [10, 5]⟩
      | .error f _ => .error f) = .ok true := by decide +kernel
  obtain ⟨_, w', run⟩ := Edit.exists_of_succeeds succeeds
  rw [run] at result
  exact ⟨w', run, result, by decide +kernel⟩

end Model
end LoopFree
