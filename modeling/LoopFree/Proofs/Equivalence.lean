/-
  LoopFree.Proofs.Equivalence — loop removal keeps the meaning of a model.

  At values given by name the result computes the states and outputs of the original
  model, and a point is feasible exactly when each original inequality holds with what
  its moved sources gain and each auxiliary input is within the tolerance of its variable
  (`Removal.feasible_iff`). `removal_equivalent`: with fresh auxiliary inputs this is the
  original model, for every resolver, list of arcs, point and tolerance.
-/

import LoopFree.Proofs.Removal
import Mathlib.Algebra.Order.Group.Abs
import Mathlib.Algebra.Order.Ring.Defs
import Mathlib.Tactic.Linarith

namespace LoopFree

variable {α : Type}

theorem Role.exists_term?_of_breakable {r : Role} (breakable : r.breakable) : ∃ t, r.term? = some t := by
  revert breakable
  cases r <;> simp [breakable, term?]

namespace Model

/-- A point of `m` at the columns of `m'`: variables of `m` keep their values, other
    inputs have those of `fresh`. -/
def liftPoint (m m' : Model α) (fresh : String → α) (p : Point α) : Point α :=
  { p with input := (m'.columnNames .input).map fun n => (m.value? p n).getD (fresh n) }

/-! ## Broken arcs -/

namespace ArcsBroken

section
variable [CommRing α] {m m' : Model α} {arcs : List (String × String)} (h : ArcsBroken arcs m m')
  (con : m.Consistent) (ready : ∀ a ∈ arcs, m.HasAuxiliary a.1) (val : String → α)
include h con ready

/-- A row gains what its moved sources contribute. -/
theorem excess_eq (d : Inequality α) :
    (d.breakArcs arcs).excess m' val = d.excess m val + ∑ s ∈ d.moved arcs, d.gain val s := by
  rw [h.frame.excess_eq, Inequality.excess_breakArcs con _ _ ready]

theorem excess_pin {a : String × String} (ha : a ∈ arcs) (x : α) :
    (Inequality.pin a x).excess m' val = x * (val a.1 - val (Symbol.auxiliaryName a.1)) := by
  rw [h.frame.excess_eq, Inequality.excess_pin con (ready a ha)]

/-- When a point of the model with the arcs broken is feasible. -/
theorem feasible_iff [LinearOrder α] [IsStrictOrderedRing α] (tolerance : α) :
    m'.feasible tolerance (m'.pointOf val) = .ok true ↔
      (∀ d ∈ m.inequalities, d.excess m val + ∑ s ∈ d.moved arcs, d.gain val s ≤ tolerance) ∧
        ∀ a ∈ arcs, |val (Symbol.auxiliaryName a.1) - val a.1| ≤ tolerance := by
  rw [h.consistent.feasible_pointOf, h.inequalities, Except.ok.injEq, List.all_eq_true]
  simp only [List.mem_append, or_imp, forall_and, List.forall_mem_map, decide_eq_true_eq]
  refine and_congr ?_ ?_
  · refine forall_congr' fun d => forall_congr' fun _ => ?_
    rw [h.excess_eq con ready val]
  · simp only [List.mem_flatMap]
    constructor
    · intro pins a ha
      have first := pins _ ⟨a, ha, List.mem_cons_self⟩
      have second := pins _ ⟨a, ha, List.mem_cons_of_mem _ List.mem_cons_self⟩
      rw [h.excess_pin con ready val ha] at first second
      rw [abs_le]
      constructor <;> linarith
    · intro near d given
      obtain ⟨a, ha, hd⟩ := given
      have bounds := abs_le.1 (near a ha)
      rcases List.mem_cons.1 hd with rfl | hd
      · rw [h.excess_pin con ready val ha]
        linarith
      · rw [List.mem_singleton.1 hd, h.excess_pin con ready val ha]
        linarith

end
end ArcsBroken

/-! ## Removal -/

namespace Removal

section
variable [Zero α] [One α] [Neg α] {m v m' : Model α} {c : VariableCut} {sources : List Symbol}
  (h : m.Removal c sources v m') (ready : ∀ a ∈ c.arcs, v.HasAuxiliary a.1)
include h ready

omit ready in
/-- A point that fits has a value for the source of an arc. -/
theorem exists_value (con : m.Consistent) {resolver : Resolver} (chosen : m.chosenCut resolver = .ok c) {p : Point α}
    (fits : m.Fits p) {a : String × String} (ha : a ∈ c.arcs) : ∃ x, m.value? p a.1 = some x := by
  obtain ⟨s, hs, name, breakable⟩ := h.exists_source chosen ha
  obtain ⟨t, ht⟩ := Role.exists_term?_of_breakable breakable
  rw [← name]
  exact con.exists_value? fits hs ht

theorem columnNames_of_ne {r : Role} (hr : r ≠ .input) : m'.columnNames r = m.columnNames r := by
  rw [(h.broken ready).frame.columnNames_eq, h.extended.columnNames_of_ne hr, columnNames_ranked]

theorem count_eq {e : Equation} (he : e ≠ .ineq) : m'.rowCount e = m.rowCount e := by
  have frame := (h.broken ready).frame
  have extended := h.extended.rowCount e
  cases e with
  | update => rw [rowCount, frame.count_eq]; exact extended.trans (count_ranked m c _)
  | output => rw [rowCount, frame.count_eq]; exact extended.trans (count_ranked m c _)
  | ineq => exact absurd rfl he

end

section
variable [CommRing α] {m v m' : Model α} {c : VariableCut} {sources : List Symbol}
  (h : m.Removal c sources v m') (ready : ∀ a ∈ c.arcs, v.HasAuxiliary a.1) (val : String → α)
include h

/-- Ranks and new inputs change no row. -/
theorem excess_extended {d : Inequality α} (hd : d ∈ m.inequalities) : d.excess v val = d.excess m val := by
  have ranked : d.excess (m.ranked c) val = d.excess m val := by
    simp only [Inequality.excess, share, columnNames_ranked]
  rw [h.extended.excess_eq val (by rwa [inequalities_ranked]), ranked]

include ready

theorem rowValue_eq {e : Equation} (he : e ≠ .ineq) (i : Nat) : m'.rowValue e val i = m.rowValue e val i := by
  rw [(h.broken ready).frame.rowValue_eq he, h.extended.rowValue_eq]
  simp only [rowValue, share, columnNames_ranked, coefficient_ranked, constant_ranked]

theorem nextState_eq (con : m.Consistent) : m'.nextState (m'.pointOf val) = m.nextState (m.pointOf val) := by
  have count : m'.count .state = m.count .state := h.count_eq ready (e := .update) (by decide)
  have rows : m'.rowValue .update val = m.rowValue .update val := funext fun i => h.rowValue_eq ready val (by decide) i
  rw [(h.broken ready).consistent.nextState_pointOf, con.nextState_pointOf, count, rows]

theorem output_eq (con : m.Consistent) : m'.output (m'.pointOf val) = m.output (m.pointOf val) := by
  have count : m'.count .output = m.count .output := h.count_eq ready (e := .output) (by decide)
  have rows : m'.rowValue .output val = m.rowValue .output val := funext fun i => h.rowValue_eq ready val (by decide) i
  rw [(h.broken ready).consistent.output_pointOf, con.output_pointOf, count, rows]

/-- An original row gains what its moved sources contribute. -/
theorem excess_eq {d : Inequality α} (hd : d ∈ m.inequalities) :
    (d.breakArcs c.arcs).excess m' val = d.excess m val + ∑ s ∈ d.moved c.arcs, d.gain val s := by
  rw [(h.broken ready).excess_eq h.extended.consistent ready, h.excess_extended val hd]

theorem excess_pin {a : String × String} (ha : a ∈ c.arcs) (x : α) :
    (Inequality.pin a x).excess m' val = x * (val a.1 - val (Symbol.auxiliaryName a.1)) :=
  (h.broken ready).excess_pin h.extended.consistent ready val ha x

end

/-- When a point of the result is feasible. -/
theorem feasible_iff [CommRing α] [LinearOrder α] [IsStrictOrderedRing α] {m v m' : Model α} {c : VariableCut}
    {sources : List Symbol} (h : m.Removal c sources v m') (ready : ∀ a ∈ c.arcs, v.HasAuxiliary a.1)
    (val : String → α) (tolerance : α) : m'.feasible tolerance (m'.pointOf val) = .ok true ↔
    (∀ d ∈ m.inequalities, d.excess m val + ∑ s ∈ d.moved c.arcs, d.gain val s ≤ tolerance) ∧
      ∀ a ∈ c.arcs, |val (Symbol.auxiliaryName a.1) - val a.1| ≤ tolerance := by
  rw [(h.broken ready).feasible_iff h.extended.consistent ready, h.extended.inequalities_eq, inequalities_ranked]
  refine and_congr (forall_congr' fun d => forall_congr' fun hd => ?_) .rfl
  rw [h.excess_extended val hd]

/-! ## Fresh auxiliary inputs -/

section
variable [CommRing α] {m v m' : Model α} {c : VariableCut} {sources : List Symbol} {val : String → α}

/-- Nothing is gained where each auxiliary input is new and has the value of its variable. -/
theorem sum_gain_of_fresh (unused : ∀ a ∈ c.arcs, m.hasSymbol (Symbol.auxiliaryName a.1) = false)
    (pinned : ∀ a ∈ c.arcs, val (Symbol.auxiliaryName a.1) = val a.1) {d : Inequality α} (hd : d ∈ m.inequalities) :
    ∑ s ∈ d.moved c.arcs, d.gain val s = 0 := by
  obtain ⟨⟨row, i⟩, -, rfl⟩ := List.mem_map.1 hd
  refine Finset.sum_eq_zero fun s hs => ?_
  have arc := (Inequality.mem_moved.1 hs).2
  have zero : (m.inequality row i).coefficient (Symbol.auxiliaryName s) = 0 :=
    coefficient_eq_zero (unused _ arc) .ineq i
  rw [Inequality.gain_of_pinned _ (pinned _ arc), zero, zero_mul]

variable [LinearOrder α] [IsStrictOrderedRing α]

theorem feasible_of_fresh (h : m.Removal c sources v m') (ready : ∀ a ∈ c.arcs, v.HasAuxiliary a.1) (con : m.Consistent)
    (unused : ∀ a ∈ c.arcs, m.hasSymbol (Symbol.auxiliaryName a.1) = false)
    (pinned : ∀ a ∈ c.arcs, val (Symbol.auxiliaryName a.1) = val a.1) {tolerance : α} (nonneg : 0 ≤ tolerance) :
    m'.feasible tolerance (m'.pointOf val) = m.feasible tolerance (m.pointOf val) := by
  have near : ∀ a ∈ c.arcs, |val (Symbol.auxiliaryName a.1) - val a.1| ≤ tolerance := by
    intro a ha
    rw [pinned a ha, sub_self, abs_zero]
    exact nonneg
  have iff := h.feasible_iff ready val tolerance
  rw [(h.broken ready).consistent.feasible_pointOf, Except.ok.injEq] at iff
  rw [(h.broken ready).consistent.feasible_pointOf, con.feasible_pointOf, Except.ok.injEq, Bool.eq_iff_iff, iff,
    List.all_eq_true]
  simp only [decide_eq_true_eq]
  constructor
  · intro given d hd
    have row := given.1 d hd
    rwa [sum_gain_of_fresh unused pinned hd, add_zero] at row
  · intro rows
    refine ⟨fun d hd => ?_, near⟩
    rw [sum_gain_of_fresh unused pinned hd, add_zero]
    exact rows d hd

end
end Removal

/-- The lifted point gives each name the value it has in `p`, or the fresh one. -/
theorem Consistent.liftPoint_eq {m m' : Model α} (con : m.Consistent) {p : Point α} (fits : m.Fits p)
    (same : ∀ r : Role, r ≠ .input → m'.columnNames r = m.columnNames r) (fresh : String → α) :
    m.liftPoint m' fresh p = m'.pointOf fun n => (m.value? p n).getD (fresh n) := by
  have e := con.eq_pointOf fits fresh
  have state := congrArg Point.state e
  have discrete := congrArg Point.discrete e
  have continuous := congrArg Point.continuous e
  simp only [pointOf] at state discrete continuous
  rw [liftPoint, pointOf, same .state (by decide), same .discrete (by decide), same .continuous (by decide), ← state,
    ← discrete, ← continuous]

/-- With fresh auxiliary inputs the result means what the original model means: it has the
    same next states and outputs whatever the auxiliary inputs are, the same feasible points
    when each has the value of its variable, and no feasible point at which one is further
    than the tolerance from it. -/
theorem removal_equivalent [CommRing α] [LinearOrder α] [IsStrictOrderedRing α] {w w' : Workspace α}
    {resolver : Resolver} {validate : Bool} {c : VariableCut} {p : Point α} {tolerance : α}
    (valid : (w.model.validate {}).isValid) (loop : w.model.hasLoop) (chosen : w.model.chosenCut resolver = .ok c)
    (unused : ∀ a ∈ c.arcs, w.model.hasSymbol (Symbol.auxiliaryName a.1) = false)
    (run : Edit.removeLoops resolver validate w = .ok () w') (fits : w.model.Fits p) (nonneg : 0 ≤ tolerance)
    (fresh : String → α) :
    (∃ x, w.model.nextState p = .ok x ∧ w'.model.nextState (w.model.liftPoint w'.model fresh p) = .ok x) ∧
    (∃ y, w.model.output p = .ok y ∧ w'.model.output (w.model.liftPoint w'.model fresh p) = .ok y) ∧
    ((∀ a ∈ c.arcs, w.model.value? p a.1 = some (fresh (Symbol.auxiliaryName a.1))) →
      ∃ b, w.model.feasible tolerance p = .ok b ∧
        w'.model.feasible tolerance (w.model.liftPoint w'.model fresh p) = .ok b) ∧
    (w'.model.feasible tolerance (w.model.liftPoint w'.model fresh p) = .ok true →
      ∀ a ∈ c.arcs, ∃ x, w.model.value? p a.1 = some x ∧ |fresh (Symbol.auxiliaryName a.1) - x| ≤ tolerance) := by
  have con := isValid_iff_consistent.1 valid
  obtain ⟨c', sources, v, chosen', h⟩ := Edit.removeLoops_eq_ok con loop run
  obtain rfl : c = c' := Except.ok.inj (chosen.symm.trans chosen')
  have ready := h.hasAuxiliary_of_fresh chosen unused
  -- both points are given by one assignment of values to names
  let val : String → α := fun n => (w.model.value? p n).getD (fresh n)
  have original : p = w.model.pointOf val := con.eq_pointOf fits fresh
  have lifted : w.model.liftPoint w'.model fresh p = w'.model.pointOf val :=
    con.liftPoint_eq fits (fun r hr => h.columnNames_of_ne ready hr) fresh
  have auxiliary : ∀ a ∈ c.arcs, val (Symbol.auxiliaryName a.1) = fresh (Symbol.auxiliaryName a.1) := by
    intro a ha
    simp [val, value?_eq_none (unused a ha)]
  have source : ∀ a ∈ c.arcs, w.model.value? p a.1 = some (val a.1) := by
    intro a ha
    obtain ⟨x, hx⟩ := h.exists_value con chosen fits ha
    simp [val, hx]
  rw [lifted]
  refine ⟨?_, ?_, ?_, ?_⟩
  · refine ⟨_, by rw [original]; exact con.nextState_pointOf val, ?_⟩
    rw [h.nextState_eq ready val con, con.nextState_pointOf]
  · refine ⟨_, by rw [original]; exact con.output_pointOf val, ?_⟩
    rw [h.output_eq ready val con, con.output_pointOf]
  · intro pinned
    have equal : ∀ a ∈ c.arcs, val (Symbol.auxiliaryName a.1) = val a.1 := by
      intro a ha
      rw [auxiliary a ha]
      exact Option.some.inj ((pinned a ha).symm.trans (source a ha))
    refine ⟨_, by rw [original]; exact con.feasible_pointOf val tolerance, ?_⟩
    rw [h.feasible_of_fresh ready con unused equal nonneg, con.feasible_pointOf]
  · intro feasible a ha
    have bounds := ((h.feasible_iff ready val tolerance).1 feasible).2 a ha
    rw [auxiliary a ha] at bounds
    exact ⟨val a.1, source a ha, bounds⟩

/-- Two variables that need each other, `a = 2 b + k u` and `3 b = a + 5`, and the input `u`. -/
def coupled (u : String) (k : Int) : Model Int where
  name := "coupled"
  symbols := [
    { name := u, domain := .real, role := .input, rank := 1, index := some 0 },
    { name := "a", domain := .real, role := .continuous, index := some 0 },
    { name := "b", domain := .real, role := .continuous, index := some 1 }]
  rows := { ineq := [
    { defines := "a", depends := ["b", u] }, { defines := "a", depends := ["b", u] },
    { defines := "b", depends := ["a", "b"] }, { defines := "b", depends := ["a", "b"] }] }
  blocks := .ofFn fun b => match b with
    | ⟨.ineq, .continuous⟩ => ⟨2, [[1, -2], [-1, 2], [-1, 3], [1, -3]], by decide⟩
    | ⟨.ineq, .input⟩ => ⟨1, [[k], [-k], [0], [0]], by simp⟩
    | ⟨.ineq, .affine⟩ => ⟨1, [[0], [0], [5], [-5]], by decide⟩
    | ⟨.ineq, _⟩ => .zero 4 0
    | ⟨_, .continuous⟩ => .zero 0 2
    | ⟨_, .discrete⟩ => .zero 0 0
    | ⟨_, .state⟩ => .zero 0 0
    | ⟨_, _⟩ => .zero 0 1

/-- Breaks one arc twice, and another with the same source. -/
def breakTwice : Resolver := fun _ _ => some { arcs := [(2, 1), (2, 2), (2, 1)], sequence := [0, 1, 2] }

theorem valid_coupled : ((coupled "u" 1).validate {}).isValid := by decide +kernel

theorem exists_run_coupled : ∃ c w', (coupled "u" 1).chosenCut breakTwice = .ok c ∧
    c.arcs = [("b", "a"), ("b", "b"), ("b", "a")] ∧
    (∀ a ∈ c.arcs, (coupled "u" 1).hasSymbol (Symbol.auxiliaryName a.1) = false) ∧
    Edit.removeLoops breakTwice true ⟨coupled "u" 1, [], []⟩ = .ok () w' := by
  have cut : ((coupled "u" 1).chosenCut breakTwice).toOption.map (·.arcs) =
      some [("b", "a"), ("b", "b"), ("b", "a")] := by
    decide +kernel
  have succeeds : (Edit.removeLoops breakTwice true).succeeds ⟨coupled "u" 1, [], []⟩ := by decide +kernel
  obtain ⟨c, chosen, arcs⟩ := exists_chosenCut cut
  obtain ⟨_, w', run⟩ := Edit.exists_of_succeeds succeeds
  refine ⟨c, w', chosen, arcs, ?_, run⟩
  rw [arcs]
  decide

theorem removal_equivalent_coupled : ∃ w', Edit.removeLoops breakTwice true ⟨coupled "u" 1, [], []⟩ = .ok () w' ∧
    (∃ x, (coupled "u" 1).nextState ⟨[], [1], [], [15, 7]⟩ = .ok x ∧
      w'.model.nextState ((coupled "u" 1).liftPoint w'.model (fun _ => 7) ⟨[], [1], [], [15, 7]⟩) = .ok x) ∧
    (∃ y, (coupled "u" 1).output ⟨[], [1], [], [15, 7]⟩ = .ok y ∧
      w'.model.output ((coupled "u" 1).liftPoint w'.model (fun _ => 7) ⟨[], [1], [], [15, 7]⟩) = .ok y) ∧
    (∃ b, (coupled "u" 1).feasible 1 ⟨[], [1], [], [15, 7]⟩ = .ok b ∧
      w'.model.feasible 1 ((coupled "u" 1).liftPoint w'.model (fun _ => 7) ⟨[], [1], [], [15, 7]⟩) = .ok b) ∧
    (w'.model.feasible 1 ((coupled "u" 1).liftPoint w'.model (fun _ => 7) ⟨[], [1], [], [15, 7]⟩) = .ok true →
      ∃ x, (coupled "u" 1).value? ⟨[], [1], [], [15, 7]⟩ "b" = some x ∧ |7 - x| ≤ 1) := by
  obtain ⟨c, w', chosen, arcs, unused, run⟩ := exists_run_coupled
  have means := removal_equivalent (w := ⟨coupled "u" 1, [], []⟩) (p := ⟨[], [1], [], [15, 7]⟩) valid_coupled
    (by decide) chosen unused run ⟨rfl, rfl, rfl, rfl⟩ (show (0 : Int) ≤ 1 by decide) (fun _ => 7)
  rw [arcs] at means
  obtain ⟨states, outputs, feasible, bounds⟩ := means
  exact ⟨w', run, states, outputs, feasible (by decide +kernel), fun h => bounds h ("b", "a") (by decide)⟩

end Model
end LoopFree
