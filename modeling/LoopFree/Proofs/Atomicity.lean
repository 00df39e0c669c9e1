/-
  LoopFree.Proofs.Atomicity — breaking one arc is done or not done.

  Breaking an arc looks two names up, asks for a role, goes over the rows that define the
  sink and then adds rows to five blocks and writes into two. On a model that passes
  validation it can stop only at the first three, before anything has changed, and
  `Refused` says with which fault. Otherwise it goes through, whatever the sink is
  (`breakArc_done_or_refused`). Where the column of the auxiliary input was zero in the
  rows that needed the source, the result has the feasible points of the model at which
  the auxiliary input has the value of its variable.
-/

import LoopFree.Proofs.Reuse
import LoopFree.Proofs.Success

namespace LoopFree

variable {α : Type}

namespace Model

/-- Why no arc can be broken behind a name. -/
inductive Refused (m : Model α) (source : String) : Fault → Prop where
  | noAuxiliary (missing : ∀ s ∈ m.symbols, s.name ≠ Symbol.auxiliaryName source) :
      Refused m source (.symbolCount (Symbol.auxiliaryName source) 0)
  | noSource (missing : ∀ s ∈ m.symbols, s.name ≠ source) : Refused m source (.symbolCount source 0)
  | wrongRole (s : Symbol) (member : s ∈ m.symbols) (named : s.name = source)
      (role : s.role ≠ .discrete ∧ s.role ≠ .continuous) : Refused m source (.unsupportedSource source s.role)

/-- The auxiliary input of a source has a zero column in the rows that define the sink and name the source. -/
def ZeroColumn [Zero α] (m : Model α) (source sink : String) : Prop :=
  ∀ y ∈ m.symbols, y.name = Symbol.auxiliaryName source → ∀ k : Nat, y.index = some (k : Int) →
    ∀ i row, m.rows.ineq[i]? = some row → row.defines = sink → source ∈ row.depends →
      (m.block ⟨.ineq, .input⟩).get? i k = some 0

/-- The source and its auxiliary input have one value. -/
def Agrees (m : Model α) (source : String) (p : Point α) : Prop :=
  ∃ x, m.value? p source = some x ∧ m.value? p (Symbol.auxiliaryName source) = some x

section
variable {m : Model α} {name : String}

theorem lookup_of_missing (missing : ∀ s ∈ m.symbols, s.name ≠ name) : m.lookup name = .error (.symbolCount name 0) := by
  have none : m.find name = [] := List.filter_eq_nil_iff.2 fun s hs => by simpa using missing s hs
  rw [lookup, none]
  rfl

theorem Consistent.lookup_eq (con : m.Consistent) {s : Symbol} (hs : s ∈ m.symbols) (named : s.name = name) :
    m.lookup name = .ok s :=
  lookup_eq_ok.2 (named ▸ con.find_eq hs)

end

/-- A zero column adds nothing to a row whose source moves. -/
theorem ZeroColumn.sum_gain [CommRing α] {m : Model α} {a : String × String} {val : String → α}
    (zero : m.ZeroColumn a.1 a.2) (con : m.Consistent) (ready : m.HasAuxiliary a.1)
    (pinned : val (Symbol.auxiliaryName a.1) = val a.1) {d : Inequality α} (hd : d ∈ m.inequalities) :
    ∑ s ∈ d.moved [a], d.gain val s = 0 := by
  obtain ⟨⟨row, i⟩, place, rfl⟩ := List.mem_map.1 hd
  refine Finset.sum_eq_zero fun s hs => ?_
  obtain ⟨needed, arc⟩ := Inequality.mem_moved.1 hs
  obtain ⟨rfl, defines⟩ := Prod.mk.inj (List.mem_singleton.1 arc)
  obtain ⟨-, y, hy, named, input⟩ := ready
  obtain ⟨k, hk, -⟩ := (con.numbered .input rfl).exists_index hy input
  have entry := zero y hy named k hk i row (List.mk_mem_zipIdx_iff_getElem?.1 place) defines needed
  have coefficient : (m.inequality row i).coefficient (Symbol.auxiliaryName a.1) = 0 := by
    change m.coefficient .ineq i (Symbol.auxiliaryName a.1) = 0
    rw [← named, con.coefficient_eq hy (t := .input) (by rw [input]; rfl) hk, entry, Option.getD_some]
  rw [Inequality.gain_of_pinned _ pinned, coefficient, zero_mul]

section
variable {m m' : Model α} {a : String × String} {p : Point α} (con : m.Consistent) (ready : m.HasAuxiliary a.1)
include con ready

/-- The source and its auxiliary input agree where their names do. -/
theorem agrees_pointOf (val : String → α) :
    m.Agrees a.1 (m.pointOf val) ↔ val (Symbol.auxiliaryName a.1) = val a.1 := by
  rw [Agrees, ready.value_source con, ready.value_auxiliary con]
  simp [eq_comm]

/-- With a zero column the feasible points are those of before at which source and input agree. -/
theorem ArcsBroken.feasible_of_zeroColumn [CommRing α] [LinearOrder α] [IsStrictOrderedRing α]
    (broken : ArcsBroken [a] m m') (zero : m.ZeroColumn a.1 a.2) (fits : m.Fits p) :
    ∃ before after, m.feasible 0 p = .ok before ∧ m'.feasible 0 p = .ok after ∧
      (after ↔ before ∧ m.Agrees a.1 p) := by
  -- the symbols are the same, so the point is given by the same values of the names
  let val : String → α := fun n => (m.value? p n).getD 0
  have old : p = m.pointOf val := con.eq_pointOf fits fun _ => 0
  have new : m.pointOf val = m'.pointOf val := by simp only [pointOf, broken.frame.columnNames_eq]
  refine ⟨_, _, by rw [old]; exact con.feasible_pointOf val 0,
    by rw [old, new]; exact broken.consistent.feasible_pointOf val 0, ?_⟩
  have result := broken.feasible_iff con (by simpa using ready) val 0
  rw [broken.consistent.feasible_pointOf, Except.ok.injEq] at result
  have agrees : m.Agrees a.1 p ↔ val (Symbol.auxiliaryName a.1) = val a.1 := by
    rw [old]
    exact agrees_pointOf con ready val
  rw [result, agrees, List.all_eq_true]
  simp only [List.mem_singleton, forall_eq, abs_nonpos_iff, sub_eq_zero, decide_eq_true_eq]
  refine and_congr_left fun pinned => forall_congr' fun d => forall_congr' fun hd => ?_
  rw [zero.sum_gain con ready pinned hd, add_zero]

end
end Model

namespace Edit

section
variable [Zero α] [One α] [Neg α] {w w' : Workspace α} {source sink : String}

theorem breakArc_of_missing_auxiliary (missing : ∀ s ∈ w.model.symbols, s.name ≠ Symbol.auxiliaryName source) :
    breakArc source sink w = .error (.symbolCount (Symbol.auxiliaryName source) 0) w := by
  show (ofExcept (w.model.lookup (Symbol.auxiliaryName source)) >>= _) w = _
  rw [Model.lookup_of_missing missing]
  rfl

theorem breakArc_of_missing_source {y : Symbol} (found : w.model.lookup (Symbol.auxiliaryName source) = .ok y)
    (missing : ∀ s ∈ w.model.symbols, s.name ≠ source) :
    breakArc source sink w = .error (.symbolCount source 0) w := by
  show (ofExcept (w.model.lookup (Symbol.auxiliaryName source)) >>= _) w = _
  rw [found]
  show (ofExcept (w.model.lookup source) >>= _) w = _
  rw [Model.lookup_of_missing missing]
  rfl

theorem breakArc_of_role {y s : Symbol} (foundAuxiliary : w.model.lookup (Symbol.auxiliaryName source) = .ok y)
    (found : w.model.lookup source = .ok s) (role : s.role.breakable = false) :
    breakArc source sink w = .error (.unsupportedSource source s.role) w := by
  show (ofExcept (w.model.lookup (Symbol.auxiliaryName source)) >>= _) w = _
  rw [foundAuxiliary]
  show (ofExcept (w.model.lookup source) >>= _) w = _
  rw [found]
  show (if (!s.role.breakable) = true then _ else _ : Edit α (Nat × Nat)) w = _
  rw [role, ← (Model.name_of_lookup found).2]
  rfl

/-- The rows of the pins follow the rows there were. -/
theorem breakArc_rows {x : Nat × Nat} (run : breakArc source sink w = .ok x w') :
    x = (w.model.ineqCount, w.model.ineqCount + 1) := by
  simp only [breakArc, bind_eq_ok, model_eq_ok, ofExcept_eq_ok, change_eq_ok, pure_eq_ok, ite_eq_ok, throw_ne_ok,
    and_assoc, exists_and_left, exists_eq_left', false_and, exists_false, and_false, false_or] at run
  obtain ⟨_, -, s, -, -, b, hb, _, v, loop, first, v₂, grown, _, v₃, -, _, v₄, -, rfl, -⟩ := run
  obtain ⟨t, -, rfl⟩ := ineqBlock_eq_ok hb
  obtain ⟨moved, -⟩ := forM_moveInRow_resized loop
  obtain ⟨rfl, -⟩ := appendIneqRows_eq_ok 2 grown
  have height : v.model.ineqCount = w.model.ineqCount := congrArg Prod.fst (moved.shapes .affine)
  rw [height]

end

/-- Breaking an arc on a model that passes validation, if whatever has the auxiliary name of the
    source is an input: it is refused and leaves everything as it was, or it goes through and adds
    two rows. In exact arithmetic the result then has the feasible points of the model at which
    source and auxiliary input agree, if that input had a zero column in the rows that need the source. -/
theorem breakArc_done_or_refused [CommRing α] [LinearOrder α] [IsStrictOrderedRing α] {w : Workspace α}
    (source sink : String) (valid : (w.model.validate {}).isValid)
    (input : ∀ y ∈ w.model.symbols, y.name = Symbol.auxiliaryName source → y.role = .input) :
    (∃ f, breakArc source sink w = .error f w ∧ w.model.Refused source f) ∨
    ∃ w', breakArc source sink w = .ok (w.model.ineqCount, w.model.ineqCount + 1) w' ∧
      w'.model.symbols = w.model.symbols ∧
      (w.model.ZeroColumn source sink → ∀ p, w.model.Fits p →
        ∃ before after, w.model.feasible 0 p = .ok before ∧ w'.model.feasible 0 p = .ok after ∧
          (after ↔ before ∧ w.model.Agrees source p)) := by
  have con := Model.isValid_iff_consistent.1 valid
  by_cases missing : ∀ s ∈ w.model.symbols, s.name ≠ Symbol.auxiliaryName source
  · exact .inl ⟨_, breakArc_of_missing_auxiliary missing, .noAuxiliary missing⟩
  push Not at missing
  obtain ⟨y, hy, auxiliary⟩ := missing
  have foundAuxiliary := con.lookup_eq hy auxiliary
  by_cases missing : ∀ s ∈ w.model.symbols, s.name ≠ source
  · exact .inl ⟨_, breakArc_of_missing_source foundAuxiliary missing, .noSource missing⟩
  push Not at missing
  obtain ⟨s, hs, named⟩ := missing
  have found := con.lookup_eq hs named
  by_cases role : s.role.breakable
  · have ready : w.model.HasAuxiliary source := ⟨⟨s, hs, named, role⟩, y, hy, auxiliary, input y hy auxiliary⟩
    obtain ⟨x, w', run⟩ := exists_eq_ok (safe_breakArc (a := (source, sink)) con ready)
    have broken := breakArc_eq_ok (a := (source, sink)) con ready run
    obtain rfl := breakArc_rows run
    exact .inr ⟨w', run, broken.frame.symbols, fun zero p fits => broken.feasible_of_zeroColumn con ready zero fits⟩
  · rw [Bool.not_eq_true] at role
    refine .inl ⟨_, breakArc_of_role foundAuxiliary found role, .wrongRole s hs named ?_⟩
    simpa [Role.breakable] using role

/-- The input `b_aux` is there and unused: an arc behind `b` can be broken, also one to a sink that no
    row defines. None can behind `a`, which has no auxiliary input. -/
theorem breakArc_done_or_refused_coupled :
    let w : Workspace Int := ⟨Model.coupled "b_aux" 0, [], []⟩
    let p : Point Int := ⟨[], [5], [], [10, 5]⟩
    (∀ sink ∈ ["a", "nothing"], ∃ w' before after, breakArc "b" sink w = .ok (4, 5) w' ∧
      w.model.feasible 0 p = .ok before ∧ w'.model.feasible 0 p = .ok after ∧
        (after ↔ before ∧ w.model.Agrees "b" p)) ∧
    ∃ f, breakArc "a" "b" w = .error f w ∧ w.model.Refused "a" f := by
  intro w p
  have valid : (w.model.validate {}).isValid := by decide +kernel
  have known (s : Symbol) (hs : s ∈ w.model.symbols) : s.name = "b_aux" ∧ s.role = .input ∧ s.index = some 0 ∨
      s.name = "a" ∨ s.name = "b" := by
    revert s
    decide
  have zero (sink : String) : w.model.ZeroColumn "b" sink := by
    intro y hy named k hk i row hrow _ _
    have inside : i < 4 := (List.getElem?_eq_some_iff.1 hrow).1
    obtain ⟨-, -, first⟩ : y.name = "b_aux" ∧ y.role = .input ∧ y.index = some 0 := by
      rcases known y hy with auxiliary | other | other
      · exact auxiliary
      · simp [named, Symbol.auxiliaryName] at other
      · simp [named, Symbol.auxiliaryName] at other
    obtain rfl : k = 0 := by simpa [hk] using first
    clear hrow
    revert i
    decide
  refine ⟨fun sink listed => ?_, ?_⟩
  · have succeeds : ∀ sink ∈ ["a", "nothing"], (breakArc "b" sink).succeeds w := by decide +kernel
    obtain ⟨_, _, run⟩ := exists_of_succeeds (succeeds sink listed)
    rcases breakArc_done_or_refused "b" sink valid (by decide) with
      ⟨f, stops, -⟩ | ⟨w', done, -, means⟩
    · rw [run] at stops
      cases stops
    · obtain ⟨before, after, old, new, iff⟩ := means (zero sink) p ⟨rfl, rfl, rfl, rfl⟩
      exact ⟨w', before, after, done, old, new, iff⟩
  · have fails : (breakArc "a" "b").fault? w = some (.symbolCount "a_aux" 0) := by decide +kernel
    obtain ⟨_, run⟩ := exists_of_fault? fails
    rcases breakArc_done_or_refused "a" "b" valid (by decide) with refused | ⟨w', done, -⟩
    · exact refused
    · rw [run] at done
      cases done

end Edit
end LoopFree
