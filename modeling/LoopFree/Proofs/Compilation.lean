/-
  LoopFree.Proofs.Compilation — what compiled functions compute.

  A backend builds the sum of an equation in another order than evaluation does, and for
  the inequality as a difference of two sides (`Model.compiledRows`). For blocks of the
  expected shapes every part of the sum is a column of one height, so an exact engine makes
  a function of it: compiling succeeds from whatever state (`exists_compile`), and the
  functions have the values of the equations at that moment, whatever the model is when they
  are called (`CompiledFrom.agrees`).
-/

import LoopFree.Proofs.Exactness
import LoopFree.Symbolic.Backend

namespace LoopFree

variable {α : Type}

/-! ## The rows of an equation -/

namespace Model

/-- The constants of an equation and the products of some of its blocks, one after the other. -/
def affineRows [Zero α] [Add α] (m : Model α) (e : Equation) (slots : List Slot) : AffineRows α :=
  slots.foldl (fun f slot => f.add (.ofBlock slot (m.block ⟨e, slot.term⟩))) (.ofColumn (m.block ⟨e, .affine⟩))

/-- What the inequalities bound from above. -/
def boundedRows [Zero α] [Add α] (m : Model α) : AffineRows α :=
  (AffineRows.ofBlock .discrete (m.block ⟨.ineq, .discrete⟩)).add (.ofBlock .continuous (m.block ⟨.ineq, .continuous⟩))

def compiledRows [Zero α] [Add α] [Sub α] (m : Model α) : Equation → AffineRows α
  | .ineq => m.boundedRows.sub (m.affineRows .ineq [.input, .state])
  | e => m.affineRows e Slot.all

section
variable [CommRing α] {m : Model α}

theorem constant_eq_row (m : Model α) (e : Equation) (i : Nat) :
    ((m.block ⟨e, .affine⟩).row i).getD 0 0 = m.constant e i := by
  rw [constant, Mat.row, Mat.get?, List.getD_eq_getElem?_getD, List.getD_eq_getElem?_getD]
  cases (m.block ⟨e, .affine⟩).rows[i]? <;> rfl

theorem valueAt_compiledRows (m : Model α) (e : Equation) (p : Point α) (i : Nat) :
    (m.compiledRows e).valueAt p i = m.rowAt e p i := by
  cases e <;>
  · simp only [compiledRows, boundedRows, affineRows, Slot.all, List.foldl, AffineRows.valueAt_sub,
      AffineRows.valueAt_add, AffineRows.valueAt_ofBlock, AffineRows.valueAt_ofColumn, constant_eq_row, rowAt, product,
      Slot.term]
    abel

theorem Shaped.height_affineRows (shaped : m.Shaped) (e : Equation) (slots : List Slot) :
    (m.affineRows e slots).height = m.rowCount e := by
  have kept (slots : List Slot) (f : AffineRows α) :
      (slots.foldl (fun f slot => f.add (.ofBlock slot (m.block ⟨e, slot.term⟩))) f).height = f.height := by
    induction slots generalizing f with
    | nil => rfl
    | cons slot slots ih => exact ih _
  exact (kept slots _).trans (shaped.height e .affine)

theorem Shaped.height_compiledRows (shaped : m.Shaped) (e : Equation) : (m.compiledRows e).height = m.rowCount e := by
  cases e with
  | update => exact shaped.height_affineRows .update Slot.all
  | output => exact shaped.height_affineRows .output Slot.all
  | ineq => exact shaped.height .ineq .discrete

end
end Model

/-! ## The expressions of an equation -/

namespace Engine

variable [CommRing α] {E : Engine α} (exact : E.Exact) {m : Model α} (shaped : m.Shaped) {v : Symbols}
  (length : v.length = m.vectorLength)
include exact shaped length

theorem exists_term? (e : Equation) (slot : Slot) :
    ∃ x, E.term? v m e slot = some x ∧ E.Denotes v x (.ofBlock slot (m.block ⟨e, slot.term⟩)) := by
  have width : (m.block ⟨e, slot.term⟩).width = v.length slot := by rw [length, shaped.width_slot]
  obtain ⟨x, built⟩ := Option.isSome_iff_exists.1 (exact.product v slot _ width)
  exact ⟨x, built, .product width built⟩

/-- The products join the constants one after the other. -/
theorem exists_affine? (e : Equation) (slots : List Slot) :
    ∃ x, E.affine? v m e slots = some x ∧ E.Denotes v x (m.affineRows e slots) := by
  have join (slots : List Slot) (x : E.Expression) (f : AffineRows α) (start : E.Denotes v x f)
      (height : f.height = m.rowCount e) :
      ∃ y, slots.foldlM (fun total slot => do E.sum? total (← E.term? v m e slot)) x = some y ∧
        E.Denotes v y (slots.foldl (fun f slot => f.add (.ofBlock slot (m.block ⟨e, slot.term⟩))) f) := by
    induction slots generalizing x f with
    | nil => exact ⟨x, rfl, start⟩
    | cons slot slots ih =>
      obtain ⟨t, term, product⟩ := exists_term? exact shaped length e slot
      have same : f.height = (AffineRows.ofBlock slot (m.block ⟨e, slot.term⟩)).height :=
        height.trans (shaped.height e slot.term).symm
      obtain ⟨next, sum⟩ := Option.isSome_iff_exists.1 (exact.sum start product same)
      obtain ⟨y, rest, done⟩ := ih next _ (.sum start product same sum) height
      refine ⟨y, ?_, done⟩
      rw [List.foldlM_cons, term]
      show (E.sum? x t >>= _) = some y
      rw [sum]
      exact rest
  exact join slots _ _ (.constant (shaped.affine_width e)) (shaped.height e .affine)

theorem exists_bounded? : ∃ x, E.bounded? v m = some x ∧ E.Denotes v x m.boundedRows := by
  obtain ⟨d, discrete, left⟩ := exists_term? exact shaped length .ineq .discrete
  obtain ⟨z, continuous, right⟩ := exists_term? exact shaped length .ineq .continuous
  have same : (m.block ⟨.ineq, .discrete⟩).height = (m.block ⟨.ineq, .continuous⟩).height :=
    (shaped.height .ineq .discrete).trans (shaped.height .ineq .continuous).symm
  obtain ⟨x, sum⟩ := Option.isSome_iff_exists.1 (exact.sum left right same)
  refine ⟨x, ?_, .sum left right same sum⟩
  rw [bounded?, discrete, continuous]
  exact sum

end Engine

/-! ## Compiling -/

namespace Backend

variable {E : Engine α}

/-- The functions of a backend, called when the model is `m'`, return what `m` computes. -/
structure Agrees [Zero α] [Add α] [Sub α] [Mul α] [LE α] [DecidableLE α] (b : Backend E) (m m' : Model α) : Prop where
  nextState : ∀ p, m.Fits p → ∃ x, m.nextState p = .ok x ∧ b.nextState m' p = .ok x
  output : ∀ p, m.Fits p → ∃ y, m.output p = .ok y ∧ b.output m' p = .ok y
  residual : ∀ p, m.Fits p → ∃ r, m.residual p = .ok r ∧ b.residual m' p = .ok r
  feasible : ∀ p, m.Fits p → ∀ tolerance, ∃ v, m.feasible tolerance p = .ok v ∧ b.feasible m' tolerance p = .ok v

theorem define_eq {b : Backend E} {x : E.Expression} {c : E.Function} (made : E.function? b.symbols x = some c)
    (e : Equation) : define e x b = .ok () (b.setFunction e c) := by
  show (fitting (E.function? b.symbols x) >>= _) b = _
  rw [made]
  rfl

theorem define_bind {b : Backend E} {x : E.Expression} {c : E.Function} (made : E.function? b.symbols x = some c)
    (e : Equation) {k : Unit → EStateM Fault (Backend E) Unit} :
    (define e x >>= k) b = k () (b.setFunction e c) := by
  show EStateM.bind (define e x) k b = _
  rw [EStateM.bind, define_eq made]

section
variable [CommRing α] {m m' : Model α}

/-- A backend whose functions come from the equations of a model, in its latest symbols. -/
structure CompiledFrom (m : Model α) (b : Backend E) : Prop where
  length : b.symbols.length = m.vectorLength
  functions : ∀ e, ∃ x c, E.Denotes b.symbols x (m.compiledRows e) ∧ E.function? b.symbols x = some c ∧
    b.functions e = some c

/-- Compiling succeeds if the blocks have their shapes, whatever has been compiled before. -/
theorem exists_compile (exact : E.Exact) (shaped : m.Shaped) (b : Backend E) :
    ∃ b', compile m b = .ok () b' ∧ b'.symbols.kind = b.symbols.kind ∧ b'.CompiledFrom m := by
  let b₀ : Backend E := { b with symbols := b.symbols.renew m.vectorLength }
  have length : b₀.symbols.length = m.vectorLength := rfl
  obtain ⟨update, hUpdate, updates⟩ := Engine.exists_affine? exact shaped length .update Slot.all
  obtain ⟨output, hOutput, outputs⟩ := Engine.exists_affine? exact shaped length .output Slot.all
  obtain ⟨left, hLeft, lefts⟩ := Engine.exists_bounded? exact shaped length
  obtain ⟨right, hRight, rights⟩ := Engine.exists_affine? exact shaped length .ineq [.input, .state]
  have same : m.boundedRows.height = (m.affineRows .ineq [.input, .state]).height :=
    (shaped.height .ineq .discrete).trans (shaped.height_affineRows .ineq _).symm
  obtain ⟨residual, hResidual⟩ := Option.isSome_iff_exists.1 (exact.difference lefts rights same)
  have residuals : E.Denotes b₀.symbols residual (m.compiledRows .ineq) := .difference lefts rights same hResidual
  obtain ⟨f, hf, -⟩ := exact.evaluates updates
  obtain ⟨g, hg, -⟩ := exact.evaluates outputs
  obtain ⟨h, hh, -⟩ := exact.evaluates residuals
  have run : compile m b = .ok () (((b₀.setFunction .update f).setFunction .output g).setFunction .ineq h) := by
    show (fitting (E.affine? b₀.symbols m .update Slot.all) >>= _) b₀ = _
    rw [hUpdate]
    show (fitting (E.affine? b₀.symbols m .output Slot.all) >>= _) b₀ = _
    rw [hOutput]
    show (fitting (E.bounded? b₀.symbols m) >>= _) b₀ = _
    rw [hLeft]
    show (fitting (E.affine? b₀.symbols m .ineq [.input, .state]) >>= _) b₀ = _
    rw [hRight]
    show (define .update update >>= _) b₀ = _
    rw [define_bind hf]
    show (define .output output >>= _) (b₀.setFunction .update f) = _
    rw [define_bind (b := b₀.setFunction .update f) hg]
    show (fitting (E.difference? left right) >>= _) ((b₀.setFunction .update f).setFunction .output g) = _
    rw [hResidual]
    exact define_eq (b := (b₀.setFunction .update f).setFunction .output g) hh .ineq
  refine ⟨_, run, rfl, length, fun e => ?_⟩
  cases e with
  | update => exact ⟨update, f, updates, hf, rfl⟩
  | output => exact ⟨output, g, outputs, hg, rfl⟩
  | ineq => exact ⟨residual, h, residuals, hh, rfl⟩

namespace CompiledFrom

variable {b : Backend E} (compiled : b.CompiledFrom m) (exact : E.Exact) (shaped : m.Shaped)
  (same : ∀ s, m'.vectorLength s = m.vectorLength s)
include compiled exact shaped same

/-- The functions keep the values of the model they were built from while the vectors keep their lengths. -/
theorem values_eq {p : Point α} (fits : m.Fits p) (e : Equation) :
    b.values e m' p = .ok ((List.range (m.rowCount e)).map (m.rowAt e p)) := by
  obtain ⟨-, h, -, -, ineq⟩ := compiled.functions .ineq
  obtain ⟨x, c, denotes, made, function⟩ := compiled.functions e
  have ready : b.ensureCompiled = .ok h := by rw [ensureCompiled, ineq]
  have lengths : (Slot.all.all fun slot => (p.get slot).length = m'.vectorLength slot) = true := by
    refine List.all_eq_true.2 fun slot _ => decide_eq_true ?_
    rw [fits.length, same]
  have called : E.values? c p = some (.column ((List.range (m.rowCount e)).map (m.rowAt e p))) := by
    obtain ⟨c', made', value⟩ := exact.evaluates denotes
    obtain rfl := Option.some.inj (made.symm.trans made')
    rw [value p (fun s => by rw [fits.length, compiled.length]), AffineRows.values, shaped.height_compiledRows]
    refine congrArg (some ∘ Mat.column) (List.map_congr_left fun i _ => ?_)
    exact m.valueAt_compiledRows e p i
  rw [values, ready, function]
  show (if _ then _ else _ : Except Fault (List α)) = _
  rw [if_pos lengths, Option.bind_eq_bind, Option.bind_some, called]
  exact congrArg Except.ok (Mat.entries_column _)

theorem agrees [LE α] [DecidableLE α] : b.Agrees m m' := by
  have values (e : Equation) (p : Point α) (fits : m.Fits p) : ∃ v, m.evaluate e p = .ok v ∧ b.values e m' p = .ok v :=
    ⟨_, shaped.evaluate_eq fits e, compiled.values_eq exact shaped same fits e⟩
  refine ⟨values .update, values .output, values .ineq, fun p fits tolerance => ?_⟩
  obtain ⟨r, residual, residual'⟩ := values .ineq p fits
  change m.residual p = .ok r at residual
  change b.residual m' p = .ok r at residual'
  refine ⟨r.all (· ≤ tolerance), ?_, ?_⟩
  · rw [Model.feasible, residual]
    rfl
  · rw [feasible, residual']
    rfl

end CompiledFrom
end
end Backend
end LoopFree
