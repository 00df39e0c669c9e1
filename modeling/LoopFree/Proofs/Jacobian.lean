/-
  LoopFree.Proofs.Jacobian — the derivatives of the compiled inequality.

  The coefficients of the rows that are compiled are the blocks of the left side, and those
  of the right side with their sign changed. An engine that differentiates exactly gives
  them back (`CompiledFrom.jacobian_eq`). With what LoopFree.Proofs.Compilation says of the
  values this is the whole of how a compiled backend compares with its model
  (`Backend.compile_agrees`). The built-in engine is one to which all of it applies
  (LoopFree.Proofs.Builtin).
-/

import LoopFree.Proofs.Builtin
import LoopFree.Proofs.Compilation
import LoopFree.Proofs.Layout

namespace LoopFree

variable {α : Type}

/-! ## The blocks as coefficients -/

theorem Mat.dot_zeros [CommRing α] (r : List α) (n : Nat) : dot r (List.replicate n 0) = 0 := by
  induction r generalizing n with
  | nil => rfl
  | cons a r ih =>
    cases n with
    | zero => rfl
    | succ n => rw [List.replicate_succ, dot_cons, ih, mul_zero, zero_add]

/-- The sign with which a term enters the inequality, the left side less the right side. -/
def Slot.signed [Neg α] : Slot → α → α
  | .state, a => -a
  | .input, a => -a
  | .discrete, a => a
  | .continuous, a => a

theorem Slot.dot_signed [CommRing α] (slot : Slot) (r v : List α) :
    Mat.dot (r.map slot.signed) v = slot.signed (Mat.dot r v) := by
  have same : r.map (fun a => a) = r := List.map_id r
  have negated : Mat.dot (r.map fun a => -a) v = -Mat.dot r v := by rw [Mat.dot_map_neg r (fun a => a), same]
  cases slot with
  | state => exact negated
  | input => exact negated
  | discrete => exact congrArg (Mat.dot · v) same
  | continuous => exact congrArg (Mat.dot · v) same

theorem Mat.row_map {β : Type} (f : α → β) (a : Mat α) (i : Nat) : (a.map f).row i = (a.row i).map f := by
  simp only [row, Mat.map, List.getD_eq_getElem?_getD, List.getElem?_map]
  cases a.rows[i]? <;> rfl

namespace Model

section
variable [CommRing α] {m : Model α} {p : Point α}

/-- A row of the inequality at a point, from its value at the origin. -/
theorem rowAt_eq (m : Model α) (p : Point α) (i : Nat) {zeros : Point α}
    (zero : ∀ s, ∃ n, zeros.get s = List.replicate n 0) : m.rowAt .ineq p i =
      -m.product .ineq .state p i + -m.product .ineq .input p i + m.product .ineq .discrete p i +
        m.product .ineq .continuous p i + m.rowAt .ineq zeros i := by
  have origin (s : Slot) : m.product .ineq s zeros i = 0 := by
    obtain ⟨n, zeros⟩ := zero s
    rw [Model.product, zeros, Mat.dot_zeros]
  simp only [rowAt, origin]
  abel

/-- What a Jacobian makes of a vector. -/
theorem Shaped.mulVec?_signed (shaped : m.Shaped) (fits : m.Fits p) (slot : Slot) :
    ((m.block ⟨.ineq, slot.term⟩).map slot.signed).mulVec? (p.get slot) =
      some ((List.range m.ineqCount).map fun i => slot.signed (m.product .ineq slot p i)) := by
  have shape := Mat.shape_map slot.signed (m.block ⟨.ineq, slot.term⟩)
  have height : ((m.block ⟨.ineq, slot.term⟩).map slot.signed).height = m.ineqCount :=
    (congrArg Prod.fst shape).trans (shaped.height .ineq slot.term)
  have width : (p.get slot).length = ((m.block ⟨.ineq, slot.term⟩).map slot.signed).width :=
    (fits.length slot).trans (shaped.width_slot .ineq slot).symm
  rw [Mat.mulVec?_eq_some width, height]
  refine congrArg some (List.map_congr_left fun i _ => ?_)
  rw [Mat.row_map, slot.dot_signed, product]

end
end Model

/-! ## The Jacobian of a backend -/

/-- The coefficients of the inequality are those of the blocks, with the sign they enter with. -/
theorem Model.Shaped.derivatives_compiledRows [CommRing α] {m : Model α} (shaped : m.Shaped) (slot : Slot) :
    (m.compiledRows .ineq).derivatives slot (m.vectorLength slot) = (m.block ⟨.ineq, slot.term⟩).map slot.signed := by
  have width := shaped.width_slot .ineq slot
  have height : (m.block ⟨.ineq, slot.term⟩).height = m.ineqCount := shaped.height .ineq slot.term
  have coefficient (i j : Nat) : (m.compiledRows .ineq).coefficient slot i j =
      slot.signed (((m.block ⟨.ineq, slot.term⟩).row i).getD j 0) := by
    cases slot <;> simp [compiledRows, boundedRows, affineRows, AffineRows.add, AffineRows.sub, AffineRows.ofBlock,
      AffineRows.ofColumn, Slot.signed, Slot.term]
  refine Mat.ext_rows width.symm ?_
  show (List.range (m.compiledRows .ineq).height).map (fun i => (List.range (m.vectorLength slot)).map
    ((m.compiledRows .ineq).coefficient slot i)) = (m.block ⟨.ineq, slot.term⟩).rows.map (·.map slot.signed)
  rw [shaped.height_compiledRows, Mat.rows_eq_map_row, height, List.map_map]
  refine List.map_congr_left fun i hi => ?_
  have length := Mat.length_row (height ▸ List.mem_range.1 hi : i < (m.block ⟨.ineq, slot.term⟩).height)
  refine List.ext_getElem (by simp [length, width]) fun j hj hj' => ?_
  rw [Function.comp_apply, List.length_map] at hj'
  simp [coefficient, hj']

theorem Backend.CompiledFrom.jacobian_eq [CommRing α] {E : Engine α} {m m' : Model α} {b : Backend E}
    (compiled : b.CompiledFrom m) (exact : E.Exact) (shaped : m.Shaped)
    (same : ∀ s, m'.vectorLength s = m.vectorLength s) (slot : Slot) :
    b.jacobian m' slot.name = .ok ((m.block ⟨.ineq, slot.term⟩).map slot.signed) := by
  obtain ⟨x, c, denotes, made, ineq⟩ := compiled.functions .ineq
  have ready : b.ensureCompiled = .ok c := by rw [ensureCompiled, ineq]
  have known : Slot.ofName? slot.name = some slot := by cases slot <;> decide
  obtain ⟨y, called⟩ := Option.isSome_iff_exists.1 (exact.call denotes made)
  obtain ⟨d, derived, g, function, value⟩ := exact.differentiates (.call denotes made called) slot
  have derivatives : b.derivatives? c slot = some g := by
    show (E.call? c b.symbols >>= _) = _
    rw [called]
    show (E.jacobian? y b.symbols slot >>= _) = _
    rw [derived]
    exact function
  have origin : E.values? g (.ofFn fun s => List.replicate (m'.vectorLength s) 0) =
      some ((m.block ⟨.ineq, slot.term⟩).map slot.signed) := by
    rw [value _ fun s => by rw [Point.get_ofFn, List.length_replicate, same, compiled.length], compiled.length,
      shaped.derivatives_compiledRows]
  rw [jacobian, ready]
  simp only [known, derivatives, bind, Except.bind, Option.bind, origin]

/-! ## A backend and the model it was compiled from -/

/-- The origin of the vectors of a model. -/
def Model.zeroPoint [Zero α] (m : Model α) : Point α := .ofFn fun s => List.replicate (m.vectorLength s) 0

namespace Backend

/-- The Jacobians of a backend, called when the model is `m'`, are blocks of `m`, and with the residual at the
    origin they give every residual. -/
structure Differentiates [CommRing α] {E : Engine α} (b : Backend E) (m m' : Model α) : Prop where
  state : b.jacobian m' "x" = .ok ((m.block ⟨.ineq, .state⟩).map fun a => -a)
  input : b.jacobian m' "u" = .ok ((m.block ⟨.ineq, .input⟩).map fun a => -a)
  discrete : b.jacobian m' "d" = .ok (m.block ⟨.ineq, .discrete⟩)
  continuous : b.jacobian m' "z" = .ok (m.block ⟨.ineq, .continuous⟩)
  affine : ∀ jx ju jd jz, b.jacobian m' "x" = .ok jx → b.jacobian m' "u" = .ok ju → b.jacobian m' "d" = .ok jd →
    b.jacobian m' "z" = .ok jz → ∀ p, m.Fits p → ∃ x u d z r₀ r,
      jx.mulVec? p.state = some x ∧ ju.mulVec? p.input = some u ∧ jd.mulVec? p.discrete = some d ∧
      jz.mulVec? p.continuous = some z ∧ b.residual m' m.zeroPoint = .ok r₀ ∧ b.residual m' p = .ok r ∧
      Model.sum? ⟨x, u, d, z, r₀⟩ = some r

namespace CompiledFrom

section
variable [CommRing α] {E : Engine α} {m m' : Model α} {b : Backend E} (compiled : b.CompiledFrom m)
  (exact : E.Exact) (shaped : m.Shaped) (same : ∀ s, m'.vectorLength s = m.vectorLength s)
include compiled exact shaped same

theorem differentiates : b.Differentiates m m' := by
  have jacobian (slot : Slot) : b.jacobian m' slot.name = .ok ((m.block ⟨.ineq, slot.term⟩).map slot.signed) :=
    compiled.jacobian_eq exact shaped same slot
  have own (a : Mat α) : a.map (fun x => x) = a := Mat.ext_rows rfl (by simp [Mat.map])
  refine ⟨jacobian .state, jacobian .input, (jacobian .discrete).trans (congrArg _ (own _)),
    (jacobian .continuous).trans (congrArg _ (own _)), ?_⟩
  intro jx ju jd jz hx hu hd hz p fits
  obtain rfl := Except.ok.inj ((jacobian .state).symm.trans hx)
  obtain rfl := Except.ok.inj ((jacobian .input).symm.trans hu)
  obtain rfl := Except.ok.inj ((jacobian .discrete).symm.trans hd)
  obtain rfl := Except.ok.inj ((jacobian .continuous).symm.trans hz)
  have zeros : m.Fits m.zeroPoint := by constructor <;> simp [Model.zeroPoint, Point.ofFn, Model.vectorLength, Slot.role]
  have rows : m.rowAt .ineq p = fun i => Slot.state.signed (m.product .ineq .state p i) +
      Slot.input.signed (m.product .ineq .input p i) + Slot.discrete.signed (m.product .ineq .discrete p i) +
      Slot.continuous.signed (m.product .ineq .continuous p i) + m.rowAt .ineq m.zeroPoint i :=
    funext fun i => m.rowAt_eq p i fun s => ⟨_, Point.get_ofFn _ s⟩
  refine ⟨_, _, _, _, _, _, shaped.mulVec?_signed fits .state, shaped.mulVec?_signed fits .input,
    shaped.mulVec?_signed fits .discrete, shaped.mulVec?_signed fits .continuous,
    compiled.values_eq exact shaped same zeros .ineq, compiled.values_eq exact shaped same fits .ineq, ?_⟩
  simp only [Model.sum?, combine?_map, Option.bind_eq_bind, Option.bind_some, Model.rowCount, rows]

end
end CompiledFrom

/-- With an exact engine a model whose blocks have their shapes compiles, with either kind of symbols. From
    then on the functions return its values and their Jacobians are its blocks, until the next time it is
    compiled, whatever becomes of the model as long as its vectors keep their lengths. -/
theorem compile_agrees [CommRing α] [LE α] [DecidableLE α] {E : Engine α} (exact : E.Exact) {m : Model α}
    (shaped : m.Shaped) (b : Backend E) :
    ∃ b', compile m b = .ok () b' ∧ b'.symbols.kind = b.symbols.kind ∧
      ∀ m' : Model α, (∀ s, m'.vectorLength s = m.vectorLength s) → b'.Agrees m m' ∧ b'.Differentiates m m' := by
  obtain ⟨b', run, kind, compiled⟩ := exists_compile exact shaped b
  refine ⟨b', run, kind, fun m' same => ?_⟩
  exact ⟨compiled.agrees exact shaped same, compiled.differentiates exact shaped same⟩

/-- A model without outputs and continuous variables, compiled by the built-in engine with symbols for whole
    vectors before one of its input blocks is overwritten. -/
theorem compile_agrees_mixed : ∃ b' : Backend (Engine.builtin (α := Int)),
    compile Edit.mixed { symbols := { kind := .matrix } } = .ok () b' ∧
    let edited := Edit.mixed.setBlock ⟨.ineq, .input⟩ (.zero 1 2)
    (∃ r, Edit.mixed.residual ⟨[1], [2, 3], [4], []⟩ = .ok r ∧ b'.residual edited ⟨[1], [2, 3], [4], []⟩ = .ok r ∧
      edited.residual ⟨[1], [2, 3], [4], []⟩ ≠ .ok r) ∧
    (∃ y, Edit.mixed.output ⟨[1], [2, 3], [4], []⟩ = .ok y ∧ b'.output edited ⟨[1], [2, 3], [4], []⟩ = .ok y) ∧
    b'.jacobian edited "u" = .ok ((Edit.mixed.block ⟨.ineq, .input⟩).map fun a => -a) := by
  obtain ⟨b', run, -, later⟩ := compile_agrees (Engine.builtin_exact (α := Int)) (m := Edit.mixed) (by
    intro b
    obtain ⟨e, t⟩ := b
    cases e <;> cases t <;> decide) { symbols := { kind := .matrix } }
  obtain ⟨agrees, differentiates⟩ := later (Edit.mixed.setBlock ⟨.ineq, .input⟩ (.zero 1 2)) fun s => rfl
  have fits : Edit.mixed.Fits ⟨[1], [2, 3], [4], []⟩ := ⟨rfl, rfl, rfl, rfl⟩
  obtain ⟨r, old, new⟩ := agrees.residual _ fits
  refine ⟨b', run, ⟨r, old, new, fun same => ?_⟩, agrees.output _ fits, differentiates.input⟩
  rw [← same] at old
  revert old
  decide +kernel

end Backend
end LoopFree
