/-
  LoopFree.Proofs.Builtin — the built-in engine is exact.

  `Summand.Computes h f`: the summand is a column of `h` expressions of which the `i`-th has
  the value `f p i` at a point `p`, and none of its products has been extended. The built-in
  engine makes a summand of the affine rows it denotes out of every affine expression
  (`Summand.computes_of_denotes`), whatever coefficients of zero it leaves out.

  The slope of an expression along an entry is the difference of its values at the unit
  point of that entry and at the origin (`Expr.eval_slope`), so it depends on the values of
  the expression alone, and the derivative, with what does not occur left out, has the same
  value. Where nothing has been extended derivatives are found value by value, so they are
  the coefficients (`Engine.builtin_exact`).
-/

import LoopFree.Proofs.Exactness
import LoopFree.Symbolic.Builtin

namespace LoopFree

variable {α β γ δ : Type}

/-! ## Columns -/

namespace Mat

theorem map_column (f : α → β) (xs : List α) : (column xs).map f = column (xs.map f) := by
  refine ext_rows rfl ?_
  simp [map, column, Function.comp_def]

/-- A row of a column has one entry. -/
theorem row_eq_singleton [Zero α] {a : Mat α} (width : a.width = 1) {i : Nat} (hi : i < a.height) :
    a.row i = [(a.row i).getD 0 0] := by
  obtain ⟨c, hc⟩ := List.length_eq_one_iff.1 ((length_row hi).trans width)
  rw [hc]
  rfl

theorem single?_column_isSome (xs : List α) : (column xs).single?.isSome = decide (xs.length = 1) := by
  match xs with
  | [] => rfl
  | [x] => rfl
  | x :: y :: xs => simp [single?, column]

/-- Two matrices of one shape are combined as they are, if neither is a single entry. -/
theorem combine?_of_shape_eq {a : Mat α} {b : Mat β} (f : α → β → γ) (ha : a.single? = none) (hb : b.single? = none)
    (height : a.height = b.height) (width : a.width = b.width) (wide : 0 < a.width) :
    combine? f a b = some (a.zipWith f b width) := by
  have once : max a.width b.width / a.width = 1 := by rw [← width, Nat.max_self, Nat.div_self wide]
  have once' : max a.width b.width / b.width = 1 := by rw [← once, width]
  rw [combine?, ha, hb]
  simp only [height, true_and]
  rw [dif_pos ⟨by simp [width], by simp [width]⟩]
  refine congrArg some (ext_rows (by simp [zipWith, widen, width]) ?_)
  simp [zipWith, widen, once, once']

/-- Columns of one height are combined entry by entry. -/
theorem combine?_column (f : α → β → γ) (l : List δ) (a : δ → α) (b : δ → β) :
    combine? f (column (l.map a)) (column (l.map b)) = some (column (l.map fun i => f (a i) (b i))) := by
  have rows : (column (l.map a)).zipWith f (column (l.map b)) rfl = column (l.map fun i => f (a i) (b i)) := by
    refine ext_rows rfl ?_
    simp [zipWith, column, List.zipWith_map, List.zipWith_self]
  rcases l with _ | ⟨i, _ | ⟨j, l⟩⟩
  · rw [combine?_of_shape_eq f rfl rfl rfl rfl Nat.one_pos, rows]
  · rfl
  · rw [combine?_of_shape_eq f rfl rfl (by simp [height, column]) rfl Nat.one_pos, rows]

end Mat

/-! ## Expressions -/

namespace Expr

section
variable [CommRing α]

theorem eval_foldl_sum (p : Point α) (f : δ → Expr α) (l : List δ) (e : Expr α) :
    (l.foldl (fun e x => e.sum (f x)) e).eval p = e.eval p + (l.map fun x => (f x).eval p).sum := by
  induction l generalizing e with
  | nil => simp
  | cons x l ih => rw [List.foldl_cons, ih, eval, List.map_cons, List.sum_cons, add_assoc]

/-- A product with a coefficient that may have been left out. -/
theorem eval_product (p : Point α) (slot : Slot) (j : Nat) (c : Option α) :
    (product slot j c).eval p = c.getD 0 * (p.get slot).getD j 0 := by
  cases c with
  | none => simp [product, eval]
  | some a => rfl

/-- A product of a row counts missing entries as zero, and entries past the end not at all. -/
theorem eval_row (p : Point α) (slot : Slot) (cs : List (Option α)) :
    (row slot cs).eval p = Mat.dot (cs.map (·.getD 0)) (p.get slot) := by
  have shifted (cs : List (Option α)) (v : List α) (k : Nat) :
      ((cs.zipIdx k).map fun x => x.1.getD 0 * v.getD x.2 0).sum = Mat.dot (cs.map (·.getD 0)) (v.drop k) := by
    induction cs generalizing k with
    | nil => rfl
    | cons c cs ih =>
      rw [List.zipIdx_cons, List.map_cons, List.sum_cons, ih]
      by_cases inside : k < v.length
      · rw [List.drop_eq_getElem_cons inside, List.map_cons, Mat.dot_cons, List.getD_eq_getElem?_getD,
          List.getElem?_eq_getElem inside, Option.getD_some]
      · rw [List.drop_eq_nil_of_le (by omega), List.drop_eq_nil_of_le (by omega)]
        simp [Mat.dot, List.getD_eq_getElem?_getD, inside]
  have evaluated : (fun x : Option α × Nat => (product slot x.2 x.1).eval p) =
      fun x => x.1.getD 0 * (p.get slot).getD x.2 0 := funext fun x => eval_product p slot x.2 x.1
  rw [row, eval_foldl_sum, evaluated, shifted, List.drop_zero]
  simp [eval]

end
end Expr

/-! ## Summands -/

/-- A column of expressions with the values of affine rows, none of whose products has been
    extended. -/
structure Summand.Computes [Zero α] [Add α] [Sub α] [Mul α] (s : Summand α) (f : AffineRows α) : Prop where
  exists_column : ∃ e : Nat → Expr α, s.value = .column ((List.range f.height).map e) ∧
    ∀ i < f.height, ∀ p, (e i).eval p = f.valueAt p i
  spread : ∀ slot, s.spread slot = .none
  called : s.called = false

namespace Summand

section
variable [CommRing α] {a b : Summand α} {f g : AffineRows α}

/-- Columns of one height extend nothing when they are joined. -/
theorem Computes.joinSpread (ha : a.Computes f) (hb : b.Computes g) (height : f.height = g.height)
    (evenLeft evenRight : Bool) (slot : Slot) : a.joinSpread b evenLeft evenRight slot = .none := by
  obtain ⟨d, da, -⟩ := ha.exists_column
  obtain ⟨e, eb, -⟩ := hb.exists_column
  refine joinSpread_of_isSome_eq a b evenLeft evenRight slot ?_ (ha.spread slot) (hb.spread slot)
  rw [da, eb, Mat.single?_column_isSome, Mat.single?_column_isSome, List.length_map, List.length_map, height]

theorem Computes.add (ha : a.Computes f) (hb : b.Computes g) (height : f.height = g.height) :
    ∃ c, a.add? b = some c ∧ c.Computes (f.add g) := by
  obtain ⟨d, da, dv⟩ := ha.exists_column
  obtain ⟨e, eb, ev⟩ := hb.exists_column
  rw [add?, da, eb, ← height, Mat.combine?_column]
  refine ⟨_, rfl, ⟨_, rfl, fun i hi p => ?_⟩, fun slot => ha.joinSpread hb height _ _ slot, rfl⟩
  rw [Expr.eval, dv i hi, ev i (height ▸ hi), AffineRows.valueAt_add]

theorem Computes.sub [BEq α] (ha : a.Computes f) (hb : b.Computes g) (height : f.height = g.height) :
    ∃ c, a.sub? b = some c ∧ c.Computes (f.sub g) := by
  obtain ⟨d, da, dv⟩ := ha.exists_column
  obtain ⟨e, eb, ev⟩ := hb.exists_column
  rw [sub?, da, eb, ← height, Mat.combine?_column]
  refine ⟨_, rfl, ⟨_, rfl, fun i hi p => ?_⟩, fun slot => ha.joinSpread hb height _ _ slot, rfl⟩
  rw [Expr.eval, dv i hi, ev i (height ▸ hi), AffineRows.valueAt_sub]

theorem constant_computes [BEq α] {a : Mat α} (column : a.width = 1) : (constant a).Computes (.ofColumn a) := by
  refine ⟨⟨fun i => .constant ((a.row i).getD 0 0), ?_, fun i _ p => ?_⟩, fun _ => rfl, rfl⟩
  · refine Mat.ext_rows column ?_
    show a.rows.map (·.map Expr.constant) = (List.map _ _).map fun x => [x]
    rw [Mat.rows_eq_map_row, List.map_map, List.map_map]
    refine List.map_congr_left fun i hi => ?_
    rw [Function.comp_apply, Mat.row_eq_singleton column (List.mem_range.1 hi)]
    rfl
  · rw [AffineRows.valueAt_ofColumn]
    rfl

end
end Summand

/-! ## Products -/

namespace SymbolKind

section
variable [CommRing α] [BEq α] [LawfulBEq α] (k : SymbolKind)

/-- A coefficient is left out only if it is zero. -/
theorem coefficients_eq_map (a : Mat α) :
    ∃ kept : α → Option α, k.coefficients a = a.map kept ∧ ∀ r ∈ a.rows, r.map (fun c => (kept c).getD 0) = r := by
  have keeps {r : List α} {kept : α → Option α} (same : ∀ c ∈ r, (kept c).getD 0 = c) :
      r.map (fun c => (kept c).getD 0) = r := (List.map_congr_left same).trans (List.map_id r)
  cases k with
  | scalar =>
    refine ⟨_, rfl, fun r _ => keeps fun c _ => ?_⟩
    by_cases zero : c = 0 <;> simp [zero]
  | matrix =>
    by_cases zeros : a.entries.all (· == 0)
    · refine ⟨fun _ => none, by rw [coefficients, if_pos zeros], fun r hr => keeps fun c hc => ?_⟩
      have zero := List.all_eq_true.1 zeros c (List.mem_flatten.2 ⟨r, hr, hc⟩)
      exact (eq_of_beq zero).symm
    · exact ⟨some, by rw [coefficients, if_neg zeros], fun r _ => keeps fun c _ => rfl⟩

/-- A block times as many symbols as it has columns. -/
theorem product?_eq_column {a : Mat α} {n : Nat} (width : a.width = n) (slot : Slot) :
    ∃ e : Nat → Expr α, k.product? a slot n = some (.column ((List.range a.height).map e)) ∧
      ∀ i < a.height, ∀ p, (e i).eval p = Mat.dot (a.row i) (p.get slot) := by
  obtain ⟨kept, eq, same⟩ := k.coefficients_eq_map a
  have row_mem {i : Nat} (hi : i < a.height) : a.row i ∈ a.rows := by
    rw [Mat.row_of_lt hi]
    exact List.getElem_mem hi
  rw [product?, eq]
  by_cases one : n = 1
  · have single {i : Nat} (hi : i < a.height) : a.row i = [(a.row i).getD 0 0] :=
      Mat.row_eq_singleton (width.trans one) hi
    rw [if_pos one]
    refine ⟨fun i => .product slot 0 (kept ((a.row i).getD 0 0)), ?_, fun i hi p => ?_⟩
    · refine congrArg some (Mat.ext_rows (width.trans one) ?_)
      show (a.rows.map (·.map kept)).map (·.map (Expr.product slot 0)) = (List.map _ _).map fun x => [x]
      rw [Mat.rows_eq_map_row, List.map_map, List.map_map, List.map_map]
      refine List.map_congr_left fun i hi => ?_
      rw [Function.comp_apply, Function.comp_apply, single (List.mem_range.1 hi)]
      rfl
    · have value := same _ (row_mem hi)
      rw [single hi, List.map_singleton, List.singleton_inj] at value
      rw [Expr.eval_product, value, single hi]
      cases p.get slot <;> simp [Mat.dot]
  · -- no block of one entry is as wide as that
    have several : (a.map kept).single? = none := by
      unfold Mat.single?
      split
      · rename_i x only
        have wide := (a.map kept).length_of_mem [x] (by rw [only]; exact List.mem_singleton_self _)
        exact absurd (width.symm.trans wide.symm) one
      · rfl
    rw [if_neg one, several]
    refine ⟨fun i => .row slot ((a.row i).map kept), ?_, fun i hi p => ?_⟩
    · rw [if_pos (show (a.map kept).width = n from width)]
      refine congrArg (some ∘ Mat.column) ?_
      show (a.rows.map (·.map kept)).map (Expr.row slot) = _
      rw [Mat.rows_eq_map_row, List.map_map, List.map_map]
      rfl
    · rw [Expr.eval_row, List.map_map]
      exact congrArg (Mat.dot · _) (same _ (row_mem hi))

end
end SymbolKind

namespace Summand

section
variable [CommRing α] [BEq α] [LawfulBEq α] {v : Symbols} {f : AffineRows α}

theorem product?_computes {a : Mat α} {slot : Slot} (width : a.width = v.length slot) :
    ∃ s, product? a v slot = some s ∧ s.Computes (.ofBlock slot a) := by
  obtain ⟨e, product, value⟩ := v.kind.product?_eq_column width slot
  rw [product?, product]
  refine ⟨_, rfl, ⟨e, rfl, fun i hi p => ?_⟩, fun _ => rfl, rfl⟩
  rw [value i hi p, AffineRows.valueAt_ofBlock]

/-- Affine expressions have the values of the rows they denote. -/
theorem computes_of_denotes {x : (Engine.builtin (α := α)).Expression} (denotes : Engine.builtin.Denotes v x f) :
    Computes (α := α) x f := by
  induction denotes with
  | constant column => exact constant_computes column
  | product width built =>
    obtain ⟨s, product, computes⟩ := product?_computes width
    exact Option.some.inj (product.symm.trans built) ▸ computes
  | sum _ _ height built left right =>
    obtain ⟨s, sum, computes⟩ := left.add right height
    exact Option.some.inj (sum.symm.trans built) ▸ computes
  | difference _ _ height built left right =>
    obtain ⟨s, difference, computes⟩ := left.sub right height
    exact Option.some.inj (difference.symm.trans built) ▸ computes
  | call _ function built body =>
    -- called with its own symbols a function is the formula it was built from
    obtain rfl := Option.some.inj function
    obtain rfl := Option.some.inj ((if_pos rfl).symm.trans built)
    exact ⟨body.exists_column, body.spread, rfl⟩

end
end Summand

/-! ## Derivatives -/

theorem Mat.dot_unit [CommRing α] (r : List α) (j : Nat) : dot r (List.replicate j 0 ++ [1]) = r.getD j 0 := by
  induction r generalizing j with
  | nil => rfl
  | cons a r ih =>
    cases j with
    | zero => simp [dot]
    | succ j => rw [List.replicate_succ, List.cons_append, dot_cons, ih, mul_zero, zero_add, List.getD_cons_succ]

/-- The origin for vectors of any length: entries that are missing count as zero. -/
def Point.origin : Point α := .ofFn fun _ => []

/-- One in the `j`-th entry of a vector and zero everywhere else. -/
def Point.unit [Zero α] [One α] (slot : Slot) (j : Nat) : Point α :=
  .ofFn fun s => if s = slot then List.replicate j 0 ++ [1] else []

namespace Expr

section
variable [CommRing α]

theorem getD_unit (j k : Nat) : (List.replicate j (0 : α) ++ [1]).getD k 0 = if k = j then 1 else 0 := by
  induction j generalizing k with
  | zero => cases k <;> simp
  | succ j ih =>
    cases k with
    | zero => simp [List.replicate_succ]
    | succ k => rw [List.replicate_succ, List.cons_append, List.getD_cons_succ, ih]; simp

/-- What is left out of a derivative is zero. -/
theorem eval_derivative (p : Point α) (slot : Slot) (j : Nat) (e : Expr α) :
    ((e.derivative? slot j).getD (.constant 0)).eval p = (e.slope slot j).eval p := by
  induction e with
  | constant a => rfl
  | entry s k =>
    rw [derivative?, slope]
    split <;> rfl
  | scaled a e ih =>
    rw [slope, eval, ← ih, derivative?]
    cases e.derivative? slot j with
    | none => simp [eval]
    | some d => rfl
  | sum e f ihe ihf =>
    rw [slope, eval, ← ihe, ← ihf, derivative?]
    cases e.derivative? slot j <;> cases f.derivative? slot j <;> simp [eval]
  | difference e f ihe ihf =>
    rw [slope, eval, ← ihe, ← ihf, derivative?]
    cases e.derivative? slot j <;> cases f.derivative? slot j <;> simp [eval]

/-- Expressions are affine: a slope is the difference of two values. -/
theorem eval_slope (p : Point α) (slot : Slot) (j : Nat) (e : Expr α) :
    (e.slope slot j).eval p = e.eval (.unit slot j) - e.eval .origin := by
  induction e with
  | constant a => simp [slope, eval]
  | entry s k =>
    by_cases same : s = slot
    · rw [slope, eval, eval, eval, Point.unit, Point.origin, Point.get_ofFn, Point.get_ofFn, if_pos same, getD_unit]
      simp [same]
    · simp [slope, eval, Point.unit, Point.origin, same]
  | scaled a e ih => rw [slope, eval, ih, eval, eval, mul_sub]
  | sum e f ihe ihf =>
    simp only [slope, eval, ihe, ihf]
    abel
  | difference e f ihe ihf =>
    simp only [slope, eval, ihe, ihf]
    abel

end
end Expr

/-- What one in an entry adds to a row is its coefficient. -/
theorem AffineRows.valueAt_unit [CommRing α] (f : AffineRows α) (slot : Slot) (i j : Nat) :
    f.valueAt (.unit slot j) i - f.valueAt .origin i = f.coefficient slot i j := by
  have nothing (s : Slot) : f.linear s [] i = 0 := by simp [linear, Mat.dot]
  have one : f.linear slot (List.replicate j 0 ++ [1]) i = f.coefficient slot i j := by
    rw [linear, Mat.dot_unit]
    simp
  cases slot <;> simp [valueAt, Point.unit, Point.origin, Point.ofFn, nothing, one]

/-! ## Exactness -/

section
variable [CommRing α] {f : AffineRows α}

/-- Expressions with the values of affine rows have the coefficients for derivatives. -/
theorem Jacobian.eval_ofDerivatives (slot : Slot) (n : Nat) (p : Point α) {c : Nat → Expr α}
    (value : ∀ i < f.height, ∀ p, (c i).eval p = f.valueAt p i) :
    (ofDerivatives slot n (.column ((List.range f.height).map c))).map (·.eval p) = f.derivatives slot n := by
  rw [ofDerivatives, Mat.byColumns_column]
  refine Mat.ext_rows rfl ?_
  show (((List.range f.height).map c).map fun e => (List.range n).map (derivativeBy slot e)).map
    (·.map (Expr.eval p)) = (List.range f.height).map fun i => (List.range n).map (f.coefficient slot i)
  rw [List.map_map, List.map_map]
  refine List.map_congr_left fun i hi => ?_
  rw [Function.comp_apply, Function.comp_apply, List.map_map]
  refine List.map_congr_left fun j _ => ?_
  have hi := List.mem_range.1 hi
  rw [Function.comp_apply, derivativeBy, Expr.eval_derivative, Expr.eval_slope, value i hi, value i hi,
    AffineRows.valueAt_unit]

/-- Where nothing has been extended derivatives are found value by value. -/
theorem Summand.Computes.jacobian_value {s : Summand α} (computes : s.Computes f) (v : Symbols) (slot : Slot) :
    (s.jacobian v slot).value = Jacobian.ofDerivatives slot (v.length slot) s.value := by
  cases kind : v.kind with
  | scalar => simp only [Summand.jacobian, kind]
  | matrix => simp [Summand.jacobian, kind, computes.called, Jacobian.ofFormula, computes.spread]

variable [BEq α] [LawfulBEq α]

omit [LawfulBEq α] in
/-- At vectors that fit, an expression is evaluated entry by entry. -/
theorem Summand.evaluates {s : Summand α} {v : Symbols} {values : Point α → Mat α}
    (value : ∀ p, s.value.map (·.eval p) = values p) : Engine.builtin.Evaluates v s values := by
  refine ⟨⟨v, s.value, s.spread⟩, rfl, fun p fits => ?_⟩
  have called := Compiled.call?_of_length_eq ⟨v, s.value, s.spread⟩ 0 Expr.eval fits
  rw [value] at called
  exact called

theorem Engine.builtin_exact : (Engine.builtin (α := α)).Exact where
  product v slot a width := by
    obtain ⟨s, product, -⟩ := Summand.product?_computes width
    exact Option.isSome_of_eq_some product
  sum left right height := by
    obtain ⟨s, sum, -⟩ := (Summand.computes_of_denotes left).add (Summand.computes_of_denotes right) height
    exact Option.isSome_of_eq_some sum
  difference left right height := by
    obtain ⟨s, difference, -⟩ := (Summand.computes_of_denotes left).sub (Summand.computes_of_denotes right) height
    exact Option.isSome_of_eq_some difference
  call _ function := by
    obtain rfl := Option.some.inj function
    exact Option.isSome_of_eq_some (if_pos rfl)
  evaluates {v x f} denotes := by
    obtain ⟨e, column, value⟩ := (Summand.computes_of_denotes denotes).exists_column
    refine Summand.evaluates fun p => ?_
    rw [column, Mat.map_column, List.map_map]
    exact congrArg Mat.column (List.map_congr_left fun i hi => value i (List.mem_range.1 hi) p)
  differentiates {v x f} denotes slot := by
    have computes := Summand.computes_of_denotes denotes
    obtain ⟨e, column, value⟩ := computes.exists_column
    refine ⟨_, rfl, Summand.evaluates fun p => ?_⟩
    rw [computes.jacobian_value, column]
    exact Jacobian.eval_ofDerivatives slot _ p value

end
end LoopFree
