/-
  LoopFree.Proofs.Arc — one run of breaking an arc, and a run over all arcs.

  `ArcsBroken arcs m m'`: the inequalities of `m'` are those of `m` with the arcs broken,
  followed by the two pins of each arc. A run of `breakArc` on a consistent model whose
  source has its auxiliary input breaks that arc (`breakArc_eq_ok`); the pins that are
  there already are not touched, so the loop over the arcs breaks them all
  (`forM_breakArc_eq_ok`).
-/

import LoopFree.Proofs.Entry

namespace LoopFree

variable {α : Type}

namespace Model

/-- Where a variable and its auxiliary input have their columns. -/
structure Columns (m : Model α) (name : String) (t : Term) (j k : Nat) : Prop where
  source : ∃ s ∈ m.symbols, s.name = name ∧ s.role.breakable ∧ s.role.term? = some t ∧ s.index = some (j : Int)
  auxiliary : ∃ y ∈ m.symbols, y.name = Symbol.auxiliaryName name ∧ y.role = .input ∧ y.index = some (k : Int)

structure ArcsBroken [Zero α] [One α] [Neg α] (arcs : List (String × String)) (m m' : Model α) : Prop where
  frame : m.SameFrame m'
  consistent : m'.Consistent
  inequalities : m'.inequalities = m.inequalities.map (·.breakArcs arcs) ++ arcs.flatMap Inequality.pins

section
variable {m v m' : Model α} {arcs : List (String × String)} {a : String × String}

theorem HasAuxiliary.frame {name : String} (ready : m.HasAuxiliary name) (h : m.SameFrame m') :
    m'.HasAuxiliary name := by
  rw [HasAuxiliary, h.symbols]
  exact ready

variable [Zero α] [One α] [Neg α]

theorem ArcsBroken.nil (con : m.Consistent) : ArcsBroken [] m m := by
  refine ⟨.refl m, con, ?_⟩
  simp [Inequality.breakArcs]

/-- The pins of an arc do not need a source. -/
theorem breakArc_pins {past : List (String × String)} (plain : Inequality.Plain (past ++ [a])) :
    (past.flatMap Inequality.pins).map (·.breakArc a) = past.flatMap (Inequality.pins (α := α)) := by
  have keep : ∀ c ∈ past.flatMap (Inequality.pins (α := α)), c.breakArc a = c := by
    intro c hc
    obtain ⟨b, hb, hc⟩ := List.mem_flatMap.1 hc
    have ne := plain a (List.mem_append_right _ List.mem_cons_self) b (List.mem_append_left _ hb)
    have depends : c.row.depends = [Symbol.auxiliaryName b.1] := by
      rcases List.mem_cons.1 hc with rfl | hc
      · rfl
      · rw [List.mem_singleton.1 hc]
        rfl
    refine if_neg ?_
    intro given
    obtain ⟨-, needed⟩ := given
    rw [depends] at needed
    exact ne (List.mem_singleton.1 needed)
  exact (List.map_congr_left keep).trans (List.map_id _)

/-- One more arc. -/
theorem ArcsBroken.add (h : ArcsBroken arcs m v) (one : ArcsBroken [a] v m') (plain : Inequality.Plain (arcs ++ [a])) :
    ArcsBroken (arcs ++ [a]) m m' := by
  refine ⟨h.frame.trans one.frame, one.consistent, ?_⟩
  have single : (fun c : Inequality α => c.breakArcs [a]) = (·.breakArc a) := rfl
  have next : (fun c : Inequality α => c.breakArcs (arcs ++ [a])) = (·.breakArc a) ∘ (·.breakArcs arcs) := by
    funext c
    exact Inequality.breakArcs_append c arcs a
  rw [one.inequalities, h.inequalities, single, next, List.map_append, breakArc_pins plain, List.map_map,
    List.flatMap_append, List.flatMap_singleton, List.append_assoc]

end

section
variable {m m' : Model α} {name : String} {t : Term} {j k : Nat}

theorem Columns.frame (cols : m.Columns name t j k) (h : m.SameFrame m') : m'.Columns name t j k := by
  constructor
  · rw [h.symbols]; exact cols.source
  · rw [h.symbols]; exact cols.auxiliary

variable [Zero α]

theorem Columns.inequalities_source (cols : m.Columns name t j k) (con : m.Consistent) {i : Nat} (hi : i < m.ineqCount)
    (x : α) : (m.setEntry t i j x).inequalities =
      m.inequalities.modify i fun c => { c with coefficient := Function.update c.coefficient name x } := by
  obtain ⟨s, hs, rfl, -, ht, hj⟩ := cols.source
  exact con.inequalities_setEntry hs ht hj hi x

theorem Columns.inequalities_auxiliary (cols : m.Columns name t j k) (con : m.Consistent) {i : Nat}
    (hi : i < m.ineqCount) (x : α) : (m.setEntry .input i k x).inequalities =
      m.inequalities.modify i fun c =>
        { c with coefficient := Function.update c.coefficient (Symbol.auxiliaryName name) x } := by
  obtain ⟨y, hy, e, role, hk⟩ := cols.auxiliary
  rw [← e]
  exact con.inequalities_setEntry hy (by rw [role]; rfl) hk hi x

theorem position?_natCast_eq_some {n p c : Nat} (h : position? n (c : Int) = some p) : p = c := by
  have lt := position?_lt h
  by_cases hc : c < n
  · rw [position?_natCast hc] at h
    exact (Option.some.inj h).symm
  · simp [position?, hc] at h

/-- Moving a coefficient in one row is one change of one inequality. -/
theorem Columns.inequalities_move [Neg α] (cols : m.Columns name t j k) (con : m.Consistent) {r : Nat} {x : α}
    (hx : (m.block ⟨.ineq, t⟩).get? r j = some x) :
    (((m.setEntry .input r k (-x)).setEntry t r j 0).renameDependency r name (Symbol.auxiliaryName name)).inequalities =
      m.inequalities.modify r fun c => c.move name := by
  have inside : r < m.ineqCount := by
    have there := (Mat.get?_isSome_iff _ r j).1 (Option.isSome_of_eq_some hx)
    rw [con.height] at there
    exact there.1
  have value : m.coefficient .ineq r name = x := by
    obtain ⟨s, hs, rfl, -, ht, hj⟩ := cols.source
    rw [con.coefficient_eq hs ht hj, hx, Option.getD_some]
  have cols' := cols.frame (m.setEntry_sameFrame .input r k (-x))
  rw [inequalities_renameDependency,
    cols'.inequalities_source con.setEntry (by rw [ineqCount_setEntry]; exact inside),
    cols.inequalities_auxiliary con inside, List.modify_modify_eq, List.modify_modify_eq]
  apply List.ext_getElem?
  intro i
  rw [List.getElem?_modify, List.getElem?_modify, getElem?_inequalities]
  by_cases e : r = i
  · subst e
    cases m.rows.ineq[r]? <;> simp [Inequality.move, inequality, value]
  · simp [e]

end
/-! ## The rows that define the sink -/

theorem nodup_rowsDefining (t : RowTables) (name : String) : (t.rowsDefining name).Nodup := by
  have places : (t.rowsDefining name).Sublist (t.ineq.zipIdx.map (·.2)) := by
    have e : t.rowsDefining name = (t.ineq.zipIdx.filter fun x => x.1.defines = name).map (·.2) := by
      rw [RowTables.rowsDefining, ← List.filterMap_eq_map, List.filterMap_filter]
      refine List.filterMap_congr fun x _ => ?_
      simp
    rw [e]
    exact List.filter_sublist.map _
  refine List.Nodup.sublist places ?_
  rw [List.zipIdx_map_snd]
  exact List.nodup_range'

theorem mem_rowsDefining {t : RowTables} {name : String} {i : Nat} :
    i ∈ t.rowsDefining name ↔ ∃ row, t.ineq[i]? = some row ∧ row.defines = name := by
  simp only [RowTables.rowsDefining, List.mem_filterMap, Prod.exists, List.mk_mem_zipIdx_iff_getElem?,
    Option.ite_none_right_eq_some, Option.some.injEq]
  constructor
  · intro given
    obtain ⟨row, j, hrow, defines, rfl⟩ := given
    exact ⟨row, hrow, defines⟩
  · intro given
    obtain ⟨row, hrow, defines⟩ := given
    exact ⟨row, i, hrow, defines, rfl⟩

/-- Two changes of one place agree when they agree on what stands there. -/
theorem modify_congr {β : Type} {f g : β → β} {l : List β} {i : Nat} (h : ∀ x, l[i]? = some x → f x = g x) :
    l.modify i f = l.modify i g := by
  apply List.ext_getElem?
  intro j
  rw [List.getElem?_modify, List.getElem?_modify]
  by_cases e : i = j
  · subst e
    cases found : l[i]? with
    | none => rfl
    | some x => simp [h x found]
  · simp [e]

/-- Changing listed places one after the other, each once. -/
theorem getElem?_foldl_modify {β : Type} (f : β → β) {places : List Nat} (nodup : places.Nodup) (l : List β) (i : Nat) :
    (places.foldl (fun l r => l.modify r f) l)[i]? = if i ∈ places then l[i]?.map f else l[i]? := by
  induction places generalizing l with
  | nil => rfl
  | cons r places ih =>
    obtain ⟨hr, nodup⟩ := List.nodup_cons.1 nodup
    rw [List.foldl_cons, ih nodup]
    by_cases e : r = i
    · subst e
      simp [hr]
    · simp [List.getElem?_modify_ne f l e, Ne.symm e]

/-- Changing the rows that define the sink changes the inequalities by what they define. -/
theorem foldl_rowsDefining [Zero α] [Neg α] (m : Model α) (a : String × String) :
    (m.rows.rowsDefining a.2).foldl
        (fun l r => l.modify r fun c : Inequality α => if a.1 ∈ c.row.depends then c.move a.1 else c) m.inequalities =
      m.inequalities.map (·.breakArc a) := by
  apply List.ext_getElem?
  intro i
  rw [getElem?_foldl_modify _ (nodup_rowsDefining _ _), List.getElem?_map, getElem?_inequalities]
  cases found : m.rows.ineq[i]? with
  | none => simp
  | some row =>
    have mem : i ∈ m.rows.rowsDefining a.2 ↔ row.defines = a.2 := by
      rw [mem_rowsDefining]
      constructor
      · intro given
        obtain ⟨other, hother, defines⟩ := given
        rw [found, Option.some.injEq] at hother
        exact hother ▸ defines
      · intro defines
        exact ⟨row, found, defines⟩
    simp only [mem, Option.map_some, Inequality.breakArc, inequality]
    by_cases defines : row.defines = a.2 <;> simp [defines]

/-! ## The pins -/

/-- The descriptor of both pins of an arc. -/
def pinRow (a : String × String) : Row := { defines := a.2, depends := [Symbol.auxiliaryName a.1], tag := .pin }

/-- The model with the two pins of an arc; the source has column `j`, its auxiliary input `k`. -/
def withPins [Zero α] [One α] [Neg α] (m : Model α) (a : String × String) (t : Term) (j k : Nat) : Model α :=
  ((((m.withRows [pinRow a, pinRow a]).setEntry .input m.ineqCount k 1).setEntry .input (m.ineqCount + 1) k
    (-1)).setEntry t m.ineqCount j 1).setEntry t (m.ineqCount + 1) j (-1)

section
variable [Zero α] [One α] [Neg α] {m : Model α} {a : String × String} {t : Term} {j k : Nat}

theorem withPins_sameFrame (m : Model α) (a : String × String) (t : Term) (j k : Nat) :
    m.SameFrame (m.withPins a t j k) :=
  ((((m.withRows_sameFrame _).trans (setEntry_sameFrame _ _ _ _ _)).trans (setEntry_sameFrame _ _ _ _ _)).trans
    (setEntry_sameFrame _ _ _ _ _)).trans (setEntry_sameFrame _ _ _ _ _)

theorem Consistent.withPins (con : m.Consistent) : (m.withPins a t j k).Consistent :=
  (con.withRows _).setEntry.setEntry.setEntry.setEntry

theorem modify_first {β : Type} (f : β → β) (l : List β) (x y : β) :
    (l ++ [x, y]).modify l.length f = l ++ [f x, y] := by
  induction l with
  | nil => rfl
  | cons z l ih => rw [List.cons_append, List.length_cons, List.modify_succ_cons, ih, List.cons_append]

theorem modify_second {β : Type} (f : β → β) (l : List β) (x y : β) :
    (l ++ [x, y]).modify (l.length + 1) f = l ++ [x, f y] := by
  induction l with
  | nil => rfl
  | cons z l ih => rw [List.cons_append, List.length_cons, List.modify_succ_cons, ih, List.cons_append]

theorem Columns.inequalities_withPins (cols : m.Columns a.1 t j k) (con : m.Consistent) :
    (m.withPins a t j k).inequalities = m.inequalities ++ Inequality.pins a := by
  have count := m.ineqCount_withRows [pinRow a, pinRow a]
  have length : m.inequalities.length = m.ineqCount := by rw [length_inequalities, con.ineqRows]
  have con₀ := con.withRows [pinRow a, pinRow a]
  have con₁ : ((m.withRows [pinRow a, pinRow a]).setEntry .input m.ineqCount k 1).Consistent := con₀.setEntry
  have con₂ : (((m.withRows [pinRow a, pinRow a]).setEntry .input m.ineqCount k 1).setEntry .input
    (m.ineqCount + 1) k (-1)).Consistent := con₁.setEntry
  have cols₀ := cols.frame (m.withRows_sameFrame [pinRow a, pinRow a])
  have cols₁ := cols₀.frame (setEntry_sameFrame _ .input m.ineqCount k 1)
  have cols₂ := cols₁.frame (setEntry_sameFrame _ .input (m.ineqCount + 1) k (-1))
  have cols₃ := cols₂.frame (setEntry_sameFrame _ t m.ineqCount j 1)
  simp only [List.length_cons, List.length_nil] at count
  rw [withPins, cols₃.inequalities_source con₂.setEntry (by simp only [ineqCount_setEntry]; omega),
    cols₂.inequalities_source con₂ (by simp only [ineqCount_setEntry]; omega),
    cols₁.inequalities_auxiliary con₁ (by simp only [ineqCount_setEntry]; omega),
    cols₀.inequalities_auxiliary con₀ (by omega), con.inequalities_withRows, ← length]
  simp only [List.map_cons, List.map_nil, modify_first, modify_second]
  rfl

/-- The rows of the pins may be listed before or after the entries are written. -/
theorem appendRow_pins (m : Model α) (a : String × String) (t : Term) (j k : Nat) :
    (((((((m.appendZeroRows 2).setEntry .input m.ineqCount k 1).setEntry .input (m.ineqCount + 1) k (-1)).setEntry
      t m.ineqCount j 1).setEntry t (m.ineqCount + 1) j (-1)).appendRow (pinRow a)).appendRow (pinRow a)) =
      m.withPins a t j k := by
  have rows : ((m.appendZeroRows 2).appendRow (pinRow a)).appendRow (pinRow a) = m.withRows [pinRow a, pinRow a] := by
    simp [appendRow, withRows, appendZeroRows]
  rw [withPins, ← rows]
  rfl

end
end Model

namespace Edit

variable [Zero α] {w w' : Workspace α} {name : String} {t : Term} {j k : Nat}

omit [Zero α] in
theorem writeBlock_eq_ok {b : Block} {r : Nat} {index : Option Int} {vs : List α} {u : Unit} :
    writeBlock b r index vs w = .ok u w' ↔
      ∃ a, (w.model.block b).write r index vs = .ok a ∧ { w with model := w.model.setBlock b a } = w' := by
  simp only [writeBlock, bind_eq_ok, model_eq_ok, ofExcept_eq_ok, setModel_eq_ok, and_assoc, exists_and_left,
    exists_eq_left']

omit [Zero α] in
theorem writeBlock_some_eq_ok {r : Nat} {x : α} {u : Unit} (run : writeBlock ⟨.ineq, t⟩ r (some j) [x] w = .ok u w') :
    w'.model = w.model.setEntry t r j x := by
  obtain ⟨a, written, rfl⟩ := writeBlock_eq_ok.1 run
  obtain ⟨-, p, v, hp, hv, rfl⟩ := Mat.write_some_eq_ok.1 written
  obtain rfl := Model.position?_natCast_eq_some hp
  obtain rfl := List.singleton_inj.1 hv
  rfl

theorem moveCoefficient_eq_ok [Neg α] {r : Nat} {u : Unit}
    (run : moveCoefficient r ⟨.ineq, t⟩ (some j) (some k) w = .ok u w') :
    ∃ x, (w.model.block ⟨.ineq, t⟩).get? r j = some x ∧
      w'.model = (w.model.setEntry .input r k (-x)).setEntry t r j 0 := by
  simp only [moveCoefficient, bind_eq_ok, model_eq_ok, ofExcept_eq_ok, and_assoc, exists_and_left,
    exists_eq_left'] at run
  obtain ⟨vs, found, _, v, received, cleared⟩ := run
  obtain ⟨p, x, hp, hx, rfl⟩ := Mat.read_some_eq_ok.1 found
  obtain rfl := Model.position?_natCast_eq_some hp
  exact ⟨x, hx, by rw [writeBlock_some_eq_ok cleared, writeBlock_some_eq_ok received]⟩

theorem moveInRow_eq_ok [Neg α] (cols : w.model.Columns name t j k) (con : w.model.Consistent) {r : Nat} {u : Unit}
    (run : moveInRow name ⟨.ineq, t⟩ (some j) (some k) r w = .ok u w') :
    w.model.SameFrame w'.model ∧ w'.model.Consistent ∧
      w'.model.inequalities =
        w.model.inequalities.modify r fun c => if name ∈ c.row.depends then c.move name else c := by
  simp only [moveInRow, bind_eq_ok, model_eq_ok, ofOption_eq_ok, change_eq_ok, note_eq_ok, pure_eq_ok, ite_eq_ok,
    and_assoc, exists_and_left, exists_eq_left'] at run
  obtain ⟨row, hrow, run⟩ := run
  have there : w.model.inequalities[r]? = some (w.model.inequality row r) := by
    rw [Model.getElem?_inequalities, hrow, Option.map_some]
  rcases run with ⟨needed, _, v, moved, -, rfl⟩ | ⟨free, -, rfl⟩
  · obtain ⟨x, hx, e⟩ := moveCoefficient_eq_ok moved
    simp only [e]
    refine ⟨?_, con.setEntry.setEntry.renameDependency r name _, ?_⟩
    · exact ((Model.setEntry_sameFrame _ _ _ _ _).trans (Model.setEntry_sameFrame _ _ _ _ _)).trans
        (Model.renameDependency_sameFrame _ _ _ _)
    · rw [cols.inequalities_move con hx]
      refine Model.modify_congr fun c hc => ?_
      rw [there, Option.some.injEq] at hc
      subst hc
      exact (if_pos (of_decide_eq_true needed)).symm
  · refine ⟨.refl _, con, ?_⟩
    have same : w.model.inequalities.modify r (fun c => if name ∈ c.row.depends then c.move name else c) =
        w.model.inequalities.modify r id := by
      refine Model.modify_congr fun c hc => ?_
      rw [there, Option.some.injEq] at hc
      subst hc
      exact if_neg (of_decide_eq_false (Bool.eq_false_iff.2 free))
    rw [same, List.modify_id]

/-- The loop over the rows that define the sink. -/
theorem forM_moveInRow_eq_ok [Neg α] {a : String × String} (cols : w.model.Columns a.1 t j k)
    (con : w.model.Consistent) {u : PUnit}
    (run : (w.model.rows.rowsDefining a.2).forM (moveInRow a.1 ⟨.ineq, t⟩ (some j) (some k)) w = .ok u w') :
    w.model.SameFrame w'.model ∧ w'.model.Consistent ∧
      w'.model.inequalities = w.model.inequalities.map (·.breakArc a) := by
  rw [← Model.foldl_rowsDefining]
  refine forM_induct (fun past v => w.model.SameFrame v.model ∧ v.model.Consistent ∧ v.model.inequalities =
    past.foldl (fun l r => l.modify r fun c : Inequality α => if a.1 ∈ c.row.depends then c.move a.1 else c)
      w.model.inequalities) ⟨.refl _, con, rfl⟩ ?_ run
  intro past r v v' _ done step
  obtain ⟨frame, con, moved⟩ := done
  obtain ⟨frame', con', moved'⟩ := moveInRow_eq_ok (cols.frame frame) con step
  refine ⟨frame.trans frame', con', ?_⟩
  rw [moved', moved, List.foldl_append, List.foldl_cons, List.foldl_nil]

omit [Zero α] in
theorem writePin_eq_ok [One α] [Neg α] {first : Nat} {u : Unit}
    (run : writePin ⟨.ineq, t⟩ first (some j) w = .ok u w') :
    w'.model = (w.model.setEntry t first j 1).setEntry t (first + 1) j (-1) := by
  simp only [writePin, bind_eq_ok, model_eq_ok, ofExcept_eq_ok, setModel_eq_ok, and_assoc, exists_and_left,
    exists_eq_left'] at run
  obtain ⟨a, written, rfl⟩ := run
  obtain ⟨p, hp, -, rfl⟩ := Mat.writePair_some_eq_ok.1 written
  obtain rfl := Model.position?_natCast_eq_some hp
  rw [Model.setEntry, Model.setEntry, Model.block_setBlock, if_pos rfl, Model.setBlock_setBlock]

theorem appendIneqRows_eq_ok (count : Nat) {first : Nat} (run : appendIneqRows count w = .ok first w') :
    first = w.model.ineqCount ∧ w'.model = w.model.appendZeroRows count := by
  simp only [appendIneqRows, bind_eq_ok, model_eq_ok, setModel_eq_ok, pure_eq_ok, ite_eq_ok, throw_ne_ok, and_assoc,
    exists_and_left, exists_eq_left', false_and, exists_false, and_false, false_or, exists_const] at run
  obtain ⟨-, rfl, rfl⟩ := run
  exact ⟨rfl, rfl⟩

theorem ineqBlock_eq_ok {r : Role} {b : Block} (h : Model.ineqBlock r = .ok b) :
    ∃ t, r.term? = some t ∧ b = ⟨.ineq, t⟩ := by
  unfold Model.ineqBlock at h
  split at h
  · rename_i t ht
    exact ⟨t, ht, (Except.ok.inj h).symm⟩
  · cases h

theorem breakArc_eq_ok [One α] [Neg α] {a : String × String} {x : Nat × Nat} (con : w.model.Consistent)
    (ready : w.model.HasAuxiliary a.1) (run : breakArc a.1 a.2 w = .ok x w') :
    Model.ArcsBroken [a] w.model w'.model := by
  simp only [breakArc, bind_eq_ok, model_eq_ok, ofExcept_eq_ok, change_eq_ok, pure_eq_ok, ite_eq_ok, throw_ne_ok,
    and_assoc, exists_and_left, exists_eq_left', false_and, exists_false, and_false, false_or] at run
  obtain ⟨y, foundAuxiliary, s, found, breakable, b, hb, _, v₁, loop, first, v₂, grown, _, v₃, pinInput, _, v₄,
    pinSource, -, -, rfl⟩ := run
  obtain ⟨-, y', hy', auxiliaryName, input⟩ := ready
  obtain ⟨hs, name⟩ := Model.name_of_lookup found
  obtain ⟨hy, e⟩ := Model.name_of_lookup foundAuxiliary
  have same : y' = y := con.eq_of_name_eq hy' hy (auxiliaryName.trans e.symm)
  subst same
  obtain ⟨t, ht, rfl⟩ := ineqBlock_eq_ok hb
  obtain ⟨k, hk, -⟩ := (con.numbered .input rfl).exists_index hy input
  obtain ⟨j, hj, -⟩ := (con.numbered s.role (Model.hasColumns_of_term? ht)).exists_index hs rfl
  rw [hk, hj] at loop
  rw [hk] at pinInput
  rw [hj] at pinSource
  have cols : w.model.Columns a.1 t j k :=
    ⟨⟨s, hs, name, by simpa using breakable, ht, hj⟩, y', hy, auxiliaryName, input, hk⟩
  obtain ⟨frame, con₁, moved⟩ := forM_moveInRow_eq_ok cols con loop
  obtain ⟨rfl, zeroRows⟩ := appendIneqRows_eq_ok 2 grown
  have pins : ((v₄.model.appendRow (Model.pinRow a)).appendRow (Model.pinRow a)) = v₁.model.withPins a t j k := by
    rw [writePin_eq_ok pinSource, writePin_eq_ok pinInput, zeroRows]
    exact v₁.model.appendRow_pins a t j k
  have final := (cols.frame frame).inequalities_withPins con₁
  refine ⟨?_, ?_, ?_⟩
  · exact (frame.trans (v₁.model.withPins_sameFrame a t j k)).trans (pins ▸ .refl _)
  · exact pins ▸ con₁.withPins
  · show ((v₄.model.appendRow (Model.pinRow a)).appendRow (Model.pinRow a)).inequalities = _
    rw [pins, final, moved]
    simp [Inequality.breakArcs]

/-- A turn of the loop over the arcs notes the arc and breaks it. -/
theorem noted_breakArc_eq_ok [One α] [Neg α] {source sink : String} {u : Unit}
    (run : (do
      note (.breakingArc source sink)
      discard (breakArc source sink)) w = .ok u w') :
    ∃ v x, v.model = w.model ∧ breakArc source sink v = .ok x w' := by
  obtain ⟨_, v, noted, run⟩ := bind_eq_ok.1 run
  obtain ⟨x, run⟩ := discard_eq_ok.1 run
  refine ⟨v, x, ?_, run⟩
  rw [← note_eq_ok.1 noted]

/-- The loop over the arcs. -/
theorem forM_breakArc_eq_ok [One α] [Neg α] {β : Type} {source sink : β → String} {l : List β} {u : PUnit}
    (con : w.model.Consistent) (ready : ∀ b ∈ l, w.model.HasAuxiliary (source b))
    (run : (l.forM fun b => do
      note (.breakingArc (source b) (sink b))
      discard (breakArc (source b) (sink b))) w = .ok u w') :
    Model.ArcsBroken (l.map fun b => (source b, sink b)) w.model w'.model := by
  have plain : Inequality.Plain (l.map fun b => (source b, sink b)) := by
    refine Inequality.plain_of_hasAuxiliary con fun a ha => ?_
    obtain ⟨b, hb, rfl⟩ := List.mem_map.1 ha
    exact ready b hb
  refine (forM_induct (fun past v => past ⊆ l ∧
      Model.ArcsBroken (past.map fun b => (source b, sink b)) w.model v.model)
    ⟨List.nil_subset _, .nil con⟩ ?_ run).2
  intro past b v v' hb done step
  obtain ⟨sub, done⟩ := done
  obtain ⟨v₁, x, same, step⟩ := noted_breakArc_eq_ok step
  rw [← same] at done
  have sub' : past ++ [b] ⊆ l := List.append_subset.2 ⟨sub, by simpa using hb⟩
  have plain' : Inequality.Plain ((past ++ [b]).map fun b => (source b, sink b)) := by
    intro x hx y hy
    exact plain x (List.map_subset _ sub' hx) y (List.map_subset _ sub' hy)
  have one : Model.ArcsBroken [(source b, sink b)] v₁.model v'.model :=
    breakArc_eq_ok (a := (source b, sink b)) done.consistent ((ready b hb).frame done.frame) step
  rw [List.map_append, List.map_singleton] at plain' ⊢
  exact ⟨sub', done.add one plain'⟩

end Edit
end LoopFree
