/-
  LoopFree.Proofs.Rewriting — what breaking arcs leaves of any model.

  Nothing is assumed of the model, the arcs or the auxiliary symbols here. However the
  coefficients move, a run that breaks arcs touches the inequality system only, its
  blocks grow by two rows for each arc (`Resized`), and its descriptors are renamed and
  extended one arc after the other (`Rewritten`, `forM_breakArc_rewritten`). That is all
  consistency needs (`Resized.consistent`).
-/

import LoopFree.Proofs.Arc

namespace LoopFree

variable {α : Type}

/-- The descriptor once the arc from `a.1` to `a.2` is broken. -/
def Row.breakArc (r : Row) (a : String × String) : Row :=
  if r.defines = a.2 then r.replaceDependency a.1 (Symbol.auxiliaryName a.1) else r

namespace Model

/-- The inequality descriptors once the arcs are broken one after the other. -/
def rewriteRows (arcs : List (String × String)) (rows : List Row) : List Row :=
  arcs.foldl (fun rows a => rows.map (·.breakArc a) ++ [pinRow a, pinRow a]) rows

theorem rewriteRows_append (arcs : List (String × String)) (a : String × String) (rows : List Row) :
    rewriteRows (arcs ++ [a]) rows = (rewriteRows arcs rows).map (·.breakArc a) ++ [pinRow a, pinRow a] := by
  simp [rewriteRows]

theorem length_rewriteRows (arcs : List (String × String)) (rows : List Row) :
    (rewriteRows arcs rows).length = rows.length + 2 * arcs.length := by
  induction arcs using List.reverseRecOn with
  | nil => rfl
  | append_singleton arcs a ih =>
    rw [rewriteRows_append, List.length_append, List.length_map, ih, List.length_append]
    simp only [List.length_cons, List.length_nil]
    omega

/-- Only the inequality system differs; its blocks have `n` more rows. -/
structure Resized (n : Nat) (m m' : Model α) : Prop extends SameFrame m m' where
  updateRows : m'.rows.update = m.rows.update
  shapes : ∀ t, (m'.block ⟨.ineq, t⟩).shape = ((m.block ⟨.ineq, t⟩).height + n, (m.block ⟨.ineq, t⟩).width)

/-- The inequality system of `m` with the arcs broken one after the other. -/
structure Rewritten (arcs : List (String × String)) (m m' : Model α) : Prop
    extends Resized (2 * arcs.length) m m' where
  ineqRows : m'.rows.ineq = rewriteRows arcs m.rows.ineq

namespace Resized

variable {m v m' : Model α} {n p : Nat}

theorem refl (m : Model α) : Resized 0 m m := ⟨.refl m, rfl, fun _ => rfl⟩

theorem trans (h : Resized n m v) (k : Resized p v m') : Resized (n + p) m m' where
  toSameFrame := h.toSameFrame.trans k.toSameFrame
  updateRows := k.updateRows.trans h.updateRows
  shapes t := by
    have old := h.shapes t
    rw [Mat.shape, Prod.mk.injEq] at old
    rw [k.shapes t, old.1, old.2, Nat.add_assoc]

theorem setBlock {b : Block} (ineq : b.equation = .ineq) {a : Mat α} (shape : a.shape = (m.block b).shape) :
    Resized 0 m (m.setBlock b a) := by
  refine ⟨⟨rfl, rfl, fun c other => ?_⟩, rfl, fun t => ?_⟩
  · rw [block_setBlock, if_neg]
    intro same
    exact other (same ▸ ineq)
  · rw [block_setBlock]
    split
    · rename_i same
      rw [shape, same]
      rfl
    · rfl

theorem renameDependency (m : Model α) (i : Nat) (old new : String) : Resized 0 m (m.renameDependency i old new) :=
  ⟨m.renameDependency_sameFrame i old new, rfl, fun _ => rfl⟩

theorem appendRow (m : Model α) (row : Row) : Resized 0 m (m.appendRow row) :=
  ⟨⟨rfl, rfl, fun _ _ => rfl⟩, rfl, fun _ => rfl⟩

theorem appendZeroRows [Zero α] (m : Model α) (n : Nat) : Resized n m (m.appendZeroRows n) := by
  refine ⟨⟨rfl, rfl, fun _ other => m.block_appendZeroRows_of_ne n other⟩, rfl, fun t => ?_⟩
  rw [block_appendZeroRows, Mat.shape, Mat.height_appendZeroRows, Mat.width_appendZeroRows]

/-- More rows in every block and as many more descriptors. -/
theorem consistent (h : Resized n m m') (con : m.Consistent) (rows : m'.rows.ineq.length = m.rows.ineq.length + n) :
    m'.Consistent := by
  have count : m'.ineqCount = m.ineqCount + n := congrArg Prod.fst (h.shapes .affine)
  refine h.toSameFrame.consistent con (fun t => ?_) ?_
  · have old := con.ineq_shape t
    rw [Mat.shape, Prod.mk.injEq] at old
    rw [h.shapes, old.1, old.2, count]
  · rw [rows, con.ineqRows, count]

end Resized

namespace Rewritten

variable {m v m' : Model α} {arcs : List (String × String)} {a : String × String}

theorem refl (m : Model α) : Rewritten [] m m := ⟨.refl m, rfl⟩

theorem add (h : Rewritten arcs m v) (one : Rewritten [a] v m') : Rewritten (arcs ++ [a]) m m' where
  toResized := by
    have both := h.toResized.trans one.toResized
    rwa [← Nat.mul_add, ← List.length_append] at both
  ineqRows := by
    rw [one.ineqRows, h.ineqRows, rewriteRows_append]
    rfl

theorem consistent (h : Rewritten arcs m m') (con : m.Consistent) : m'.Consistent :=
  h.toResized.consistent con (by rw [h.ineqRows, length_rewriteRows])

end Rewritten

/-! ## The rows that define the sink -/

theorem replaceDependency_of_not_dependsOn {r : Row} {old : String} (free : old ∉ r.depends) (new : String) :
    r.replaceDependency old new = r := by
  have same : r.depends.map (fun n => if n = old then new else n) = r.depends := by
    refine (List.map_congr_left fun n hn => if_neg ?_).trans (List.map_id' _)
    exact fun e => free (e ▸ hn)
  rw [Row.replaceDependency, same]

/-- Renaming in the rows that define the sink renames in each row by what it defines. -/
theorem foldl_modify_rowsDefining (t : RowTables) (a : String × String) :
    (t.rowsDefining a.2).foldl
        (fun l r => l.modify r (·.replaceDependency a.1 (Symbol.auxiliaryName a.1))) t.ineq =
      t.ineq.map (·.breakArc a) := by
  apply List.ext_getElem?
  intro i
  rw [getElem?_foldl_modify _ (nodup_rowsDefining _ _), List.getElem?_map]
  cases found : t.ineq[i]? with
  | none => simp
  | some row =>
    have mem : i ∈ t.rowsDefining a.2 ↔ row.defines = a.2 := by
      rw [mem_rowsDefining, found]
      simp
    simp only [mem, Option.map_some, Row.breakArc]
    split <;> rfl

end Model

namespace Edit

open Model (Resized Rewritten)

variable {w w' : Workspace α}

theorem writeBlock_resized {t : Term} {r : Nat} {index : Option Int} {vs : List α} {u : Unit}
    (run : writeBlock ⟨.ineq, t⟩ r index vs w = .ok u w') :
    Resized 0 w.model w'.model ∧ w'.model.rows = w.model.rows := by
  obtain ⟨a, written, rfl⟩ := writeBlock_eq_ok.1 run
  exact ⟨.setBlock rfl (Mat.shape_write written), rfl⟩

theorem writePin_resized [One α] [Neg α] {t : Term} {first : Nat} {index : Option Int} {u : Unit}
    (run : writePin ⟨.ineq, t⟩ first index w = .ok u w') :
    Resized 0 w.model w'.model ∧ w'.model.rows = w.model.rows := by
  simp only [writePin, bind_eq_ok, model_eq_ok, ofExcept_eq_ok, setModel_eq_ok, and_assoc, exists_and_left,
    exists_eq_left'] at run
  obtain ⟨a, written, rfl⟩ := run
  exact ⟨.setBlock rfl (Mat.shape_writePair written), rfl⟩

section
variable [Zero α] [Neg α] {source : String} {t : Term} {column auxiliaryColumn : Option Int}

theorem moveCoefficient_resized {r : Nat} {u : Unit}
    (run : moveCoefficient r ⟨.ineq, t⟩ column auxiliaryColumn w = .ok u w') :
    Resized 0 w.model w'.model ∧ w'.model.rows = w.model.rows := by
  simp only [moveCoefficient, bind_eq_ok, model_eq_ok, ofExcept_eq_ok, and_assoc, exists_and_left,
    exists_eq_left'] at run
  obtain ⟨vs, -, _, v, received, cleared⟩ := run
  obtain ⟨resized, rows⟩ := writeBlock_resized received
  obtain ⟨resized', rows'⟩ := writeBlock_resized cleared
  exact ⟨resized.trans resized', rows'.trans rows⟩

theorem moveInRow_resized {r : Nat} {u : Unit}
    (run : moveInRow source ⟨.ineq, t⟩ column auxiliaryColumn r w = .ok u w') :
    Resized 0 w.model w'.model ∧
      w'.model.rows.ineq = w.model.rows.ineq.modify r (·.replaceDependency source (Symbol.auxiliaryName source)) := by
  simp only [moveInRow, bind_eq_ok, model_eq_ok, ofOption_eq_ok, change_eq_ok, note_eq_ok, pure_eq_ok, ite_eq_ok,
    and_assoc, exists_and_left, exists_eq_left'] at run
  obtain ⟨row, hrow, run⟩ := run
  rcases run with ⟨-, _, v, moved, -, rfl⟩ | ⟨free, -, rfl⟩
  · obtain ⟨resized, rows⟩ := moveCoefficient_resized moved
    refine ⟨resized.trans (.renameDependency _ _ _ _), ?_⟩
    show v.model.rows.ineq.modify r _ = _
    rw [rows]
  · refine ⟨.refl _, ?_⟩
    have same : w.model.rows.ineq.modify r (·.replaceDependency source (Symbol.auxiliaryName source)) =
        w.model.rows.ineq.modify r id := by
      refine Model.modify_congr fun x hx => ?_
      rw [hrow, Option.some.injEq] at hx
      subst hx
      exact Model.replaceDependency_of_not_dependsOn (of_decide_eq_false (Bool.eq_false_iff.2 free)) _
    rw [same, List.modify_id]

theorem forM_moveInRow_resized {sink : String} {u : PUnit}
    (run : (w.model.rows.rowsDefining sink).forM (moveInRow source ⟨.ineq, t⟩ column auxiliaryColumn) w = .ok u w') :
    Resized 0 w.model w'.model ∧ w'.model.rows.ineq = w.model.rows.ineq.map (·.breakArc (source, sink)) := by
  rw [← Model.foldl_modify_rowsDefining w.model.rows (source, sink)]
  refine forM_induct (fun past v => Resized 0 w.model v.model ∧ v.model.rows.ineq =
    past.foldl (fun l r => l.modify r (·.replaceDependency source (Symbol.auxiliaryName source)))
      w.model.rows.ineq) ⟨.refl _, rfl⟩ ?_ run
  intro past r v v' _ done step
  obtain ⟨resized, renamed⟩ := done
  obtain ⟨resized', renamed'⟩ := moveInRow_resized step
  refine ⟨resized.trans resized', ?_⟩
  rw [renamed', renamed, List.foldl_append, List.foldl_cons, List.foldl_nil]

variable [One α]

/-- One arc, in whatever model. -/
theorem breakArc_rewritten {sink : String} {x : Nat × Nat} (run : breakArc source sink w = .ok x w') :
    Rewritten [(source, sink)] w.model w'.model := by
  simp only [breakArc, bind_eq_ok, model_eq_ok, ofExcept_eq_ok, change_eq_ok, pure_eq_ok, ite_eq_ok, throw_ne_ok,
    and_assoc, exists_and_left, exists_eq_left', false_and, exists_false, and_false, false_or] at run
  obtain ⟨_, -, s, -, -, b, hb, _, v₁, loop, first, v₂, grown, _, v₃, pinInput, _, v₄, pinSource, -, -,
    rfl⟩ := run
  obtain ⟨t, -, rfl⟩ := ineqBlock_eq_ok hb
  obtain ⟨moved, renamed⟩ := forM_moveInRow_resized loop
  obtain ⟨-, zeroRows⟩ := appendIneqRows_eq_ok 2 grown
  obtain ⟨input, inputRows⟩ := writePin_resized pinInput
  obtain ⟨own, ownRows⟩ := writePin_resized pinSource
  have higher : Resized 2 v₁.model v₂.model := zeroRows ▸ .appendZeroRows v₁.model 2
  have rows : v₄.model.rows.ineq = v₁.model.rows.ineq := by
    rw [ownRows, inputRows, zeroRows]
    rfl
  refine ⟨?_, ?_⟩
  · exact (((moved.trans higher).trans input).trans own).trans ((Resized.appendRow _ _).trans (Resized.appendRow _ _))
  · show (v₄.model.rows.ineq ++ [_]) ++ [_] = _
    rw [rows, renamed, List.append_assoc]
    rfl

/-- The loop over the arcs, in whatever model. -/
theorem forM_breakArc_rewritten {β : Type} {source sink : β → String} {l : List β} {u : PUnit}
    (run : (l.forM fun b => do
      note (.breakingArc (source b) (sink b))
      discard (breakArc (source b) (sink b))) w = .ok u w') :
    Rewritten (l.map fun b => (source b, sink b)) w.model w'.model := by
  refine forM_induct (fun past v => Rewritten (past.map fun b => (source b, sink b)) w.model v.model) (.refl _) ?_ run
  intro past b v v' _ done step
  obtain ⟨v₁, x, same, step⟩ := noted_breakArc_eq_ok step
  rw [← same] at done
  rw [List.map_append, List.map_singleton]
  exact done.add (breakArc_rewritten step)

end
end Edit
end LoopFree
