/-
  LoopFree.Proofs.Success — when loop removal succeeds.

  On a consistent model no change can stop: every name that is looked up is there once,
  every column is inside its block, every row inside the table (`safe_breakCut`). What is
  left are the checks, so a run succeeds exactly when they pass, and otherwise reports
  the first that fails (`removal_succeeds_iff`).
-/

import LoopFree.Proofs.Ranking
import LoopFree.Proofs.Refusal

namespace LoopFree

variable {α : Type}

namespace Model

variable {m m' : Model α} {name : String} {s : Symbol} {t : Term} {j k : Nat}

/-! ## Lookups and columns of a consistent model -/

theorem Consistent.find_eq (con : m.Consistent) (hs : s ∈ m.symbols) : m.find s.name = [s] :=
  find_eq_of_names con.names hs

theorem Consistent.exists_find (con : m.Consistent) (known : m.hasSymbol name) : ∃ s, m.find name = [s] := by
  obtain ⟨s, hs, rfl⟩ := hasSymbol_iff_exists.1 known
  exact ⟨s, con.find_eq hs⟩

theorem Columns.source_lt (cols : m.Columns name t j k) (con : m.Consistent) : j < (m.block ⟨.ineq, t⟩).width := by
  obtain ⟨s, hs, -, -, ht, hj⟩ := cols.source
  obtain ⟨i, hi, inside, -⟩ := (con.numbered s.role (hasColumns_of_term? ht)).exists_index hs rfl
  rw [hj, Option.some.injEq, Int.natCast_inj] at hi
  rwa [con.width .ineq ht, hi]

theorem Columns.auxiliary_lt (cols : m.Columns name t j k) (con : m.Consistent) :
    k < (m.block ⟨.ineq, .input⟩).width := by
  obtain ⟨y, hy, -, role, hk⟩ := cols.auxiliary
  obtain ⟨i, hi, inside, -⟩ := (con.numbered .input rfl).exists_index hy role
  rw [hk, Option.some.injEq, Int.natCast_inj] at hi
  rwa [con.width .ineq (r := .input) rfl, hi]

end Model

namespace Edit

variable {w w' : Workspace α}

/-- The edit does not stop. -/
abbrev Safe {β : Type} (x : Edit α β) (w : Workspace α) : Prop := StopsWith (fun _ => False) x w

theorem safe_lookup {m : Model α} {name : String} (con : m.Consistent) (known : m.hasSymbol name) :
    Safe (ofExcept (m.lookup name)) w := by
  obtain ⟨s, found⟩ := con.exists_find known
  rw [Safe, stopsWith_ofExcept, Model.lookup_eq_ok.2 found]
  exact fun _ e => (nomatch e)

theorem safe_rank {g : VariableGraph} {order : List (Fin g.vertices.length)}
    (single : ∀ v ∈ order, ∃ s, w.model.find (g.vertex v).name = [s]) : Safe (rank g order) w := by
  refine stopsWith_forM (fun _ v => ∃ ρ, v.model = w.model.withRanks ρ) ⟨_, w.model.withRanks_rank.symm⟩
    (fun _ _ _ _ _ ranks step => withRanks_of_rankVertex ranks step) ?_
  intro _ x v hx ranks
  obtain ⟨ρ, ranks⟩ := ranks
  obtain ⟨s, only⟩ := single x.1 (List.fst_mem_of_mem_zipIdx hx)
  have found : v.model.find (g.vertex x.1).name = [{ s with rank := ρ s }] := by
    rw [ranks, Model.find_withRanks, only, List.map_singleton]
  unfold rankVertex
  exact .step rfl (.step (ofExcept_eq_ok.2 ⟨Model.lookup_eq_ok.2 found, rfl⟩) stopsWith_change)

theorem safe_requireValid (con : w.model.Consistent) : Safe requireValid w := by
  intro f w' stops
  obtain ⟨-, -, -, invalid⟩ := requireValid_eq_error stops
  exact invalid (Model.isValid_iff_consistent.2 con)

section
variable [Zero α]

/-! ## Adding auxiliary inputs -/

theorem safe_openColumn {b : Block} {k : Nat} (inside : k ≤ (w.model.block b).width) : Safe (openColumn b k) w := by
  simp [openColumn, Mat.insertColumn?, inside]

/-- The input blocks are widened one after the other, each as wide as there are inputs. -/
theorem safe_insertInputColumn {k : Nat} (inside : ∀ e, k ≤ (w.model.block ⟨e, .input⟩).width) :
    Safe (insertInputColumn k) w := by
  have low : (0 : Int) ≤ k := Int.natCast_nonneg k
  have high : (k : Int) ≤ ((w.model.block ⟨.update, .input⟩).width : Int) := Int.ofNat_le.2 (inside .update)
  unfold insertInputColumn
  refine .step rfl ?_
  rw [if_pos ⟨low, high⟩]
  refine .step rfl (stopsWith_bind.2 ⟨safe_openColumn (inside .update), fun _ v₁ first => ?_⟩)
  refine stopsWith_bind.2 ⟨safe_openColumn ?_, fun _ v₂ second => safe_openColumn ?_⟩
  · obtain ⟨a, -, rfl⟩ := openColumn_eq_ok.1 first
    rw [Model.block_setBlock, if_neg (by decide)]
    exact inside .output
  · obtain ⟨a, -, rfl⟩ := openColumn_eq_ok.1 first
    obtain ⟨b, -, rfl⟩ := openColumn_eq_ok.1 second
    rw [Model.block_setBlock, if_neg (by decide), Model.block_setBlock, if_neg (by decide)]
    exact inside .ineq

theorem safe_addAuxiliary {source : String} (con : w.model.Consistent) (known : w.model.hasSymbol source)
    (fresh : w.model.hasSymbol (Symbol.auxiliaryName source) = false) : Safe (addAuxiliary source) w := by
  unfold addAuxiliary
  refine .step rfl (stopsWith_bind.2 ⟨safe_lookup con known, fun s v read => ?_⟩)
  obtain ⟨found, rfl⟩ := ofExcept_eq_ok.1 read
  obtain ⟨hs, rfl⟩ := Model.name_of_lookup found
  refine stopsWith_bind.2 ⟨safe_insertInputColumn fun e => ?_, fun _ v opened => .step rfl ?_⟩
  · rw [con.width e (r := .input) rfl]
    exact Model.auxiliaryColumn_le _ _
  · obtain ⟨k, -, wider⟩ := insertInputColumn_eq_ok opened
    have free : v.model.hasSymbol (Symbol.auxiliaryName s.name) = false := by
      rw [Model.hasSymbol, wider.symbols, List.any_map]
      simpa [Model.hasSymbol] using fresh
    simp only [stopsWith_bind, stopsWith_ofExcept, stopsWith_setModel, stopsWith_note, stopsWith_pure, implies_true,
      and_true]
    intro f refused
    obtain ⟨taken, -⟩ := Model.addSymbol_eq_error refused
    exact Bool.eq_false_iff.1 free taken

theorem safe_ensureAuxiliary {name : String} (con : w.model.Consistent) (known : w.model.hasSymbol name) :
    Safe (ensureAuxiliary name) w := by
  unfold ensureAuxiliary
  refine .step rfl ?_
  cases there : w.model.hasSymbol (Symbol.auxiliaryName name) with
  | true =>
    obtain ⟨s, found⟩ := con.exists_find there
    rw [found]
    exact stopsWith_pure
  | false =>
    have none : w.model.find (Symbol.auxiliaryName name) = [] := by
      rw [Model.find, List.filter_eq_nil_iff]
      simpa [Model.hasSymbol] using there
    rw [none]
    exact stopsWith_discard.2 (safe_addAuxiliary con known there)

theorem safe_forM_ensureAuxiliary {β : Type} {name : β → String} {l : List β} (con : w.model.Consistent)
    (known : ∀ b ∈ l, w.model.hasSymbol (name b)) : Safe (l.forM fun b => ensureAuxiliary (name b)) w := by
  refine stopsWith_forM (fun _ v => v.model.Consistent ∧ w.model.Widened v.model) ⟨con, .refl _⟩ ?_ ?_
  · intro _ b v v' _ kept step
    exact ⟨ensureAuxiliary_consistent kept.1 step, ensureAuxiliary_widened kept.2 step⟩
  · intro _ b v hb kept
    exact safe_ensureAuxiliary kept.1 (kept.2.hasSymbol (known b hb))

/-! ## Breaking arcs -/

omit [Zero α] in
theorem safe_writeBlock {t : Term} {r j : Nat} (row : r < (w.model.block ⟨.ineq, t⟩).height)
    (column : j < (w.model.block ⟨.ineq, t⟩).width) (x : α) : Safe (writeBlock ⟨.ineq, t⟩ r (some j) [x]) w := by
  have written : (w.model.block ⟨.ineq, t⟩).write r (some j) [x] = .ok ((w.model.block ⟨.ineq, t⟩).set r j x) :=
    Mat.write_some_eq_ok.2 ⟨row, j, x, position?_natCast column, rfl, rfl⟩
  exact .step rfl (.step (ofExcept_eq_ok.2 ⟨written, rfl⟩) stopsWith_setModel)

variable [Neg α]

theorem safe_moveCoefficient {name : String} {t : Term} {j k r : Nat} (cols : w.model.Columns name t j k)
    (con : w.model.Consistent) (inside : r < w.model.ineqCount) :
    Safe (moveCoefficient r ⟨.ineq, t⟩ (some j) (some k)) w := by
  have own : r < (w.model.block ⟨.ineq, t⟩).height := by rwa [con.height]
  obtain ⟨x, hx⟩ := Option.isSome_iff_exists.1 ((Mat.get?_isSome_iff _ _ _).2 ⟨own, cols.source_lt con⟩)
  have found : (w.model.block ⟨.ineq, t⟩).read r (some j) = .ok [x] :=
    Mat.read_some_eq_ok.2 ⟨j, x, position?_natCast (cols.source_lt con), hx, rfl⟩
  refine .step rfl (.step (ofExcept_eq_ok.2 ⟨found, rfl⟩) (stopsWith_bind.2 ⟨?_, fun _ v received => ?_⟩))
  · exact safe_writeBlock (by rwa [con.height]) (cols.auxiliary_lt con) (-x)
  · -- the write to the auxiliary column changes no shape
    have e : v.model = w.model.setEntry .input r k (-x) := writeBlock_some_eq_ok received
    have con' : v.model.Consistent := e ▸ con.setEntry
    have cols' : v.model.Columns name t j k := e ▸ cols.frame (Model.setEntry_sameFrame _ _ _ _ _)
    have inside' : r < v.model.ineqCount := by rwa [e, Model.ineqCount_setEntry]
    exact safe_writeBlock (by rwa [con'.height]) (cols'.source_lt con') 0

theorem safe_forM_moveInRow {a : String × String} {t : Term} {j k : Nat} (cols : w.model.Columns a.1 t j k)
    (con : w.model.Consistent) :
    Safe ((w.model.rows.rowsDefining a.2).forM (moveInRow a.1 ⟨.ineq, t⟩ (some j) (some k))) w := by
  refine stopsWith_forM (fun _ v => w.model.SameFrame v.model ∧ v.model.Consistent ∧
    v.model.rows.ineq.length = w.model.rows.ineq.length) ⟨.refl _, con, rfl⟩ ?_ ?_
  · intro _ r v v' _ kept step
    obtain ⟨frame, con, length⟩ := kept
    obtain ⟨frame', con', -⟩ := moveInRow_eq_ok (cols.frame frame) con step
    refine ⟨frame.trans frame', con', ?_⟩
    rw [(moveInRow_resized step).2, List.length_modify, length]
  · intro _ r v hr kept
    obtain ⟨frame, con, length⟩ := kept
    obtain ⟨row, hrow, -⟩ := Model.mem_rowsDefining.1 hr
    -- moving coefficients adds no row, so the rows that were found are still in the table
    have inside : r < v.model.rows.ineq.length := by
      rw [length]
      exact (List.getElem?_eq_some_iff.1 hrow).1
    have there := List.getElem?_eq_getElem inside
    have moves := safe_moveCoefficient (cols.frame frame) con (con.ineqRows ▸ inside)
    refine .step rfl (.step (ofOption_eq_ok.2 ⟨there, rfl⟩) ?_)
    rw [stopsWith_ite]
    exact ⟨fun _ => stopsWith_bind.2 ⟨moves, fun _ _ _ => .step rfl stopsWith_note⟩, fun _ => stopsWith_pure⟩

variable [One α]

omit [Zero α] in
theorem safe_writePin {t : Term} {first j : Nat} (inside : j < (w.model.block ⟨.ineq, t⟩).width)
    (tall : first + 2 ≤ (w.model.block ⟨.ineq, t⟩).height) : Safe (writePin ⟨.ineq, t⟩ first (some j)) w := by
  have written : (w.model.block ⟨.ineq, t⟩).writePair first (some j) 1 (-1) =
      .ok (((w.model.block ⟨.ineq, t⟩).set first j 1).set (first + 1) j (-1)) :=
    Mat.writePair_some_eq_ok.2 ⟨j, position?_natCast inside, tall, rfl⟩
  exact .step rfl (.step (ofExcept_eq_ok.2 ⟨written, rfl⟩) stopsWith_setModel)

/-- The rows of the pins are inside every block once they are added. -/
theorem safe_pins {name : String} {t : Term} {j k : Nat} (cols : w.model.Columns name t j k)
    (con : w.model.Consistent) : Safe (do
      let first ← appendIneqRows 2
      writePin ⟨.ineq, .input⟩ first (some k)
      writePin ⟨.ineq, t⟩ first (some j)) w := by
  refine stopsWith_bind.2 ⟨by simp [appendIneqRows], fun first v grown => ?_⟩
  obtain ⟨rfl, zeroRows⟩ := appendIneqRows_eq_ok 2 grown
  have higher : Model.Resized 2 w.model v.model := zeroRows ▸ .appendZeroRows w.model 2
  have tall (n : Nat) (x : Workspace α) (h : Model.Resized n w.model x.model) (t : Term) :
      (x.model.block ⟨.ineq, t⟩).height = w.model.ineqCount + n ∧
        (x.model.block ⟨.ineq, t⟩).width = (w.model.block ⟨.ineq, t⟩).width := by
    have shape := h.shapes t
    rw [con.height] at shape
    exact Prod.mk.inj shape
  obtain ⟨rows, width⟩ := tall 2 v higher .input
  have input := safe_writePin (width ▸ cols.auxiliary_lt con) (Nat.le_of_eq rows.symm)
  refine stopsWith_bind.2 ⟨input, fun _ v' pinned => ?_⟩
  -- the pin of the input changes no shape
  obtain ⟨rows, width⟩ := tall _ v' (higher.trans (writePin_resized pinned).1) t
  exact safe_writePin (width ▸ cols.source_lt con) (Nat.le_of_eq rows.symm)

theorem safe_breakArc {a : String × String} (con : w.model.Consistent) (ready : w.model.HasAuxiliary a.1) :
    Safe (breakArc a.1 a.2) w := by
  obtain ⟨⟨s, hs, source, breakable⟩, y, hy, auxiliary, input⟩ := ready
  have found : w.model.lookup a.1 = .ok s := Model.lookup_eq_ok.2 (source ▸ con.find_eq hs)
  have foundAuxiliary : w.model.lookup (Symbol.auxiliaryName a.1) = .ok y :=
    Model.lookup_eq_ok.2 (auxiliary ▸ con.find_eq hy)
  obtain ⟨t, ht⟩ := Role.exists_term?_of_breakable breakable
  obtain ⟨j, hj, -⟩ := (con.numbered s.role (Model.hasColumns_of_term? ht)).exists_index hs rfl
  obtain ⟨k, hk, -⟩ := (con.numbered .input rfl).exists_index hy input
  have cols : w.model.Columns a.1 t j k := ⟨⟨s, hs, source, breakable, ht, hj⟩, y, hy, auxiliary, input, hk⟩
  have own : Model.ineqBlock s.role = .ok ⟨.ineq, t⟩ := by rw [Model.ineqBlock, ht]
  unfold breakArc
  refine .step rfl (.step (ofExcept_eq_ok.2 ⟨foundAuxiliary, rfl⟩) (.step (ofExcept_eq_ok.2 ⟨found, rfl⟩) ?_))
  rw [breakable, Bool.not_true, if_neg Bool.false_ne_true]
  rw [hj, hk]
  refine .step (ofExcept_eq_ok.2 ⟨own, rfl⟩) ?_
  refine stopsWith_bind.2 ⟨safe_forM_moveInRow cols con, fun _ v moved => ?_⟩
  obtain ⟨frame, con, -⟩ := forM_moveInRow_eq_ok cols con moved
  have pins := safe_pins (cols.frame frame) con
  simp only [stopsWith_bind, stopsWith_change, stopsWith_pure, implies_true, and_true] at pins ⊢
  exact pins

theorem safe_forM_breakArc {c : VariableCut} (con : w.model.Consistent)
    (ready : ∀ a ∈ c.cut.arcs, w.model.HasAuxiliary (c.name a.1)) :
    Safe (c.cut.arcs.forM fun a => do
      note (.breakingArc (c.name a.1) (c.name a.2))
      discard (breakArc (c.name a.1) (c.name a.2))) w := by
  refine stopsWith_forM (fun _ v => v.model.Consistent ∧ w.model.SameFrame v.model) ⟨con, .refl _⟩ ?_ ?_
  · intro _ a v v' _ kept step
    obtain ⟨con, frame⟩ := kept
    obtain ⟨v₁, x, same, step⟩ := noted_breakArc_eq_ok step
    rw [← same] at con frame
    have one := breakArc_rewritten step
    exact ⟨one.consistent con, frame.trans one.toSameFrame⟩
  · intro _ a v ha kept
    obtain ⟨con, frame⟩ := kept
    refine .step rfl (stopsWith_discard.2 ?_)
    exact safe_breakArc (a := (c.name a.1, c.name a.2)) con ((ready a ha).frame frame)

/-- After the checks a consistent model lets every change through, when the auxiliary names
    are free. -/
theorem safe_breakCut {resolver : Resolver} {validate : Bool} {c : VariableCut} {v : Workspace α}
    (con : w.model.Consistent) (run : chooseCut resolver validate w = .ok c v)
    (unused : ∀ a ∈ c.arcs, w.model.hasSymbol (Symbol.auxiliaryName a.1) = false) : Safe (breakCut validate c) v := by
  obtain ⟨same, chosen, breakable, -⟩ := chooseCut_eq_ok run
  have known := Model.hasSymbol_of_chosenCut chosen
  obtain ⟨m, log, warnings⟩ := v
  obtain rfl : m = w.model := same
  refine .step rfl (.step rfl (stopsWith_bind.2 ⟨?_, fun _ w₁ ranks => ?_⟩))
  · exact safe_rank fun u _ => con.marked.exists_find (known u)
  have ranked : w₁.model = w.model.ranked c := by
    rw [rank_eq_ok ranks]
    rfl
  refine stopsWith_bind.2 ⟨?_, fun _ w₂ inputs => ?_⟩
  · refine safe_forM_ensureAuxiliary (ranked ▸ con.ranked c) fun u _ => ?_
    rw [ranked, Model.ranked, Model.hasSymbol_withRanks]
    exact known u
  obtain ⟨sources, prepared⟩ := prepared_of_stages con breakable ranked inputs
  have con₂ := prepared.extended.consistent
  have ready := prepared.hasAuxiliary_of_fresh chosen unused
  refine stopsWith_bind.2 ⟨safe_forM_breakArc con₂ fun a ha => ready _ (List.mem_map_of_mem ha), fun _ w₃ arcs => ?_⟩
  refine stopsWith_ite.2 ⟨fun _ => safe_requireValid ?_, fun _ => stopsWith_pure⟩
  exact (forM_breakArc_rewritten arcs).consistent con₂

end
end Edit

/-! ## The outcome of a run -/

namespace Model

/-- An arc of the answer starts at the vertex. -/
def IsSource (m : Model α) (s : ArcSet) (x : Vertex) : Prop :=
  ∃ a ∈ s.arcs, ∃ i : Nat, a.1 = (i : Int) ∧ m.vertices[i]? = some x

/-- Every row that defines something defines a variable. -/
def Defined (m : Model α) : Prop := ∀ row ∈ m.definingRows, m.HasVariable row.defines

/-- There is a dependency graph, and the answer passes vetting on it. -/
def Accepts (m : Model α) (s : ArcSet) : Prop := ∃ g c, m.dependencyGraph = .ok g ∧ s.vet g.graph = .ok c

/-- Every arc of the answer starts at an intermediate variable. -/
def Supports (m : Model α) (s : ArcSet) : Prop := ∀ x, m.IsSource s x → x.role = .discrete ∨ x.role = .continuous

section
variable {m : Model α} {resolver : Resolver} {s : ArcSet} {c : VariableCut}

theorem Accepts.defined (h : m.Accepts s) : m.Defined := by
  obtain ⟨g, c, graph, -⟩ := h
  exact (dependencyGraph_eq_ok graph).2

theorem not_accepts {g : VariableGraph} {e : ArcSet.Violation} (graph : m.dependencyGraph = .ok g)
    (rejected : s.vet g.graph = .error e) : ¬m.Accepts s := by
  intro given
  obtain ⟨g', c, graph', vetted⟩ := given
  obtain rfl : g = g' := Except.ok.inj (graph.symm.trans graph')
  rw [rejected] at vetted
  cases vetted

/-- The sources of a chosen cut are those of the answer. -/
theorem isSource_iff (chosen : m.chosenCut resolver = .ok c)
    (answer : ∀ g, m.dependencyGraph = .ok g → resolver _ g.graph = some s) (x : Vertex) :
    m.IsSource s x ↔ ∃ a ∈ c.cut.arcs, c.graph.vertex a.1 = x := by
  obtain ⟨graph, answered, -⟩ := chosenCut_eq_ok.1 chosen
  obtain rfl : s = c.cut.toArcSet := Option.some.inj ((answer _ graph).symm.trans answered)
  have vertices : c.graph.vertices = m.vertices := congrArg VariableGraph.vertices (dependencyGraph_eq_ok graph).1
  have place (v : Fin c.graph.vertices.length) : m.vertices[(v : Nat)]? = some (c.graph.vertex v) := by
    rw [← vertices, List.getElem?_eq_getElem v.isLt]
    rfl
  simp only [IsSource, Cut.toArcSet, List.mem_map]
  constructor
  · intro given
    obtain ⟨_, ⟨a, ha, rfl⟩, i, e, hx⟩ := given
    obtain rfl : (a.1 : Nat) = i := Int.natCast_inj.1 e
    exact ⟨a, ha, Option.some.inj ((place a.1).symm.trans hx)⟩
  · intro given
    obtain ⟨a, ha, rfl⟩ := given
    exact ⟨_, ⟨a, ha, rfl⟩, a.1, rfl, place a.1⟩

/-- The answer is accepted when it becomes the cut. -/
theorem accepts_iff (answer : ∀ g, m.dependencyGraph = .ok g → resolver _ g.graph = some s) :
    m.Accepts s ↔ ∃ c, m.chosenCut resolver = .ok c := by
  constructor
  · intro given
    obtain ⟨g, cut, graph, vetted⟩ := given
    obtain ⟨rfl, breaks⟩ := ArcSet.vet_eq_ok.1 vetted
    exact ⟨⟨g, cut⟩, chosenCut_eq_ok.2 ⟨graph, answer g graph, breaks⟩⟩
  · intro given
    obtain ⟨c, chosen⟩ := given
    obtain ⟨graph, answered, breaks⟩ := chosenCut_eq_ok.1 chosen
    have same := Option.some.inj ((answer _ graph).symm.trans answered)
    exact ⟨c.graph, c.cut, graph, ArcSet.vet_eq_ok.2 ⟨same, breaks⟩⟩

end

section
variable [Zero α] [One α] [Neg α] {w : Workspace α} {resolver : Resolver} {s : ArcSet} (validate : Bool)
  (valid : (w.model.validate {}).isValid) (loop : w.model.hasLoop)
  (answer : ∀ g, w.model.dependencyGraph = .ok g → resolver _ g.graph = some s)
  (unused : ∀ x, w.model.IsSource s x → w.model.hasSymbol (Symbol.auxiliaryName x.name) = false)
include valid loop answer unused

/-- A run succeeds with every check passed, or reports the first one that fails. -/
theorem removeLoops_outcome :
    ((∃ w', Edit.removeLoops resolver validate w = .ok () w') ∧ w.model.Defined ∧ w.model.Accepts s ∧
      w.model.Supports s) ∨
    (∃ d ∈ w.model.definitions, ¬w.model.HasVariable d.row.defines ∧ ∃ v, Edit.removeLoops resolver validate w =
      .error (.undefinedVariable d.row.defines d.table d.position) v) ∨
    (∃ g e, w.model.dependencyGraph = .ok g ∧ s.vet g.graph = .error e ∧
      ∃ v, Edit.removeLoops resolver validate w = .error (.unacceptable e) v) ∨
    (w.model.Accepts s ∧ ∃ x, w.model.IsSource s x ∧ ¬(x.role = .discrete ∨ x.role = .continuous) ∧
      ∃ v, Edit.removeLoops resolver validate w = .error (.unsupportedSource x.name x.role) v) := by
  have breakable_iff (r : Role) : r.breakable ↔ r = .discrete ∨ r = .continuous := by simp [Role.breakable]
  rw [Edit.removeLoops_eq loop]
  cases checks : Edit.chooseCut resolver validate w with
  | error f v =>
    have run := Edit.bind_eq_error (k := Edit.breakCut validate).2 (Or.inl checks)
    obtain ⟨-, -, cause⟩ := Edit.chooseCut_eq_error checks
    rcases cause with ⟨-, -, invalid⟩ | refused | ⟨c, chosen, a, ha, unsupported, rfl⟩
    · exact absurd valid invalid
    · rcases chosenCut_eq_error.1 refused with undefined | ⟨g, graph, ⟨none, -⟩ | ⟨s', e, answered, rejected, rfl⟩⟩
      · obtain ⟨d, hd, unknown, rfl⟩ := dependencyGraph_eq_error undefined
        exact Or.inr (Or.inl ⟨d, hd, unknown, v, run⟩)
      · rw [answer g graph] at none
        cases none
      · obtain rfl : s = s' := Option.some.inj ((answer g graph).symm.trans answered)
        exact Or.inr (Or.inr (Or.inl ⟨g, e, graph, rejected, v, run⟩))
    · have source := (isSource_iff chosen answer _).2 ⟨a, ha, rfl⟩
      rw [breakable_iff] at unsupported
      exact Or.inr (Or.inr (Or.inr ⟨(accepts_iff answer).2 ⟨c, chosen⟩, _, source, unsupported, v, run⟩))
  | ok c v =>
    obtain ⟨-, chosen, breakable, -⟩ := Edit.chooseCut_eq_ok checks
    have free : ∀ a ∈ c.arcs, w.model.hasSymbol (Symbol.auxiliaryName a.1) = false := by
      intro a ha
      obtain ⟨e, he, rfl⟩ := List.mem_map.1 ha
      exact unused _ ((isSource_iff chosen answer _).2 ⟨e, he, rfl⟩)
    obtain ⟨_, w', done⟩ := Edit.exists_eq_ok (Edit.safe_breakCut (isValid_iff_consistent.1 valid) checks free)
    have accepted : w.model.Accepts s := (accepts_iff answer).2 ⟨c, chosen⟩
    refine Or.inl ⟨⟨w', Edit.bind_eq_ok.2 ⟨c, v, checks, done⟩⟩, accepted.defined, accepted, fun x hx => ?_⟩
    obtain ⟨a, ha, rfl⟩ := (isSource_iff chosen answer x).1 hx
    exact (breakable_iff _).1 (breakable a ha)

/-- On a valid model a run succeeds exactly when every defining row defines a variable, the
    answer is accepted, and every arc starts at an intermediate variable. Otherwise it
    reports the first of these that does not hold. -/
theorem removal_succeeds_iff :
    ((∃ w', Edit.removeLoops resolver validate w = .ok () w') ↔
      w.model.Defined ∧ w.model.Accepts s ∧ w.model.Supports s) ∧
    (¬w.model.Defined → ∃ d ∈ w.model.definitions, ¬w.model.HasVariable d.row.defines ∧
      ∃ v, Edit.removeLoops resolver validate w = .error (.undefinedVariable d.row.defines d.table d.position) v) ∧
    (w.model.Defined → ¬w.model.Accepts s → ∃ g e, w.model.dependencyGraph = .ok g ∧ s.vet g.graph = .error e ∧
      ∃ v, Edit.removeLoops resolver validate w = .error (.unacceptable e) v) ∧
    (w.model.Accepts s → ¬w.model.Supports s → ∃ x, w.model.IsSource s x ∧
      ¬(x.role = .discrete ∨ x.role = .continuous) ∧
      ∃ v, Edit.removeLoops resolver validate w = .error (.unsupportedSource x.name x.role) v) := by
  have fails {f : Fault} {v : Workspace α} (run : Edit.removeLoops resolver validate w = .error f v) :
      ¬∃ w', Edit.removeLoops resolver validate w = .ok () w' := by
    simp [run]
  rcases removeLoops_outcome validate valid loop answer unused with
    ⟨succeeds, defined, accepted, supported⟩ | undefined | rejected | ⟨accepted, unsupported⟩
  · exact ⟨⟨fun _ => ⟨defined, accepted, supported⟩, fun _ => succeeds⟩, fun wrong => absurd defined wrong,
      fun _ wrong => absurd accepted wrong, fun _ wrong => absurd supported wrong⟩
  · have not : ¬w.model.Defined := by
      obtain ⟨d, hd, unknown, -⟩ := undefined
      intro defined
      exact unknown (defined d.row (w.model.map_row_definitions ▸ List.mem_map_of_mem hd))
    obtain ⟨d, _, _, v, run⟩ := id undefined
    exact ⟨⟨fun ok => absurd ok (fails run), fun ok => absurd ok.1 not⟩, fun _ => undefined,
      fun defined => absurd defined not, fun accepted => absurd accepted.defined not⟩
  · obtain ⟨g, e, graph, vetted, v, run⟩ := id rejected
    have defined : w.model.Defined := (dependencyGraph_eq_ok graph).2
    have not := not_accepts graph vetted
    exact ⟨⟨fun ok => absurd ok (fails run), fun ok => absurd ok.2.1 not⟩, fun wrong => absurd defined wrong,
      fun _ _ => rejected, fun accepted => absurd accepted not⟩
  · obtain ⟨x, source, role, v, run⟩ := id unsupported
    have not : ¬w.model.Supports s := fun supported => role (supported x source)
    exact ⟨⟨fun ok => absurd ok (fails run), fun ok => absurd ok.2.2 not⟩, fun wrong => absurd accepted.defined wrong,
      fun _ wrong => absurd accepted wrong, fun _ _ => unsupported⟩

end

/-- What `breakTwice` answers. -/
def twice : ArcSet := { arcs := [(2, 1), (2, 2), (2, 1)], sequence := [0, 1, 2] }

/-- The arcs of the coupled variables are accepted and start at `b`, so the run succeeds. -/
theorem removal_succeeds_iff_coupled : (coupled "u" 1).Defined ∧ (coupled "u" 1).Accepts twice ∧
    (coupled "u" 1).Supports twice ∧
    ∃ w', Edit.removeLoops breakTwice true ⟨coupled "u" 1, [], []⟩ = .ok () w' := by
  have answer : ∀ g, (coupled "u" 1).dependencyGraph = .ok g → breakTwice _ g.graph = some twice := fun _ _ => rfl
  have source (x : Vertex) (given : (coupled "u" 1).IsSource twice x) : x = ⟨"b", .real, .continuous⟩ := by
    obtain ⟨a, ha, i, e, hx⟩ := given
    have two : ∀ a ∈ twice.arcs, a.1 = 2 := by decide
    obtain rfl : i = 2 := Int.natCast_inj.1 (e.symm.trans (two a ha))
    exact (Option.some.inj hx).symm
  have unused (x : Vertex) (given : (coupled "u" 1).IsSource twice x) :
      (coupled "u" 1).hasSymbol (Symbol.auxiliaryName x.name) = false := by
    rw [source x given]
    decide
  have supported : (coupled "u" 1).Supports twice := by
    intro x given
    rw [source x given]
    exact Or.inr rfl
  obtain ⟨c, _, chosen, -⟩ := exists_run_coupled
  have accepted := (accepts_iff answer).2 ⟨c, chosen⟩
  obtain ⟨outcome, -⟩ :=
    removal_succeeds_iff (w := ⟨coupled "u" 1, [], []⟩) true valid_coupled (by decide) answer unused
  exact ⟨accepted.defined, accepted, supported, outcome.2 ⟨accepted.defined, accepted, supported⟩⟩

end Model
end LoopFree
