/-
  LoopFree.Proofs.Rank — ranking the variables.

  Ranking writes ranks into the symbol table and touches nothing else (`rank_eq_ok`).
  Columns, coefficients and consistency do not depend on ranks. When no two vertices
  share a name, the vertex at position `i` of the order gets the rank `i + 1`
  (`rankIn_of_getElem?`), and a symbol that is no vertex keeps its rank.
-/

import LoopFree.Proofs.Inequality
import LoopFree.Proofs.Run
import LoopFree.Removal

namespace LoopFree

variable {α : Type}

namespace Model

/-- The model with other ranks. -/
def withRanks (m : Model α) (ρ : Symbol → Int) : Model α :=
  { m with symbols := m.symbols.map fun s => { s with rank := ρ s } }

variable {m : Model α} {ρ : Symbol → Int}

@[simp] theorem symbols_withRanks (m : Model α) (ρ : Symbol → Int) :
    (m.withRanks ρ).symbols = m.symbols.map fun s => { s with rank := ρ s } := rfl

@[simp] theorem rows_withRanks (m : Model α) (ρ : Symbol → Int) : (m.withRanks ρ).rows = m.rows := rfl

@[simp] theorem block_withRanks (m : Model α) (ρ : Symbol → Int) (b : Block) :
    (m.withRanks ρ).block b = m.block b := rfl

theorem withRanks_rank (m : Model α) : m.withRanks (·.rank) = m := by
  simp [withRanks]

theorem withRanks_mapNamed (m : Model α) (ρ : Symbol → Int) (name : String) (rank : Int) :
    (m.withRanks ρ).mapNamed name (fun s => { s with rank }) =
      m.withRanks fun s => if s.name = name then rank else ρ s := by
  simp only [withRanks, mapNamed, List.map_map]
  congr 2
  funext s
  by_cases hs : s.name = name <;> simp [hs]

@[simp] theorem count_withRanks (m : Model α) (ρ : Symbol → Int) (r : Role) : (m.withRanks ρ).count r = m.count r := by
  simp [count, List.countP_map, Function.comp_def]

@[simp] theorem countIn_withRanks (m : Model α) (ρ : Symbol → Int) (r : Role) (d : Domain) :
    (m.withRanks ρ).countIn r d = m.countIn r d := by
  simp [countIn, List.countP_map, Function.comp_def]

theorem ofRole_withRanks (m : Model α) (ρ : Symbol → Int) (r : Role) :
    (m.withRanks ρ).ofRole r = (m.ofRole r).map fun s => { s with rank := ρ s } := by
  unfold ofRole
  rw [symbols_withRanks, List.filter_map]
  exact (List.map_mergeSort (f := fun s : Symbol => { s with rank := ρ s }) fun _ _ _ _ => rfl).symm

@[simp] theorem columnNames_withRanks (m : Model α) (ρ : Symbol → Int) (r : Role) :
    (m.withRanks ρ).columnNames r = m.columnNames r := by
  simp [columnNames, ofRole_withRanks, Function.comp_def]

theorem symbol?_withRanks (m : Model α) (ρ : Symbol → Int) (name : String) :
    (m.withRanks ρ).symbol? name = (m.symbol? name).map fun s => { s with rank := ρ s } := by
  rw [symbol?, symbols_withRanks, List.find?_map]
  rfl

@[simp] theorem hasSymbol_withRanks (m : Model α) (ρ : Symbol → Int) (name : String) :
    (m.withRanks ρ).hasSymbol name = m.hasSymbol name := by
  simp [hasSymbol, List.any_map, Function.comp_def]

theorem Consistent.withRanks (h : m.Consistent) (ρ : Symbol → Int) : (m.withRanks ρ).Consistent where
  names := by simpa [Function.comp_def] using h.names
  numbered r hr := by simpa [Numbered, ofRole_withRanks, Function.comp_def] using h.numbered r hr
  realFirst r hr := by
    intro s hs role
    obtain ⟨t, ht, rfl⟩ := List.mem_map.1 hs
    rw [countIn_withRanks]
    exact h.realFirst r hr t ht role
  shapes b := by
    have := h.shapes b
    obtain ⟨e, t⟩ := b
    cases e <;> cases t <;> simpa [expectedShape, columnCount, Term.role?, ineqCount] using this
  ineqRows := h.ineqRows
  outputRows := by simpa using h.outputRows

section
variable [Zero α]

@[simp] theorem coefficient_withRanks (m : Model α) (ρ : Symbol → Int) (e : Equation) (i : Nat) (name : String) :
    (m.withRanks ρ).coefficient e i name = m.coefficient e i name := by
  unfold coefficient
  simp only [Option.bind_eq_bind]
  rw [symbol?_withRanks, Option.bind_map]
  rfl

end
end Model

/-! ## Ranking in an order -/

/-- The rank of a symbol after a vertex has been given one. -/
def rankAfter (g : VariableGraph) (s : Symbol) (rank : Int) (x : Fin g.vertices.length × Nat) : Int :=
  if s.name = (g.vertex x.1).name then x.2 else rank

/-- The rank of a symbol once the vertices have been ranked by position, from 1. -/
def rankIn (g : VariableGraph) (order : List (Fin g.vertices.length)) (s : Symbol) : Int :=
  (order.zipIdx 1).foldl (rankAfter g s) s.rank

theorem Model.lookup_eq_ok {m : Model α} {name : String} {s : Symbol} :
    m.lookup name = .ok s ↔ m.find name = [s] := by
  unfold lookup
  split
  · rename_i t found
    simp [found]
  · rename_i many
    exact ⟨fun e => (nomatch e), fun e => (many s e).elim⟩

theorem Model.name_of_lookup {m : Model α} {name : String} {s : Symbol} (found : m.lookup name = .ok s) :
    s ∈ m.symbols ∧ s.name = name := by
  have hs : s ∈ m.find name := by simp [lookup_eq_ok.1 found]
  simpa [find] using hs

namespace Edit

variable {w w' : Workspace α} {g : VariableGraph}

/-- A rank is written where the vertex is the only symbol of its name. -/
theorem rankVertex_eq_ok {v : Fin g.vertices.length} {r : Nat} {u : Unit} (run : rankVertex g v r w = .ok u w') :
    (∃ s, w.model.find (g.vertex v).name = [s]) ∧
      w'.model = w.model.mapNamed (g.vertex v).name fun s => { s with rank := r } := by
  simp only [rankVertex, bind_eq_ok, model_eq_ok, ofExcept_eq_ok, change_eq_ok, and_assoc, exists_and_left,
    exists_eq_left'] at run
  obtain ⟨s, found, rfl⟩ := run
  rw [(Model.name_of_lookup found).2]
  exact ⟨⟨s, Model.lookup_eq_ok.1 found⟩, rfl⟩

/-- Whatever ranks have been written, one more leaves all but the ranks. -/
theorem withRanks_of_rankVertex {m : Model α} {v : Fin g.vertices.length} {r : Nat} {u : Unit}
    (ranks : ∃ ρ, w.model = m.withRanks ρ) (run : rankVertex g v r w = .ok u w') : ∃ ρ, w'.model = m.withRanks ρ := by
  obtain ⟨ρ, ranks⟩ := ranks
  exact ⟨_, by rw [(rankVertex_eq_ok run).2, ranks, Model.withRanks_mapNamed]⟩

theorem rank_eq_ok {order : List (Fin g.vertices.length)} (run : rank g order w = .ok () w') :
    w'.model = w.model.withRanks (rankIn g order) := by
  -- after some of the writes the ranks are those of the writes so far
  refine forM_induct (fun past v => v.model = w.model.withRanks fun s => past.foldl (rankAfter g s) s.rank)
    w.model.withRanks_rank.symm ?_ run
  intro past given v v' _ written step
  rw [(rankVertex_eq_ok step).2]
  simp only [written, Model.withRanks_mapNamed, List.foldl_append, List.foldl_cons, List.foldl_nil, rankAfter]

end Edit

section
variable {g : VariableGraph} {order : List (Fin g.vertices.length)} {s : Symbol}

theorem foldl_rank_of_forall_ne (l : List (Fin g.vertices.length × Nat)) (rank : Int)
    (h : ∀ x ∈ l, s.name ≠ (g.vertex x.1).name) : l.foldl (rankAfter g s) rank = rank := by
  induction l generalizing rank with
  | nil => rfl
  | cons x l ih =>
    rw [List.foldl_cons, rankAfter, if_neg (h x List.mem_cons_self)]
    exact ih rank fun y hy => h y (List.mem_cons_of_mem _ hy)

/-- A symbol that is no vertex of the order keeps its rank. -/
theorem rankIn_of_forall_ne (h : ∀ v ∈ order, s.name ≠ (g.vertex v).name) : rankIn g order s = s.rank := by
  exact foldl_rank_of_forall_ne _ _ fun x hx => h x.1 (List.fst_mem_of_mem_zipIdx hx)

/-- The vertex at position `i` gets rank `i + 1`. -/
theorem rankIn_of_getElem? (unique : ∀ u v : Fin g.vertices.length, (g.vertex u).name = (g.vertex v).name → u = v)
    (nodup : order.Nodup) {i : Nat} {v : Fin g.vertices.length} (hv : order[i]? = some v)
    (hs : s.name = (g.vertex v).name) : rankIn g order s = i + 1 := by
  obtain ⟨hi, rfl⟩ := List.getElem?_eq_some_iff.1 hv
  have split : order.zipIdx 1 =
      (order.take i).zipIdx 1 ++ (order[i], i + 1) :: (order.drop (i + 1)).zipIdx (i + 2) := by
    have length : (order.take i).length = i := List.length_take_of_le (Nat.le_of_lt hi)
    calc order.zipIdx 1
        = (order.take i ++ order[i] :: order.drop (i + 1)).zipIdx 1 := by simp
      _ = _ := by rw [List.zipIdx_append, List.zipIdx_cons, length, Nat.add_comm 1 i]
  have later : ∀ x ∈ (order.drop (i + 1)).zipIdx (i + 2), s.name ≠ (g.vertex x.1).name := by
    intro x hx e
    have mem : x.1 ∈ order.drop (i + 1) := List.fst_mem_of_mem_zipIdx hx
    rw [← unique _ _ (hs.symm.trans e)] at mem
    have nodup : (order.drop i).Nodup := nodup.sublist (List.drop_sublist i order)
    rw [List.drop_eq_getElem_cons hi] at nodup
    exact (List.nodup_cons.1 nodup).1 mem
  unfold rankIn
  rw [split, List.foldl_append, List.foldl_cons, rankAfter, if_pos hs, foldl_rank_of_forall_ne _ _ later]
  rfl

end
end LoopFree
