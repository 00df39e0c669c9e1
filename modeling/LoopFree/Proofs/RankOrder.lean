/-
  LoopFree.Proofs.RankOrder — how far the ranks of the result order it.

  Among the variables from before the ranks are distinct, and in every inequality row of
  the result a variable from before that is needed comes before the one that is defined.
  The auxiliary inputs do not fit in: each has rank 1, the rank of the first variable. So
  two variables share a rank as soon as one arc is broken, and a row that defines the
  first variable and needs an auxiliary input cannot be evaluated in the order of the
  ranks (`ranks_of_removal`); the pins of an arc into the first variable are such rows
  (`exists_tie`).
-/

import LoopFree.Proofs.Acyclicity

namespace LoopFree.Model

variable {α : Type}

/-- No two variables with such names have the same rank. -/
def Apart (m : Model α) (p : String → Prop) : Prop :=
  ∀ s ∈ m.symbols, ∀ t ∈ m.symbols, p s.name → p t.name → s.isVariable → t.isVariable → s.rank = t.rank → s = t

/-- A variable with such a name comes before the one that a row needs it for. -/
def InOrder (m : Model α) (p : String → Prop) : Prop :=
  ∀ row ∈ m.rows.ineq, row.definesVariable → ∀ s ∈ m.symbols, ∀ t ∈ m.symbols,
    p s.name → s.isVariable → s.name ∈ row.depends → t.name = row.defines → s.rank < t.rank

instance (m : Model α) (p : String → Prop) [DecidablePred p] : Decidable (m.Apart p) :=
  inferInstanceAs (Decidable (∀ s ∈ m.symbols, ∀ t ∈ m.symbols, _))

instance (m : Model α) (p : String → Prop) [DecidablePred p] : Decidable (m.InOrder p) :=
  inferInstanceAs (Decidable (∀ row ∈ m.rows.ineq, _))

namespace Removal

variable [Zero α] [One α] [Neg α] {m v m' : Model α} {c : VariableCut} {sources : List Symbol} {resolver : Resolver}
  {s' t' : Symbol} {row : Row} (h : m.Removal c sources v m')

section
include h

/-- A symbol of the result has its rank from the cut, or it is a new auxiliary input and has
    rank 1. -/
theorem of_mem (hs : s' ∈ m'.symbols) :
    (∃ s ∈ m.symbols, s'.name = s.name ∧ s'.rank = rankIn c.graph c.cut.order s) ∨
      ∃ a ∈ c.arcs, m.hasSymbol s'.name = false ∧ s'.name = Symbol.auxiliaryName a.1 ∧ s'.rank = 1 := by
  rcases h.extended.of_mem (h.symbols ▸ hs) with ⟨x, hx, e⟩ | ⟨x, hx, e⟩
  · obtain ⟨s, hs, rfl⟩ := List.mem_map.1 hx
    have name := Symbol.name_eq_of_unplaced e
    have rank := congrArg Symbol.rank e
    exact Or.inl ⟨s, hs, name, rank⟩
  · obtain ⟨listed, fresh⟩ := (h.missing x.name).1 (List.mem_map_of_mem hx)
    obtain ⟨a, ha, source⟩ := List.mem_map.1 listed
    have name : s'.name = Symbol.auxiliaryName x.name := congrArg Symbol.name e
    exact Or.inr ⟨a, ha, name ▸ fresh, source ▸ name, congrArg Symbol.rank e⟩

/-- A symbol of a name from before has its rank from the cut. -/
theorem of_mem_of_hasSymbol (hs : s' ∈ m'.symbols) (known : m.hasSymbol s'.name) :
    ∃ s ∈ m.symbols, s'.name = s.name ∧ s'.rank = rankIn c.graph c.cut.order s := by
  rcases h.of_mem hs with old | ⟨a, ha, fresh, -⟩
  · exact old
  · rw [fresh] at known
    cases known

variable (chosen : m.chosenCut resolver = .ok c)
include chosen

/-- A variable from before is ranked by its position in the order. -/
theorem exists_vertex (con : m.Consistent) (hs : s' ∈ m'.symbols) (known : m.hasSymbol s'.name)
    (ranked : s'.isVariable) : ∃ u, c.name u = s'.name ∧ s'.rank = c.cut.order.idxOf u + 1 := by
  obtain ⟨graph, -, -⟩ := chosenCut_eq_ok.1 chosen
  have single := singular_of_names con.names graph
  obtain ⟨s, hs, name, rank⟩ := h.of_mem_of_hasSymbol hs known
  by_cases old : s.isVariable
  · obtain ⟨u, vertex, position⟩ := single.exists_vertex chosen hs old
    exact ⟨u, vertex.trans name.symm, rank.trans position⟩
  · rw [single.rankIn_of_constant chosen hs old] at rank
    rw [Symbol.isVariable, rank] at ranked
    exact absurd ranked old

theorem apart (con : m.Consistent) (con' : m'.Consistent) : m'.Apart (m.hasSymbol ·) := by
  obtain ⟨-, -, breaks⟩ := chosenCut_eq_ok.1 chosen
  intro s hs t ht known known' ranked ranked' same
  obtain ⟨u, name, rank⟩ := h.exists_vertex chosen con hs known ranked
  obtain ⟨v, name', rank'⟩ := h.exists_vertex chosen con ht known' ranked'
  have position : c.cut.order.idxOf u = c.cut.order.idxOf v := by omega
  have vertex : u = v := (List.idxOf_inj (breaks.mem_order u)).1 position
  exact con'.eq_of_name_eq hs ht (by rw [← name, ← name', vertex])

variable (ready : ∀ a ∈ c.arcs, v.HasAuxiliary a.1)
include ready

/-- What a row of the result defines is a variable from before. -/
theorem exists_defined (hrow : row ∈ m'.rows.ineq) (defining : row.definesVariable) :
    ∃ t ∈ m.symbols, t.isVariable ∧ t.name = row.defines ∧
      ∃ t' ∈ m'.symbols, t'.name = row.defines ∧ t'.rank = rankIn c.graph c.cut.order t := by
  obtain ⟨t, ht, ranked, name⟩ := h.defines_of_mem ready chosen (mem_definingRows.2 (Or.inl ⟨hrow, defining⟩))
  obtain ⟨t', ht', name', -, rank⟩ := h.exists_of_mem ht
  exact ⟨t, ht, ranked, name, t', h.symbols ▸ ht', name'.trans name, rank⟩

theorem inOrder (con : m.Consistent) (unused : ∀ a ∈ c.arcs, m.hasSymbol (Symbol.auxiliaryName a.1) = false) :
    m'.InOrder (m.hasSymbol ·) := by
  have con' := (h.broken ready).consistent
  intro row hrow defining s' hs' t' ht' known _ needed defines
  have original := ne_auxiliaryName unused known
  obtain ⟨s, hs, name, rank⟩ := h.of_mem_of_hasSymbol hs' known
  obtain ⟨t, -, -, sink, x, hx, sink', rank'⟩ := h.exists_defined chosen ready hrow defining
  obtain rfl : x = t' := con'.eq_of_name_eq hx ht' (sink'.trans defines.symm)
  rw [rank, rank']
  rcases (h.mem_ineq ready).1 hrow with ⟨d, hd, rfl⟩ | ⟨a, ha, rfl⟩
  · have broken := h.broken_breakArcs ready d
    rw [broken.defines] at sink
    rcases (broken.depends s'.name).1 needed with ⟨needed, stays⟩ | ⟨source, moved, same⟩
    · have old : d.row ∈ m.definingRows := by
        rw [Row.definesVariable, broken.tag] at defining
        exact mem_definingRows.2 (Or.inl ⟨m.map_row_inequalities ▸ List.mem_map_of_mem hd, defining⟩)
      refine rank_lt_of_needed con chosen hs old sink.symm (name ▸ needed) fun arc => ?_
      exact stays (Inequality.mem_moved.2 ⟨needed, by rwa [name, ← sink]⟩)
    · exact absurd same (original _ (Inequality.mem_moved.1 moved).2)
  · exact absurd (List.mem_singleton.1 needed) (original a ha)

end

/-! ## Ties with auxiliary inputs -/

section
variable (unused : ∀ a ∈ c.arcs, m.hasSymbol (Symbol.auxiliaryName a.1) = false) {a : String × String}
include h unused

/-- The auxiliary input of an arc has rank 1. -/
theorem exists_auxiliary (ha : a ∈ c.arcs) : ∃ x ∈ m'.symbols, x.name = Symbol.auxiliaryName a.1 ∧ x.rank = 1 := by
  obtain ⟨x, hx, name, -⟩ := h.auxiliary_of_fresh ha (unused a ha)
  rcases h.of_mem hx with ⟨s, hs, same, -⟩ | ⟨-, -, -, -, rank⟩
  · have known : m.hasSymbol x.name := hasSymbol_iff_exists.2 ⟨s, hs, same.symm⟩
    exact absurd name (ne_auxiliaryName unused known a ha)
  · exact ⟨x, hx, name, rank⟩

variable (con : m.Consistent) (chosen : m.chosenCut resolver = .ok c)
include con chosen

/-- The first variable has rank 1, too. -/
theorem not_apart (ha : a ∈ c.arcs) : ¬m'.Apart fun _ => True := by
  obtain ⟨graph, -, breaks⟩ := chosenCut_eq_ok.1 chosen
  obtain ⟨e, he, rfl⟩ := List.mem_map.1 ha
  obtain ⟨u, rest, order⟩ := List.exists_cons_of_ne_nil (List.ne_nil_of_mem (breaks.mem_order e.1))
  obtain ⟨s, hs, -, name, -⟩ := exists_symbol graph u
  obtain ⟨s', hs', name', -, rank⟩ := h.exists_of_mem hs
  obtain ⟨x, hx, auxiliary, rank'⟩ := h.exists_auxiliary unused ha
  rw [rankIn_of_vertex con chosen name, order, List.idxOf_cons_self] at rank
  intro apart
  have same : s' = x := apart s' (h.symbols ▸ hs') x hx trivial trivial (by simp [Symbol.isVariable, rank])
    (by simp [Symbol.isVariable, rank']) (rank.trans rank'.symm)
  have known : m.hasSymbol s'.name := hasSymbol_iff_exists.2 ⟨s, hs, name'.symm⟩
  exact ne_auxiliaryName unused known _ ha (same ▸ auxiliary)

theorem apart_iff : (m'.Apart fun _ => True) ↔ c.arcs = [] := by
  constructor
  · intro apart
    by_contra some
    obtain ⟨a, ha⟩ := List.exists_mem_of_ne_nil _ some
    exact h.not_apart unused con chosen ha apart
  · intro none s hs t ht _ _
    have known {x : Symbol} (hx : x ∈ m'.symbols) : m.hasSymbol x.name := by
      rcases h.of_mem hx with ⟨y, hy, same, -⟩ | ⟨a, ha, -⟩
      · exact hasSymbol_iff_exists.2 ⟨y, hy, same.symm⟩
      · rw [none] at ha
        cases ha
    have con' := (h.broken (h.hasAuxiliary_of_fresh chosen unused)).consistent
    exact h.apart chosen con con' s hs t ht (known hs) (known ht)

/-- Only the first variable has no room for an auxiliary input before it. -/
theorem inOrder_iff : (m'.InOrder fun _ => True) ↔ ∀ row ∈ m'.rows.ineq, row.definesVariable →
    ∀ u, c.cut.order.head? = some u → row.defines = c.name u →
      ∀ a ∈ c.arcs, Symbol.auxiliaryName a.1 ∉ row.depends := by
  have ready := h.hasAuxiliary_of_fresh chosen unused
  have con' := (h.broken ready).consistent
  obtain ⟨graph, -, breaks⟩ := chosenCut_eq_ok.1 chosen
  constructor
  · intro ordered row hrow defining u first defines a ha needed
    obtain ⟨x, hx, name, rank⟩ := h.exists_auxiliary unused ha
    obtain ⟨t, -, -, sink, t', ht', sink', rank'⟩ := h.exists_defined chosen ready hrow defining
    have before := ordered row hrow defining x hx t' ht' trivial (by simp [Symbol.isVariable, rank])
      (name ▸ needed) sink'
    obtain ⟨rest, order⟩ := List.head?_eq_some_iff.1 first
    rw [rank, rank', rankIn_of_vertex con chosen (sink.trans defines), order, List.idxOf_cons_self] at before
    omega
  · intro free row hrow defining s hs t ht _ ranked needed defines
    rcases h.of_mem hs with ⟨y, hy, same, -⟩ | ⟨a, ha, -, name, rank⟩
    · have known : m.hasSymbol s.name := hasSymbol_iff_exists.2 ⟨y, hy, same.symm⟩
      exact h.inOrder chosen ready con unused row hrow defining s hs t ht known ranked needed defines
    · obtain ⟨t₀, ht₀, ranked', sink, x, hx, sink', rank'⟩ := h.exists_defined chosen ready hrow defining
      obtain rfl : x = t := con'.eq_of_name_eq hx ht (sink'.trans defines.symm)
      obtain ⟨u, vertex⟩ := HasVariable.exists_vertex graph ⟨t₀, ht₀, ranked', rfl⟩
      have vertex : c.name u = row.defines := Eq.trans vertex sink
      rw [rank, rank', rankIn_of_vertex con chosen (sink.trans vertex.symm)]
      have later : c.cut.order.idxOf u ≠ 0 := by
        intro zero
        have first := breaks.getElem?_idxOf u
        rw [zero, ← List.head?_eq_getElem?] at first
        exact free row hrow defining u first vertex.symm a ha (name ▸ needed)
      omega

/-- The pins of an arc into the first variable cannot be evaluated in the order of the ranks. -/
theorem not_inOrder {e : Fin c.graph.vertices.length × Fin c.graph.vertices.length} (he : e ∈ c.cut.arcs)
    (first : c.cut.order.head? = some e.2) : ¬m'.InOrder fun _ => True := by
  intro ordered
  have ready := h.hasAuxiliary_of_fresh chosen unused
  have ha : (c.name e.1, c.name e.2) ∈ c.arcs := List.mem_map_of_mem he
  have pin := (h.mem_ineq ready).2 (Or.inr ⟨_, ha, rfl⟩)
  exact (h.inOrder_iff unused con chosen).1 ordered _ pin rfl e.2 first rfl _ ha (List.mem_singleton.2 rfl)

end
end Removal

/-- Among the variables from before the ranks of the result are distinct, and they order
    what every row needs of these. Every new auxiliary input has rank 1: with a broken arc
    not all ranks are distinct, and they order what every row needs exactly when no row
    that defines the first variable needs an auxiliary input, which an arc into the first
    variable rules out. -/
theorem ranks_of_removal [Zero α] [One α] [Neg α] {w w' : Workspace α} {resolver : Resolver} {validate : Bool}
    {c : VariableCut} (valid : (w.model.validate {}).isValid) (loop : w.model.hasLoop)
    (chosen : w.model.chosenCut resolver = .ok c)
    (unused : ∀ a ∈ c.arcs, w.model.hasSymbol (Symbol.auxiliaryName a.1) = false)
    (run : Edit.removeLoops resolver validate w = .ok () w') :
    w'.model.Apart (w.model.hasSymbol ·) ∧ w'.model.InOrder (w.model.hasSymbol ·) ∧
    (∀ a ∈ c.arcs, ∃ x ∈ w'.model.symbols, x.name = Symbol.auxiliaryName a.1 ∧ x.rank = 1) ∧
    ((w'.model.Apart fun _ => True) ↔ c.arcs = []) ∧
    ((w'.model.InOrder fun _ => True) ↔ ∀ row ∈ w'.model.rows.ineq, row.definesVariable →
      ∀ u, c.cut.order.head? = some u → row.defines = c.name u →
        ∀ a ∈ c.arcs, Symbol.auxiliaryName a.1 ∉ row.depends) ∧
    ((∃ a ∈ c.cut.arcs, c.cut.order.head? = some a.2) → ¬w'.model.InOrder fun _ => True) := by
  have con := isValid_iff_consistent.1 valid
  obtain ⟨c', sources, v, chosen', h⟩ := Edit.removeLoops_eq_ok con loop run
  obtain rfl : c = c' := Except.ok.inj (chosen.symm.trans chosen')
  have ready := h.hasAuxiliary_of_fresh chosen unused
  refine ⟨h.apart chosen con (h.broken ready).consistent, h.inOrder chosen ready con unused,
    fun a ha => h.exists_auxiliary unused ha, h.apart_iff unused con chosen, h.inOrder_iff unused con chosen, ?_⟩
  intro given
  obtain ⟨a, ha, first⟩ := given
  exact h.not_inOrder unused con chosen ha first

/-- The input `b_aux` has the rank of `u`, the first of the three variables from before. -/
theorem ranks_of_removal_coupled : ∃ w', Edit.removeLoops breakTwice true ⟨coupled "u" 1, [], []⟩ = .ok () w' ∧
    w'.model.Apart ((coupled "u" 1).hasSymbol ·) ∧ w'.model.InOrder ((coupled "u" 1).hasSymbol ·) ∧
    (∃ x ∈ w'.model.symbols, x.name = "b_aux" ∧ x.rank = 1) ∧ ¬w'.model.Apart fun _ => True := by
  obtain ⟨c, w', chosen, arcs, unused, run⟩ := exists_run_coupled
  obtain ⟨apart, ordered, auxiliary, ties, -, -⟩ :=
    ranks_of_removal (w := ⟨coupled "u" 1, [], []⟩) valid_coupled (by decide) chosen unused run
  rw [arcs] at auxiliary ties
  exact ⟨w', run, apart, ordered, auxiliary ("b", "a") (by decide), fun all => nomatch ties.1 all⟩

/-- A variable that needs itself. -/
def looped : Model Int where
  name := "looped"
  symbols := [{ name := "z", domain := .real, role := .continuous, index := some 0 }]
  rows := { ineq := [{ defines := "z", depends := ["z"] }] }
  blocks := .ofFn fun b => match b with
    | ⟨.ineq, .continuous⟩ => ⟨1, [[2]], by decide⟩
    | ⟨.ineq, .affine⟩ => .zero 1 1
    | ⟨.ineq, _⟩ => .zero 1 0
    | ⟨_, .continuous⟩ => .zero 0 1
    | ⟨_, .affine⟩ => .zero 0 1
    | ⟨_, _⟩ => .zero 0 0

/-- The variable and its auxiliary input are both ranked first, and the one needs the other. -/
theorem exists_tie : ∃ c w', (looped.validate {}).isValid ∧ looped.hasLoop ∧
    looped.chosenCut Resolver.greedy = .ok c ∧ c.arcs = [("z", "z")] ∧ looped.hasSymbol "z_aux" = false ∧
    Edit.removeLoops Resolver.greedy false ⟨looped, [], []⟩ = .ok () w' ∧
    w'.model.symbols.map (fun s => (s.name, s.rank)) = [("z", 1), ("z_aux", 1)] ∧
    (¬w'.model.Apart fun _ => True) ∧ ¬w'.model.InOrder fun _ => True := by
  have cut : (looped.chosenCut Resolver.greedy).toOption.map (·.arcs) = some [("z", "z")] := by decide +kernel
  have result : (Edit.removeLoops Resolver.greedy false).leaves (fun w =>
      w.model.symbols.map (fun s => (s.name, s.rank)) = [("z", 1), ("z_aux", 1)] ∧
      (¬w.model.Apart fun _ => True) ∧ ¬w.model.InOrder fun _ => True) ⟨looped, [], []⟩ := by decide +kernel
  obtain ⟨c, chosen, arcs⟩ := exists_chosenCut cut
  obtain ⟨_, w', run, ranks⟩ := Edit.exists_of_leaves result
  exact ⟨c, w', by decide +kernel, by decide, chosen, arcs, by decide, run, of_decide_eq_true ranks⟩

end LoopFree.Model
