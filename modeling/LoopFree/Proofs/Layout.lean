/-
  LoopFree.Proofs.Layout — where the inputs stand after adding auxiliary inputs.

  Inputs are kept real ones first, and so is what joins them: a real auxiliary input
  follows the real inputs and moves the binary ones up, a binary one comes last. After any
  number of them the real inputs come first, then the real auxiliary inputs, then the
  binary inputs, then the binary auxiliary inputs, each in the order they came in
  (`layout_join`). A name from before keeps its column in every equation, wherever it now
  stands, and a new one has a zero column (`Extended.column_kept`, `Extended.column_new`).

  On a consistent model nothing stops the creation for a name that is known and whose
  auxiliary name is free. What one creation leaves lets the next one through
  (`exists_addAuxiliary`), so a whole list of names goes through (`forM_addAuxiliary_layout`).
-/

import LoopFree.Proofs.ClosedForm
import LoopFree.Proofs.Success

namespace LoopFree

variable {α : Type}

/-! ## Real ones first -/

theorem insertIdx_length_append {ι : Type} (l r : List ι) (x : ι) : (l ++ r).insertIdx l.length x = l ++ x :: r :=
  List.modifyTailIdx_add (List.cons x) 0 l r

/-- A list that has the real symbols first is those and then the binary ones. -/
theorem real_append_binary {l : List Symbol} (first : l.Pairwise fun s t => t.isReal → s.isReal) :
    l.filter (·.isReal) ++ l.filter (·.isBinary) = l := by
  induction first with
  | nil => rfl
  | @cons s l before _ ih =>
    by_cases real : s.domain = .real
    · rw [List.filter_cons_of_pos (by simp [Symbol.isReal, real]),
        List.filter_cons_of_neg (by simp [Symbol.isBinary, real]), List.cons_append, ih]
    · have binary : s.domain = .binary := by cases domain : s.domain <;> simp_all
      have none : l.filter (·.isReal) = [] :=
        List.filter_eq_nil_iff.2 fun t ht later => real (by simpa [Symbol.isReal] using before t ht later)
      rw [none, List.nil_append] at ih
      rw [List.filter_cons_of_neg (by simp [Symbol.isReal, real]),
        List.filter_cons_of_pos (by simp [Symbol.isBinary, binary]), none, List.nil_append, ih]

/-- The order in which inputs and the inputs added to them own the columns. -/
def layout (given added : List Symbol) : List Symbol :=
  given.filter (·.isReal) ++ added.filter (·.isReal) ++ given.filter (·.isBinary) ++ added.filter (·.isBinary)

/-- The column in which one more input joins. -/
def joinColumn (l : List Symbol) : Domain → Nat
  | .real => l.countP (·.isReal)
  | .binary => l.length

theorem countP_isReal_layout (given added : List Symbol) : (layout given added).countP (·.isReal) =
    (given.filter (·.isReal) ++ added.filter (·.isReal)).length := by
  have all (l : List Symbol) : (l.filter (·.isReal)).countP (·.isReal) = (l.filter (·.isReal)).length :=
    List.countP_eq_length.2 fun s hs => (List.mem_filter.1 hs).2
  have none (l : List Symbol) : (l.filter (·.isBinary)).countP (·.isReal) = 0 := by
    refine List.countP_eq_zero.2 fun s hs real => ?_
    have binary := (List.mem_filter.1 hs).2
    simp_all [Symbol.isReal, Symbol.isBinary]
  simp only [layout, List.countP_append, List.length_append, all, none, Nat.add_zero]

/-- One more input keeps the layout. -/
theorem layout_join (given added : List Symbol) (x : Symbol) :
    (layout given added).insertIdx (joinColumn (layout given added) x.domain) x = layout given (added ++ [x]) := by
  cases domain : x.domain with
  | real =>
    rw [joinColumn, countP_isReal_layout, layout, List.append_assoc, insertIdx_length_append]
    simp [layout, Symbol.isReal, Symbol.isBinary, domain]
  | binary =>
    have last := insertIdx_length_append (layout given added) [] x
    rw [List.append_nil] at last
    rw [joinColumn, last]
    simp [layout, Symbol.isReal, Symbol.isBinary, domain]

namespace Model

variable {m m' : Model α} {s t : Symbol} {sources : List Symbol}

/-- The inputs in column order, without their columns. -/
def inputs (m : Model α) : List Symbol := (m.ofRole .input).map (·.unplaced)

theorem Consistent.layout_inputs (con : m.Consistent) : layout m.inputs [] = m.inputs := by
  have first : (m.ofRole .input).Pairwise fun s t => t.isReal → s.isReal := by
    refine List.Pairwise.imp_of_mem (fun {s t} hs ht le real => ?_) (m.ofRole_pairwise .input)
    rw [mem_ofRole] at hs ht
    obtain ⟨i, hi, -⟩ := (con.numbered .input rfl).exists_index hs.1 hs.2
    obtain ⟨j, hj, -⟩ := (con.numbered .input rfl).exists_index ht.1 ht.2
    have later := (con.realFirst .input rfl t ht.1 ht.2).1 real
    refine (con.realFirst .input rfl s hs.1 hs.2).2 ?_
    simp only [hi, hj, Option.getD_some] at le later ⊢
    omega
  have unplaced : m.inputs.Pairwise fun s t => t.isReal → s.isReal := List.pairwise_map.2 first
  simpa [layout] using real_append_binary unplaced

theorem auxiliaryColumn_eq (m : Model α) (d : Domain) : m.auxiliaryColumn d = joinColumn m.inputs d := by
  have same (p : Symbol → Bool) (plain : ∀ s : Symbol, p s.unplaced = p s) :
      m.inputs.countP p = m.symbols.countP fun s => p s && decide (s.role = .input) := by
    rw [inputs, List.countP_map, (m.ofRole_perm .input).countP_eq, List.countP_filter]
    exact List.countP_congr fun s _ => by simp [plain]
  cases d with
  | real =>
    rw [joinColumn, same _ fun _ => rfl]
    exact List.countP_congr fun s _ => by simp [Symbol.isReal, and_comm]
  | binary => simp [joinColumn, inputs, auxiliaryColumn]

/-! ## One auxiliary input -/

namespace AuxiliaryAdded

variable [Zero α]

/-- Only what the symbol says apart from its column matters. -/
theorem of_unplaced (h : m.AuxiliaryAdded s m') (e : s.unplaced = t.unplaced) : m.AuxiliaryAdded t m' := by
  have name : s.name = t.name := Symbol.name_eq_of_unplaced e
  have domain : s.domain = t.domain := by
    show s.unplaced.domain = t.unplaced.domain
    rw [e]
  have auxiliary (k : Nat) : s.auxiliaryAt k = t.auxiliaryAt k := by
    show s.unplaced.auxiliaryAt k = t.unplaced.auxiliaryAt k
    rw [e]
  obtain ⟨fresh, symbols, rows, input, others⟩ := h
  rw [name] at fresh
  rw [domain, auxiliary] at symbols
  rw [domain] at input
  exact ⟨fresh, symbols, rows, input, others⟩

theorem inputs_eq (h : m.AuxiliaryAdded s m') (con : m.Consistent) :
    m'.inputs = m.inputs.insertIdx (joinColumn m.inputs s.domain) s.auxiliaryInput := by
  rw [inputs, h.ofRole_input con, inputsWith, List.map_insertIdx, Symbol.map_unplaced_shifted, auxiliaryColumn_eq]
  rfl

end AuxiliaryAdded

/-! ## Any number of them -/

/-- The model `m'` is `m` with auxiliary inputs for `sources`, added in this order: the inputs
    stand as the layout has them, each input of `m` has the column it had, and each auxiliary
    input has a zero column. -/
structure LaidOut [Zero α] (m : Model α) (sources : List Symbol) (m' : Model α) : Prop where
  consistent : m'.Consistent
  /-- The input at place `i` owns column `i`. -/
  numbered : m'.Numbered .input
  inputs : m'.inputs = layout m.inputs (sources.map (·.auxiliaryInput))
  kept : ∀ name j, m.ColumnOf name .input j → ∃ k, m'.ColumnOf name .input k ∧
    ∀ e i, (m'.block ⟨e, .input⟩).get? i k = (m.block ⟨e, .input⟩).get? i j
  zero : ∀ s ∈ sources, ∃ k, m'.ColumnOf (Symbol.auxiliaryName s.name) .input k ∧
    ∀ e i, i < (m'.block ⟨e, .input⟩).height → (m'.block ⟨e, .input⟩).get? i k = some 0

/-- What a loop over names has reached after `names`. -/
structure Grown [Zero α] (m : Model α) (names : List String) (sources : List Symbol) (m' : Model α) : Prop where
  named : sources.map (·.name) = names
  given : sources ⊆ m.symbols
  extended : m.Extended sources m'
  inputs : m'.inputs = layout m.inputs (sources.map (·.auxiliaryInput))

namespace Extended

variable [Zero α] (h : m.Extended sources m')
include h

/-- A name from before has the entries it had, wherever its column stands now. -/
theorem column_kept (con : m.Consistent) {name : String} {t : Term} {j k : Nat} (column : m.ColumnOf name t j)
    (column' : m'.ColumnOf name t k) (e : Equation) (i : Nat) :
    (m'.block ⟨e, t⟩).get? i k = (m.block ⟨e, t⟩).get? i j := by
  by_cases inside : i < m.rowCount e
  · rw [column.get?_eq con inside, column'.get?_eq h.consistent (h.rowCount e ▸ inside), h.coefficient]
  · have below : m.rowCount e ≤ i := Nat.not_lt.1 inside
    rw [Mat.get?_of_height_le (by rwa [h.consistent.height, h.rowCount]),
      Mat.get?_of_height_le (by rwa [con.height])]

theorem column_new (hs : s ∈ sources) {k : Nat} (column : m'.ColumnOf (Symbol.auxiliaryName s.name) .input k)
    (e : Equation) (i : Nat) (inside : i < (m'.block ⟨e, .input⟩).height) :
    (m'.block ⟨e, .input⟩).get? i k = some 0 := by
  rw [h.consistent.height] at inside
  rw [column.get?_eq h.consistent inside, h.coefficient, coefficient_eq_zero (h.fresh hs)]

theorem laidOut (con : m.Consistent) (inputs : m'.inputs = layout m.inputs (sources.map (·.auxiliaryInput))) :
    m.LaidOut sources m' where
  consistent := h.consistent
  numbered := h.consistent.numbered .input rfl
  inputs := inputs
  kept name j column := by
    obtain ⟨s, hs, rfl, role, -⟩ := id column
    obtain ⟨s', hs', e⟩ := h.exists_of_mem hs
    obtain ⟨k, column'⟩ := h.consistent.exists_columnOf hs' (Symbol.role_eq_of_unplaced e ▸ role)
    rw [Symbol.name_eq_of_unplaced e] at column'
    exact ⟨k, column', h.column_kept con column column'⟩
  zero s hs := by
    obtain ⟨s', hs', e⟩ := h.exists_of_mem_sources hs
    have role : s'.role = .input := congrArg Symbol.role e
    have name : s'.name = Symbol.auxiliaryName s.name := congrArg Symbol.name e
    obtain ⟨k, column⟩ := h.consistent.exists_columnOf hs' (congrArg Role.term? role)
    rw [name] at column
    exact ⟨k, column, h.column_new hs column⟩

end Extended
end Model

namespace Edit

variable [Zero α] {w : Workspace α} {name : String} {names : List String}

/-- One more auxiliary input, for a name whose auxiliary name is free. -/
theorem exists_addAuxiliary {m : Model α} {past : List String} {sources : List Symbol}
    (h : m.Grown past sources w.model) (known : m.hasSymbol name) (free : ¬m.hasSymbol (Symbol.auxiliaryName name))
    (new : name ∉ past) :
    ∃ w', discard (addAuxiliary name) w = .ok () w' ∧ ∃ s, m.Grown (past ++ [name]) (sources ++ [s]) w'.model := by
  obtain ⟨named, sub, extended, inputs⟩ := h
  have there : w.model.hasSymbol name := (extended.hasSymbol_iff name).2 (Or.inl known)
  have unused : w.model.hasSymbol (Symbol.auxiliaryName name) = false := by
    rw [Bool.eq_false_iff]
    intro taken
    rcases (extended.hasSymbol_iff _).1 taken with old | ⟨s, hs, e⟩
    · exact free old
    · rw [← Symbol.auxiliaryName_inj e, ← named] at new
      exact new (List.mem_map_of_mem hs)
  obtain ⟨x, w', run⟩ := exists_eq_ok (safe_addAuxiliary extended.consistent there unused)
  obtain ⟨y, hy, rfl, added⟩ := addAuxiliary_eq_ok run
  -- the symbol that was found may be an input that has moved, but it is one from before
  obtain ⟨s, hs, same⟩ : ∃ s ∈ m.symbols, y.unplaced = s.unplaced := by
    rcases extended.of_mem hy with old | ⟨t, ht, e⟩
    · exact old
    · have absent := extended.fresh ht
      rw [← show y.name = Symbol.auxiliaryName t.name from congrArg Symbol.name e, known] at absent
      cases absent
  have added := added.of_unplaced same
  refine ⟨w', discard_eq_ok.2 ⟨x, run⟩, s, ?_, List.append_subset.2 ⟨sub, by simpa using hs⟩, extended.add added, ?_⟩
  · rw [List.map_append, named, Symbol.name_eq_of_unplaced same]
    rfl
  · rw [added.inputs_eq extended.consistent, inputs, List.map_append]
    exact layout_join _ _ s.auxiliaryInput

/-- On a model that passes validation nothing stops the creation of auxiliary inputs for a list of
    distinct names, if each is the name of a symbol and its auxiliary name is free. -/
theorem forM_addAuxiliary_layout (valid : (w.model.validate {}).isValid) (distinct : names.Nodup)
    (known : ∀ name ∈ names, w.model.hasSymbol name)
    (free : ∀ name ∈ names, ¬w.model.hasSymbol (Symbol.auxiliaryName name)) :
    ∃ sources w', (names.forM fun name => discard (addAuxiliary name)) w = .ok () w' ∧
      sources.map (·.name) = names ∧ sources ⊆ w.model.symbols ∧ w.model.LaidOut sources w'.model := by
  have con := Model.isValid_iff_consistent.1 valid
  have start : w.model.Grown [] [] w.model := ⟨rfl, List.nil_subset _, .refl con, con.layout_inputs.symm⟩
  have step (past : List String) (name : String) (rest : List String) (v : Workspace α)
      (all : names = past ++ name :: rest) (grown : ∃ sources, w.model.Grown past sources v.model) :
      ∃ v', discard (addAuxiliary name) v = .ok () v' ∧ ∃ sources, w.model.Grown (past ++ [name]) sources v'.model := by
    obtain ⟨sources, grown⟩ := grown
    have listed : name ∈ names := by simp [all]
    have new : name ∉ past := by
      intro old
      rw [all, List.nodup_append] at distinct
      exact distinct.2.2 name old name List.mem_cons_self rfl
    obtain ⟨v', run, s, grown'⟩ := exists_addAuxiliary grown (known name listed) (free name listed) new
    exact ⟨v', run, sources ++ [s], grown'⟩
  obtain ⟨w', run, sources, grown⟩ := exists_forM_eq_ok _ ⟨[], start⟩ step
  exact ⟨sources, w', run, grown.named, grown.given, grown.extended.laidOut con grown.inputs⟩

/-- Two inputs, the binary one first in the table, and a row of each of two equations. -/
def mixed : Model Int where
  name := "mixed"
  symbols := [
    { name := "g", domain := .binary, role := .input, rank := 1, index := some 1 },
    { name := "x", domain := .real, role := .state, index := some 0 },
    { name := "v", domain := .real, role := .input, rank := 1, index := some 0 },
    { name := "d", domain := .binary, role := .discrete, index := some 0 },
    { name := "k", domain := .real, role := .other, rank := -1 }]
  rows := { ineq := [{ defines := "d", depends := ["v", "g"] }] }
  blocks := .ofFn fun b => match b with
    | ⟨.update, .input⟩ => ⟨2, [[1, 2]], by decide⟩
    | ⟨.ineq, .input⟩ => ⟨2, [[3, 4]], by decide⟩
    | ⟨.output, .input⟩ => .zero 0 2
    | ⟨.output, .continuous⟩ => .zero 0 0
    | ⟨.output, _⟩ => .zero 0 1
    | ⟨_, .continuous⟩ => .zero 1 0
    | ⟨_, _⟩ => .zero 1 1

/-- The real auxiliary inputs of a constant and a state move the binary input `g` up by two. -/
theorem forM_addAuxiliary_layout_mixed : ∃ sources w',
    (["d", "k", "g", "x"].forM fun name => discard (addAuxiliary name)) ⟨mixed, [], []⟩ = .ok () w' ∧
    sources.map (·.name) = ["d", "k", "g", "x"] ∧ mixed.LaidOut sources w'.model ∧
    ((w'.model.symbols.filter (·.role = .input)).map fun s => (s.name, s.index)) = [("g", some 3), ("v", some 0),
      ("d_aux", some 4), ("k_aux", some 1), ("g_aux", some 5), ("x_aux", some 2)] ∧
    (w'.model.block ⟨.ineq, .input⟩).rows = [[3, 0, 0, 4, 0, 0]] := by
  have columns : (["d", "k", "g", "x"].forM fun name => discard (addAuxiliary name)).leaves (fun w =>
      ((w.model.symbols.filter (·.role = .input)).map fun s => (s.name, s.index)) = [("g", some 3), ("v", some 0),
        ("d_aux", some 4), ("k_aux", some 1), ("g_aux", some 5), ("x_aux", some 2)] ∧
      (w.model.block ⟨.ineq, .input⟩).rows = [[3, 0, 0, 4, 0, 0]]) ⟨mixed, [], []⟩ := by decide +kernel
  obtain ⟨sources, w', run, named, -, laidOut⟩ := forM_addAuxiliary_layout (w := ⟨mixed, [], []⟩)
    (by decide +kernel) (by decide : ["d", "k", "g", "x"].Nodup) (by decide) (by decide)
  obtain ⟨indices, entries⟩ := of_decide_eq_true (of_leaves columns run)
  exact ⟨sources, w', run, named, laidOut, indices, entries⟩

end Edit
end LoopFree
