/-
  LoopFree.Proofs.Validity — models that are valid and stay so.

  A model that is built has blocks of the shapes its symbol table asks for
  (`shapes_of_ofSymbols`). Each of the four operations on a model keeps it consistent
  (`Operation.consistent_of_run`), and so does every sequence of them
  (`consistent_of_forM_run`). What the checks warn of besides depends on the names the
  rows mention and the names there are; removing loops only turns known names into known
  ones (`warnings_sublist_of_removeLoops`).
-/

import LoopFree.Proofs.Equivalence
import LoopFree.Proofs.Widening

namespace LoopFree

variable {α : Type}

/-! ## Building -/

theorem Terms.get_of_build? {β : Type} {f : Term → Option β} {t : Terms β} (built : build? f = some t) (a : Term) :
    f a = some (t.get a) := by
  simp only [build?, Option.bind_eq_bind, Option.bind_eq_some_iff, Option.pure_def, Option.some.injEq] at built
  obtain ⟨_, state, _, input, _, discrete, _, continuous, _, affine, rfl⟩ := built
  cases a <;> assumption

theorem Blocks.get_of_build? {β : Type} {f : Block → Option β} {m : Blocks β} (built : build? f = some m) (b : Block) :
    f b = some (m.get b) := by
  simp only [build?, Option.bind_eq_bind, Option.bind_eq_some_iff, Option.pure_def, Option.some.injEq] at built
  obtain ⟨_, update, _, output, _, ineq, rfl⟩ := built
  obtain ⟨e, t⟩ := b
  cases e with
  | update => exact Terms.get_of_build? update t
  | output => exact Terms.get_of_build? output t
  | ineq => exact Terms.get_of_build? ineq t

namespace Model

section
variable {m : Model α} {name : String} {symbols : List Symbol} {rows : RowTables} {given : List (String × Nested α)}

theorem shapes_of_ofSymbols [Zero α] (built : ofSymbols name symbols rows given = .ok m) :
    m.rows = rows ∧ ∀ b, (m.block b).shape = m.expectedShape rows.ineq.length b := by
  simp only [ofSymbols] at built
  split at built
  · split at built
    · rename_i blocks made
      obtain rfl := Except.ok.inj built
      refine ⟨rfl, fun b => ?_⟩
      have entry := Blocks.get_of_build? made b
      split at entry
      · rw [Model.block, ← Option.some.inj entry, Mat.shape_zero]
        rfl
      · obtain ⟨numbers, -, cut⟩ := Option.bind_eq_some_iff.1 entry
        exact Mat.shape_of_ofEntries? cut
    · cases built
  · cases built

theorem ineqCount_of_ofSymbols [Zero α] (built : ofSymbols name symbols rows given = .ok m) :
    m.rows.ineq.length = m.ineqCount := by
  obtain ⟨rfl, shapes⟩ := shapes_of_ofSymbols built
  exact (congrArg Prod.fst (shapes ⟨.ineq, .affine⟩)).symm

end

/-! ## What the checks find -/

section
variable {m : Model α} {i : Issue Finding}

theorem symbolIssues_kind (h : i ∈ m.symbolIssues) : i.severity = .error ∧ i.category = .symbolTable := by
  simp only [symbolIssues, List.mem_filterMap, Option.ite_none_right_eq_some, Option.some.injEq] at h
  obtain ⟨name, -, -, rfl⟩ := h
  exact ⟨rfl, rfl⟩

theorem indexIssues_kind (h : i ∈ m.indexIssues) : i.severity = .error ∧ i.category = .index := by
  obtain ⟨r, -, h⟩ := List.mem_filterMap.1 h
  exact indexIssue?_kind h

theorem dimensionIssues_kind (h : i ∈ m.dimensionIssues) : i.severity = .error ∧ i.category = .dimension := by
  simp only [dimensionIssues, List.mem_filterMap, dimensionIssue?, Option.ite_none_left_eq_some,
    Option.some.injEq] at h
  obtain ⟨b, -, -, rfl⟩ := h
  exact ⟨rfl, rfl⟩

theorem rowCountIssues_category (h : i ∈ m.rowCountIssues) : i.category = .rows := by
  simp only [rowCountIssues, List.mem_append] at h
  rcases h with h | h
  · split at h
    · cases h
    · rw [List.mem_singleton.1 h]
  · split at h
    · cases h
    · split at h
      · rw [List.mem_singleton.1 h]
      · rw [List.mem_singleton.1 h]

/-- Blocks of the right shapes give no issue about dimensions. -/
theorem category_ne_dimension (shapes : ∀ b, (m.block b).shape = m.expectedShape m.ineqCount b)
    (h : i ∈ (m.validate {}).issues) : i.category ≠ .dimension := by
  have fits : m.dimensionIssues = [] := by
    refine List.filterMap_eq_nil_iff.2 fun b _ => ?_
    exact if_pos (shapes b)
  simp only [validate, if_true, fits, rowIssues, List.mem_append, List.append_nil] at h
  rcases h with (h | h) | (h | h) | h
  · simp [(symbolIssues_kind h).2]
  · simp [(indexIssues_kind h).2]
  · simp [rowCountIssues_category h]
  · simp [(referenceIssues_kind h).2]
  · simp [(referenceIssues_kind h).2]

/-- The warnings are about output rows without descriptors and about unknown names. -/
theorem warnings_eq (m : Model α) : (m.validate {}).warnings =
    m.rowCountIssues.filter (·.severity = .warning) ++ (m.referenceIssues .ineq ++ m.referenceIssues .output) := by
  have none {l : List (Issue Finding)} (errors : ∀ i ∈ l, i.severity = .error) :
      l.filter (·.severity = .warning) = [] := by
    refine List.filter_eq_nil_iff.2 fun i hi => ?_
    simp [errors i hi]
  have all (table : Table) :
      (m.referenceIssues table).filter (·.severity = .warning) = m.referenceIssues table := by
    refine List.filter_eq_self.2 fun i hi => ?_
    simp [(referenceIssues_kind hi).1]
  simp only [Report.warnings, validate, if_true, rowIssues, List.filter_append, all, List.append_assoc,
    none fun i hi => (symbolIssues_kind (m := m) (i := i) hi).1, none fun i hi => (indexIssues_kind (m := m) hi).1,
    none fun i hi => (dimensionIssues_kind (m := m) hi).1, List.nil_append]

end

/-! ## Names that no symbol carries -/

def referenceIssue (table : Table) (r : Nat) (name : String) : Issue Finding where
  severity := .warning
  category := .undefinedVariable
  message := s!"Reference to undefined variable '{name}'"
  location := some s!"rowinfo.{table.label}[{r}]"
  detail := .undefined name

/-- The names of a row that are not known. -/
def unknownNames (known : String → Bool) (row : Row) : List String :=
  (row.defines :: row.depends).filter (!known ·)

/-- The issues about the rows from position `first` on. -/
def issuesFrom (known : String → Bool) (table : Table) (first : Nat) (rows : List Row) : List (Issue Finding) :=
  (rows.zipIdx first).flatMap fun (row, r) => (unknownNames known row).map (referenceIssue table r)

theorem referenceIssues_eq (m : Model α) (table : Table) :
    m.referenceIssues table = issuesFrom m.hasSymbol table 0 (m.rows.get table) := by
  refine List.flatMap_congr fun x _ => ?_
  simp only [unknownNames]
  rw [← List.filterMap_eq_map, List.filterMap_filter]
  refine List.filterMap_congr fun name _ => ?_
  cases m.hasSymbol name <;> rfl

section
variable {known known' : String → Bool} {table : Table} {first : Nat} {rows : List Row} {a : String × String}

/-- The more names are known, the fewer issues there are. -/
theorem issuesFrom_sublist (more : ∀ n, known n → known' n) (table : Table) (first : Nat) (rows : List Row) :
    (issuesFrom known' table first rows).Sublist (issuesFrom known table first rows) := by
  refine List.Sublist.flatMap_right _ fun x _ => (List.monotone_filter_right _ fun n unknown => ?_).map _
  cases old : known n with
  | false => rfl
  | true => simp [more n old] at unknown

theorem issuesFrom_append (pins : ∀ row ∈ rows, unknownNames known row = []) (before : List Row) :
    issuesFrom known table first (before ++ rows) = issuesFrom known table first before := by
  have none : (rows.zipIdx (first + before.length)).flatMap
      (fun x => (unknownNames known x.1).map (referenceIssue table x.2)) = [] := by
    refine List.flatMap_eq_nil_iff.2 fun x hx => ?_
    rw [pins x.1 (List.fst_mem_of_mem_zipIdx hx), List.map_nil]
  rw [issuesFrom, List.zipIdx_append, List.flatMap_append, none, List.append_nil]
  rfl

/-- Renaming a known name to another leaves the unknown ones. -/
theorem unknownNames_breakArc (source : known a.1) (auxiliary : known (Symbol.auxiliaryName a.1)) (row : Row) :
    unknownNames known (row.breakArc a) = unknownNames known row := by
  unfold Row.breakArc
  split
  · have same (l : List String) :
        (l.map fun n => if n = a.1 then Symbol.auxiliaryName a.1 else n).filter (!known ·) = l.filter (!known ·) := by
      induction l with
      | nil => rfl
      | cons n l ih =>
        by_cases e : n = a.1
        · subst e
          simp [source, auxiliary, ih]
        · simp only [List.map_cons, e, if_false, List.filter_cons, ih]
    simp only [unknownNames, Row.replaceDependency, List.filter_cons, same]
  · rfl

theorem issuesFrom_breakArc (source : known a.1) (auxiliary : known (Symbol.auxiliaryName a.1)) :
    issuesFrom known table first (rows.map (·.breakArc a)) = issuesFrom known table first rows := by
  simp only [issuesFrom, List.zipIdx_map, List.flatMap_map, Prod.map, id, unknownNames_breakArc source auxiliary]

theorem issuesFrom_rewriteRows {arcs : List (String × String)}
    (names : ∀ a ∈ arcs, known a.1 ∧ known a.2 ∧ known (Symbol.auxiliaryName a.1)) (rows : List Row) :
    issuesFrom known table first (rewriteRows arcs rows) = issuesFrom known table first rows := by
  induction arcs using List.reverseRecOn with
  | nil => rfl
  | append_singleton arcs a ih =>
    obtain ⟨source, sink, auxiliary⟩ := names a (List.mem_append_right _ List.mem_cons_self)
    have pins : ∀ row ∈ [pinRow a, pinRow a], unknownNames known row = [] := by
      simp [unknownNames, pinRow, sink, auxiliary]
    rw [rewriteRows_append, issuesFrom_append pins, issuesFrom_breakArc source auxiliary,
      ih fun b hb => names b (List.mem_append_left _ hb)]

end

/-- The check of the row counts looks at nothing that removing loops changes. -/
theorem warnings_rowCountIssues {m m' : Model α} (outputs : m'.rows.output = m.rows.output)
    (count : m'.count .output = m.count .output) :
    m'.rowCountIssues.filter (·.severity = .warning) = m.rowCountIssues.filter (·.severity = .warning) := by
  have errors (n : Model α) (issue : Issue Finding) (error : issue.severity = .error) :
      (if n.rows.ineq.length = n.ineqCount then [] else [issue]).filter (·.severity = .warning) = [] := by
    split <;> simp [error]
  simp only [rowCountIssues, List.filter_append]
  rw [errors _ _ rfl, errors _ _ rfl, outputs, count]

theorem warnings_sublist_of_removeLoops [Zero α] [One α] [Neg α] {w w' : Workspace α} {resolver : Resolver}
    {validate : Bool} {u : Unit} (run : Edit.removeLoops resolver validate w = .ok u w') :
    (w'.model.validate {}).warnings.Sublist (w.model.validate {}).warnings := by
  by_cases loop : w.model.hasLoop
  · obtain ⟨c, v, chosen, widened, auxiliaries, rewritten⟩ := Edit.removeLoops_frames loop run
    have more (n : String) (known : w.model.hasSymbol n) : v.hasSymbol n :=
      widened.hasSymbol (by rw [ranked, hasSymbol_withRanks]; exact known)
    have same : w'.model.hasSymbol = v.hasSymbol := by
      funext n
      rw [hasSymbol, rewritten.symbols, hasSymbol]
    have names : ∀ a ∈ c.arcs, v.hasSymbol a.1 ∧ v.hasSymbol a.2 ∧ v.hasSymbol (Symbol.auxiliaryName a.1) := by
      intro a ha
      obtain ⟨e, -, rfl⟩ := List.mem_map.1 ha
      exact ⟨more _ (hasSymbol_of_chosenCut chosen e.1), more _ (hasSymbol_of_chosenCut chosen e.2), auxiliaries _ ha⟩
    have rows : v.rows = w.model.rows := widened.rows
    have outputs : w'.model.rows.output = w.model.rows.output := by rw [rewritten.outputRows, rows]
    have count : w'.model.count .output = w.model.count .output := by
      rw [rewritten.count_eq, widened.count_of_ne (by decide), count_ranked]
    rw [warnings_eq, warnings_eq, warnings_rowCountIssues outputs count]
    refine (List.Sublist.refl _).append (List.Sublist.append ?_ ?_)
    · rw [referenceIssues_eq, referenceIssues_eq, same]
      show (issuesFrom _ .ineq 0 w'.model.rows.ineq).Sublist (issuesFrom _ .ineq 0 w.model.rows.ineq)
      rw [rewritten.ineqRows, issuesFrom_rewriteRows names, rows]
      exact issuesFrom_sublist more _ _ _
    · rw [referenceIssues_eq, referenceIssues_eq, same]
      show (issuesFrom _ .output 0 w'.model.rows.output).Sublist (issuesFrom _ .output 0 w.model.rows.output)
      rw [outputs]
      exact issuesFrom_sublist more _ _ _
  · rw [Edit.removeLoops_eq_of_not_hasLoop loop] at run
    cases run
    exact List.Sublist.refl _

end Model

/-! ## Sequences of operations -/

/-- What can be done to a model. -/
inductive Operation where
  | addAuxiliary (source : String)
  | rankBy (sequence : List Int)
  | breakArc (source sink : String)
  | removeLoops (resolver : Resolver) (validate : Bool)

def Operation.run [Zero α] [One α] [Neg α] : Operation → Edit α Unit
  | addAuxiliary source => discard (Edit.addAuxiliary source)
  | rankBy sequence => Edit.rankBy sequence
  | breakArc source sink => discard (Edit.breakArc source sink)
  | removeLoops resolver validate => Edit.removeLoops resolver validate

namespace Edit

variable {w w' : Workspace α}

theorem rankBy_eq_ok {sequence : List Int} {u : Unit} (run : rankBy sequence w = .ok u w') :
    ∃ ρ, w'.model = w.model.withRanks ρ := by
  obtain ⟨m, v, read, run⟩ := bind_eq_ok.1 run
  obtain ⟨rfl, rfl⟩ := model_eq_ok.1 read
  obtain ⟨g, v, graph, run⟩ := bind_eq_ok.1 run
  obtain ⟨-, rfl⟩ := ofExcept_eq_ok.1 graph
  refine forM_induct (fun _ v => ∃ ρ, v.model = w.model.withRanks ρ) ⟨_, w.model.withRanks_rank.symm⟩ ?_ run
  intro _ b v v' _ ranks step
  simp only [bind_eq_ok, ofOption_eq_ok] at step
  obtain ⟨_, _, ⟨-, rfl⟩, step⟩ := step
  exact withRanks_of_rankVertex ranks step

variable [Zero α] [One α] [Neg α]

theorem removeLoops_consistent {resolver : Resolver} {validate : Bool} {u : Unit} (con : w.model.Consistent)
    (run : removeLoops resolver validate w = .ok u w') : w'.model.Consistent := by
  by_cases loop : w.model.hasLoop
  · obtain ⟨c, w₁, w₂, w₃, -, -, ranked, inputs, arcs, final⟩ := removeLoops_stages loop run
    exact final ▸ consistent_of_stages con ranked inputs arcs
  · rw [removeLoops_eq_of_not_hasLoop loop] at run
    cases run
    exact con

end Edit

namespace Operation

variable [Zero α] [One α] [Neg α] {w w' : Workspace α}

/-- One step. -/
theorem consistent_of_run {o : Operation} {u : Unit} (con : w.model.Consistent) (run : o.run w = .ok u w') :
    w'.model.Consistent := by
  cases o with
  | addAuxiliary source =>
    obtain ⟨x, run⟩ := Edit.discard_eq_ok.1 run
    obtain ⟨s, -, -, added⟩ := Edit.addAuxiliary_eq_ok run
    exact added.consistent con
  | rankBy sequence =>
    obtain ⟨ρ, ranked⟩ := Edit.rankBy_eq_ok run
    exact ranked ▸ con.withRanks ρ
  | breakArc source sink =>
    obtain ⟨x, run⟩ := Edit.discard_eq_ok.1 run
    exact (Edit.breakArc_rewritten run).consistent con
  | removeLoops resolver validate => exact Edit.removeLoops_consistent con run

/-- A whole run. -/
theorem consistent_of_forM_run {os : List Operation} {u : PUnit} (con : w.model.Consistent)
    (run : os.forM Operation.run w = .ok u w') : w'.model.Consistent :=
  Edit.forM_induct (fun _ v => v.model.Consistent) con (fun _ _ _ _ _ con step => consistent_of_run con step) run

end Operation
namespace Model

/-- A built model has the shapes it should have, a valid one stays valid whatever is done
    to it, and removing loops gives no new warning, valid or not. -/
theorem valid_throughout [Zero α] [One α] [Neg α] :
    (∀ (name : String) (symbols : List Symbol) (rows : RowTables) (given : List (String × Nested α)) (m : Model α),
      ofSymbols name symbols rows given = .ok m →
        (∀ i ∈ (m.validate {}).issues, i.category ≠ .dimension) ∧ m.rows.ineq.length = m.ineqCount) ∧
    (∀ (w w' : Workspace α) (os : List Operation), (w.model.validate {}).isValid →
      os.forM Operation.run w = .ok () w' → (w'.model.validate {}).isValid ∧ w'.model.Consistent) ∧
    ∀ (w w' : Workspace α) (resolver : Resolver) (validate : Bool),
      Edit.removeLoops resolver validate w = .ok () w' →
        (w'.model.validate {}).warnings.Sublist (w.model.validate {}).warnings := by
  refine ⟨?_, ?_, ?_⟩
  · intro name symbols rows given m built
    have rowCount := ineqCount_of_ofSymbols built
    obtain ⟨rfl, shapes⟩ := shapes_of_ofSymbols built
    rw [rowCount] at shapes
    exact ⟨fun i hi => category_ne_dimension shapes hi, rowCount⟩
  · intro w w' os valid run
    have con := Operation.consistent_of_forM_run (isValid_iff_consistent.1 valid) run
    exact ⟨isValid_iff_consistent.2 con, con⟩
  · intro w w' resolver validate run
    exact warnings_sublist_of_removeLoops run

/-- The coupled variables, whose rows also mention a constant that is no symbol. -/
def scaled : Model Int :=
  { coupled "u" 1 with
    rows := { ineq := (coupled "u" 1).rows.ineq.map fun r => { r with depends := r.depends ++ ["k"] } } }

/-- Its blocks, flat or nested as they come. -/
def scaledBlocks : List (String × Nested Int) := [
  ("E3", .list [.number 1, .number (-2), .number (-1), .number 2, .number (-1), .number 3, .number 1, .number (-3)]),
  ("E1", .list [.number 1, .number (-1), .number 0, .number 0]),
  ("E5", .list [.list [.number 0, .number 0], .list [.number 5, .number (-5)]])]

/-- It is built, its loop is removed with four warnings about the constant before and after,
    and more can be done to the result. -/
theorem valid_throughout_scaled : ∃ w₁ w₂,
    ofSymbols "coupled" scaled.symbols scaled.rows scaledBlocks = .ok scaled ∧
    (∀ i ∈ (scaled.validate {}).issues, i.category ≠ .dimension) ∧ (scaled.validate {}).isValid ∧
    Edit.removeLoops breakTwice true ⟨scaled, [], []⟩ = .ok () w₁ ∧ (scaled.validate {}).warnings.length = 4 ∧
    (w₁.model.validate {}).warnings.Sublist (scaled.validate {}).warnings ∧
    [.removeLoops breakTwice false, .addAuxiliary "a", .breakArc "a" "b", .rankBy [-1, 0]].forM Operation.run
      ⟨scaled, [], []⟩ = .ok () w₂ ∧
    (w₂.model.validate {}).isValid ∧ w₂.model.Consistent := by
  obtain ⟨shaped, kept, warned⟩ := valid_throughout (α := Int)
  have built : ofSymbols "coupled" scaled.symbols scaled.rows scaledBlocks = .ok scaled := by decide +kernel
  have valid : (scaled.validate {}).isValid := by decide +kernel
  have once : (Edit.removeLoops breakTwice true).succeeds ⟨scaled, [], []⟩ := by decide +kernel
  have more : ([.removeLoops breakTwice false, .addAuxiliary "a", .breakArc "a" "b", .rankBy [-1, 0]].forM
      Operation.run).succeeds (⟨scaled, [], []⟩ : Workspace Int) := by decide +kernel
  obtain ⟨_, w₁, run₁⟩ := Edit.exists_of_succeeds once
  obtain ⟨_, w₂, run₂⟩ := Edit.exists_of_succeeds more
  obtain ⟨valid', con'⟩ := kept ⟨scaled, [], []⟩ w₂ _ valid run₂
  have sublist := warned ⟨scaled, [], []⟩ w₁ breakTwice true run₁
  exact ⟨w₁, w₂, built, (shaped _ _ _ _ _ built).1, valid, run₁, by decide +kernel, sublist, run₂, valid', con'⟩

end Model
end LoopFree
