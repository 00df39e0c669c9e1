/-
  LoopFree.Proofs.Structure — the structure that the checks decide.

  `Structured` says what a well-formed model is without a word of how that is checked: no
  two symbols share a name; the symbols of a role own its columns, each symbol one and each
  column one symbol, the real ones the first; a block is as high as its equation and as
  wide as its term; there is one descriptor for each inequality row and none or one for
  each output. The checks sort indices, stop at the first issue of a role and look for real
  symbols beyond a bound; they report no error exactly for these models
  (`errors_eq_nil_iff`), and then `ofRole` lists the symbols of a role by column.
-/

import LoopFree.Proofs.Coefficient
import LoopFree.Proofs.Layout
import Mathlib.Data.Fintype.EquivFin
import Mathlib.Data.List.FinRange

namespace LoopFree

variable {α ι : Type}

/-- Values are `0 … n - 1` in some order exactly when the places of the list go to them one to one. -/
theorem map_perm_range_iff {l : List ι} {f : ι → Int} : (l.map f).Perm ((List.range l.length).map Int.ofNat) ↔
    ∃ column : Fin l.length → Fin l.length, column.Bijective ∧ ∀ p, f l[p] = (column p : Nat) := by
  constructor
  · intro perm
    have listed (p : Fin l.length) : ∃ i : Fin l.length, f l[p] = (i : Nat) := by
      obtain ⟨i, hi, value⟩ := List.mem_map.1 (perm.subset (List.mem_map_of_mem (List.getElem_mem p.isLt)))
      exact ⟨⟨i, List.mem_range.1 hi⟩, value.symm⟩
    choose column value using listed
    have nodup : (l.map f).Nodup := perm.symm.nodup (List.nodup_range.map Int.ofNat_injective)
    refine ⟨column, Finite.injective_iff_bijective.1 fun p q same => ?_, value⟩
    have equal : f l[p] = f l[q] := by rw [value p, value q, same]
    have places : (l.map f).get (p.cast (by simp)) = (l.map f).get (q.cast (by simp)) := by simpa using equal
    exact Fin.cast_injective _ (List.nodup_iff_injective_get.1 nodup places)
  · intro given
    obtain ⟨column, bijective, value⟩ := given
    let place (p : Fin l.length) : Int := (p : Nat)
    have values : l.map f = List.ofFn (place ∘ Equiv.ofBijective column bijective) := by
      refine List.ext_getElem (by simp) fun p hp _ => ?_
      simpa [place] using value ⟨p, by simpa using hp⟩
    have range : (List.range l.length).map Int.ofNat = List.ofFn place :=
      List.ext_getElem (by simp) fun p _ _ => by simp [place]
    rw [values, range]
    exact Equiv.Perm.ofFn_comp_perm _ _

namespace Model

/-- The symbols of a role in the order of the table. -/
def members (m : Model α) (r : Role) : List Symbol := m.symbols.filter (·.role = r)

/-- The symbols of a role and its columns go together one to one, the real symbols with the first columns. -/
structure OwnsColumns (m : Model α) (r : Role) : Prop where
  bijective : ∃ column : Fin (m.members r).length → Fin (m.members r).length,
    column.Bijective ∧ ∀ p, (m.members r)[p].index = some ((column p : Nat) : Int)
  realFirst : ∀ s ∈ m.members r, ∀ i, s.index = some i → (s.domain = .real ↔ i < m.countIn r .real)

structure Structured (m : Model α) : Prop where
  names : m.symbols.Pairwise fun s t => s.name ≠ t.name
  columns : ∀ r, r ≠ .other → m.OwnsColumns r
  shapes : ∀ e r t, r.term? = some t → (m.block ⟨e, t⟩).shape = (m.rowCount e, m.count r)
  affine : ∀ e, (m.block ⟨e, .affine⟩).shape = (m.rowCount e, 1)
  ineqRows : m.rows.ineq.length = m.ineqCount
  outputRows : m.rows.output = [] ∨ m.rows.output.length = m.count .output

/-! ## The same said of what the checks look at -/

variable {m : Model α} {r : Role}

theorem mem_members {s : Symbol} : s ∈ m.members r ↔ s ∈ m.symbols ∧ s.role = r := by simp [members]

theorem length_members (m : Model α) (r : Role) : (m.members r).length = m.count r := by
  rw [members, count, List.countP_eq_length_filter]

/-- A role is numbered when its symbols and its columns go together one to one. -/
theorem numbered_iff_bijective : m.Numbered r ↔
    ∃ column : Fin (m.members r).length → Fin (m.members r).length,
      column.Bijective ∧ ∀ p, (m.members r)[p].index = some ((column p : Nat) : Int) := by
  have indexed : (∀ s ∈ m.symbols, s.role = r → s.index ≠ none) ↔
      ∀ s ∈ m.members r, s.index = some (s.index.getD 0) := by
    simp only [mem_members, and_imp]
    refine forall_congr' fun s => forall_congr' fun _ => forall_congr' fun _ => ?_
    cases s.index <;> simp
  have values (known : ∀ s ∈ m.members r, s.index = some (s.index.getD 0)) :
      (m.members r).filterMap (·.index) = (m.members r).map (·.index.getD 0) :=
    (List.filterMap_congr known).trans (congrFun (List.filterMap_eq_map (f := fun s : Symbol => s.index.getD 0)) _)
  rw [numbered_iff, indexed, ← length_members]
  change _ ∧ ((m.members r).filterMap (·.index)).Perm _ ↔ _
  constructor
  · intro given
    obtain ⟨known, perm⟩ := given
    rw [values known, map_perm_range_iff] at perm
    obtain ⟨column, bijective, value⟩ := perm
    exact ⟨column, bijective, fun p => (known _ (List.getElem_mem p.isLt)).trans (congrArg some (value p))⟩
  · intro given
    obtain ⟨column, bijective, value⟩ := given
    have known : ∀ s ∈ m.members r, s.index = some (s.index.getD 0) := by
      intro s hs
      obtain ⟨p, hp, rfl⟩ := List.getElem_of_mem hs
      rw [show (m.members r)[p].index = _ from value ⟨p, hp⟩, Option.getD_some]
    refine ⟨known, ?_⟩
    rw [values known, map_perm_range_iff]
    exact ⟨column, bijective, fun p => by rw [value p, Option.getD_some]⟩

theorem Numbered.realFirst_iff (numbered : m.Numbered r) : m.RealFirst r ↔
    ∀ s ∈ m.members r, ∀ i, s.index = some i → (s.domain = .real ↔ i < m.countIn r .real) := by
  simp only [RealFirst, mem_members, and_imp, Symbol.isReal, decide_eq_true_eq]
  refine forall_congr' fun s => forall_congr' fun hs => forall_congr' fun hr => ?_
  obtain ⟨i, index, -⟩ := numbered.exists_index hs hr
  simp [index]

theorem ownsColumns_iff : m.OwnsColumns r ↔ m.Numbered r ∧ m.RealFirst r := by
  constructor
  · intro owns
    have numbered := numbered_iff_bijective.2 owns.bijective
    exact ⟨numbered, numbered.realFirst_iff.2 owns.realFirst⟩
  · intro given
    obtain ⟨numbered, realFirst⟩ := given
    exact ⟨numbered_iff_bijective.1 numbered, numbered.realFirst_iff.1 realFirst⟩

/-- The five blocks of an equation: one for each role with a term, and the affine one. -/
theorem shaped_iff : m.Shaped ↔
    (∀ e r t, r.term? = some t → (m.block ⟨e, t⟩).shape = (m.rowCount e, m.count r)) ∧
    ∀ e, (m.block ⟨e, .affine⟩).shape = (m.rowCount e, 1) := by
  constructor
  · intro shapes
    refine ⟨fun e r t term => ?_, fun e => ?_⟩
    · rw [shapes, expectedShape_eq, role?_of_term? term, columnCount]
    · rw [shapes, expectedShape_eq, Term.role?, columnCount]
  · intro given b
    obtain ⟨linear, affine⟩ := given
    obtain ⟨e, t⟩ := b
    rw [expectedShape_eq]
    cases t with
    | affine => exact affine e
    | state => exact linear e .state .state rfl
    | input => exact linear e .input .input rfl
    | discrete => exact linear e .discrete .discrete rfl
    | continuous => exact linear e .continuous .continuous rfl

theorem consistent_iff_structured : m.Consistent ↔ m.Structured := by
  have names : (m.symbols.map (·.name)).Nodup ↔ m.symbols.Pairwise fun s t => s.name ≠ t.name := List.pairwise_map
  have columns (r : Role) : r.hasColumns ↔ r ≠ .other := by simp [Role.hasColumns]
  constructor
  · intro con
    obtain ⟨linear, affine⟩ := shaped_iff.1 con.shapes
    have owns (r : Role) (hr : r ≠ .other) : m.OwnsColumns r :=
      ownsColumns_iff.2 ⟨con.numbered r ((columns r).2 hr), con.realFirst r ((columns r).2 hr)⟩
    exact ⟨names.1 con.names, owns, linear, affine, con.ineqRows, con.outputRows⟩
  · intro given
    obtain ⟨distinct, owns, linear, affine, ineqRows, outputRows⟩ := given
    have checked (r : Role) (hr : r.hasColumns) := ownsColumns_iff.1 (owns r ((columns r).1 hr))
    exact ⟨names.2 distinct, fun r hr => (checked r hr).1, fun r hr => (checked r hr).2,
      shaped_iff.2 ⟨linear, affine⟩, ineqRows, outputRows⟩

/-! ## The verdict -/

/-- The checks report no error exactly for the structured models, and these list the symbols of a
    role by column, the real ones first. -/
theorem errors_eq_nil_iff (m : Model α) : ((m.validate {}).errors = [] ↔ m.Structured) ∧
    ((m.validate {}).errors = [] → ∀ r, r ≠ .other → (m.ofRole r).Perm (m.members r) ∧
      ∀ (i : Nat) (s : Symbol), (m.ofRole r)[i]? = some s →
        s.index = some (i : Int) ∧ (s.domain = .real ↔ i < m.countIn r .real)) := by
  have decided : (m.validate {}).errors = [] ↔ m.Structured := by
    rw [← List.isEmpty_iff, ← consistent_iff_structured, ← isValid_iff_consistent, Report.isValid]
  refine ⟨decided, fun valid r hr => ⟨m.ofRole_perm r, fun i s hs => ?_⟩⟩
  have owns := (decided.1 valid).columns r hr
  have index := (numbered_iff_bijective.2 owns.bijective).getElem? hs
  have member := mem_members.2 (mem_ofRole.1 (List.mem_of_getElem? hs))
  exact ⟨index, by rw [owns.realFirst s member i index, Int.ofNat_lt]⟩

/-- The binary input stands first in the table and last among the columns. Numbered past a gap it is refused. -/
theorem errors_eq_nil_mixed : Edit.mixed.Structured ∧
    ¬(Edit.mixed.mapNamed "g" fun s => { s with index := some 2 }).Structured ∧
    ∀ (i : Nat) (s : Symbol), (Edit.mixed.ofRole .input)[i]? = some s →
      s.index = some (i : Int) ∧ (s.domain = .real ↔ i < Edit.mixed.countIn .input .real) := by
  have valid : (Edit.mixed.validate {}).errors = [] := by decide +kernel
  have refused : ((Edit.mixed.mapNamed "g" fun s => { s with index := some 2 }).validate {}).errors ≠ [] := by
    decide +kernel
  exact ⟨(errors_eq_nil_iff _).1.1 valid, fun structured => refused ((errors_eq_nil_iff _).1.2 structured),
    ((errors_eq_nil_iff _).2 valid .input (by decide)).2⟩

end Model
end LoopFree
